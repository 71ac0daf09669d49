/-
# Locks that are held at places in the code

Threads that hold at most one lock at a time, and hold it exactly while they are at
certain places in their code. A lock may also be held by somebody who is not one of
these threads. The relation says that the locks and the places agree; there is one
rule for each thing that can happen to a lock.
-/

import Mathlib.Logic.Function.Basic

namespace Xv6.Lib

open Function

universe u v w x

variable {P : Type u} {C : Type v} {K : Type w} {H : Type x}

/-- Thread `p` holds lock `k` exactly when it is at a place that holds `k`. -/
def Held (who : P → H) (held : C → Option K) (lk : K → Option H) (pc : P → C) : Prop :=
  ∀ k p, lk k = some (who p) ↔ held (pc p) = some k

namespace Held

variable {who : P → H} {held : C → Option K} {lk : K → Option H} {pc : P → C} {p q : P} {k : K}
  {c : C}

/-- Two threads at places that hold the same lock are one. -/
theorem unique (h : Held who held lk pc) (hinj : Function.Injective who)
    (hp : held (pc p) = some k) (hq : held (pc q) = some k) : p = q := by
  have hp' := (h k p).mpr hp
  have hq' := (h k q).mpr hq
  rw [hp'] at hq'
  exact hinj (Option.some.inj hq')

variable [DecidableEq P]

/-- A move that has nothing to do with locks. -/
theorem keep (h : Held who held lk pc) (hc : held c = held (pc p)) :
    Held who held lk (update pc p c) := by
  intro k' q
  by_cases hq : q = p
  · rw [hq, update_self, hc]
    exact h k' p
  · rw [update_of_ne hq]
    exact h k' q

variable [DecidableEq K]

theorem acquire (h : Held who held lk pc) (hinj : Function.Injective who)
    (hk : ∀ q, lk k ≠ some (who q)) (hp : held (pc p) = none) (hc : held c = some k) :
    Held who held (update lk k (some (who p))) (update pc p c) := by
  intro k' q
  by_cases hq : q = p
  · subst hq
    rw [update_self, hc]
    by_cases hk' : k' = k
    · rw [hk', update_self]
      exact iff_of_true rfl rfl
    · rw [update_of_ne hk', h k' q, hp]
      exact iff_of_false nofun fun heq => hk' (Option.some.inj heq).symm
  · rw [update_of_ne hq]
    by_cases hk' : k' = k
    · rw [hk', update_self, ← h k q]
      exact iff_of_false (fun heq => hq (hinj (Option.some.inj heq)).symm) (hk q)
    · rw [update_of_ne hk']
      exact h k' q

/-- The thread lets go of the lock, or leaves it to somebody who is not a thread. -/
theorem release (h : Held who held lk pc) (hp : held (pc p) = some k) (hc : held c = none)
    {o : Option H} (ho : ∀ q, o ≠ some (who q)) (hinj : Function.Injective who) :
    Held who held (update lk k o) (update pc p c) := by
  intro k' q
  by_cases hq : q = p
  · subst hq
    rw [update_self, hc]
    refine iff_of_false ?_ nofun
    by_cases hk' : k' = k
    · rw [hk', update_self]
      exact ho q
    · rw [update_of_ne hk', h k' q, hp]
      exact fun heq => hk' (Option.some.inj heq).symm
  · rw [update_of_ne hq]
    by_cases hk' : k' = k
    · rw [hk', update_self]
      exact iff_of_false (ho q) fun heq => hq (h.unique hinj heq hp)
    · rw [update_of_ne hk']
      exact h k' q

omit [DecidableEq P] in
/-- Somebody who is not a thread takes the lock or lets it go. -/
theorem outside (h : Held who held lk pc) (hk : ∀ q, lk k ≠ some (who q)) {o : Option H}
    (ho : ∀ q, o ≠ some (who q)) : Held who held (update lk k o) pc := by
  intro k' q
  by_cases hk' : k' = k
  · rw [hk', update_self, ← h k q]
    exact iff_of_false (ho q) (hk q)
  · rw [update_of_ne hk']
    exact h k' q

end Held

end Xv6.Lib
