/-
# Priority scheduling runs a process of highest priority

The PBS scheduler finds a runnable process of least priority value, keeps a
pointer to it, and walks the table with that pointer across context switches. By
the time a process comes back, the process pointed to may sleep, be gone, or have
another priority. What keeps the walk right is the check before every dispatch:
nothing runnable has a smaller value than the one pointed to has now, and the
process dispatched has exactly that value.

Nothing here is about reachable states. The statements hold of any table, with
any slot as the pointer.
-/

import Xv6.Lib.Scan
import Xv6.Ptable.System

namespace Xv6.Ptable

open Xv6.Lib

namespace State

variable {s : State} {c : Cpu} {hp p x : Slot} {k : ℕ}

/-- The process a step of a scheduler switches to. -/
def dispatched (b : Build) (s : State) : Label → Option Slot
  | .schedule c =>
    if (s.schedule b c).lk = .resume c then ((s.schedule b c).cpu c).proc else none
  | .back c p =>
    if (s.schedBack b c p).lk = .resume c then ((s.schedBack b c p).cpu c).proc else none
  | _ => none

theorem isScan_pbsScan (s : State) : IsScan s.pbsScan (fun p => (s.proc p).state = .runnable)
    fun p => (s.proc p).priority where
  skip best p hp := if_pos hp
  first p hp := if_neg (not_not.mpr hp)
  better y p hp hlt := by rw [pbsScan, if_neg (not_not.mpr hp), if_pos hlt]
  keep y p hp hge := by rw [pbsScan, if_neg (not_not.mpr hp), if_neg (not_lt.mpr hge)]

theorem pbsHighest_eq_none (h : s.pbsHighest = none) (x : Slot) :
    (s.proc x).state ≠ .runnable := by
  have hbest := s.isScan_pbsScan.foldl (List.finRange NPROC)
  rw [← pbsHighest, h] at hbest
  exact hbest x (List.mem_finRange x)

/-- The scan finds a runnable process, and none has a smaller priority value. -/
theorem pbsHighest_spec (h : s.pbsHighest = some hp) : (s.proc hp).state = .runnable ∧
    ∀ x, (s.proc x).state = .runnable → (s.proc hp).priority ≤ (s.proc x).priority := by
  have hbest := s.isScan_pbsScan.foldl (List.finRange NPROC)
  rw [← pbsHighest, h] at hbest
  exact ⟨hbest.1, fun x => hbest.2 x (List.mem_finRange x)⟩

theorem pbsOvertaken_eq_false : s.pbsOvertaken hp = false ↔
    ∀ x, (s.proc x).state = .runnable → (s.proc hp).priority ≤ (s.proc x).priority := by
  simp [pbsOvertaken]

/-- The walk may dispatch `x` from index `k` on. -/
def IsNext (s : State) (hp : Slot) (k : ℕ) (x : Slot) : Prop :=
  k ≤ x.val ∧ (s.proc x).state = .runnable ∧ (s.proc x).priority = (s.proc hp).priority

/-- What the walk dispatches: nothing has overtaken the pointer, and the process
is the first one from index `k` on with the priority the pointer shows. -/
theorem pbsNext_eq_some (h : s.pbsNext hp k = some p) : s.pbsOvertaken hp = false ∧
    s.IsNext hp k p ∧ ∀ x, s.IsNext hp k x → p ≤ x := by
  unfold pbsNext at h
  split at h
  · cases h
  · next hover =>
    refine ⟨by simpa using hover, ?_, ?_⟩
    · have := List.find?_some h
      simp only [Bool.and_eq_true, decide_eq_true_eq] at this
      exact ⟨this.1.1, this.1.2, this.2⟩
    · rintro x ⟨hk, hrun, hprio⟩
      obtain ⟨-, n, hn, hget, hbefore⟩ := List.find?_eq_some_iff_getElem.mp h
      have hnp : n = p.val := by simpa using congrArg Fin.val hget
      by_contra hlt
      have hx : x.val < n := by
        rw [hnp]
        exact not_le.mp hlt
      have := hbefore x.val hx
      simp [hk, hrun, hprio] at this

theorem pbsNext_eq_none (h : s.pbsNext hp k = none) :
    s.pbsOvertaken hp = true ∨ ∀ x, ¬ s.IsNext hp k x := by
  unfold pbsNext at h
  split at h
  · next hover => exact Or.inl hover
  · refine Or.inr ?_
    rintro x ⟨hk, hrun, hprio⟩
    have := List.find?_eq_none.mp h x (List.mem_finRange x)
    simp [hk, hrun, hprio] at this

/-- The process the scan has found is dispatched, or one like it before. -/
theorem exists_pbsNext (h : s.pbsHighest = some hp) : ∃ p, s.pbsNext hp 0 = some p := by
  obtain ⟨hrun, hmin⟩ := pbsHighest_spec h
  cases hnext : s.pbsNext hp 0 with
  | some p => exact ⟨p, rfl⟩
  | none =>
    rcases pbsNext_eq_none hnext with hover | hnone
    · rw [pbsOvertaken_eq_false.mpr hmin] at hover
      cases hover
    · exact absurd ⟨Nat.zero_le _, hrun, rfl⟩ (hnone hp)

/-- How an outer iteration begins. -/
theorem schedule_pbs (s : State) (c : Cpu) :
    (s.schedule .pbs c = s.schedIdle c ∧ ∀ x, (s.proc x).state ≠ .runnable) ∨
    ∃ hp p, s.pbsHighest = some hp ∧ s.pbsNext hp 0 = some p ∧
      s.schedule .pbs c = s.dispatch c p (some hp) := by
  unfold schedule
  grind [pbsHighest_eq_none, exists_pbsNext]

/-- How the walk goes on when a process comes back. -/
theorem schedBack_pbs (s : State) (c : Cpu) (p : Slot) :
    (s.schedBack .pbs c p = s.schedIdle c ∧
      ∀ hp, (s.cpu c).hp = some hp → s.pbsNext hp (p + 1) = none) ∨
    ∃ hp p', (s.cpu c).hp = some hp ∧ s.pbsNext hp (p + 1) = some p' ∧
      s.schedBack .pbs c p = s.dispatch c p' (some hp) := by
  unfold schedBack
  grind

theorem dispatch_proc (s : State) (c : Cpu) (p : Slot) (hp : Option Slot) :
    (if (s.dispatch c p hp).lk = .resume c then ((s.dispatch c p hp).cpu c).proc else none) =
      some p := by
  simp [dispatch]

theorem schedIdle_proc (s : State) (c : Cpu) :
    (if (s.schedIdle c).lk = .resume c then ((s.schedIdle c).cpu c).proc else none) = none := by
  simp [schedIdle]

/-- Whatever a PBS scheduler dispatches, the walk has picked. -/
theorem dispatched_pbs {l : Label} (h : s.dispatched .pbs l = some p) :
    ∃ hp k, s.pbsNext hp k = some p := by
  cases l with
  | schedule c =>
    rw [dispatched] at h
    grind [schedule_pbs, schedIdle_proc, dispatch_proc]
  | back c q =>
    rw [dispatched] at h
    grind [schedBack_pbs, schedIdle_proc, dispatch_proc]
  | _ => cases h

end State

/-- PBS always runs a process of highest priority. In any table, with any slot
as the pointer kept across switches, what the scheduler dispatches is runnable
and no runnable process has a smaller priority value; and an outer iteration
that starts with a runnable process dispatches one. -/
theorem pbs_dispatches_highest (s : State) :
    (∀ l p, s.dispatched .pbs l = some p → (s.proc p).state = .runnable ∧
      ∀ x, (s.proc x).state = .runnable → (s.proc p).priority ≤ (s.proc x).priority) ∧
    ∀ c, (∃ x, (s.proc x).state = .runnable) → ∃ p, s.dispatched .pbs (.schedule c) = some p := by
  refine ⟨fun l p hp => ?_, fun c hx => ?_⟩
  · obtain ⟨hp', k, hnext⟩ := State.dispatched_pbs hp
    obtain ⟨hover, ⟨-, hrun, hprio⟩, -⟩ := State.pbsNext_eq_some hnext
    refine ⟨hrun, fun x hx => ?_⟩
    rw [hprio]
    exact State.pbsOvertaken_eq_false.mp hover x hx
  · obtain ⟨x, hx⟩ := hx
    rcases State.schedule_pbs s c with ⟨-, hnone⟩ | ⟨hp, p, -, -, hdispatch⟩
    · exact absurd hx (hnone x)
    · exact ⟨p, by rw [State.dispatched, hdispatch, State.dispatch_proc]⟩

end Xv6.Ptable
