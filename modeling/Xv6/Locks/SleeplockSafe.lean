/-
# Sleep-locks exclude, and nobody sleeps on a free one

A process that sleeps on a lock, or is about to with `ptable.lock` in its hand,
has a reason: the lock is locked, or the process that has just unlocked it still
holds `lk->lk` and is on its way to `wakeup`. The reason cannot go away unnoticed,
because `wakeup` needs `ptable.lock` and so comes after the process has been marked
`SLEEPING`, and because `lk->lk` is held from the unlocking to the waking.
-/

import Xv6.Lib.Held
import Xv6.Locks.Sleeplock

namespace Xv6.Locks.Sleep

open Function Xv6.Lib

universe u v

variable {P : Type u} {L : Type v}

/-- The spinlock that is held at a place in the code. -/
def Pc.held : Pc L → Option (Spin L)
  | .toSleep l | .waking l | .released l => some (.lk l)
  | .dozing _ | .resumed _ => some .ptable
  | .user | .asleep _ | .acquiring _ => none

theorem Holder.proc_injective : Function.Injective (Holder.proc : P → Holder P) :=
  fun _ _ h => Holder.proc.inj h

namespace State

/-- The process sleeps on the lock, or nothing can keep it from it any more. -/
def Sleeper (s : State P L) (p : P) (l : L) : Prop :=
  s.pc p = .dozing l ∨ s.state p = .sleeping ∧ s.chan p = some l

/-- The lock is locked, or somebody is about to wake its sleepers. -/
def Reason (s : State P L) (l : L) : Prop := s.locked l = true ∨ ∃ q, s.pc q = .waking l

variable [DecidableEq P]

/-- What holds between steps. -/
structure Inv (s : State P L) : Prop where
  spin : Held Holder.proc Pc.held s.spin s.pc
  inside_iff : ∀ p l, s.inside p l = true ↔ s.holdingsleep p l = true
  locked : ∀ p l, s.pc p = .toSleep l → s.locked l = true
  reason : ∀ p l, s.Sleeper p l → s.Reason l

variable {s s' : State P L} {p q : P} {l : L} {c : Pc L}

/-- Process `p` moves to `c`, and the others stay where they are. -/
structure Moves (p : P) (c : Pc L) (s s' : State P L) : Prop where
  pc : s'.pc = update s.pc p c
  sleeper : ∀ q l, q ≠ p → s'.state q = .sleeping → s'.chan q = some l →
    s.state q = .sleeping ∧ s.chan q = some l

theorem Moves.pc_of_ne (h : Moves p c s s') (hq : q ≠ p) : s'.pc q = s.pc q := by
  rw [h.pc, update_of_ne hq]

theorem Moves.pc_self (h : Moves p c s s') : s'.pc p = c := by
  rw [h.pc, update_self]

/-- The others sleep as before. -/
theorem Moves.sleeper_of_ne (h : Moves p c s s') (hq : q ≠ p) (hs : s'.Sleeper q l) :
    s.Sleeper q l := by
  rcases hs with hdoze | ⟨hstate, hchan⟩
  · rw [h.pc_of_ne hq] at hdoze
    exact .inl hdoze
  · exact .inr (h.sleeper q l hq hstate hchan)

/-- If `p` does not begin to doze, it sleeps or it does not. -/
theorem Moves.sleeper_self (h : Moves p c s s') (hc : c ≠ .dozing l) (hs : s'.Sleeper p l) :
    s'.state p = .sleeping ∧ s'.chan p = some l := by
  apply hs.resolve_left
  rw [h.pc_self]
  exact hc

/-- The invariant after a move: `p` falls asleep only with a reason, and leaves the way to
`wakeup` only when nobody sleeps any more. -/
theorem Inv.move (h : Inv s) (hm : Moves p c s s')
    (hspin : Held Holder.proc Pc.held s'.spin s'.pc)
    (hinside : ∀ q k, s'.inside q k = true ↔ s'.holdingsleep q k = true)
    (hlocked : ∀ k, s.locked k = true → s'.Reason k)
    (hto : ∀ q k, s'.pc q = .toSleep k → s'.locked k = true)
    (hself : ∀ k, s'.Sleeper p k → s.Reason k)
    (hwake : ∀ k, s.pc p = .waking k → ∀ q, ¬ s'.Sleeper q k) : Inv s' := by
  refine ⟨hspin, hinside, hto, fun q k hq => ?_⟩
  have hbefore : s.Reason k := by
    by_cases hqp : q = p
    · rw [hqp] at hq
      exact hself k hq
    · exact h.reason q k (hm.sleeper_of_ne hqp hq)
  rcases hbefore with hold | ⟨r, hr⟩
  · exact hlocked k hold
  · have hne : r ≠ p := by
      rintro rfl
      exact hwake k hr q hq
    exact .inr ⟨r, (hm.pc_of_ne hne).trans hr⟩

/-- A move that leaves the sleep-locks as they are. -/
theorem Inv.move_same (h : Inv s) (hm : Moves p c s s')
    (hspin : Held Holder.proc Pc.held s'.spin s'.pc) (hinside : s'.inside = s.inside)
    (hlocked : s'.locked = s.locked) (hpid : s'.pid = s.pid)
    (hto : ∀ k, c = .toSleep k → s.locked k = true)
    (hself : ∀ k, s'.Sleeper p k → s.Reason k)
    (hwake : ∀ k, s.pc p = .waking k → ∀ q, ¬ s'.Sleeper q k) : Inv s' := by
  apply h.move hm hspin
  · intro q k
    rw [hinside, holdingsleep, hlocked, hpid]
    exact h.inside_iff q k
  · exact fun k hold => .inl (by rw [hlocked]; exact hold)
  · intro q k hq
    rw [hlocked]
    by_cases hqp : q = p
    · rw [hqp, hm.pc_self] at hq
      exact hto k hq
    · rw [hm.pc_of_ne hqp] at hq
      exact h.locked q k hq
  · exact hself
  · exact hwake

omit [DecidableEq P] in
/-- At the start of `acquiresleep` and after `sleep` no spinlock is held. -/
theorem held_of_testing (hpc : s.pc p = .user ∨ s.pc p = .acquiring l) :
    (s.pc p).held = none ∧ ∀ k, s.pc p ≠ .waking k := by
  rcases hpc with hpc | hpc
  · rw [hpc]
    exact ⟨rfl, fun _ => nofun⟩
  · rw [hpc]
    exact ⟨rfl, fun _ => nofun⟩

theorem inv_init : Inv ({} : State P L) := by
  refine ⟨fun _ _ => iff_of_false nofun nofun, fun _ _ => iff_of_false nofun nofun,
    fun _ _ => nofun, fun p l hs => ?_⟩
  rcases hs with hdoze | ⟨hstate, -⟩
  · cases hdoze
  · cases hstate

theorem Inv.kill (h : Inv s) (q : P) : Inv (s.kill q) := by
  refine ⟨h.spin, h.inside_iff, h.locked, fun r k hr => h.reason r k ?_⟩
  rcases hr with hdoze | ⟨hstate, hchan⟩
  · exact .inl hdoze
  · refine .inr ⟨?_, hchan⟩
    have hstate' : update s.state q
      (if s.state q = .sleeping then .runnable else s.state q) r = .sleeping := hstate
    grind

variable [DecidableEq L]

theorem inside_update (f : P → L → Bool) (p q : P) (l k : L) (b : Bool) :
    update f p (update (f p) l b) q k = if q = p ∧ k = l then b else f q k := by
  by_cases hq : q = p
  · rw [hq, update_self, update_apply]
    simp only [true_and]
  · rw [update_of_ne hq, if_neg fun h => hq h.1]

section

variable (h : Inv s)

include h

theorem Inv.blocked (hpc : s.pc p = .user ∨ s.pc p = .acquiring l) (hfree : s.spin (.lk l) = none)
    (hlocked : s.locked l = true) : Inv (s.blocked p l) := by
  obtain ⟨hheld, hnot⟩ := held_of_testing hpc
  have hspin := h.spin.acquire Holder.proc_injective (by rw [hfree]; exact fun _ => nofun) hheld
    (show (Pc.toSleep l).held = some (.lk l) from rfl)
  have hm : Moves p (.toSleep l) s (s.blocked p l) := ⟨rfl, fun _ _ _ h₁ h₂ => ⟨h₁, h₂⟩⟩
  apply h.move_same hm hspin rfl rfl rfl
  · rintro k ⟨⟩
    exact hlocked
  · exact fun k hs => h.reason p k (.inr (hm.sleeper_self nofun hs))
  · exact fun k hk => absurd hk (hnot k)

theorem Inv.take (hpc : s.pc p = .user ∨ s.pc p = .acquiring l) (hlocked : s.locked l = false) :
    Inv (s.take p l) := by
  obtain ⟨hheld, hnot⟩ := held_of_testing hpc
  have hm : Moves p .user s (s.take p l) := ⟨rfl, fun _ _ _ h₁ h₂ => ⟨h₁, h₂⟩⟩
  have hmono : ∀ k, s.locked k = true → (s.take p l).locked k = true := by
    intro k hk
    show update s.locked l true k = true
    grind
  apply h.move hm (h.spin.keep hheld.symm)
  · intro q k
    have hbefore := h.inside_iff q k
    show update s.inside p (update (s.inside p) l true) q k = true ↔
      (update s.locked l true k && update s.pid l (some p) k = some q) = true
    rw [inside_update]
    by_cases hkl : k = l
    · subst hkl
      rw [holdingsleep, hlocked, Bool.false_and] at hbefore
      grind
    · rw [if_neg fun hboth => hkl hboth.2, update_of_ne hkl, update_of_ne hkl]
      exact hbefore
  · exact fun k hold => .inl (hmono k hold)
  · intro q k hq
    apply hmono
    by_cases hqp : q = p
    · rw [hqp, hm.pc_self] at hq
      cases hq
    · rw [hm.pc_of_ne hqp] at hq
      exact h.locked q k hq
  · exact fun k hs => h.reason p k (.inr (hm.sleeper_self nofun hs))
  · exact fun k hk => absurd hk (hnot k)

/-- `releasesleep`: the process that unlocks the lock is on its way to `wakeup`. -/
theorem Inv.clearLocked (hpc : s.pc p = .user) (hin : s.inside p l = true)
    (hfree : s.spin (.lk l) = none) : Inv (s.clearLocked p l) := by
  have hheld : (s.pc p).held = none := by rw [hpc]; rfl
  have hspin := h.spin.acquire Holder.proc_injective (by rw [hfree]; exact fun _ => nofun) hheld
    (show (Pc.waking l).held = some (.lk l) from rfl)
  have hm : Moves p (.waking l) s (s.clearLocked p l) := ⟨rfl, fun _ _ _ h₁ h₂ => ⟨h₁, h₂⟩⟩
  apply h.move hm hspin
  · intro q k
    have hbefore := h.inside_iff q k
    show update s.inside p (update (s.inside p) l false) q k = true ↔
      (update s.locked l false k && update s.pid l none k = some q) = true
    rw [inside_update]
    by_cases hkl : k = l
    · subst hkl
      have hholder := h.inside_iff p k
      rw [update_self, Bool.false_and]
      refine iff_of_false ?_ Bool.false_ne_true
      by_cases hqp : q = p
      · rw [if_pos ⟨hqp, rfl⟩]
        exact Bool.false_ne_true
      · rw [if_neg fun hboth => hqp hboth.1, hbefore]
        have hp := hholder.mp hin
        rw [holdingsleep, Bool.and_eq_true, decide_eq_true_eq] at hp ⊢
        rw [hp.2]
        exact fun hq => hqp (Option.some.inj hq.2).symm
    · rw [if_neg fun hboth => hkl hboth.2, update_of_ne hkl, update_of_ne hkl]
      exact hbefore
  · intro k hold
    by_cases hkl : k = l
    · exact .inr ⟨p, by rw [hm.pc_self, hkl]⟩
    · exact .inl ((update_of_ne hkl ..).trans hold)
  · intro q k hq
    have hqp : q ≠ p := by
      rintro rfl
      rw [hm.pc_self] at hq
      cases hq
    rw [hm.pc_of_ne hqp] at hq
    have hkl : k ≠ l := by
      rintro rfl
      -- whoever has found the lock locked holds `lk->lk` until it sleeps
      have hlk : (s.pc q).held = some (.lk k) := by rw [hq]; rfl
      rw [← h.spin (.lk k) q, hfree] at hlk
      cases hlk
    exact (update_of_ne hkl ..).trans (h.locked q k hq)
  · exact fun k hs => h.reason p k (.inr (hm.sleeper_self nofun hs))
  · intro k hk
    rw [hpc] at hk
    cases hk

/-- `sleep` lets go of `lk->lk`: the lock is still locked. -/
theorem Inv.enterSleep (hpc : s.pc p = .toSleep l) (hfree : s.spin .ptable = none) :
    Inv (s.enterSleep p l) := by
  have hheld : (s.pc p).held = some (.lk l) := by rw [hpc]; rfl
  -- between the two lock operations the process is nowhere that matters
  have hmid := h.spin.release hheld (show (Pc.user : Pc L).held = none from rfl)
    (o := none) (fun _ => nofun) Holder.proc_injective
  have hptable : update s.spin (.lk l) none .ptable = none :=
    (update_of_ne (by exact nofun) ..).trans hfree
  have hspin := hmid.acquire (p := p) (k := .ptable) (c := .dozing l) Holder.proc_injective
    (by rw [hptable]; exact fun _ => nofun)
    (by rw [update_self]; rfl) rfl
  rw [update_idem] at hspin
  have hpcs : (s.enterSleep p l).pc = update s.pc p (.dozing l) :=
    update_idem ..
  have hm : Moves p (.dozing l) s (s.enterSleep p l) := ⟨hpcs, fun _ _ _ h₁ h₂ => ⟨h₁, h₂⟩⟩
  apply h.move_same hm (by rw [hpcs]; exact hspin) rfl rfl rfl
  · exact fun k => nofun
  · intro k hs
    rcases hs with hdoze | hsleeping
    · rw [hm.pc_self] at hdoze
      cases hdoze
      exact .inl (h.locked p l hpc)
    · exact h.reason p k (.inr hsleeping)
  · intro k hk
    rw [hpc] at hk
    cases hk

theorem Inv.doze (hpc : s.pc p = .dozing l) : Inv (s.doze p l) := by
  have hheld : (s.pc p).held = some .ptable := by rw [hpc]; rfl
  have hspin := h.spin.release hheld (show (Pc.asleep l).held = none from rfl)
    (o := some .scheduler) (fun _ => nofun) Holder.proc_injective
  have hm : Moves p (.asleep l) s (s.doze p l) := by
    refine ⟨rfl, fun q k hq hstate hchan => ⟨?_, ?_⟩⟩
    · exact (update_of_ne hq ..).symm.trans hstate
    · exact (update_of_ne hq ..).symm.trans hchan
  apply h.move_same hm hspin rfl rfl rfl
  · exact fun k => nofun
  · intro k hs
    have hchan : update s.chan p (some l) p = some k := (hm.sleeper_self nofun hs).2
    rw [update_self] at hchan
    cases hchan
    exact h.reason p l (.inl hpc)
  · intro k hk
    rw [hpc] at hk
    cases hk

theorem Inv.resume (hpc : s.pc p = .asleep l) (hsched : s.spin .ptable = some .scheduler) :
    Inv (s.resume p l) := by
  have hheld : (s.pc p).held = none := by rw [hpc]; rfl
  have hspin := h.spin.acquire Holder.proc_injective (by rw [hsched]; exact fun _ => nofun) hheld
    (show (Pc.resumed l).held = some .ptable from rfl)
  have hm : Moves p (.resumed l) s (s.resume p l) :=
    ⟨rfl, fun q k hq hstate hchan => ⟨(update_of_ne hq ..).symm.trans hstate, hchan⟩⟩
  apply h.move_same hm hspin rfl rfl rfl
  · exact fun k => nofun
  · intro k hs
    have hstate : update s.state p .running p = .sleeping := (hm.sleeper_self nofun hs).1
    rw [update_self] at hstate
    cases hstate
  · intro k hk
    rw [hpc] at hk
    cases hk

theorem Inv.tidyUp (hpc : s.pc p = .resumed l) : Inv (s.tidyUp p l) := by
  have hheld : (s.pc p).held = some .ptable := by rw [hpc]; rfl
  have hspin := h.spin.release hheld (show (Pc.acquiring l).held = none from rfl)
    (o := none) (fun _ => nofun) Holder.proc_injective
  have hm : Moves p (.acquiring l) s (s.tidyUp p l) :=
    ⟨rfl, fun q k hq hstate hchan => ⟨hstate, (update_of_ne hq ..).symm.trans hchan⟩⟩
  apply h.move_same hm hspin rfl rfl rfl
  · exact fun k => nofun
  · intro k hs
    have hchan : update s.chan p none p = some k := (hm.sleeper_self nofun hs).2
    rw [update_self] at hchan
    cases hchan
  · intro k hk
    rw [hpc] at hk
    cases hk

/-- `wakeup`: nobody sleeps on the lock any more. Nobody is about to either, because
`ptable.lock` was free. -/
theorem Inv.wakeup (hpc : s.pc p = .waking l) (hfree : s.spin .ptable = none) :
    Inv (s.wakeup p l) := by
  have hheld : (Pc.released l).held = (s.pc p).held := by rw [hpc]; rfl
  have hwoken : ∀ q k, (s.wakeup p l).state q = .sleeping → s.chan q = some k →
      s.state q = .sleeping ∧ k ≠ l := by
    intro q k hstate hchan
    have hstate' : (if s.state q = .sleeping ∧ s.chan q = some l then .runnable
        else s.state q) = Status.sleeping := hstate
    grind
  have hm : Moves p (.released l) s (s.wakeup p l) :=
    ⟨rfl, fun q k _ hstate hchan => ⟨(hwoken q k hstate hchan).1, hchan⟩⟩
  apply h.move_same hm (h.spin.keep hheld) rfl rfl rfl
  · exact fun k => nofun
  · intro k hs
    obtain ⟨hstate, hchan⟩ := hm.sleeper_self nofun hs
    exact h.reason p k (.inr ⟨(hwoken p k hstate hchan).1, hchan⟩)
  · intro k hk q hq
    rw [hpc] at hk
    cases hk
    rcases hq with hdoze | ⟨hstate, hchan⟩
    · have hqp : q ≠ p := by
        rintro rfl
        rw [hm.pc_self] at hdoze
        cases hdoze
      rw [hm.pc_of_ne hqp] at hdoze
      have hptable : (s.pc q).held = some .ptable := by rw [hdoze]; rfl
      rw [← h.spin .ptable q, hfree] at hptable
      cases hptable
    · exact (hwoken q l hstate hchan).2 rfl

theorem Inv.endRelease (hpc : s.pc p = .released l) : Inv (s.endRelease p l) := by
  have hheld : (s.pc p).held = some (.lk l) := by rw [hpc]; rfl
  have hspin := h.spin.release hheld (show (Pc.user : Pc L).held = none from rfl)
    (o := none) (fun _ => nofun) Holder.proc_injective
  have hm : Moves p .user s (s.endRelease p l) := ⟨rfl, fun _ _ _ h₁ h₂ => ⟨h₁, h₂⟩⟩
  apply h.move_same hm hspin rfl rfl rfl
  · exact fun k => nofun
  · exact fun k hs => h.reason p k (.inr (hm.sleeper_self nofun hs))
  · intro k hk
    rw [hpc] at hk
    cases hk

/-- The scheduler takes `ptable.lock` or lets it go. -/
theorem Inv.scheduler (hbefore : ∀ q, s.spin .ptable ≠ some (.proc q)) {o : Option (Holder P)}
    (ho : ∀ q, o ≠ some (.proc q)) : Inv { s with spin := update s.spin .ptable o } :=
  ⟨h.spin.outside hbefore ho, h.inside_iff, h.locked, h.reason⟩

theorem Inv.testLocked (hpc : s.pc p = .user ∨ s.pc p = .acquiring l)
    (hfree : s.spin (.lk l) = none) : Inv (s.testLocked p l) := by
  rw [State.testLocked]
  split
  · next hlocked => exact h.blocked hpc hfree hlocked
  · next hlocked => exact h.take hpc (Bool.eq_false_iff.mpr hlocked)

theorem Inv.next {a : Label P L} (enabled : s.Enabled a) : Inv (s.next a) := by
  cases a with
  | acquiresleep p l => exact h.testLocked (.inl enabled.1) enabled.2
  | enterSleep p l => exact h.enterSleep enabled.1 enabled.2
  | doze p l => exact h.doze enabled
  | resume p l => exact h.resume enabled.1 enabled.2.2
  | tidyUp p l => exact h.tidyUp enabled
  | reacquire p l => exact h.testLocked (.inr enabled.1) enabled.2
  | releasesleep p l => exact h.clearLocked enabled.1 enabled.2.1 enabled.2.2
  | wakeup p l => exact h.wakeup enabled.1 enabled.2
  | endRelease p l => exact h.endRelease enabled
  | kill p q => exact h.kill q
  | schedAcquire =>
    have hfree : s.spin .ptable = none := enabled
    exact h.scheduler (by rw [hfree]; exact fun _ => nofun) fun _ => nofun
  | schedRelease =>
    have hsched : s.spin .ptable = some .scheduler := enabled
    exact h.scheduler (by rw [hsched]; exact fun _ => nofun) fun _ => nofun

end

end State

/-- At most one process is between `acquiresleep` and `releasesleep` of a lock,
`holdingsleep` is true in that process and in no other, and while the spinlock of the lock and
`ptable.lock` are free nobody sleeps on the lock unless it is locked. -/
theorem sleeplock_safe {P : Type u} {L : Type v} [DecidableEq P] [DecidableEq L] {s : State P L}
    (h : (system P L).Reachable s) :
    (∀ l p q, s.inside p l = true → s.inside q l = true → p = q) ∧
    (∀ l p, s.holdingsleep p l = true ↔ s.inside p l = true) ∧
    ∀ l p, s.spin (.lk l) = none → s.spin .ptable = none → s.state p = .sleeping →
      s.chan p = some l → s.locked l = true := by
  have hinv : s.Inv := by
    apply h.invariant
    · rintro s rfl
      exact State.inv_init
    · exact fun s a hs enabled => hs.next enabled
  refine ⟨fun l p q hp hq => ?_, fun l p => (hinv.inside_iff p l).symm,
    fun l p hlk _ hstate hchan => ?_⟩
  · rw [hinv.inside_iff, State.holdingsleep, Bool.and_eq_true, decide_eq_true_eq] at hp hq
    exact Option.some.inj (hp.2.symm.trans hq.2)
  · rcases hinv.reason p l (.inr ⟨hstate, hchan⟩) with hlocked | ⟨q, hq⟩
    · exact hlocked
    · have hheld : (s.pc q).held = some (.lk l) := by rw [hq]; rfl
      rw [← hinv.spin (.lk l) q, hlk] at hheld
      cases hheld

/-- Process `p` takes the lock; process `q` goes to sleep on it. -/
def takeAndSleep {P : Type} (p q : P) : List (Label P Unit) :=
  [.acquiresleep p (), .acquiresleep q (), .enterSleep q (), .doze q (), .schedRelease]

theorem sleeper_has_reason : ∃ s, (system (Fin 2) Unit).Reachable s ∧ s.state 1 = .sleeping ∧
    s.locked () = true ∧ s.holdingsleep 0 () = true := by
  obtain ⟨s, hs, hlk, hptable, hstate, hchan, hin⟩ := Machine.exists_reachable_of_exec
    (system (Fin 2) Unit) (takeAndSleep 0 1) (s := {}) (P := fun s =>
      s.spin (.lk ()) = none ∧ s.spin .ptable = none ∧ s.state 1 = .sleeping ∧ s.chan 1 = some () ∧ s.inside 0 () = true)
    rfl (by decide +kernel)
  obtain ⟨-, hholds, hlocked⟩ := sleeplock_safe hs
  exact ⟨s, hs, hstate, hlocked () 1 hlk hptable hstate hchan, (hholds () 0).mpr hin⟩

end Xv6.Locks.Sleep
