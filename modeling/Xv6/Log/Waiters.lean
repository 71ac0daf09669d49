/-
# Processes that wait in `begin_op`

A process sleeps on `&log` while a commit runs or while the log may not have room
for another operation. Both conditions share one channel, and the wake-ups come
from the two branches of `end_op`. Whoever sleeps does so for a reason that still
holds, and there is always somebody left whose `end_op` will wake the sleepers.
-/

import Xv6.Log.Reserve

namespace Xv6.Log

open Xv6.Lib

/-- Asleep in `begin_op`. -/
def OpPc.isSleeping : OpPc → Bool
  | .sleeping => true
  | .idle | .beginning | .active _ | .checked _ _ _ | .committing => false

theorem OpPc.eq_sleeping {pc : OpPc} (h : pc.isSleeping = true) : pc = .sleeping := by
  cases pc with
  | sleeping => rfl
  | idle | beginning | active _ | checked _ _ _ | committing => cases h

namespace State

variable {g : Geometry} {s t : State} {l : Label} {p q : ℕ} {pc : OpPc}

/-- The reservation test of `begin_op` fails. -/
def NoRoom (s : State) : Prop := LOGSIZE < s.lh.length + (s.outstanding + 1) * MAXOPBLOCKS

/-- Whoever sleeps in `begin_op` has a reason, and `end_op` has not panicked. -/
structure WaitersOk (s : State) : Prop where
  reason : ∀ p, s.ops p = .sleeping → s.committing = true ∨ s.NoRoom
  up : ∀ p, s.ops p = .sleeping → s.phase.Up
  calm : s.panicked ≠ some .committing

theorem sleeping_of_setOp (hpc : pc ≠ .sleeping) (h : (s.setOp q pc).ops p = .sleeping) :
    s.ops p = .sleeping := by
  grind [ops_setOp_self, ops_setOp_of_ne]

theorem not_sleeping_wakeup : s.wakeup.ops p ≠ .sleeping := by
  rw [wakeup]
  dsimp only
  split
  · exact nofun
  · next hne => exact hne

/-- A step that makes nobody sleep, keeps `commit` running, and takes no entry and no
operation out of the log. -/
theorem WaitersOk.kept (h : s.WaitersOk) (hops : ∀ p, t.ops p = .sleeping → s.ops p = .sleeping)
    (hcommit : t.committing = s.committing) (hlh : s.lh.length ≤ t.lh.length)
    (hout : s.outstanding ≤ t.outstanding) (hup : s.phase.Up → t.phase.Up)
    (hpanic : t.panicked ≠ some .committing) : t.WaitersOk := by
  refine ⟨fun p hp => ?_, fun p hp => hup (h.up p (hops p hp)), hpanic⟩
  rw [hcommit]
  apply (h.reason p (hops p hp)).imp_right
  intro hroom
  apply lt_of_lt_of_le hroom
  gcongr

/-- A step after which nobody sleeps. -/
theorem WaitersOk.awake (hops : ∀ p, t.ops p ≠ .sleeping) (hpanic : t.panicked ≠ some .committing) :
    t.WaitersOk :=
  ⟨fun p hp => absurd hp (hops p), fun p hp => absurd hp (hops p), hpanic⟩

theorem WaitersOk.beginOp (h : s.WaitersOk) (hup : s.phase.Up) : (s.beginOp p).WaitersOk := by
  have hsleep : s.committing = true ∨ s.NoRoom → (s.setOp p .sleeping).WaitersOk := by
    intro hreason
    refine ⟨fun q hq => ?_, fun _ _ => hup, h.calm⟩
    by_cases hqp : q = p
    · exact hreason
    · rw [ops_setOp_of_ne hqp] at hq
      exact h.reason q hq
  rw [State.beginOp]
  split
  · next hcommit => exact hsleep (Or.inl hcommit)
  split
  · next hroom => exact hsleep (Or.inr hroom)
  · apply h.kept
    · exact fun q hq => sleeping_of_setOp (by simp) hq
    · rfl
    · exact le_refl _
    · exact Nat.le_succ _
    · exact id
    · exact h.calm

theorem WaitersOk.endOp (h : s.WaitersOk) (hc : s.committing = false) (k : ℕ) :
    (s.endOp p k).WaitersOk := by
  rw [State.endOp]
  simp only [hc, Bool.false_eq_true, if_false]
  split
  · refine ⟨fun _ _ => Or.inl rfl, fun _ _ => ?_, h.calm⟩
    dsimp only
    split <;> exact trivial
  · exact .awake (fun _ => not_sleeping_wakeup) h.calm

theorem WaitersOk.diskWrite (h : s.WaitersOk) (hc : s.Counted) (hw : s.phase.Writes) :
    (s.diskWrite g).WaitersOk := by
  obtain ⟨hops, hout, hcommit⟩ := diskWrite_ops (g := g) (s := s)
  have hpanic : (s.diskWrite g).panicked = s.panicked := by
    rw [State.diskWrite]
    split <;> (try split) <;> rfl
  have hrunning : ∀ p, s.ops p = .sleeping → s.phase.Commits := by
    intro p hp
    have hup := h.up p hp
    cases hphase : s.phase with
    | running | down | recover _ | recoverClear | finish =>
      rw [hphase] at hup hw
      first | exact hup.elim | exact hw.elim
    | writeLog _ | writeHead | install _ | clear => exact trivial
  refine ⟨fun p hp => Or.inl ?_, fun p hp => ?_, ?_⟩
  · rw [hops] at hp
    rw [hcommit]
    exact hc.committing_iff.mpr (hrunning p hp)
  · rw [hops] at hp
    have hcommits := (diskWrite_commits (g := g) hw).mpr (hrunning p hp)
    cases hphase : (s.diskWrite g).phase with
    | running | down | recover _ | recoverClear =>
      rw [hphase] at hcommits
      exact hcommits.elim
    | writeLog _ | writeHead | install _ | clear | finish => exact trivial
  · rw [hpanic]
    exact h.calm

theorem WaitersOk.next (h : s.WaitersOk) (hc : s.Counted) (enabled : s.Enabled g l) :
    (s.next g l).WaitersOk := by
  cases l with
  | crash => exact .awake (by simp [State.next, State.crash]) (by simp [State.next, State.crash])
  | beginOp p => exact h.beginOp enabled.2.1
  | logCheck p block data =>
    obtain ⟨k, hk⟩ := enabled.2.1.eq
    simp only [State.next, hk, logCheck]
    split
    · exact h.kept (fun _ => id) rfl (le_refl _) (le_refl _) id (by simp)
    split
    · exact h.kept (fun _ => id) rfl (le_refl _) (le_refl _) id (by simp)
    · exact h.kept (fun _ => sleeping_of_setOp (by simp)) rfl (le_refl _) (le_refl _) id h.calm
  | logAppend p =>
    obtain ⟨k, b, v, hk⟩ := enabled.2.eq
    simp only [State.next, hk]
    apply h.kept
    · exact fun q hq => sleeping_of_setOp (by simp) hq
    · rfl
    · rw [logAppend]
      grind
    · exact le_refl _
    · exact id
    · exact h.calm
  | endOp p =>
    obtain ⟨k, hk⟩ := enabled.2.eq
    have hop : s.opOf p = some k := opOf_eq hk
    simp only [State.next, hk]
    exact h.endOp (hc.not_committing hop) k
  | diskWrite => exact h.diskWrite hc enabled.2.1
  | finish =>
    refine .awake (fun p => ?_) h.calm
    simp only [State.next, State.finish]
    split
    · simp
    · exact not_sleeping_wakeup
  | boot =>
    have hnone : ∀ p, s.ops p ≠ .sleeping := by
      intro p hp
      have hup := h.up p hp
      rw [enabled.2] at hup
      exact hup
    obtain ⟨_, _, _, _, hboot, hphase⟩ := boot_eq g s
    simp only [State.next, hboot]
    refine .awake hnone ?_
    rcases hphase with ⟨hpanic, -⟩ | ⟨hpanic, -⟩
    · simp [hpanic]
    · simpa [hpanic] using h.calm
  | bget k b =>
    obtain ⟨_, _, hget, hpanic⟩ := bget_eq s k b
    simp only [State.next, hget]
    refine h.kept (fun _ => id) rfl (le_refl _) (le_refl _) id ?_
    rcases hpanic with hpanic | hpanic
    · simpa [hpanic] using h.calm
    · simp [hpanic]
  | acquire k b => exact h.kept (fun _ => id) rfl (le_refl _) (le_refl _) id h.calm
  | brelse p b => exact h.kept (fun _ => id) rfl (le_refl _) (le_refl _) id h.calm

theorem waitersOk_of_init (h : s.Init g) : s.WaitersOk := by
  rw [h.2]
  exact .awake nofun nofun

/-- Nothing is outstanding while `commit` or recovery runs. -/
theorem Counted.outstanding_eq_zero (h : s.Counted) (hphase : s.phase ≠ .running) :
    s.outstanding = 0 := by
  obtain ⟨S, hS, hcard⟩ := h.outstanding_eq
  have hempty : S = ∅ := by
    rw [Finset.eq_empty_iff_forall_notMem]
    exact fun p hp => (hS p).mp hp (h.quiet hphase p)
  rw [← hcard, hempty, Finset.card_empty]

/-- No operation starts in a step taken while `commit` runs. -/
theorem Counted.outstanding_next (h : s.Counted) (hcommits : s.phase.Commits)
    (enabled : s.Enabled g l) : (s.next g l).outstanding = 0 := by
  have hphase : s.phase ≠ .running := by
    intro hrunning
    rw [hrunning] at hcommits
    exact hcommits
  have hzero := h.outstanding_eq_zero hphase
  have hop : ∀ p k, s.opOf p ≠ some k := by
    intro p k hp
    exact hphase (h.running hp)
  cases l with
  | crash => rfl
  | beginOp p =>
    simp only [State.next, State.beginOp, h.committing_iff.mpr hcommits, if_true]
    exact hzero
  | logCheck p block data =>
    obtain ⟨k, hk⟩ := enabled.2.1.eq
    exact absurd (opOf_eq hk) (hop p k)
  | logAppend p =>
    obtain ⟨k, b, v, hk⟩ := enabled.2.eq
    exact absurd (opOf_eq hk) (hop p k)
  | endOp p =>
    obtain ⟨k, hk⟩ := enabled.2.eq
    exact absurd (opOf_eq hk) (hop p k)
  | diskWrite => exact (diskWrite_ops (g := g) (s := s)).2.1.trans hzero
  | finish => exact hzero
  | boot =>
    obtain ⟨_, _, _, _, hboot, -⟩ := boot_eq g s
    simp only [State.next, hboot]
    exact hzero
  | bget k b =>
    obtain ⟨_, _, hget, -⟩ := bget_eq s k b
    simp only [State.next, hget]
    exact hzero
  | acquire k b => exact hzero
  | brelse p b => exact hzero

end State

open State

/-- `begin_op` strands nobody. Whoever sleeps on `&log` waits for a commit that runs or
for room that is not there; while the reservation test fails, an operation is
outstanding or a commit runs; a commit runs only when nothing is outstanding, and
nothing starts during it; and `end_op` never panics. -/
theorem begin_op_waiters_not_stranded {g : Geometry} {s : State} (h : (system g).Reachable s) :
    (∀ p, s.ops p = .sleeping → s.committing = true ∨
      s.lh.length + (s.outstanding + 1) * MAXOPBLOCKS > LOGSIZE) ∧
    (s.phase.Up → s.lh.length + (s.outstanding + 1) * MAXOPBLOCKS > LOGSIZE →
      0 < s.outstanding ∨ s.committing = true) ∧
    (s.phase.Commits → s.committing = true ∧ s.outstanding = 0 ∧ (∀ p, s.opOf p = none) ∧
      ∀ l, s.Enabled g l → (s.next g l).outstanding = 0) ∧
    s.panicked ≠ some .committing := by
  obtain ⟨hc, hentries, hwait⟩ : s.Counted ∧ s.Entries s.phase ∧ s.WaitersOk := by
    apply h.invariant (I := fun s => s.Counted ∧ s.Entries s.phase ∧ s.WaitersOk)
    · intro s hs
      refine ⟨counted_of_init hs, ?_, waitersOk_of_init hs⟩
      rw [hs.2]
      exact ⟨rfl, rfl⟩
    · rintro s l ⟨hc, hentries, hwait⟩ enabled
      exact ⟨hc.next enabled, hentries.next hc enabled, hwait.next hc enabled⟩
  refine ⟨hwait.reason, fun hup hroom => ?_, fun hcommits => ?_, hwait.calm⟩
  · by_contra hnobody
    rw [not_or, Nat.not_lt, Nat.le_zero] at hnobody
    rw [hc.running_of_up hup hnobody.2] at hentries
    rw [hentries.2 hnobody.1, hnobody.1] at hroom
    exact absurd hroom (by decide)
  · have hphase : s.phase ≠ .running := by
      intro hrunning
      rw [hrunning] at hcommits
      exact hcommits
    exact ⟨hc.committing_iff.mpr hcommits, hc.outstanding_eq_zero hphase, hc.quiet hphase,
      fun l enabled => hc.outstanding_next hcommits enabled⟩

set_option maxRecDepth 10000 in
/-- Three operations have reserved the whole log, and a fourth process has to wait. -/
theorem fourth_operation_waits :
    ∃ s, (system mkfsLog).Reachable s ∧ s.ops 3 = .sleeping ∧
      (s.committing = true ∨ s.lh.length + (s.outstanding + 1) * MAXOPBLOCKS > LOGSIZE) := by
  obtain ⟨s, hreach, hsleep⟩ := Machine.exists_reachable_of_exec (system mkfsLog)
    (bootLabels mkfsLog ++ [.beginOp 0, .beginOp 1, .beginOp 2, .beginOp 3]) (s := {})
    (P := fun s => (s.ops 3).isSleeping = true) ⟨by decide +kernel, rfl⟩ (by decide +kernel)
  have hsleep := OpPc.eq_sleeping hsleep
  exact ⟨s, hreach, hsleep, (begin_op_waiters_not_stranded hreach).1 3 hsleep⟩

end Xv6.Log
