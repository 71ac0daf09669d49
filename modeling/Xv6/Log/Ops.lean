/-
# Operations and groups

`log.outstanding` counts the operations in progress, and nothing is in progress
while `commit` or recovery runs. So a group of writes is never cut through an
operation: when the header is written every operation of the group has ended, and
all it ever logged is in the group.
-/

import Xv6.Log.System
import Mathlib.Data.Finset.Card

namespace Xv6.Log

open Function Xv6.Lib

/-- The operation a process is in. -/
def OpPc.op : OpPc → Option ℕ
  | .active k | .checked k _ _ => some k
  | .idle | .beginning | .sleeping | .committing => none

theorem OpPc.IsActive.eq {pc : OpPc} (h : pc.IsActive) : ∃ k, pc = .active k := by
  cases pc with
  | active k => exact ⟨k, rfl⟩
  | idle | beginning | sleeping | checked _ _ _ | committing => exact h.elim

theorem OpPc.IsChecked.eq {pc : OpPc} (h : pc.IsChecked) : ∃ k b v, pc = .checked k b v := by
  cases pc with
  | checked k b v => exact ⟨k, b, v, rfl⟩
  | idle | beginning | sleeping | active _ | committing => exact h.elim

theorem OpPc.CanBegin.op_eq {pc : OpPc} (h : pc.CanBegin) : pc.op = none := by
  cases pc with
  | idle | beginning => rfl
  | sleeping | active _ | checked _ _ _ | committing => exact h.elim

/-- The phases of `commit`. -/
def Phase.Commits : Phase → Prop
  | .writeLog _ | .writeHead | .install _ | .clear | .finish => True
  | .running | .down | .recover _ | .recoverClear => False

/-- The writes of one operation. -/
def Write.of (k : ℕ) (ws : List Write) : List Write := ws.filter fun w => w.op = k

theorem Write.of_concat_self {k : ℕ} (ws : List Write) {w : Write} (h : w.op = k) :
    Write.of k (ws ++ [w]) = Write.of k ws ++ [w] := by
  simp [Write.of, h]

theorem Write.of_concat_of_ne {k : ℕ} (ws : List Write) {w : Write} (h : w.op ≠ k) :
    Write.of k (ws ++ [w]) = Write.of k ws := by
  simp [Write.of, h]

theorem Write.of_eq_nil {k : ℕ} {ws : List Write} (h : ∀ w ∈ ws, w.op ≠ k) :
    Write.of k ws = [] := by
  simpa [Write.of, List.filter_eq_nil_iff] using h

namespace State

variable {g : Geometry} {s t : State} {l : Label} {p k b : ℕ} {pc : OpPc} {v : Bytes}

/-- The operation each process is in. -/
def opOf (s : State) (p : ℕ) : Option ℕ := (s.ops p).op

theorem opOf_eq (h : s.ops p = pc) : s.opOf p = pc.op := congrArg OpPc.op h

theorem ops_setOp_self : (s.setOp p pc).ops p = pc := update_self ..

theorem ops_setOp_of_ne {q : ℕ} (h : q ≠ p) : (s.setOp p pc).ops q = s.ops q :=
  update_of_ne h ..

theorem opOf_setOp : (s.setOp p pc).opOf = update s.opOf p pc.op := by
  funext q
  by_cases hq : q = p
  · subst hq
    rw [opOf, ops_setOp_self, update_self]
  · rw [opOf, ops_setOp_of_ne hq, update_of_ne hq]
    rfl

/-- The process stays in its operation. -/
theorem opOf_setOp_eq (h : s.opOf p = pc.op) : (s.setOp p pc).opOf = s.opOf := by
  rw [opOf_setOp, update_eq_self_iff, h]

theorem opOf_wakeup : s.wakeup.opOf = s.opOf := by
  funext p
  unfold opOf wakeup
  dsimp only
  cases s.ops p <;> rfl

theorem opOf_finish : s.finish.opOf = s.opOf := by
  refine Eq.trans ?_ opOf_wakeup
  funext p
  unfold opOf finish
  dsimp only
  cases s.wakeup.ops p <;> rfl

/-- `bget` changes the cache, or panics. -/
theorem bget_eq (s : State) (h : Holder) (b : ℕ) : ∃ bcache panicked,
    s.bget h b = { s with bcache, panicked } ∧
      (panicked = s.panicked ∨ panicked = some .noBuffers) := by
  unfold bget
  split
  · exact ⟨s.bcache, some .noBuffers, rfl, .inr rfl⟩
  · next bcache _ => exact ⟨bcache, s.panicked, rfl, .inl rfl⟩

/-- Booting changes the cache, the entries and the phase, or panics. -/
theorem boot_eq (g : Geometry) (s : State) : ∃ bcache panicked lh phase,
    s.boot g = { s with bcache, panicked, lh, phase } ∧
      ((panicked = some .noBuffers ∧ lh = s.lh ∧ phase = s.phase) ∨ panicked = s.panicked ∧
        (phase = .recover 0 ∨ lh = [] ∧ phase = .recoverClear)) := by
  unfold boot
  split
  · exact ⟨s.bcache, some .noBuffers, s.lh, s.phase, rfl, .inl ⟨rfl, rfl, rfl⟩⟩
  · dsimp only
    split
    · exact ⟨_, _, _, _, rfl, .inr ⟨rfl, .inl rfl⟩⟩
    · exact ⟨_, _, _, _, rfl, .inr ⟨rfl, .inr ⟨rfl, rfl⟩⟩⟩

/-- The processes in an operation. -/
def Census (s : State) (S : Finset ℕ) : Prop := ∀ p, p ∈ S ↔ s.opOf p ≠ none

theorem Census.congr {S : Finset ℕ} (h : s.Census S) (hop : t.opOf = s.opOf) : t.Census S := by
  intro p
  rw [hop]
  exact h p

/-- A process enters an operation. -/
theorem Census.enter {S : Finset ℕ} (h : s.Census S) (hp : s.opOf p = none)
    (ht : t.opOf = update s.opOf p (some k)) :
    p ∉ S ∧ t.Census (insert p S) := by
  refine ⟨fun hmem => (h p).mp hmem hp, fun q => ?_⟩
  rw [ht, Finset.mem_insert]
  by_cases hq : q = p
  · simp [hq]
  · simpa [hq] using h q

/-- A process leaves its operation. -/
theorem Census.leave {S : Finset ℕ} (h : s.Census S) (hp : s.opOf p = some k)
    (ht : t.opOf = update s.opOf p none) :
    p ∈ S ∧ t.Census (S.erase p) := by
  refine ⟨(h p).mpr (by simp [hp]), fun q => ?_⟩
  rw [ht, Finset.mem_erase]
  by_cases hq : q = p
  · simp [hq]
  · simpa [hq] using h q

/-- The counter is right, and nothing is in progress while `commit` or recovery runs. -/
structure Counted (s : State) : Prop where
  outstanding_eq : ∃ S : Finset ℕ, s.Census S ∧ S.card = s.outstanding
  quiet : s.phase ≠ .running → ∀ p, s.opOf p = none
  committing_iff : s.committing = true ↔ s.phase.Commits

theorem Counted.outstanding_pos (h : s.Counted) (hp : s.opOf p = some k) :
    0 < s.outstanding := by
  obtain ⟨S, hS, hcard⟩ := h.outstanding_eq
  rw [← hcard, Finset.card_pos]
  exact ⟨p, (hS p).mpr (by simp [hp])⟩

theorem Counted.running (h : s.Counted) (hp : s.opOf p = some k) : s.phase = .running := by
  by_contra hne
  rw [h.quiet hne p] at hp
  cases hp

/-- The kernel is up and `commit` does not run. -/
theorem Counted.running_of_up (h : s.Counted) (hup : s.phase.Up) (hcommit : ¬ s.committing = true) :
    s.phase = .running := by
  have hout := h.committing_iff.not.mp hcommit
  cases hphase : s.phase with
  | running => rfl
  | down | recover _ | recoverClear =>
    rw [hphase] at hup
    exact hup.elim
  | writeLog _ | writeHead | install _ | clear | finish =>
    rw [hphase] at hout
    exact (hout trivial).elim

theorem Counted.not_committing (h : s.Counted) (hp : s.opOf p = some k) :
    s.committing = false := by
  rw [Bool.eq_false_iff]
  intro hc
  have := h.committing_iff.mp hc
  rw [h.running hp] at this
  exact this

/-- A step that leaves the operations alone and stays in or out of `commit`. -/
theorem Counted.congr (h : s.Counted) (hop : t.opOf = s.opOf)
    (hout : t.outstanding = s.outstanding) (hphase : t.phase ≠ .running → s.phase ≠ .running)
    (hcommit : t.committing = true ↔ t.phase.Commits) : t.Counted where
  outstanding_eq := by
    obtain ⟨S, hS, hcard⟩ := h.outstanding_eq
    exact ⟨S, hS.congr hop, hcard.trans hout.symm⟩
  quiet hne p := by
    rw [hop]
    exact h.quiet (hphase hne) p
  committing_iff := hcommit

/-- The block writes of `commit` and recovery leave the operations alone. -/
theorem diskWrite_ops : (s.diskWrite g).ops = s.ops ∧
    (s.diskWrite g).outstanding = s.outstanding ∧ (s.diskWrite g).committing = s.committing := by
  unfold diskWrite
  split <;> (try split) <;> exact ⟨rfl, rfl, rfl⟩

/-- A block write of `commit` leads to a phase of `commit`, one of recovery does not. -/
theorem diskWrite_commits (h : s.phase.Writes) :
    (s.diskWrite g).phase.Commits ↔ s.phase.Commits := by
  unfold diskWrite
  cases hphase : s.phase with
  | running | finish | down =>
    rw [hphase] at h
    exact h.elim
  | writeLog tail | install tail | recover tail =>
    dsimp only
    split <;> exact Iff.rfl
  | writeHead | clear | recoverClear => exact Iff.rfl

theorem Counted.diskWrite (h : s.Counted) (hw : s.phase.Writes) :
    (s.diskWrite g).Counted := by
  obtain ⟨hops, hout, hcommit⟩ := diskWrite_ops (g := g) (s := s)
  refine h.congr (by unfold opOf; rw [hops]) hout (fun _ hrun => ?_) ?_
  · rw [hrun] at hw
    exact hw
  · rw [hcommit, diskWrite_commits hw]
    exact h.committing_iff

theorem Counted.beginOp (h : s.Counted) (hup : s.phase.Up) (hp : (s.ops p).CanBegin) :
    (s.beginOp p).Counted := by
  have hnone : s.opOf p = none := hp.op_eq
  have hsleep : (s.setOp p .sleeping).Counted :=
    h.congr (opOf_setOp_eq hnone) rfl id h.committing_iff
  unfold State.beginOp
  split
  · exact hsleep
  split
  · exact hsleep
  next hcommit _ =>
  have hrunning := h.running_of_up hup hcommit
  obtain ⟨S, hS, hcard⟩ := h.outstanding_eq
  obtain ⟨hnot, hcensus⟩ :=
    hS.enter (t := s.setOp p (.active s.ghost.nextOp)) (k := s.ghost.nextOp) hnone opOf_setOp
  refine ⟨⟨insert p S, hcensus, ?_⟩, fun hne => (hne hrunning).elim, h.committing_iff⟩
  rw [Finset.card_insert_of_notMem hnot, hcard]

theorem Counted.endOp (h : s.Counted) (hp : s.ops p = .active k) : (s.endOp p k).Counted := by
  have hop : s.opOf p = some k := opOf_eq hp
  have hcommit := h.not_committing hop
  obtain ⟨S, hS, hcard⟩ := h.outstanding_eq
  unfold State.endOp
  simp only [hcommit, Bool.false_eq_true, if_false]
  split
  · next hzero =>
    obtain ⟨hmem, hcensus⟩ := hS.leave (t := s.setOp p .committing) hop opOf_setOp
    have hempty : S.erase p = ∅ := by
      rw [← Finset.card_eq_zero, Finset.card_erase_of_mem hmem, hcard]
      exact hzero
    refine ⟨⟨S.erase p, hcensus, ?_⟩, fun _ q => ?_, ?_⟩
    · rw [hempty]
      exact hzero.symm
    · by_contra hq
      have hqmem := (hcensus q).mpr hq
      rw [hempty] at hqmem
      exact Finset.notMem_empty q hqmem
    · dsimp only
      split <;> exact ⟨fun _ => trivial, fun _ => rfl⟩
  · obtain ⟨hmem, hcensus⟩ := hS.leave (t := s.setOp p .idle) hop opOf_setOp
    refine ⟨⟨S.erase p, hcensus.congr opOf_wakeup, ?_⟩, fun hne => ?_, ?_⟩
    · rw [Finset.card_erase_of_mem hmem, hcard]
      rfl
    · exact (hne (h.running hop)).elim
    · exact hcommit ▸ h.committing_iff

theorem Counted.next (h : s.Counted) (enabled : s.Enabled g l) : (s.next g l).Counted := by
  cases l with
  | crash =>
    refine ⟨⟨∅, fun p => ?_, rfl⟩, fun _ _ => rfl, ?_⟩
    · simp [next, crash, opOf, OpPc.op]
    · exact ⟨fun hf => Bool.noConfusion hf, False.elim⟩
  | beginOp p => exact h.beginOp enabled.2.1 enabled.2.2
  | logCheck p block data =>
    obtain ⟨k, hk⟩ := enabled.2.1.eq
    simp only [next, hk]
    unfold logCheck
    split
    · exact h.congr rfl rfl id h.committing_iff
    split
    · exact h.congr rfl rfl id h.committing_iff
    · exact h.congr (opOf_setOp_eq ((opOf_eq hk).trans rfl)) rfl id h.committing_iff
  | logAppend p =>
    obtain ⟨k, b, v, hk⟩ := enabled.2.eq
    simp only [next, hk]
    have hop : (s.setOp p (.active k)).opOf = s.opOf := opOf_setOp_eq ((opOf_eq hk).trans rfl)
    exact h.congr hop rfl id h.committing_iff
  | endOp p =>
    obtain ⟨k, hk⟩ := enabled.2.eq
    simp only [next, hk]
    exact h.endOp hk
  | diskWrite => exact h.diskWrite enabled.2.1
  | finish =>
    refine h.congr opOf_finish rfl (fun hne => (hne rfl).elim) ?_
    exact ⟨fun hf => Bool.noConfusion hf, False.elim⟩
  | boot =>
    have hdown : s.phase ≠ .running := by
      rw [enabled.2]
      exact Phase.noConfusion
    have hcommit : ¬ s.committing = true := by
      rw [h.committing_iff, enabled.2]
      exact id
    obtain ⟨_, _, _, phase, hboot, hphase⟩ := boot_eq g s
    have hout : ¬ phase.Commits := by
      rcases hphase with ⟨-, -, rfl⟩ | ⟨-, rfl | ⟨-, rfl⟩⟩
      · rw [enabled.2]
        exact id
      · exact id
      · exact id
    simp only [next, hboot]
    exact h.congr rfl rfl (fun _ => hdown) ⟨fun hc => (hcommit hc).elim, fun hc => (hout hc).elim⟩
  | bget k b =>
    obtain ⟨_, _, hget, -⟩ := bget_eq s k b
    simp only [next, hget]
    exact h.congr rfl rfl id h.committing_iff
  | acquire k b => exact h.congr rfl rfl id h.committing_iff
  | brelse p b => exact h.congr rfl rfl id h.committing_iff

theorem counted_of_init (h : s.Init g) : s.Counted := by
  rw [h.2]
  refine ⟨⟨∅, fun p => ?_, rfl⟩, fun _ _ => rfl, ?_⟩
  · simp [opOf, OpPc.op]
  · exact ⟨fun hf => Bool.noConfusion hf, False.elim⟩

/-! ## Calls past the check of `log_write` -/

/-- The entries leave room for one more. -/
def Room (g : Geometry) (s : State) : Prop :=
  s.lh.length < LOGSIZE ∧ s.lh.length + 1 < g.size

theorem checked_of_setOp {pc : OpPc} {q : ℕ} (hpc : ¬ pc.IsChecked)
    (h : (s.setOp p pc).ops q = .checked k b v) : s.ops q = .checked k b v := by
  by_cases hq : q = p
  · rw [hq, ops_setOp_self] at h
    rw [h] at hpc
    exact (hpc trivial).elim
  · rwa [ops_setOp_of_ne hq] at h

theorem checked_of_wakeup {q : ℕ} (h : s.wakeup.ops q = .checked k b v) :
    s.ops q = .checked k b v := by
  unfold wakeup at h
  dsimp only at h
  split at h
  · cases h
  · exact h

theorem checked_of_finish {q : ℕ} (h : s.finish.ops q = .checked k b v) :
    s.ops q = .checked k b v := by
  unfold finish at h
  dsimp only at h
  split at h
  · cases h
  · exact checked_of_wakeup h

/-- A call past the check was there before, or it has just made the check. -/
theorem checked_next {q : ℕ} (enabled : s.Enabled g l)
    (h : (s.next g l).ops q = .checked k b v) :
    s.ops q = .checked k b v ∨ l = .logCheck q b v ∧ s.ops q = .active k ∧ s.Room g := by
  cases l with
  | crash => cases h
  | beginOp p =>
    simp only [next, beginOp] at h
    split at h
    · exact .inl (checked_of_setOp id h)
    split at h
    · exact .inl (checked_of_setOp id h)
    · exact .inl (checked_of_setOp id h)
  | logCheck p block data =>
    obtain ⟨j, hj⟩ := enabled.2.1.eq
    simp only [next, hj, logCheck] at h
    split at h
    · exact .inl h
    split at h
    · exact .inl h
    next hroom _ =>
    by_cases hq : q = p
    · subst hq
      rw [ops_setOp_self] at h
      cases h
      exact .inr ⟨rfl, hj, by unfold Room; omega⟩
    · rw [ops_setOp_of_ne hq] at h
      exact .inl h
  | logAppend p =>
    obtain ⟨j, c, x, hj⟩ := enabled.2.eq
    simp only [next, hj] at h
    exact .inl (checked_of_setOp id h)
  | endOp p =>
    obtain ⟨j, hj⟩ := enabled.2.eq
    simp only [next, hj, endOp] at h
    split at h
    · exact .inl (checked_of_setOp (s := s) id h)
    split at h
    · exact .inl (checked_of_setOp (s := s) id h)
    · exact .inl (checked_of_setOp (s := s) id (checked_of_wakeup h))
  | diskWrite =>
    simp only [next, diskWrite_ops.1] at h
    exact .inl h
  | finish => exact .inl (checked_of_finish h)
  | boot =>
    obtain ⟨_, _, _, _, hboot, -⟩ := boot_eq g s
    simp only [next, hboot] at h
    exact .inl h
  | bget k b =>
    obtain ⟨_, _, hget, -⟩ := bget_eq s k b
    simp only [next, hget] at h
    exact .inl h
  | acquire k b => exact .inl h
  | brelse p b => exact .inl h

/-- All that the operations of a group ever logged is in the group. -/
def IsUnion (s : State) (group : List Write) : Prop :=
  ∀ w ∈ group, w.op ∈ s.ghost.ended ∧ Write.of w.op group = Write.of w.op s.ghost.trace

/-- The ghost record of operations and groups. -/
structure Recorded (s : State) : Prop where
  trace_old : ∀ w ∈ s.ghost.trace, w.op < s.ghost.nextOp
  ended_old : ∀ k ∈ s.ghost.ended, k < s.ghost.nextOp
  open_old : ∀ p k, s.opOf p = some k → k < s.ghost.nextOp
  open_not_ended : ∀ p k, s.opOf p = some k → k ∉ s.ghost.ended
  open_inj : ∀ p q k, s.opOf p = some k → s.opOf q = some k → p = q
  open_in_cur : ∀ p k, s.opOf p = some k → Write.of k s.ghost.cur = Write.of k s.ghost.trace
  cur_ops : ∀ w ∈ s.ghost.cur, w.op ∈ s.ghost.ended ∨ ∃ p, s.opOf p = some w.op
  cur_whole : ∀ w ∈ s.ghost.cur, Write.of w.op s.ghost.cur = Write.of w.op s.ghost.trace
  hist_whole : ∀ group ∈ s.ghost.hist, s.IsUnion group

section

variable (h : s.Recorded)

include h

theorem Recorded.cur_old {w : Write} (hw : w ∈ s.ghost.cur) : w.op < s.ghost.nextOp := by
  rcases h.cur_ops w hw with hended | ⟨p, hp⟩
  · exact h.ended_old _ hended
  · exact h.open_old p _ hp

theorem Recorded.congr (hop : t.opOf = s.opOf) (hghost : t.ghost = s.ghost) : t.Recorded := by
  obtain ⟨h1, h2, h3, h4, h5, h6, h7, h8, h9⟩ := h
  constructor <;> simp only [hop, hghost, IsUnion] <;> assumption

/-- Forgetting the current group, when no operation is in progress. -/
theorem Recorded.forget (hidle : ∀ p, t.opOf p = none)
    (hghost : t.ghost = { s.ghost with cur := [] }) : t.Recorded where
  trace_old := by rw [hghost]; exact h.trace_old
  ended_old := by rw [hghost]; exact h.ended_old
  open_old p k hk := by rw [hidle p] at hk; cases hk
  open_not_ended p k hk := by rw [hidle p] at hk; cases hk
  open_inj p q k hk := by rw [hidle p] at hk; cases hk
  open_in_cur p k hk := by rw [hidle p] at hk; cases hk
  cur_ops := by rw [hghost]; exact fun w hw => nomatch hw
  cur_whole := by rw [hghost]; exact fun w hw => nomatch hw
  hist_whole := by unfold IsUnion; rw [hghost]; exact h.hist_whole

/-- An operation starts under a new number. -/
theorem Recorded.start (hp : s.opOf p = none)
    (hop : t.opOf = update s.opOf p (some s.ghost.nextOp))
    (hghost : t.ghost = { s.ghost with nextOp := s.ghost.nextOp + 1 }) : t.Recorded := by
  have hother : ∀ q k, t.opOf q = some k → q = p ∧ k = s.ghost.nextOp ∨ s.opOf q = some k := by
    intro q k hq
    rw [hop] at hq
    grind
  have hkeep : ∀ q k, s.opOf q = some k → t.opOf q = some k := by
    intro q k hq
    have hqp : q ≠ p := by
      rintro rfl
      rw [hp] at hq
      cases hq
    rw [hop, update_of_ne hqp]
    exact hq
  refine ⟨?_, ?_, ?_, ?_, ?_, ?_, ?_, ?_, ?_⟩
  · rw [hghost]
    exact fun w hw => Nat.lt_succ_of_lt (h.trace_old w hw)
  · rw [hghost]
    exact fun k hk => Nat.lt_succ_of_lt (h.ended_old k hk)
  · intro q k hq
    rw [hghost]
    rcases hother q k hq with ⟨-, rfl⟩ | hold
    · exact Nat.lt_succ_self _
    · exact Nat.lt_succ_of_lt (h.open_old q k hold)
  · intro q k hq
    rw [hghost]
    rcases hother q k hq with ⟨-, rfl⟩ | hold
    · exact fun hmem => Nat.lt_irrefl _ (h.ended_old _ hmem)
    · exact h.open_not_ended q k hold
  · intro q r k hq hr
    rcases hother q k hq with ⟨rfl, rfl⟩ | hq' <;> rcases hother r _ hr with ⟨rfl, hk⟩ | hr'
    · rfl
    · exact (Nat.lt_irrefl _ (h.open_old r _ hr')).elim
    · exact (Nat.lt_irrefl _ (hk ▸ h.open_old q _ hq')).elim
    · exact h.open_inj q r k hq' hr'
  · intro q k hq
    rw [hghost]
    rcases hother q k hq with ⟨-, rfl⟩ | hold
    · -- nothing was logged under the new number yet
      exact (Write.of_eq_nil fun w hw => (h.cur_old hw).ne).trans
        (Write.of_eq_nil fun w hw => (h.trace_old w hw).ne).symm
    · exact h.open_in_cur q k hold
  · rw [hghost]
    exact fun w hw => (h.cur_ops w hw).imp id fun ⟨q, hq⟩ => ⟨q, hkeep q _ hq⟩
  · rw [hghost]
    exact h.cur_whole
  · unfold IsUnion
    rw [hghost]
    exact h.hist_whole

/-- An operation in progress logs a block. -/
theorem Recorded.append (hp : s.opOf p = some k) (hop : t.opOf = s.opOf) {w : Write}
    (hw : w.op = k)
    (hghost : t.ghost = { s.ghost with cur := s.ghost.cur ++ [w], trace := s.ghost.trace ++ [w] }) :
    t.Recorded := by
  -- the new write extends both records in the same way
  have hboth : ∀ j, Write.of j s.ghost.cur = Write.of j s.ghost.trace →
      Write.of j (s.ghost.cur ++ [w]) = Write.of j (s.ghost.trace ++ [w]) := by
    grind [Write.of_concat_self, Write.of_concat_of_ne]
  have hmem : ∀ x ∈ s.ghost.cur ++ [w], x = w ∨ x ∈ s.ghost.cur := by
    intro x hx
    simpa [or_comm] using hx
  refine ⟨?_, ?_, ?_, ?_, ?_, ?_, ?_, ?_, ?_⟩ <;> simp only [hop, hghost]
  · intro x hx
    rcases List.mem_append.mp hx with hold | hnew
    · exact h.trace_old x hold
    · rw [List.mem_singleton.mp hnew, hw]
      exact h.open_old p k hp
  · exact h.ended_old
  · exact h.open_old
  · exact h.open_not_ended
  · exact h.open_inj
  · exact fun q j hq => hboth j (h.open_in_cur q j hq)
  · grind [h.cur_ops]
  · grind [h.open_in_cur, h.cur_whole]
  · intro group hgroup x hx
    obtain ⟨hended, hof⟩ := h.hist_whole group hgroup x hx
    grind [h.open_not_ended, Write.of_concat_of_ne]

/-- An operation ends. -/
theorem Recorded.finishOp (hp : s.opOf p = some k) (hop : t.opOf = update s.opOf p none)
    (hghost : t.ghost = { s.ghost with ended := k :: s.ghost.ended }) : t.Recorded := by
  have hother : ∀ q j, t.opOf q = some j → q ≠ p ∧ s.opOf q = some j := by
    intro q j hq
    rw [hop] at hq
    grind
  refine ⟨?_, ?_, ?_, ?_, ?_, ?_, ?_, ?_, ?_⟩
  · rw [hghost]
    exact h.trace_old
  · rw [hghost]
    intro j hj
    rcases List.mem_cons.mp hj with rfl | hold
    · exact h.open_old p _ hp
    · exact h.ended_old j hold
  · intro q j hq
    rw [hghost]
    exact h.open_old q j (hother q j hq).2
  · grind [h.open_inj, h.open_not_ended]
  · exact fun q r j hq hr => h.open_inj q r j (hother q j hq).2 (hother r j hr).2
  · intro q j hq
    rw [hghost]
    exact h.open_in_cur q j (hother q j hq).2
  · intro w hw
    rw [hghost] at hw ⊢
    rcases h.cur_ops w hw with hended | ⟨q, hq⟩
    · exact .inl (List.mem_cons_of_mem _ hended)
    · by_cases hqp : q = p
      · subst hqp
        rw [hp] at hq
        exact .inl (Option.some.inj hq ▸ List.mem_cons_self)
      · exact .inr ⟨q, by rw [hop, update_of_ne hqp]; exact hq⟩
  · rw [hghost]
    exact h.cur_whole
  · intro group hgroup w hw
    rw [hghost] at hgroup ⊢
    exact (h.hist_whole group hgroup w hw).imp (List.mem_cons_of_mem _) id

/-- The header is written: the current group is committed. -/
theorem Recorded.commit (hidle : ∀ p, s.opOf p = none) (hop : t.opOf = s.opOf)
    (hghost : t.ghost = { s.ghost with hist := s.ghost.hist ++ [s.ghost.cur], cur := [] }) :
    t.Recorded := by
  have hgroup : s.IsUnion s.ghost.cur := by
    refine fun w hw => ⟨?_, h.cur_whole w hw⟩
    grind [h.cur_ops]
  refine Recorded.forget (s := { s with
    ghost := { s.ghost with hist := s.ghost.hist ++ [s.ghost.cur] } }) ?_ (hop ▸ hidle) hghost
  refine ⟨h.trace_old, h.ended_old, h.open_old, h.open_not_ended, h.open_inj, h.open_in_cur,
    h.cur_ops, h.cur_whole, fun group hmem => ?_⟩
  rcases List.mem_append.mp hmem with hold | hnew
  · exact h.hist_whole group hold
  · rw [List.mem_singleton.mp hnew]
    exact hgroup

theorem Recorded.endOp (hc : s.Counted) (hp : s.ops p = .active k) : (s.endOp p k).Recorded := by
  have hop : s.opOf p = some k := opOf_eq hp
  have hcommit := hc.not_committing hop
  unfold State.endOp
  simp only [hcommit, Bool.false_eq_true, if_false]
  split
  · exact h.finishOp hop opOf_setOp rfl
  · refine (h.finishOp (t := { s.setOp p .idle with
      ghost := { s.ghost with ended := k :: s.ghost.ended } }) hop ?_ rfl).congr ?_ rfl
    · exact opOf_setOp
    · exact opOf_wakeup

theorem Recorded.diskWrite (hc : s.Counted) : (s.diskWrite g).Recorded := by
  have hop : (s.diskWrite g).opOf = s.opOf := by
    unfold opOf
    rw [diskWrite_ops.1]
  by_cases hphase : s.phase = .writeHead
  · refine h.commit (hc.quiet (by rw [hphase]; exact Phase.noConfusion)) hop ?_
    simp only [State.diskWrite, hphase]
  · refine h.congr hop ?_
    unfold State.diskWrite
    split <;> (try split) <;> first | rfl | contradiction

theorem Recorded.next (hc : s.Counted) (enabled : s.Enabled g l) : (s.next g l).Recorded := by
  cases l with
  | crash => exact h.forget (fun _ => rfl) rfl
  | beginOp p =>
    have hnone : s.opOf p = none := enabled.2.2.op_eq
    have hsleep : (s.setOp p .sleeping).Recorded := h.congr (opOf_setOp_eq hnone) rfl
    simp only [next, beginOp]
    split
    · exact hsleep
    split
    · exact hsleep
    · exact h.start hnone opOf_setOp rfl
  | logCheck p block data =>
    obtain ⟨k, hk⟩ := enabled.2.1.eq
    simp only [next, hk]
    unfold logCheck
    split
    · exact h.congr rfl rfl
    split
    · exact h.congr rfl rfl
    · exact h.congr (opOf_setOp_eq ((opOf_eq hk).trans rfl)) rfl
  | logAppend p =>
    obtain ⟨k, b, v, hk⟩ := enabled.2.eq
    simp only [next, hk]
    have hop : (s.setOp p (.active k)).opOf = s.opOf := opOf_setOp_eq ((opOf_eq hk).trans rfl)
    exact h.append (p := p) (k := k) (w := ⟨k, b, v⟩) (opOf_eq hk) hop rfl rfl
  | endOp p =>
    obtain ⟨k, hk⟩ := enabled.2.eq
    simp only [next, hk]
    exact h.endOp hc hk
  | diskWrite => exact h.diskWrite hc
  | finish => exact h.congr opOf_finish rfl
  | boot =>
    obtain ⟨_, _, _, _, hboot, -⟩ := boot_eq g s
    simp only [next, hboot]
    exact h.congr rfl rfl
  | bget k b =>
    obtain ⟨_, _, hget, -⟩ := bget_eq s k b
    simp only [next, hget]
    exact h.congr rfl rfl
  | acquire k b => exact h.congr rfl rfl
  | brelse p b => exact h.congr rfl rfl

end

theorem recorded_of_init (h : s.Init g) : s.Recorded := by
  rw [h.2]
  constructor <;> intros <;> contradiction

end State

end Xv6.Log
