/-
# Log space

`begin_op` admits an operation when the entries in use and `MAXOPBLOCKS` for every
operation in progress fit into `LOGSIZE`. `log_write` refuses to work once
`log.size - 1` entries are in use, one less, since the log area also holds the header,
and it does so before it looks whether the block is there already. So the reservation
covers operations that log one block less than `MAXOPBLOCKS`, and does not cover
three that use their whole share.
-/

import Xv6.Log.Ops
import Mathlib.Algebra.BigOperators.Group.Finset.Basic
import Mathlib.Algebra.Order.BigOperators.Group.Finset
import Mathlib.Algebra.Group.Action.Defs

namespace Xv6.Log

open Function Xv6.Lib

namespace State

variable {g : Geometry} {s t : State} {l : Label} {p q k b : ℕ} {v : Bytes}

/-- The entries are the blocks logged since the last commit, each once. -/
structure Tracks (s : State) : Prop where
  nodup : s.lh.Nodup
  mem_iff : ∀ b, b ∈ s.lh ↔ ∃ w ∈ s.ghost.cur, w.block = b

/-- What is known of the entries in each phase. -/
def Entries (s : State) : Phase → Prop
  | .running => s.Tracks ∧ (s.outstanding = 0 → s.lh = [])
  | .writeLog _ | .writeHead => True
  | .install _ | .recover _ => s.ghost.cur = []
  | .clear | .recoverClear | .finish | .down => s.lh = [] ∧ s.ghost.cur = []

theorem tracks_of_nil (hlh : s.lh = []) (hcur : s.ghost.cur = []) : s.Tracks := by
  constructor
  · rw [hlh]
    exact List.nodup_nil
  · simp [hlh, hcur]

theorem Tracks.congr (h : s.Tracks) (hlh : t.lh = s.lh) (hcur : t.ghost.cur = s.ghost.cur) :
    t.Tracks := by
  constructor
  · rw [hlh]
    exact h.nodup
  · rw [hlh, hcur]
    exact h.mem_iff

theorem Tracks.logAppend (h : s.Tracks) : (s.logAppend p k b v).Tracks := by
  have hcur : ∀ x, (∃ w ∈ (s.logAppend p k b v).ghost.cur, w.block = x) ↔ x ∈ s.lh ∨ b = x := by
    intro x
    rw [h.mem_iff]
    simp [State.logAppend, or_and_right, exists_or]
  by_cases hb : b ∈ s.lh
  · have hlh : (s.logAppend p k b v).lh = s.lh := if_pos hb
    refine ⟨hlh ▸ h.nodup, fun x => ?_⟩
    rw [hcur, hlh]
    exact ⟨.inl, fun hor => hor.elim id fun hx => hx ▸ hb⟩
  · have hlh : (s.logAppend p k b v).lh = s.lh ++ [b] := if_neg hb
    refine ⟨?_, fun x => ?_⟩
    · rw [hlh, ← List.concat_eq_append, List.nodup_concat]
      exact ⟨hb, h.nodup⟩
    · rw [hcur, hlh, List.mem_append, List.mem_singleton, eq_comm (a := x)]

/-- The number of entries is the number of distinct blocks logged. -/
theorem Tracks.length_eq (h : s.Tracks) :
    s.lh.length = (s.ghost.cur.map Write.block).toFinset.card := by
  rw [← List.toFinset_card_of_nodup h.nodup]
  congr 1
  ext b
  simp [h.mem_iff b]

theorem Entries.congr {ph : Phase} (h : s.Entries ph) (hlh : t.lh = s.lh)
    (hcur : t.ghost.cur = s.ghost.cur) (hout : t.outstanding = 0 → s.outstanding = 0) :
    t.Entries ph := by
  cases ph with
  | running => exact ⟨h.1.congr hlh hcur, fun hzero => hlh ▸ h.2 (hout hzero)⟩
  | writeLog _ | writeHead => trivial
  | install _ | recover _ => exact hcur.trans h
  | clear | recoverClear | finish | down => exact ⟨hlh.trans h.1, hcur.trans h.2⟩

theorem Entries.endOp (h : s.Entries .running) (hc : s.Counted) (hp : s.opOf p = some k) :
    (s.endOp p k).Entries (s.endOp p k).phase := by
  have hcommit := hc.not_committing hp
  unfold State.endOp
  simp only [hcommit, Bool.false_eq_true, if_false]
  split
  · by_cases hpos : s.lh.length > 0
    · simp only [if_pos hpos]
      trivial
    · have hlh : s.lh = [] := List.eq_nil_of_length_eq_zero (Nat.eq_zero_of_not_pos hpos)
      simp only [if_neg hpos]
      refine ⟨hlh, List.eq_nil_iff_forall_not_mem.mpr fun w hw => ?_⟩
      have := (h.1.mem_iff w.block).mpr ⟨w, hw, rfl⟩
      rw [hlh] at this
      exact List.not_mem_nil this
  · next hmore =>
    change Entries _ s.phase
    rw [hc.running hp]
    exact ⟨h.1.congr rfl rfl, fun hzero => (hmore hzero).elim⟩

theorem Entries.diskWrite (h : s.Entries s.phase) (hw : s.phase.Writes) :
    (s.diskWrite g).Entries (s.diskWrite g).phase := by
  cases hphase : s.phase with
  | running | finish | down =>
    rw [hphase] at hw
    exact hw.elim
  | writeLog tail =>
    simp only [State.diskWrite, hphase]
    split <;> trivial
  | writeHead =>
    simp only [State.diskWrite, hphase]
    rfl
  | install tail | recover tail =>
    rw [hphase] at h
    simp only [State.diskWrite, hphase]
    split
    · exact h
    · exact ⟨rfl, h⟩
  | clear =>
    rw [hphase] at h
    simp only [State.diskWrite, hphase]
    exact h
  | recoverClear =>
    rw [hphase] at h
    simp only [State.diskWrite, hphase]
    exact ⟨tracks_of_nil h.1 h.2, fun _ => h.1⟩

theorem Entries.next (h : s.Entries s.phase) (hc : s.Counted) (enabled : s.Enabled g l) :
    (s.next g l).Entries (s.next g l).phase := by
  cases l with
  | crash => exact ⟨rfl, rfl⟩
  | beginOp p =>
    simp only [State.next, beginOp]
    split
    · exact h.congr rfl rfl id
    split
    · exact h.congr rfl rfl id
    · exact h.congr rfl rfl fun hzero => absurd hzero (Nat.succ_ne_zero _)
  | logCheck p block data =>
    obtain ⟨k, hk⟩ := enabled.2.1.eq
    simp only [State.next, hk, logCheck]
    split
    · exact h.congr rfl rfl id
    split
    · exact h.congr rfl rfl id
    · exact h.congr rfl rfl id
  | logAppend p =>
    obtain ⟨k, b, v, hk⟩ := enabled.2.eq
    have hop : s.opOf p = some k := opOf_eq hk
    have hrunning := hc.running hop
    rw [hrunning] at h
    simp only [State.next, hk]
    rw [show (s.logAppend p k b v).phase = .running from hrunning]
    refine ⟨h.1.logAppend, fun hzero => ?_⟩
    exact absurd hzero (hc.outstanding_pos hop).ne'
  | endOp p =>
    obtain ⟨k, hk⟩ := enabled.2.eq
    have hop : s.opOf p = some k := opOf_eq hk
    rw [hc.running hop] at h
    simp only [State.next, hk]
    exact h.endOp hc hop
  | diskWrite => exact h.diskWrite enabled.2.1
  | finish =>
    rw [enabled.2] at h
    exact ⟨tracks_of_nil h.1 h.2, fun _ => h.1⟩
  | boot =>
    rw [enabled.2] at h
    obtain ⟨_, _, _, _, hboot, hphase⟩ := boot_eq g s
    simp only [State.next, hboot]
    rcases hphase with ⟨-, rfl, rfl⟩ | ⟨-, rfl | ⟨rfl, rfl⟩⟩
    · rw [enabled.2]
      exact h
    · exact h.2
    · exact ⟨rfl, h.2⟩
  | bget k b =>
    obtain ⟨_, _, hget, -⟩ := bget_eq s k b
    simp only [State.next, hget]
    exact h.congr rfl rfl id
  | acquire k b => exact h.congr rfl rfl id
  | brelse p b => exact h.congr rfl rfl id

/-- The distinct blocks an operation has logged. -/
def opBlocks (s : State) (k : ℕ) : Finset ℕ := ((Write.of k s.ghost.trace).map Write.block).toFinset

/-- Calling `log_write` on `block` keeps the operation of a process within `n` distinct
blocks. -/
def CallWithin (n : ℕ) (s : State) (block : ℕ) : OpPc → Prop
  | .active k | .checked k _ _ => (insert block (s.opBlocks k)).card ≤ n
  | .idle | .beginning | .sleeping | .committing => True

instance (n : ℕ) (s : State) (block : ℕ) (pc : OpPc) : Decidable (s.CallWithin n block pc) := by
  apply pc.casesOn (motive := fun pc => Decidable (s.CallWithin n block pc)) <;> intros <;>
    dsimp only [CallWithin] <;> infer_instance

/-- Every operation calls `log_write` on at most `n` distinct blocks. -/
def LogsAtMost (n : ℕ) (s : State) : Label → Prop
  | .logCheck p block _ => s.CallWithin n block (s.ops p)
  | .beginOp _ | .logAppend _ | .endOp _ | .diskWrite | .finish | .crash | .boot | .bget _ _
  | .acquire _ _ | .brelse _ _ => True

instance (n : ℕ) (s : State) (l : Label) : Decidable (s.LogsAtMost n l) := by
  apply l.casesOn (motive := fun l => Decidable (s.LogsAtMost n l)) <;> intros <;>
    dsimp only [LogsAtMost] <;> infer_instance

theorem opBlocks_logAppend_self :
    (s.logAppend p k b v).opBlocks k = insert b (s.opBlocks k) := by
  have htrace : (s.logAppend p k b v).ghost.trace = s.ghost.trace ++ [⟨k, b, v⟩] := rfl
  rw [opBlocks, htrace, Write.of_concat_self (k := k) (w := ⟨k, b, v⟩) _ rfl]
  ext x
  simp [opBlocks]

theorem opBlocks_logAppend_of_ne {j : ℕ} (h : k ≠ j) :
    (s.logAppend p k b v).opBlocks j = s.opBlocks j := by
  have htrace : (s.logAppend p k b v).ghost.trace = s.ghost.trace ++ [⟨k, b, v⟩] := rfl
  rw [opBlocks, htrace, Write.of_concat_of_ne _ h]
  rfl

/-- Only `log_write` adds to the record of writes. -/
theorem trace_next (enabled : s.Enabled g l) (happend : ∀ p, l ≠ .logAppend p) :
    (s.next g l).ghost.trace = s.ghost.trace := by
  cases l with
  | logAppend p => exact (happend p rfl).elim
  | crash | finish | acquire _ _ | brelse _ _ => rfl
  | beginOp p =>
    simp only [State.next, beginOp]
    split
    · rfl
    split <;> rfl
  | logCheck p block data =>
    obtain ⟨j, hj⟩ := enabled.2.1.eq
    simp only [State.next, hj, logCheck]
    split
    · rfl
    split <;> rfl
  | endOp p =>
    obtain ⟨j, hj⟩ := enabled.2.eq
    simp only [State.next, hj, endOp]
    split
    · rfl
    split <;> rfl
  | diskWrite =>
    simp only [State.next, diskWrite]
    split <;> (try split) <;> rfl
  | boot =>
    obtain ⟨_, _, _, _, hboot, -⟩ := boot_eq g s
    simp only [State.next, hboot]
  | bget k b =>
    obtain ⟨_, _, hget, -⟩ := bget_eq s k b
    simp only [State.next, hget]

/-- The calls past their check stay within the share. -/
def CallsWithin (n : ℕ) (s : State) : Prop :=
  ∀ p k b v, s.ops p = .checked k b v → (insert b (s.opBlocks k)).card ≤ n

theorem CallsWithin.next {n : ℕ} (h : s.CallsWithin n) (hr : s.Recorded) (enabled : s.Enabled g l)
    (hmost : s.LogsAtMost n l) : (s.next g l).CallsWithin n := by
  intro q k b v hq
  by_cases happend : ∃ p, l = .logAppend p
  · obtain ⟨p, rfl⟩ := happend
    obtain ⟨j, c, x, hj⟩ := enabled.2.eq
    simp only [State.next, hj] at hq ⊢
    have hqp : q ≠ p := by
      rintro rfl
      have hactive : (s.logAppend q j c x).ops q = .active j := ops_setOp_self
      rw [hactive] at hq
      cases hq
    have hold : s.ops q = .checked k b v := by
      rwa [show (s.logAppend p j c x).ops q = s.ops q from ops_setOp_of_ne hqp] at hq
    have hjk : j ≠ k := by
      rintro rfl
      exact hqp (hr.open_inj q p j (opOf_eq hold) (opOf_eq hj))
    rw [opBlocks_logAppend_of_ne hjk]
    exact h q k b v hold
  · have hblocks : (s.next g l).opBlocks k = s.opBlocks k := by
      rw [opBlocks, trace_next enabled fun p hp => happend ⟨p, hp⟩]
      rfl
    rw [hblocks]
    rcases checked_next enabled hq with hold | ⟨rfl, hactive, -⟩
    · exact h q k b v hold
    · have hwithin : s.CallWithin n b (s.ops q) := hmost
      rw [hactive] at hwithin
      exact hwithin

/-! ## The reservation -/

/-- The share that is covered. -/
def share : ℕ := MAXOPBLOCKS - 1

/-- What is left of the share of a process's operation. -/
def spare (s : State) (p : ℕ) : ℕ :=
  match s.opOf p with
  | some k => share - (s.opBlocks k).card
  | none => 0

theorem spare_of_op (h : s.opOf p = some k) : s.spare p = share - (s.opBlocks k).card := by
  simp only [spare, h]

theorem spare_le_share (p : ℕ) : s.spare p ≤ share := by
  unfold spare
  split
  · exact Nat.sub_le _ _
  · exact Nat.zero_le _

theorem spare_congr (hop : t.opOf p = s.opOf p) (htrace : t.ghost.trace = s.ghost.trace) :
    t.spare p = s.spare p := by
  unfold spare opBlocks
  rw [hop, htrace]

theorem Census.unique {S T : Finset ℕ} (hS : s.Census S) (hT : s.Census T) : S = T := by
  ext p
  rw [hS p, hT p]

/-- The entries in use and what the operations in progress may still add. While there
are any, an entry and the slot lost to the header are left over. -/
def Reserved (s : State) : Prop :=
  ∀ S, s.Census S → S.Nonempty → s.lh.length + ∑ p ∈ S, s.spare p ≤ LOGSIZE - 2

theorem Reserved.congr (h : s.Reserved) (hop : t.opOf = s.opOf)
    (htrace : t.ghost.trace = s.ghost.trace) (hlh : t.lh = s.lh) : t.Reserved := by
  intro S hS hne
  rw [hlh, Finset.sum_congr rfl fun p _ => spare_congr (congrFun hop p) htrace]
  exact h S (hS.congr hop.symm) hne

theorem reserved_of_idle (h : ∀ p, t.opOf p = none) : t.Reserved := by
  rintro S hS ⟨p, hp⟩
  exact ((hS p).mp hp (h p)).elim

/-- `begin_op` admits an operation only if its share fits. With no other operation in
progress the log is empty. -/
theorem Reserved.grant (hc : s.Counted) (hentries : s.outstanding = 0 → s.lh = [])
    (hp : s.opOf p = none) (hlh : t.lh = s.lh)
    (hop : t.opOf = update s.opOf p (some k))
    (hfits : s.lh.length + (s.outstanding + 1) * MAXOPBLOCKS ≤ LOGSIZE) : t.Reserved := by
  intro S hS _
  obtain ⟨T, hT, hcard⟩ := hc.outstanding_eq
  obtain ⟨hnot, hcensus⟩ := hT.enter hp hop
  have hS' : S.card = s.outstanding + 1 := by
    rw [hS.unique hcensus, Finset.card_insert_of_notMem hnot, hcard]
  have hsum : ∑ p ∈ S, t.spare p ≤ (s.outstanding + 1) * share := by
    rw [← hS', ← smul_eq_mul]
    exact Finset.sum_le_card_nsmul _ _ _ fun p _ => spare_le_share p
  rw [hlh]
  by_cases hzero : s.outstanding = 0
  · rw [hentries hzero, List.length_nil]
    rw [hzero] at hsum
    exact Nat.le_trans (by omega) (show share ≤ LOGSIZE - 2 by decide)
  · simp only [MAXOPBLOCKS, LOGSIZE, share] at *
    omega

/-- An append takes its entry from the share of its operation. -/
theorem Reserved.logAppend (h : s.Reserved) (hr : s.Recorded) (htracks : s.Tracks)
    (hp : s.ops p = .checked k b v) (hwithin : (insert b (s.opBlocks k)).card ≤ share) :
    (s.logAppend p k b v).Reserved := by
  have hpop : s.opOf p = some k := opOf_eq hp
  have hop : (s.setOp p (.active k)).opOf = s.opOf := opOf_setOp_eq hpop
  intro S hS hne
  have hcensus : s.Census S := hS.congr hop.symm
  have hmem : p ∈ S := (hcensus p).mpr (by simp [hpop])
  have hbudget := h S hcensus hne
  -- the other operations keep what they have left
  have hothers : ∑ q ∈ S.erase p, (s.logAppend p k b v).spare q = ∑ q ∈ S.erase p, s.spare q := by
    refine Finset.sum_congr rfl fun q hq => ?_
    obtain ⟨hqp, hqS⟩ := Finset.mem_erase.mp hq
    obtain ⟨j, hj⟩ := Option.ne_none_iff_exists'.mp ((hcensus q).mp hqS)
    have hkj : k ≠ j := by
      rintro rfl
      exact hqp (hr.open_inj q p k hj hpop)
    rw [spare_of_op (hop ▸ hj), spare_of_op hj, opBlocks_logAppend_of_ne hkj]
  have hown : (s.logAppend p k b v).spare p = share - (insert b (s.opBlocks k)).card := by
    rw [spare_of_op (hop ▸ hpop), opBlocks_logAppend_self]
  have hown' := spare_of_op hpop
  rw [← Finset.add_sum_erase S _ hmem] at hbudget ⊢
  rw [hothers, hown]
  by_cases hb : b ∈ s.lh
  · have hlh : (s.logAppend p k b v).lh = s.lh := if_pos hb
    have hcard := Finset.card_le_card (Finset.subset_insert b (s.opBlocks k))
    rw [hlh]
    omega
  · have hlh : (s.logAppend p k b v).lh = s.lh ++ [b] := if_neg hb
    have hnew : b ∉ s.opBlocks k := by
      intro hmem
      rw [opBlocks, ← hr.open_in_cur p k hpop] at hmem
      obtain ⟨w, hw, hwb⟩ : ∃ w ∈ Write.of k s.ghost.cur, w.block = b := by simpa using hmem
      exact hb ((htracks.mem_iff b).mpr ⟨w, List.mem_of_mem_filter hw, hwb⟩)
    grind

/-- An operation gives up the rest of its share. -/
theorem Reserved.release (h : s.Reserved) (hc : s.Counted) (hp : s.opOf p = some k)
    (hop : t.opOf = update s.opOf p none) (hlh : t.lh = s.lh)
    (htrace : t.ghost.trace = s.ghost.trace) : t.Reserved := by
  intro S hS hne
  obtain ⟨T, hT, -⟩ := hc.outstanding_eq
  obtain ⟨hmem, hcensus⟩ := hT.leave hp hop
  have hST : S = T.erase p := hS.unique hcensus
  have hbudget := h T hT ⟨p, hmem⟩
  have hsum : ∑ q ∈ S, t.spare q ≤ ∑ q ∈ T, s.spare q := by
    rw [hST]
    calc ∑ q ∈ T.erase p, t.spare q = ∑ q ∈ T.erase p, s.spare q := by
          refine Finset.sum_congr rfl fun q hq => spare_congr ?_ htrace
          rw [hop, update_of_ne (Finset.ne_of_mem_erase hq)]
      _ ≤ ∑ q ∈ T, s.spare q := Finset.sum_le_sum_of_subset (Finset.erase_subset _ _)
  rw [hlh]
  omega

/-- The invariant of runs in which every operation stays within the covered share. -/
structure Provided (s : State) : Prop where
  counted : s.Counted
  recorded : s.Recorded
  entries : s.Entries s.phase
  calls : s.CallsWithin share
  reserved : s.Reserved

theorem Provided.reserved_next (h : s.Provided) (enabled : s.Enabled g l) :
    (s.next g l).Reserved := by
  cases l with
  | crash => exact reserved_of_idle fun _ => rfl
  | beginOp p =>
    have hnone : s.opOf p = none := enabled.2.2.op_eq
    have hsleep : (s.setOp p .sleeping).Reserved :=
      h.reserved.congr (opOf_setOp_eq hnone) rfl rfl
    simp only [State.next, beginOp]
    split
    · exact hsleep
    split
    · exact hsleep
    next hcommit hfits =>
    have hrunning := h.counted.running_of_up enabled.2.1 hcommit
    have hentries := h.entries
    rw [hrunning] at hentries
    exact .grant h.counted hentries.2 hnone rfl opOf_setOp (Nat.le_of_not_lt hfits)
  | logCheck p block data =>
    obtain ⟨k, hk⟩ := enabled.2.1.eq
    simp only [State.next, hk, logCheck]
    split
    · exact h.reserved.congr rfl rfl rfl
    split
    · exact h.reserved.congr rfl rfl rfl
    · exact h.reserved.congr (opOf_setOp_eq ((opOf_eq hk).trans rfl)) rfl rfl
  | logAppend p =>
    obtain ⟨k, b, v, hk⟩ := enabled.2.eq
    have hentries := h.entries
    rw [h.counted.running (p := p) (k := k) (opOf_eq hk)] at hentries
    simp only [State.next, hk]
    exact h.reserved.logAppend h.recorded hentries.1 hk (h.calls p k b v hk)
  | endOp p =>
    obtain ⟨k, hk⟩ := enabled.2.eq
    have hop : s.opOf p = some k := opOf_eq hk
    simp only [State.next, hk, endOp, h.counted.not_committing hop, Bool.false_eq_true, if_false]
    split
    · exact h.reserved.release h.counted hop opOf_setOp rfl rfl
    · exact h.reserved.release h.counted hop (opOf_wakeup.trans opOf_setOp) rfl rfl
  | diskWrite =>
    refine reserved_of_idle fun p => ?_
    rw [State.next, opOf, diskWrite_ops.1]
    refine h.counted.quiet (fun hrunning => ?_) p
    have hwrites := enabled.2.1
    rw [hrunning] at hwrites
    exact hwrites
  | finish =>
    refine reserved_of_idle fun p => ?_
    rw [State.next, opOf_finish]
    exact h.counted.quiet (by rw [enabled.2]; exact Phase.noConfusion) p
  | boot =>
    have hidle := h.counted.quiet (by rw [enabled.2]; exact Phase.noConfusion)
    obtain ⟨_, _, _, _, hboot, -⟩ := boot_eq g s
    simp only [State.next, hboot]
    exact reserved_of_idle hidle
  | bget k b =>
    obtain ⟨_, _, hget, -⟩ := bget_eq s k b
    simp only [State.next, hget]
    exact h.reserved.congr rfl rfl rfl
  | acquire k b => exact h.reserved.congr rfl rfl rfl
  | brelse p b => exact h.reserved.congr rfl rfl rfl

theorem Provided.next (h : s.Provided) (enabled : s.Enabled g l) (hmost : s.LogsAtMost share l) :
    (s.next g l).Provided :=
  ⟨h.counted.next enabled, h.recorded.next h.counted enabled, h.entries.next h.counted enabled,
    h.calls.next h.recorded enabled hmost, h.reserved_next enabled⟩

theorem provided_of_init (h : s.Init g) : s.Provided := by
  refine ⟨counted_of_init h, recorded_of_init h, ?_, fun p k b v hp => ?_,
    reserved_of_idle fun p => ?_⟩
  · rw [h.2]
    exact ⟨rfl, rfl⟩
  · rw [h.2] at hp
    cases hp
  · rw [h.2]
    rfl

/-- Only the check of `log_write` panics with "too big a transaction". -/
theorem tooBig_next (enabled : s.Enabled g l) (hs : s.panicked ≠ some .tooBig)
    (h : (s.next g l).panicked = some .tooBig) :
    ∃ p b v, l = .logCheck p b v ∧ (LOGSIZE ≤ s.lh.length ∨ g.size ≤ s.lh.length + 1) := by
  cases l with
  | crash => cases h
  | logAppend p =>
    obtain ⟨k, b, v, hk⟩ := enabled.2.eq
    simp only [State.next, hk] at h
    exact (hs h).elim
  | finish | acquire _ _ | brelse _ _ => exact (hs h).elim
  | beginOp p =>
    simp only [State.next, beginOp] at h
    split at h
    · exact (hs h).elim
    split at h <;> exact (hs h).elim
  | logCheck p block data =>
    obtain ⟨j, hj⟩ := enabled.2.1.eq
    simp only [State.next, hj, logCheck] at h
    split at h
    · next hfull => exact ⟨p, block, data, rfl, hfull⟩
    split at h
    · cases h
    · exact (hs h).elim
  | endOp p =>
    obtain ⟨j, hj⟩ := enabled.2.eq
    simp only [State.next, hj, endOp] at h
    split at h
    · cases h
    split at h <;> exact (hs h).elim
  | diskWrite =>
    simp only [State.next, diskWrite] at h
    split at h <;> (try split at h) <;> exact (hs h).elim
  | boot =>
    obtain ⟨_, _, _, _, hboot, hphase⟩ := boot_eq g s
    simp only [State.next, hboot] at h
    rcases hphase with ⟨hpanic, -⟩ | ⟨hpanic, -⟩
    · rw [hpanic] at h
      cases h
    · rw [hpanic] at h
      exact (hs h).elim
  | bget k b =>
    obtain ⟨_, _, hget, hpanic⟩ := bget_eq s k b
    simp only [State.next, hget] at h
    rcases hpanic with hpanic | hpanic
    · rw [hpanic] at h
      exact (hs h).elim
    · rw [hpanic] at h
      cases h

end State

open State

variable {g : Geometry} {s : State} {p k b : ℕ} {v : Bytes}

/-- With a log of `LOGSIZE` blocks, in every run in which each operation calls `log_write`
on at most `MAXOPBLOCKS - 1` distinct blocks, no call finds the transaction too big. -/
theorem reservation_suffices (hsize : g.size = LOGSIZE)
    (h : ((system g).restrict (LogsAtMost (MAXOPBLOCKS - 1))).Reachable s) :
    s.panicked ≠ some .tooBig := by
  refine (h.invariant (I := fun s => s.Provided ∧ s.panicked ≠ some .tooBig) ?_ ?_).2
  · intro s hs
    refine ⟨provided_of_init hs, ?_⟩
    rw [hs.2]
    exact nofun
  · rintro s l ⟨hprovided, hfine⟩ ⟨enabled, hmost⟩
    refine ⟨hprovided.next enabled hmost, fun hpanic => ?_⟩
    obtain ⟨p, b, v, rfl, hfull⟩ := tooBig_next enabled hfine hpanic
    obtain ⟨k, hk⟩ := enabled.2.1.eq
    obtain ⟨S, hS, -⟩ := hprovided.counted.outstanding_eq
    have hmem : p ∈ S := (hS p).mpr (by simp [opOf, hk, OpPc.op])
    have hbudget := hprovided.reserved S hS ⟨p, hmem⟩
    rw [hsize] at hfull
    simp only [LOGSIZE, MAXOPBLOCKS] at hfull hbudget
    omega

set_option maxRecDepth 10000 in
/-- Three operations of nine blocks each get through. -/
theorem reservation_suffices_for_three :
    ∃ s : State, s.ghost.cur.length = 27 ∧ s.panicked ≠ some .tooBig := by
  obtain ⟨s, hreach, hcur⟩ := Machine.exists_reachable_of_exec
    ((system mkfsLog).restrict (LogsAtMost (MAXOPBLOCKS - 1)))
    (bootLabels mkfsLog ++ [.beginOp 0, .beginOp 1, .beginOp 2] ++ logLabels 0 100 9 7 ++
      logLabels 1 109 9 7 ++ logLabels 2 118 9 7)
    (s := {}) (P := fun s => s.ghost.cur.length = 27) ⟨by decide +kernel, rfl⟩
    (by decide +kernel)
  exact ⟨s, hcur, reservation_suffices rfl hreach⟩

set_option maxRecDepth 10000 in
/-- Three operations that want to log ten blocks each: the last block of the third one is
one too many. -/
theorem full_reservation_panics :
    ∃ s, ((system mkfsLog).restrict (LogsAtMost MAXOPBLOCKS)).Reachable s ∧
      s.panicked = some .tooBig :=
  Machine.exists_reachable_of_exec ((system mkfsLog).restrict (LogsAtMost MAXOPBLOCKS))
    (bootLabels mkfsLog ++ [.beginOp 0, .beginOp 1, .beginOp 2] ++ logLabels 0 100 10 7 ++
      logLabels 1 110 10 7 ++ logLabels 2 120 9 7 ++ checkLabels 2 129 7)
    (s := {}) (P := fun s => s.panicked = some .tooBig) ⟨by decide +kernel, rfl⟩
    (by decide +kernel)

/-- Exactly when `log_write` panics: when one block less than `LOGSIZE` has been logged
since the last commit. The block it is called on does not matter. -/
theorem logCheck_tooBig_iff (hsize : g.size = LOGSIZE) (h : (system g).Reachable s)
    (hpanic : s.panicked = none) (hp : s.ops p = .active k) :
    (s.next g (.logCheck p b v)).panicked = some .tooBig ↔
      LOGSIZE - 1 ≤ (s.ghost.cur.map Write.block).toFinset.card := by
  obtain ⟨hc, hentries⟩ := h.invariant (I := fun s => s.Counted ∧ s.Entries s.phase)
    (fun s hs => ⟨counted_of_init hs, (provided_of_init hs).entries⟩)
    fun s l hs enabled => ⟨hs.1.next enabled, hs.2.next hs.1 enabled⟩
  have hop : s.opOf p = some k := opOf_eq hp
  rw [hc.running hop] at hentries
  rw [← hentries.1.length_eq]
  simp only [State.next, hp, logCheck, hsize]
  have hout := hc.outstanding_pos hop
  split
  · next hfull => exact ⟨fun _ => by omega, fun _ => rfl⟩
  · next hroom =>
    rw [if_neg (by omega), show (s.setOp p (.checked k b v)).panicked = none from hpanic]
    exact ⟨(by simp), fun hfull => (hroom (by omega)).elim⟩

set_option maxRecDepth 10000 in
/-- Operations of ten, ten and nine blocks: the thirtieth block is one too many. -/
theorem logCheck_tooBig_iff_thirtieth : ∃ s : State, (system mkfsLog).Reachable s ∧
    (s.ghost.cur.map Write.block).toFinset.card = 29 ∧
    (s.next mkfsLog (.logCheck 2 129 fun _ => 7)).panicked = some .tooBig := by
  obtain ⟨s, hreach, hpanic, hactive, hcur⟩ := Machine.exists_reachable_of_exec (system mkfsLog)
    (bootLabels mkfsLog ++ [.beginOp 0, .beginOp 1, .beginOp 2] ++ logLabels 0 100 10 7 ++
      logLabels 1 110 10 7 ++ logLabels 2 120 9 7) (s := {})
    (P := fun s => s.panicked = none ∧ (s.ops 2).IsActive ∧
      (s.ghost.cur.map Write.block).toFinset.card = 29) ⟨by decide +kernel, rfl⟩
    (by decide +kernel)
  obtain ⟨k, hk⟩ := hactive.eq
  refine ⟨s, hreach, hcur, (logCheck_tooBig_iff rfl hreach hpanic hk).mpr ?_⟩
  rw [hcur]
  decide

end Xv6.Log
