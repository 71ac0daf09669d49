/-
# References to entries of the inode cache

What every function of the inode layer and of the directory layer does to the reference
counts, in any state. Most of them do nothing; `iget` and `idup` add a reference, `iput`
drops one, and a function that looks something up leaves exactly one reference more, to
the entry it returns.
-/

import Mathlib.Algebra.Group.Pi.Basic
import Mathlib.Algebra.Order.Ring.Int
import Mathlib.Tactic.Abel
import Xv6.Fs.Dir
import Xv6.Fs.Cache

namespace Xv6.Fs

open Xv6.Lib

/-- `P` of the result, if the call returns. -/
abbrev Yields {α : Type} (x : Except Panic α) (P : α → Prop) : Prop := Ends (fun _ => True) x P

/-- Only blocks and the log have changed. -/
def Quiet (s s' : State) : Prop := s'.icache = s.icache ∧ s'.outstanding = s.outstanding

theorem Quiet.refl (s : State) : Quiet s s := ⟨rfl, rfl⟩

theorem Quiet.trans {s s' s'' : State} (h : Quiet s s') (h' : Quiet s' s'') : Quiet s s'' :=
  ⟨h'.1.trans h.1, h'.2.trans h.2⟩

variable {sb : Superblock} {dev : Devsw} {s s' s'' : State} {i off n : ℕ} {d : Dinode}
  {k : Fin NINODE}

namespace State

theorem logWrite_quiet (b : ℕ) (v : Bytes) : Yields (s.logWrite sb b v) (Quiet s) := by
  unfold logWrite
  exact .ite (fun _ => .error trivial) fun _ => .ite (fun _ => .error trivial) fun _ =>
    .ok ⟨rfl, rfl⟩

theorem balloc_quiet : Yields (s.balloc sb) fun r => Quiet s r.2 := by
  unfold balloc
  cases (List.range sb.size).find? fun b => !sb.inUse s.disk b with
  | none => exact .error trivial
  | some b =>
    refine .bind (logWrite_quiet _ _) fun s₁ h₁ => ?_
    refine .bind (logWrite_quiet _ _) fun s₂ h₂ => .pure ?_
    exact h₁.trans h₂

theorem bfree_quiet (b : ℕ) : Yields (s.bfree sb b) (Quiet s) := by
  unfold bfree
  exact .ite (fun _ => logWrite_quiet _ _) fun _ => .error trivial

theorem iupdate_quiet (i : ℕ) (d : Dinode) : Yields (s.iupdate sb i d) (Quiet s) :=
  logWrite_quiet _ _

theorem addrOrAlloc_quiet (d : Dinode) (a : Fin (NDIRECT + 1)) :
    Yields (s.addrOrAlloc sb d a) fun r => Quiet s r.2.2 := by
  unfold addrOrAlloc
  refine .ite (fun _ => ?_) fun _ => .pure (.refl s)
  exact .bind balloc_quiet fun r hr => .pure hr

theorem entryOrAlloc_quiet (addr j : ℕ) :
    Yields (s.entryOrAlloc sb addr j) fun r => Quiet s r.2 := by
  unfold entryOrAlloc
  refine .ite (fun _ => ?_) fun _ => .pure (.refl s)
  refine .bind balloc_quiet fun r hr => ?_
  exact .bind (logWrite_quiet _ _) fun s' hs' => .pure (hr.trans hs')

theorem bmap_quiet (d : Dinode) (bn : ℕ) : Yields (s.bmap sb d bn) fun r => Quiet s r.2.2 := by
  unfold bmap
  split
  · exact addrOrAlloc_quiet _ _
  · refine .ite (fun _ => ?_) fun _ => .error trivial
    refine .bind (addrOrAlloc_quiet _ _) fun r hr => ?_
    exact .bind (entryOrAlloc_quiet _ _) fun r' hr' => .pure (hr.trans hr')

theorem freeAll_quiet (bs : List ℕ) : Yields (freeAll sb bs s) (Quiet s) := by
  induction bs generalizing s with
  | nil => exact .pure (.refl s)
  | cons b rest ih =>
    rw [freeAll]
    dsimp only
    refine .ite (fun _ => ih) fun _ => ?_
    exact .bind (bfree_quiet b) fun s₁ h₁ => ih.mono fun s₂ h₂ => h₁.trans h₂

theorem freeIndirect_quiet (d : Dinode) : Yields (s.freeIndirect sb d) fun r => Quiet s r.2 := by
  unfold freeIndirect
  refine .ite (fun _ => .pure (.refl s)) fun _ => ?_
  refine .bind (freeAll_quiet _) fun s₁ h₁ => ?_
  exact .bind (bfree_quiet _) fun s₂ h₂ => .pure (h₁.trans h₂)

theorem itrunc_quiet (i : ℕ) (d : Dinode) : Yields (s.itrunc sb i d) fun r => Quiet s r.2 := by
  unfold itrunc
  refine .bind (freeAll_quiet _) fun s₁ h₁ => ?_
  refine .bind (freeIndirect_quiet _) fun r₂ h₂ => ?_
  exact .bind (iupdate_quiet _ _) fun s₃ h₃ => .pure ((h₁.trans h₂).trans h₃)

theorem readLoop_quiet (fuel : ℕ) (d : Dinode) (off n : ℕ) :
    Yields (readLoop sb fuel s d off n) fun r => Quiet s r.2.2 := by
  induction fuel generalizing s d off n with
  | zero => exact .pure (.refl s)
  | succ fuel ih =>
    rw [readLoop]
    refine .ite (fun _ => .pure (.refl s)) fun _ => ?_
    refine .bind (bmap_quiet _ _) fun r₁ h₁ => ?_
    exact .bind (ih _ _ _) fun r₂ h₂ => .pure (h₁.trans h₂)

theorem writeLoop_quiet (fuel : ℕ) (d : Dinode) (off : ℕ) (src : List UInt8) :
    Yields (writeLoop sb fuel s d off src) fun r => Quiet s r.2 := by
  induction fuel generalizing s d off src with
  | zero => exact .pure (.refl s)
  | succ fuel ih =>
    rw [writeLoop]
    refine .ite (fun _ => .pure (.refl s)) fun _ => ?_
    refine .bind (bmap_quiet _ _) fun r₁ h₁ => ?_
    refine .bind (logWrite_quiet _ _) fun s₂ h₂ => ?_
    exact (ih _ _ _).mono fun r₃ h₃ => (h₁.trans h₂).trans h₃

theorem growSize_quiet (i : ℕ) (d : Dinode) (off n : ℕ) :
    Yields (s.growSize sb i d off n) fun r => Quiet s r.2 := by
  unfold growSize
  refine .ite (fun _ => ?_) fun _ => .pure (.refl s)
  exact .bind (iupdate_quiet _ _) fun s' hs' => .pure hs'

end State

/-- No inode has two entries. -/
def OneEntry (s : State) : Prop :=
  ∀ k l, 0 < (s.icache k).ref → 0 < (s.icache l).ref →
    (s.icache k).inum = (s.icache l).inum → k = l

/-- From `s` to `s'` the reference counts have changed by `δ`. -/
structure Moves (δ : Fin NINODE → ℤ) (s s' : State) : Prop where
  ref_eq : ∀ l, ((s'.icache l).ref : ℤ) = (s.icache l).ref + δ l
  one : OneEntry s → OneEntry s'
  outstanding_eq : s'.outstanding = s.outstanding

namespace Moves

variable {δ δ' : Fin NINODE → ℤ}

theorem refl (s : State) : Moves 0 s s := ⟨fun _ => (add_zero _).symm, id, rfl⟩

theorem congr (h : Moves δ s s') (hδ : δ = δ') : Moves δ' s s' := hδ ▸ h

theorem trans (h : Moves δ s s') (h' : Moves δ' s' s'') : Moves (δ + δ') s s'' := by
  refine ⟨fun l => ?_, fun hs => h'.one (h.one hs), h'.outstanding_eq.trans h.outstanding_eq⟩
  rw [h'.ref_eq, h.ref_eq, Pi.add_apply, add_assoc]

/-- After steps that change nothing. -/
theorem after (h : Moves 0 s s') (h' : Moves δ s' s'') : Moves δ s s'' :=
  (h.trans h').congr (zero_add δ)

theorem before (h : Moves δ s s') (h' : Moves 0 s' s'') : Moves δ s s'' :=
  (h.trans h').congr (add_zero δ)

theorem pos_of_nonneg (h : Moves δ s s') (hδ : 0 ≤ δ k) (hk : 0 < (s.icache k).ref) :
    0 < (s'.icache k).ref := by
  have := h.ref_eq k
  omega

theorem pos (h : Moves 0 s s') (hk : 0 < (s.icache k).ref) : 0 < (s'.icache k).ref :=
  h.pos_of_nonneg (le_refl _) hk

end Moves

/-- A change of an entry that keeps its number and its references. -/
theorem moves_setInode {ip : Inode} (href : ip.ref = (s.icache k).ref)
    (hinum : ip.inum = (s.icache k).inum) : Moves 0 s (s.setInode k ip) := by
  have hall : ∀ l, ((s.setInode k ip).icache l).ref = (s.icache l).ref ∧
      ((s.setInode k ip).icache l).inum = (s.icache l).inum := by
    intro l
    unfold State.setInode
    grind
  refine ⟨fun l => ?_, fun h l m hl hm heq => ?_, rfl⟩
  · rw [(hall l).1, Pi.zero_apply, add_zero]
  · rw [(hall _).1] at hl hm
    rw [(hall _).2, (hall _).2] at heq
    exact h l m hl hm heq

theorem Quiet.moves (h : Quiet s s') : Moves 0 s s' := by
  refine ⟨fun l => ?_, fun hs => ?_, h.2⟩
  · rw [h.1, Pi.zero_apply, add_zero]
  · unfold OneEntry
    rw [h.1]
    exact hs

/-- One reference to entry `k`. -/
def single (k : Fin NINODE) : Fin NINODE → ℤ := Pi.single k 1

theorem single_apply (k l : Fin NINODE) : single k l = if l = k then 1 else 0 := by
  unfold single
  rw [Pi.single_apply]

theorem single_nonneg (k l : Fin NINODE) : 0 ≤ single k l := by
  rw [single_apply]
  split <;> decide

/-- The entry that has gained a reference can be put. -/
theorem Moves.pos_single (h : Moves (single k) s s') : 0 < (s'.icache k).ref := by
  have := h.ref_eq k
  rw [single_apply, if_pos rfl] at this
  omega

theorem moves_got (h : Got i s k s') : Moves (single k) s s' := by
  rw [h.eq]
  refine ⟨fun l => ?_, fun hone l m hl hm heq => ?_, rfl⟩
  · grind [single_apply, icache_setInode_self, icache_setInode_of_ne]
  · -- the entry of inode `i` is the one that was there, or there was none
    have hk : ∀ l ≠ k, 0 < (s.icache l).ref → (s.icache l).inum ≠ i := by
      intro l hlk hpos hinum
      by_cases hkpos : 0 < (s.icache k).ref
      · exact hlk (hone l k hpos hkpos (hinum.trans (h.inum_eq hkpos).symm))
      · exact h.fresh (by omega) l hpos hinum
    by_cases hlk : l = k <;> by_cases hmk : m = k
    · rw [hlk, hmk]
    · grind [icache_setInode_self, icache_setInode_of_ne]
    · grind [icache_setInode_self, icache_setInode_of_ne]
    · rw [icache_setInode_of_ne _ hlk] at hl heq
      rw [icache_setInode_of_ne _ hmk] at hm heq
      exact hone l m hl hm heq

namespace State

theorem iget_moves (i : ℕ) : Yields (s.iget i) fun r => Moves (single r.1) s r.2 :=
  (iget_ends (.inl trivial)).mono fun _ hr => moves_got hr

theorem idup_moves (hk : 0 < (s.icache k).ref) : Moves (single k) s (s.idup k) := by
  refine moves_got ⟨?_, fun _ => rfl, fun hzero => absurd hzero hk.ne'⟩
  unfold idup
  rw [decide_eq_true hk, Bool.true_and]

theorem ilock_moves : Yields (s.ilock sb k) (Moves 0 s) := by
  unfold ilock
  refine .ite (fun _ => .error trivial) fun _ => .ite (fun _ => .error trivial) fun _ =>
    .ite (fun _ => .error trivial) fun _ => .ok (moves_setInode ?_ ?_)
  all_goals
    unfold load
    split <;> rfl

theorem iunlock_moves : Yields (s.iunlock k) fun s' => Moves 0 s s' ∧ 0 < (s.icache k).ref := by
  refine (iunlock_ends trivial).mono fun s' hs' => ⟨?_, hs'.ref_pos⟩
  rw [hs'.eq]
  exact moves_setInode rfl rfl

theorem release_moves : Yields (s.release sb k) fun s' => Moves 0 s s' := by
  unfold release
  dsimp only
  refine .ite (fun _ => ?_) fun _ => .pure (.refl s)
  refine .bind (itrunc_quiet _ _) fun r₁ h₁ => ?_
  refine .bind (iupdate_quiet _ _) fun s₂ h₂ => .pure ?_
  have hquiet := h₁.trans h₂
  refine hquiet.moves.after (moves_setInode ?_ ?_) <;> rw [hquiet.1]

theorem iput_moves (hk : 0 < (s.icache k).ref) : Yields (s.iput sb k) (Moves (-single k) s) := by
  unfold iput
  refine .ite (fun _ => .error trivial) fun _ => ?_
  refine .bind release_moves fun s₁ h₁ => .pure (h₁.after ?_)
  have hpos := h₁.pos hk
  refine ⟨fun l => ?_, fun hone l m hl hm heq => ?_, rfl⟩
  · grind [Pi.neg_apply, single_apply, icache_setInode_self, icache_setInode_of_ne]
  · have hold : ∀ l, 0 < ((s₁.setInode k { s₁.icache k with
        ref := (s₁.icache k).ref - 1 }).icache l).ref → 0 < (s₁.icache l).ref ∧
        ((s₁.setInode k { s₁.icache k with
          ref := (s₁.icache k).ref - 1 }).icache l).inum = (s₁.icache l).inum := by
      grind [icache_setInode_self, icache_setInode_of_ne]
    rw [(hold l hl).2, (hold m hm).2] at heq
    exact hone l m (hold l hl).1 (hold m hm).1 heq

theorem iunlockput_moves : Yields (s.iunlockput sb k) (Moves (-single k) s) := by
  unfold iunlockput
  refine .bind iunlock_moves fun s₁ h₁ => ?_
  exact (iput_moves (h₁.1.pos h₁.2)).mono fun s₂ h₂ => h₁.1.after h₂

theorem ialloc_moves (type : UInt16) :
    Yields (s.ialloc sb type) fun r => Moves (single r.1) s r.2 := by
  unfold ialloc
  cases (List.range' 1 (sb.ninodes - 1)).find? fun i => (sb.dinode s.disk i).type = 0 with
  | none => exact .error trivial
  | some i =>
    refine .bind (iupdate_quiet _ _) fun s₁ h₁ => ?_
    exact (iget_moves i).mono fun r hr => h₁.moves.after hr

theorem modify_moves (f : Dinode → Dinode) : Yields (s.modify sb k f) (Moves 0 s) := by
  unfold modify
  refine .bind (iupdate_quiet _ _) fun s₁ h₁ => .pure ?_
  exact h₁.moves.after (moves_setInode rfl rfl)

theorem readi_moves (off n : ℕ) : Yields (s.readi sb dev k off n) fun r => Moves 0 s r.2 := by
  unfold readi
  dsimp only
  refine .ite (fun _ => ?_) fun _ => .ite (fun _ => .pure (.refl s)) fun _ => ?_
  · split
    · split <;> exact .pure (.refl s)
    · exact .pure (.refl s)
  · refine .bind (readLoop_quiet _ _ _ _) fun r hr => .pure ?_
    exact hr.moves.after (moves_setInode rfl rfl)

theorem writei_moves (src : List UInt8) (off : ℕ) :
    Yields (s.writei sb dev k src off) fun r => Moves 0 s r.2 := by
  unfold writei
  dsimp only
  refine .ite (fun _ => ?_) fun _ => .ite (fun _ => .pure (.refl s)) fun _ =>
    .ite (fun _ => .pure (.refl s)) fun _ => ?_
  · split
    · split <;> exact .pure (.refl s)
    · exact .pure (.refl s)
  · refine .bind (writeLoop_quiet _ _ _ _) fun r₁ h₁ => ?_
    refine .bind (growSize_quiet _ _ _ _) fun r₂ h₂ => .pure ?_
    exact (h₁.trans h₂).moves.after (moves_setInode rfl rfl)

end State

/-- What a lookup adds: a reference to the entry it returns. -/
def gain {α : Type} : Option (Fin NINODE × α) → Fin NINODE → ℤ
  | none => 0
  | some (k, _) => single k

theorem gain_nonneg {α : Type} (found : Option (Fin NINODE × α)) (l : Fin NINODE) :
    0 ≤ gain found l := by
  cases found with
  | none => exact le_refl _
  | some p => exact single_nonneg p.1 l

namespace State

theorem readDirent_moves (off : ℕ) (e : Panic) :
    Yields (s.readDirent sb dev k off e) fun r => Moves 0 s r.2 := by
  unfold readDirent
  refine .bind (readi_moves _ _) fun r hr => ?_
  obtain ⟨data, s₁⟩ := r
  cases data with
  | none => exact .error trivial
  | some bytes => exact .ite (fun _ => .error trivial) fun _ => .pure hr

theorem lookupLoop_moves (name : List UInt8) (fuel off : ℕ) :
    Yields (lookupLoop sb dev name k fuel s off) fun r => Moves (gain r.1) s r.2 := by
  induction fuel generalizing s off with
  | zero => exact .pure (.refl s)
  | succ fuel ih =>
    rw [lookupLoop]
    refine .ite (fun _ => ?_) fun _ => .pure (.refl s)
    refine .bind (readDirent_moves _ _) fun r₁ h₁ => ?_
    refine .ite (fun _ => ?_) fun _ => .ite (fun _ => ?_) fun _ => ?_
    · exact (ih _).mono fun r hr => h₁.after hr
    · exact .bind (iget_moves _) fun r₂ h₂ => .pure (h₁.after h₂)
    · exact (ih _).mono fun r hr => h₁.after hr

theorem dirlookup_moves (name : List UInt8) :
    Yields (s.dirlookup sb dev k name) fun r => Moves (gain r.1) s r.2 := by
  unfold dirlookup
  exact .ite (fun _ => .error trivial) fun _ => lookupLoop_moves _ _ _

theorem emptyLoop_moves (fuel off : ℕ) :
    Yields (emptyLoop sb dev k fuel s off) fun r => Moves 0 s r.2 := by
  induction fuel generalizing s off with
  | zero => exact .pure (.refl s)
  | succ fuel ih =>
    rw [emptyLoop]
    refine .ite (fun _ => ?_) fun _ => .pure (.refl s)
    refine .bind (readDirent_moves _ _) fun r₁ h₁ => ?_
    exact .ite (fun _ => .pure h₁) fun _ => (ih _).mono fun r hr => h₁.after hr

theorem writeDirent_moves (off : ℕ) (de : Dirent) (e : Panic) :
    Yields (s.writeDirent sb dev k off de e) (Moves 0 s) := by
  unfold writeDirent
  refine .bind (writei_moves _ _) fun r hr => ?_
  exact .ite (fun _ => .error trivial) fun _ => .pure hr

theorem dirlink_moves (name : List UInt8) (inum : ℕ) :
    Yields (s.dirlink sb dev k name inum) fun r => Moves 0 s r.2 := by
  unfold dirlink
  refine .bind (dirlookup_moves name) fun r₁ h₁ => ?_
  obtain ⟨found, s₁⟩ := r₁
  cases found with
  | none =>
    refine .bind (emptyLoop_moves _ _) fun r₂ h₂ => ?_
    exact .bind (writeDirent_moves _ _ _) fun s₃ h₃ => .pure ((h₁.after h₂).after h₃)
  | some found =>
    have hgain : Moves (single found.1) s s₁ := h₁
    refine .bind (iput_moves hgain.pos_single) fun s₂ h₂ => .pure ?_
    exact (hgain.trans h₂).congr (add_neg_cancel _)

theorem isdiremptyLoop_moves (fuel off : ℕ) :
    Yields (isdiremptyLoop sb dev k fuel s off) fun r => Moves 0 s r.2 := by
  induction fuel generalizing s off with
  | zero => exact .pure (.refl s)
  | succ fuel ih =>
    rw [isdiremptyLoop]
    refine .ite (fun _ => ?_) fun _ => .pure (.refl s)
    refine .bind (readDirent_moves _ _) fun r₁ h₁ => ?_
    exact .ite (fun _ => .pure h₁) fun _ => (ih _).mono fun r hr => h₁.after hr

/-- The loop of `namex` gives away its reference for one to the entry it returns. -/
theorem namexLoop_moves (parent : Bool) (names : List (List UInt8)) (hk : 0 < (s.icache k).ref) :
    Yields (namexLoop sb dev parent names s k) fun r => Moves (gain r.1 - single k) s r.2 := by
  induction names generalizing s k with
  | nil =>
    rw [namexLoop]
    refine .ite (fun _ => ?_) fun _ => .pure ?_
    · exact .bind (iput_moves hk) fun s₁ h₁ => .pure (h₁.congr (zero_sub _).symm)
    · exact (Moves.refl s).congr (sub_self _).symm
  | cons name rest ih =>
    rw [namexLoop]
    refine .bind ilock_moves fun s₁ h₁ => ?_
    refine .ite (fun _ => ?_) fun _ => .ite (fun _ => ?_) fun _ => ?_
    · exact .bind iunlockput_moves fun s₂ h₂ => .pure ((h₁.after h₂).congr (zero_sub _).symm)
    · refine .bind iunlock_moves fun s₂ h₂ => .pure ?_
      exact (h₁.after h₂.1).congr (sub_self _).symm
    · refine .bind (dirlookup_moves name) fun r₂ h₂ => ?_
      obtain ⟨found, s₂⟩ := r₂
      refine .bind iunlockput_moves fun s₃ h₃ => ?_
      have h₁₃ : Moves (gain found - single k) s s₃ :=
        ((h₁.after h₂).trans h₃).congr (sub_eq_add_neg _ _).symm
      cases found with
      | none => exact .pure h₁₃
      | some found =>
        have hgain : gain (some found) = single found.1 := rfl
        rw [hgain] at h₁₃
        have hpos : 0 < (s₃.icache found.1).ref := by
          have hnew := h₁₃.ref_eq found.1
          grind [Pi.sub_apply, single_apply]
        refine (ih hpos).mono fun r hr => (h₁₃.trans hr).congr ?_
        abel

theorem namexStart_moves {cwd : Fin NINODE} (path : List UInt8) (hcwd : 0 < (s.icache cwd).ref) :
    Yields (s.namexStart cwd path) fun r => Moves (single r.1) s r.2 := by
  unfold namexStart
  exact .ite (fun _ => iget_moves _) fun _ => .pure (idup_moves hcwd)

/-- `namex` adds a reference to the entry it returns, and none if it returns nothing. -/
theorem namex_moves {cwd : Fin NINODE} (path : List UInt8) (parent : Bool)
    (hcwd : 0 < (s.icache cwd).ref) :
    Yields (s.namex sb dev cwd path parent) fun r => Moves (gain r.1) s r.2 := by
  unfold namex
  refine .bind (namexStart_moves path hcwd) fun r₁ h₁ => ?_
  refine (namexLoop_moves parent _ h₁.pos_single).mono fun r hr => (h₁.trans hr).congr ?_
  exact add_sub_cancel _ _

end State

end Xv6.Fs
