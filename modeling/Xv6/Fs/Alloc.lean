/-
# Allocating blocks for an inode

What `balloc` and `bmap` do to the inode in hand and to everybody else. Each
specification says how the call ends: with its result, or with a panic that is allowed.
A budget says which panics are to be excluded: enough free blocks exclude "out of
blocks", enough room in the log excludes "too big a transaction". Where a panic is
allowed nothing has to be known about its cause.
-/

import Xv6.Fs.Owned
import Xv6.Lib.Outcome
import Mathlib.Data.Finset.Card

namespace Xv6.Fs

open Function Xv6.Lib

/-- The entries `log_write` fills before it panics. -/
def Superblock.logCap (sb : Superblock) : ℕ := min Log.LOGSIZE (sb.nlog - 1)

/-- The blocks whose bit is clear. -/
def freeBlocks (sb : Superblock) (disk : Disk) : Finset ℕ :=
  (Finset.range sb.size).filter fun b => sb.inUse disk b = false

/-- What a call may use up: `blocks` free blocks, and `logs` log entries besides those in
use and those for the blocks `F`, among which are the bitmap blocks. -/
structure Budget (E : Panic → Prop) (sb : Superblock) (F : Finset ℕ) (s : State)
    (blocks logs : ℕ) : Prop where
  trans : E .outsideTrans ∨ 1 ≤ s.outstanding
  free : E .outOfBlocks ∨ blocks ≤ (freeBlocks sb s.disk).card
  log : E .tooBig ∨ s.lh.Nodup ∧ (∀ c < sb.size, sb.bblock c ∈ F) ∧
    (s.lh.toFinset ∪ F).card + logs < sb.logCap

variable {E : Panic → Prop} {sb : Superblock} {F : Finset ℕ} {s s' : State}
  {blocks logs b x i : ℕ} {v : Bytes} {tab : ℕ → Dinode} {d d' : Dinode} {disk : Disk}

/-- Where all these panics are allowed there is always a budget. -/
theorem budget_of_allowed (htrans : E .outsideTrans) (hfull : E .outOfBlocks) (hbig : E .tooBig) :
    Budget E sb F s blocks logs := ⟨.inl htrans, .inl hfull, .inl hbig⟩

theorem Budget.mono {blocks' logs' : ℕ} (h : Budget E sb F s blocks logs) (hb : blocks' ≤ blocks)
    (hl : logs' ≤ logs) : Budget E sb F s blocks' logs' := by
  refine ⟨h.trans, h.free.imp id (Nat.le_trans hb), h.log.imp id ?_⟩
  rintro ⟨hnodup, hmap, hcard⟩
  exact ⟨hnodup, hmap, by omega⟩

namespace State

theorem mem_record_lh : b ∈ (s.record x v).lh ↔ b = x ∨ b ∈ s.lh := by
  unfold record
  grind

theorem nodup_record_lh (h : s.lh.Nodup) : (s.record x v).lh.Nodup := by
  unfold record
  grind

theorem toFinset_record_lh : (s.record x v).lh.toFinset = insert x s.lh.toFinset := by
  ext b
  simp [mem_record_lh]

/-- `log_write` within the budget. -/
theorem logWrite_ends {P : State → Prop} (h : Budget E sb F s blocks logs)
    (hP : P (s.record x v)) : Ends E (s.logWrite sb x v) P := by
  unfold logWrite
  refine .ite (fun hfull => .error ?_) fun _ => .ite (fun hout => .error ?_) fun _ => .ok hP
  · refine h.log.resolve_right ?_
    rintro ⟨hnodup, -, hcard⟩
    have hlen : s.lh.length ≤ (s.lh.toFinset ∪ F).card := by
      rw [← List.toFinset_card_of_nodup hnodup]
      exact Finset.card_le_card Finset.subset_union_left
    unfold Superblock.logCap at hcard
    omega
  · exact h.trans.resolve_right (by omega)

end State

/-- A logged write uses up a log entry unless its block has one or is among `F`. -/
theorem Budget.record {blocks' logs' : ℕ} (h : Budget E sb F s blocks logs)
    (hfree : blocks ≤ (freeBlocks sb s.disk).card →
      blocks' ≤ (freeBlocks sb (update s.disk x v)).card)
    (hlog : logs' ≤ logs ∧ (x ∈ F ∨ x ∈ s.lh) ∨ logs' + 1 ≤ logs) :
    Budget E sb F (s.record x v) blocks' logs' := by
  refine ⟨h.trans, h.free.imp id hfree, h.log.imp id ?_⟩
  rintro ⟨hnodup, hmap, hcard⟩
  refine ⟨State.nodup_record_lh hnodup, hmap, ?_⟩
  rw [State.toFinset_record_lh, Finset.insert_union]
  rcases hlog with ⟨hle, hmem⟩ | hlt
  · have hx : x ∈ s.lh.toFinset ∪ F := by simpa [or_comm] using hmem
    rw [Finset.insert_eq_of_mem hx]
    omega
  · have := Finset.card_insert_le x (s.lh.toFinset ∪ F)
    omega

/-- Writing a block other than the bitmap does not change the free blocks. -/
theorem freeBlocks_update (h : ∀ c < sb.size, x ≠ sb.bblock c) :
    freeBlocks sb (update disk x v) = freeBlocks sb disk := by
  refine Finset.filter_congr fun c hc => ?_
  rw [Superblock.inUse_update_of_ne (h c (Finset.mem_range.mp hc))]

theorem freeBlocks_allocated (hdata : sb.IsData b) :
    freeBlocks sb (allocated sb disk b) = (freeBlocks sb disk).erase b := by
  ext c
  simp only [freeBlocks, Finset.mem_filter, Finset.mem_erase, Finset.mem_range]
  grind [inUse_allocated]

/-- `balloc` has returned `b`. -/
structure Allocs (sb : Superblock) (s : State) (b : ℕ) (s' : State) : Prop where
  lt : b < sb.size
  was_free : sb.inUse s.disk b = false
  disk_eq : s'.disk = allocated sb s.disk b
  icache_eq : s'.icache = s.icache
  logged : b ∈ s'.lh
  lh_subset : ∀ x ∈ s.lh, x ∈ s'.lh
  lh_nodup : s.lh.Nodup → s'.lh.Nodup

namespace State

/-- `balloc` returns the first free block, marked and zeroed. -/
theorem balloc_ends (howned : Owned sb s.disk tab) (h : Budget E sb F s (blocks + 1) (logs + 1)) :
    Ends E (s.balloc sb) fun r => Allocs sb s r.1 r.2 ∧ Budget E sb F r.2 blocks logs := by
  unfold balloc
  cases hfind : (List.range sb.size).find? fun b => !sb.inUse s.disk b with
  | none =>
    refine h.free.resolve_right fun hle => ?_
    obtain ⟨b, hb⟩ := Finset.card_pos.mp (Nat.lt_of_lt_of_le (Nat.succ_pos _) hle)
    obtain ⟨hlt, hfree⟩ := Finset.mem_filter.mp hb
    grind
  | some b =>
    have hlt : b < sb.size := List.mem_range.mp (List.mem_of_find?_eq_some hfind)
    have hfree : sb.inUse s.disk b = false := by simpa using List.find?_some hfind
    have hdata := (howned.free hlt hfree).1
    -- the two writes, first the bitmap and then the block itself
    have hmark : E .outOfBlocks ∨ blocks ≤ (freeBlocks sb (allocated sb s.disk b)).card := by
      refine h.free.imp id fun hle => ?_
      rw [freeBlocks_allocated hdata, Finset.card_erase_of_mem]
      · omega
      · exact Finset.mem_filter.mpr ⟨Finset.mem_range.mpr hlt, hfree⟩
    have hbudget₁ : Budget E sb F (s.record (sb.bblock b) (sb.marked s.disk b)) 0 (logs + 1) := by
      refine ⟨h.trans, .inr (Nat.zero_le _), ?_⟩
      by_cases hE : E .tooBig
      · exact .inl hE
      · have hmap := (h.log.resolve_left hE).2.1 b hlt
        have hrecord : Budget E sb F (s.record (sb.bblock b) (sb.marked s.disk b)) 0 (logs + 1) :=
          h.record (fun _ => Nat.zero_le _) (.inl ⟨le_refl _, .inl hmap⟩)
        exact hrecord.log
    have hbudget₂ : Budget E sb F
        ((s.record (sb.bblock b) (sb.marked s.disk b)).record b fun _ => 0) 0 logs :=
      hbudget₁.record (fun _ => Nat.zero_le _) (.inr (le_refl _))
    refine .bind (logWrite_ends h rfl) fun s₁ hs₁ => ?_
    subst hs₁
    refine .bind (logWrite_ends hbudget₁ rfl) fun s₂ hs₂ => ?_
    subst hs₂
    refine .pure ⟨⟨hlt, hfree, rfl, rfl, ?_, ?_, ?_⟩, hbudget₂.trans, hmark, hbudget₂.log⟩
    · exact mem_record_lh.mpr (.inl rfl)
    · exact fun x hx => mem_record_lh.mpr (.inr (mem_record_lh.mpr (.inr hx)))
    · exact fun h => nodup_record_lh (nodup_record_lh h)

end State

/-- The inode `i` is in hand with the copy `d`; the other inodes are those of `tab`, and
the inodes on the disk are all as in `tab`. -/
structure Hand (sb : Superblock) (tab : ℕ → Dinode) (i : ℕ) (s : State) (d : Dinode) : Prop where
  lt : i < sb.ninodes
  type_ne : d.type ≠ 0
  owned : Owned sb s.disk (update tab i d)
  dinode_eq : ∀ j < sb.ninodes, sb.dinode s.disk j = tab j

/-- From `s, d` to `s', d'` block numbers were filled in for inode `i` at some of the places
`T` that were empty. Its other block numbers and all blocks of the other inodes are as
before. -/
structure Frame (sb : Superblock) (tab : ℕ → Dinode) (i : ℕ) (T : Pos → Prop) (s : State)
    (d : Dinode) (s' : State) (d' : Dinode) : Prop where
  scalars : d' = { d with addrs := d'.addrs }
  blocks : ∀ pos, ¬ T pos ∨ blockAt s.disk d pos ≠ 0 →
    blockAt s'.disk d' pos = blockAt s.disk d pos
  others : ∀ j < sb.ninodes, j ≠ i → (tab j).type ≠ 0 → ∀ pos, blockAt s.disk (tab j) pos ≠ 0 →
    s'.disk (blockAt s.disk (tab j) pos) = s.disk (blockAt s.disk (tab j) pos)
  icache_eq : s'.icache = s.icache
  lh_subset : ∀ x ∈ s.lh, x ∈ s'.lh
  lh_nodup : s.lh.Nodup → s'.lh.Nodup

/-- Nothing else was done: the data of the inode is as before, too. -/
structure Kept (sb : Superblock) (tab : ℕ → Dinode) (i : ℕ) (T : Pos → Prop) (s : State)
    (d : Dinode) (s' : State) (d' : Dinode) : Prop extends Frame sb tab i T s d s' d' where
  own : ∀ pos, pos ≠ .indirect → blockAt s.disk d pos ≠ 0 →
    s'.disk (blockAt s.disk d pos) = s.disk (blockAt s.disk d pos)

namespace Hand

variable {j : ℕ} {p : Pos}

theorem self_eq : update tab i d i = d := update_self ..

section

variable (h : Hand sb tab i s d)

include h

theorem type_self : (update tab i d i).type ≠ 0 := by
  rw [self_eq]
  exact h.type_ne

theorem isData (hne : blockAt s.disk d p ≠ 0) : sb.IsData (blockAt s.disk d p) := by
  have := h.owned.isData (p := p) h.lt h.type_self
  rw [self_eq] at this
  exact this hne

theorem isData_other (hj : j < sb.ninodes) (hji : j ≠ i) (ht : (tab j).type ≠ 0)
    (hne : blockAt s.disk (tab j) p ≠ 0) : sb.IsData (blockAt s.disk (tab j) p) := by
  have := h.owned.isData (p := p) (i := j) hj
  rw [update_of_ne hji] at this
  exact this ht hne

/-- Two places of the inode in hand. -/
theorem pos_eq {q : Pos} (hne : blockAt s.disk d p ≠ 0)
    (heq : blockAt s.disk d p = blockAt s.disk d q) : p = q := by
  have := h.owned.ref_eq (p := p) (q := q) h.lt h.type_self h.lt h.type_self
  rw [self_eq] at this
  exact (this hne heq).2

/-- A block of the inode in hand is not one of another inode. -/
theorem ne_other {q : Pos} (hj : j < sb.ninodes) (hji : j ≠ i) (ht : (tab j).type ≠ 0)
    (hne : blockAt s.disk (tab j) p ≠ 0) : blockAt s.disk (tab j) p ≠ blockAt s.disk d q := by
  intro heq
  have := h.owned.ref_eq (p := p) (q := q) (i := j) (j := i) hj
  rw [update_of_ne hji, self_eq] at this
  exact hji (this ht h.lt h.type_ne hne heq).1

theorem free (hb : b < sb.size) (hfree : sb.inUse s.disk b = false) :
    sb.IsData b ∧ (∀ p, blockAt s.disk d p ≠ b) ∧
      ∀ j < sb.ninodes, j ≠ i → (tab j).type ≠ 0 → ∀ p, blockAt s.disk (tab j) p ≠ b := by
  obtain ⟨hdata, hnobody⟩ := h.owned.free hb hfree
  refine ⟨hdata, fun p => ?_, fun j hj hji ht p => ?_⟩
  · have := hnobody i h.lt h.type_self p
    rwa [self_eq] at this
  · have := hnobody j hj
    rw [update_of_ne hji] at this
    exact this ht p

end

end Hand

namespace Frame

variable {T T' : Pos → Prop} {s'' : State} {d'' : Dinode}

theorem refl : Frame sb tab i T s d s d :=
  ⟨rfl, fun _ _ => rfl, fun _ _ _ _ _ _ => rfl, rfl, fun _ hx => hx, id⟩

theorem mono (h : Frame sb tab i T s d s' d') (hT : ∀ pos, T pos → T' pos) :
    Frame sb tab i T' s d s' d' :=
  { h with blocks := fun pos hpos => h.blocks pos (hpos.imp (fun hn ht => hn (hT pos ht)) id) }

/-- The block numbers of the other inodes are as before. -/
theorem blockAt_other (h : Frame sb tab i T s d s' d') {j : ℕ} (hj : j < sb.ninodes) (hji : j ≠ i)
    (ht : (tab j).type ≠ 0) (pos : Pos) :
    blockAt s'.disk (tab j) pos = blockAt s.disk (tab j) pos :=
  blockAt_congr fun hne => h.others j hj hji ht .indirect hne

theorem trans (h : Frame sb tab i T s d s' d') (h' : Frame sb tab i T s' d' s'' d'') :
    Frame sb tab i T s d s'' d'' where
  scalars := by rw [h'.scalars, h.scalars]
  blocks pos hpos := by
    have heq := h.blocks pos hpos
    rw [← heq] at hpos ⊢
    exact h'.blocks pos hpos
  others j hj hji ht pos hne := by
    have heq := h.blockAt_other hj hji ht pos
    rw [← h.others j hj hji ht pos hne, ← heq]
    exact h'.others j hj hji ht pos (heq ▸ hne)
  icache_eq := h'.icache_eq.trans h.icache_eq
  lh_subset x hx := h'.lh_subset x (h.lh_subset x hx)
  lh_nodup hs := h'.lh_nodup (h.lh_nodup hs)

end Frame

namespace Kept

variable {T T' : Pos → Prop} {s'' : State} {d'' : Dinode}

theorem refl : Kept sb tab i T s d s d := ⟨.refl, fun _ _ _ => rfl⟩

theorem mono (h : Kept sb tab i T s d s' d') (hT : ∀ pos, T pos → T' pos) :
    Kept sb tab i T' s d s' d' := ⟨h.toFrame.mono hT, h.own⟩

theorem trans (h : Kept sb tab i T s d s' d') (h' : Kept sb tab i T s' d' s'' d'') :
    Kept sb tab i T s d s'' d'' := by
  refine ⟨h.toFrame.trans h'.toFrame, fun pos hpos hne => ?_⟩
  have heq := h.blocks pos (.inr hne)
  rw [← h.own pos hpos hne, ← heq]
  exact h'.own pos hpos (heq ▸ hne)

end Kept

/-- A newly allocated block is nobody's, so it and its bit can be written. -/
theorem Hand.allocated_eq {pos : Pos} (h : Hand sb tab i s d) (ha : Allocs sb s b s')
    (hne : blockAt s.disk d pos ≠ 0) :
    s'.disk (blockAt s.disk d pos) = s.disk (blockAt s.disk d pos) := by
  rw [ha.disk_eq]
  exact allocated_of_ne ((h.free ha.lt ha.was_free).2.1 pos) ((h.isData hne).ne_bblock ha.lt)

theorem Hand.allocated_other {j : ℕ} {pos : Pos} (h : Hand sb tab i s d) (ha : Allocs sb s b s')
    (hj : j < sb.ninodes) (hji : j ≠ i) (ht : (tab j).type ≠ 0)
    (hne : blockAt s.disk (tab j) pos ≠ 0) :
    s'.disk (blockAt s.disk (tab j) pos) = s.disk (blockAt s.disk (tab j) pos) := by
  rw [ha.disk_eq]
  exact allocated_of_ne ((h.free ha.lt ha.was_free).2.2 j hj hji ht pos)
    ((h.isData_other hj hji ht hne).ne_bblock ha.lt)

theorem Hand.dinode_allocated (h : Hand sb tab i s d) (ha : Allocs sb s b s') {j : ℕ}
    (hj : j < sb.ninodes) : sb.dinode s'.disk j = tab j := by
  rw [ha.disk_eq, Fs.dinode_allocated (h.free ha.lt ha.was_free).1 hj]
  exact h.dinode_eq j hj

/-! ## bmap -/

/-- One, if the condition holds. -/
def one (c : Prop) [Decidable c] : ℕ := if c then 1 else 0

namespace State

/-- An address of the inode in hand, allocated if it was zero. -/
theorem addrOrAlloc_ends (h : Hand sb tab i s d) (a : Fin (NDIRECT + 1))
    (hbudget : Budget E sb F s (blocks + one (d.addrs a = 0)) (logs + one (d.addrs a = 0))) :
    Ends E (s.addrOrAlloc sb d a) fun r =>
      (Hand sb tab i r.2.2 r.2.1 ∧ Kept sb tab i (· = Pos.ofAddr a) s d r.2.2 r.2.1) ∧
      ((r.2.1.addrs a).toNat = r.1 ∧ r.1 ≠ 0) ∧ Budget E sb F r.2.2 blocks logs ∧
      (r.1 ∈ r.2.2.lh ∨ d.addrs a ≠ 0 ∧ r.2 = (d, s)) := by
  unfold addrOrAlloc
  refine .ite (fun hzero => ?_) fun hne => ?_
  · rw [one, if_pos hzero] at hbudget
    refine .bind (balloc_ends h.owned hbudget) fun r hr => ?_
    obtain ⟨b, s'⟩ := r
    obtain ⟨ha, hbudget'⟩ := hr
    obtain ⟨hdata, hnobody, -⟩ := h.free ha.lt ha.was_free
    have hb32 : b < 2 ^ 32 := Nat.lt_trans ha.lt (Nat.lt_trans sb.size_lt (by decide))
    have hblank : s'.disk b = fun _ => 0 := by rw [ha.disk_eq, allocated_self]
    have hself := toNat_setAddr_self (d := d) (a := a) hb32
    have howned : Owned sb s'.disk (update tab i (d.setAddr a b)) := by
      have := h.owned.alloc_addr (a := a) ha.lt ha.was_free h.lt h.type_self
      rw [Hand.self_eq, update_idem, ← ha.disk_eq] at this
      exact this hzero
    have hblocks : ∀ pos, pos ≠ Pos.ofAddr a →
        blockAt s'.disk (d.setAddr a b) pos = blockAt s.disk d pos := by
      intro pos hpos
      rw [blockAt_setAddr hb32 hzero hblank, if_neg hpos]
      have := h.owned.blockAt_allocated (p := pos) ha.lt ha.was_free h.lt h.type_self
      rwa [Hand.self_eq, ← ha.disk_eq] at this
    refine .pure ⟨⟨⟨h.lt, h.type_ne, howned, fun j hj => h.dinode_allocated ha hj⟩,
      ⟨rfl, ?_, ?_, ha.icache_eq, ha.lh_subset, ha.lh_nodup⟩,
      fun pos _ hne => h.allocated_eq ha hne⟩, ⟨hself, hdata.pos.ne'⟩, hbudget', .inl ha.logged⟩
    · intro pos hpos
      refine hblocks pos (hpos.elim id fun hne heq => hne ?_)
      rw [heq, blockAt_ofAddr, hzero]
      rfl
    · exact fun j hj hji ht pos hne => h.allocated_other ha hj hji ht hne
  · rw [one, if_neg hne] at hbudget
    refine .pure ⟨⟨h, .refl⟩, ⟨rfl, ?_⟩, hbudget, .inr ⟨hne, rfl⟩⟩
    exact fun hzero => hne (UInt32.toNat_inj.mp hzero)

/-- An entry of the indirect block of the inode in hand, allocated if it was zero. -/
theorem entryOrAlloc_ends (h : Hand sb tab i s d) (hind : d.indirect ≠ 0) (j : Fin NINDIRECT)
    (hlogged : E .tooBig ∨ d.indirect ∈ F ∨ d.indirect ∈ s.lh)
    (hbudget : Budget E sb F s (blocks + one (blockAt s.disk d (.entry j) = 0))
      (logs + one (blockAt s.disk d (.entry j) = 0))) :
    Ends E (s.entryOrAlloc sb d.indirect j) fun r =>
      (Hand sb tab i r.2 d ∧ Kept sb tab i (· = .entry j) s d r.2 d) ∧
      (blockAt r.2.disk d (.entry j) = r.1 ∧ r.1 ≠ 0) ∧ Budget E sb F r.2 blocks logs ∧
      (r.1 ∈ r.2.lh ∨ blockAt s.disk d (.entry j) ≠ 0 ∧ r.2 = s) := by
  have hentry : blockAt s.disk d (.entry j) = getEntry (s.disk d.indirect) j := if_neg hind
  rw [hentry] at hbudget ⊢
  unfold entryOrAlloc
  refine .ite (fun hzero => ?_) fun hne => ?_
  · rw [one, if_pos hzero] at hbudget
    refine .bind (balloc_ends h.owned hbudget) fun r hr => ?_
    obtain ⟨b, s₁⟩ := r
    obtain ⟨ha, hbudget₁⟩ := hr
    obtain ⟨hdata, hnobody, -⟩ := h.free ha.lt ha.was_free
    have hinddata : sb.IsData d.indirect := h.isData (p := .indirect) hind
    have hb32 : b < 2 ^ 32 := Nat.lt_trans ha.lt (Nat.lt_trans sb.size_lt (by decide))
    refine .bind (logWrite_ends hbudget₁ rfl) fun s₂ hs₂ => ?_
    subst hs₂
    have hdisk : (s₁.record d.indirect (setEntry (s.disk d.indirect) j b)).disk =
        update (allocated sb s.disk b) d.indirect
          (setEntry (s.disk d.indirect) j b) := by
      rw [← ha.disk_eq]
      rfl
    have hframe : ∀ x, x ≠ d.indirect →
        (s₁.record d.indirect (setEntry (s.disk d.indirect) j b)).disk x = s₁.disk x := fun x hx =>
      update_of_ne hx ..
    have howned := h.owned.alloc_entry (j := j) ha.lt ha.was_free h.lt h.type_self
    rw [Hand.self_eq, ← hdisk] at howned
    have hbudget₂ : Budget E sb F
        (s₁.record d.indirect (setEntry (s.disk d.indirect) j b)) blocks logs := by
      by_cases hE : E .tooBig
      · refine ⟨hbudget₁.trans, hbudget₁.free.imp id fun hle => ?_, .inl hE⟩
        change _ ≤ (freeBlocks sb (update s₁.disk _ _)).card
        rwa [freeBlocks_update fun c hc => hinddata.ne_bblock hc]
      · refine hbudget₁.record (fun hle => ?_) (.inl ⟨le_refl _, ?_⟩)
        · rwa [freeBlocks_update fun c hc => hinddata.ne_bblock hc]
        · exact (hlogged.resolve_left hE).imp id (ha.lh_subset _)
    have hgets : ∀ l : ℕ, getEntry ((s₁.record d.indirect
        (setEntry (s.disk d.indirect) j b)).disk d.indirect) l =
          if l = j then b else getEntry (s.disk d.indirect) l := by
      intro l
      rw [hdisk, update_self, getEntry_setEntry hb32]
    refine .pure ⟨⟨⟨h.lt, h.type_ne, howned hind hzero, fun j' hj' => ?_⟩,
      ⟨rfl, ?_, ?_, ha.icache_eq, ?_, fun hs => nodup_record_lh (ha.lh_nodup hs)⟩, ?_⟩,
      ⟨?_, hdata.pos.ne'⟩, hbudget₂, .inl ?_⟩
    · rw [State.record, Superblock.dinode_update_of_ne (hinddata.ne_iblock hj')]
      exact h.dinode_allocated ha hj'
    · intro pos hpos
      cases pos with
      | direct a => rfl
      | indirect => rfl
      | entry l =>
        have hlj : (l : ℕ) ≠ j := by
          grind
        simp only [blockAt, if_neg hind, hgets, if_neg hlj]
    · intro j' hj' hji ht pos hne
      rw [hframe _ (h.ne_other (q := .indirect) hj' hji ht hne)]
      exact h.allocated_other ha hj' hji ht hne
    · exact fun x hx => mem_record_lh.mpr (.inr (ha.lh_subset x hx))
    · intro pos hpos hne
      rw [hframe _ fun heq => hpos (h.pos_eq (q := .indirect) hne heq)]
      exact h.allocated_eq ha hne
    · simp only [blockAt, if_neg hind, hgets, if_true]
    · exact mem_record_lh.mpr (.inr ha.logged)
  · rw [one, if_neg hne] at hbudget
    exact .pure ⟨⟨h, .refl⟩, ⟨hentry, hne⟩, hbudget, .inr ⟨hne, rfl⟩⟩

end State

instance : NeZero NINDIRECT := ⟨by decide⟩

/-- The place of the number of a file's block `bn`. -/
def dataPos (bn : ℕ) : Pos :=
  if h : bn < NDIRECT then .direct ⟨bn, h⟩ else .entry (Fin.ofNat NINDIRECT (bn - NDIRECT))

/-- The number of a file's block `bn`, or zero. -/
def addrOf (disk : Disk) (d : Dinode) (bn : ℕ) : ℕ :=
  if bn < MAXFILE then blockAt disk d (dataPos bn) else 0

theorem addrOf_eq {bn : ℕ} (h : bn < MAXFILE) : addrOf disk d bn = blockAt disk d (dataPos bn) :=
  if_pos h

theorem dataPos_direct {bn : ℕ} (h : bn < NDIRECT) : dataPos bn = .direct ⟨bn, h⟩ := dif_pos h

theorem dataPos_entry {bn : ℕ} (h : ¬ bn < NDIRECT) (hlt : bn - NDIRECT < NINDIRECT) :
    dataPos bn = .entry ⟨bn - NDIRECT, hlt⟩ := by
  unfold dataPos
  rw [dif_neg h]
  congr 1
  exact Fin.ext (Nat.mod_eq_of_lt hlt)

theorem dataPos_ne_indirect (bn : ℕ) : dataPos bn ≠ .indirect := by
  unfold dataPos
  split <;> exact Pos.noConfusion

theorem dataPos_inj {bn bn' : ℕ} (h : bn < MAXFILE) (h' : bn' < MAXFILE)
    (heq : dataPos bn = dataPos bn') : bn = bn' := by
  unfold MAXFILE at h h'
  grind [dataPos_direct, dataPos_entry]

/-- The places `bmap` of block `bn` may fill. -/
def Fills (bn : ℕ) (pos : Pos) : Prop := pos = dataPos bn ∨ NDIRECT ≤ bn ∧ pos = .indirect

/-- The new indirect block `bmap` of block `bn` needs. -/
def indirectCost (d : Dinode) (bn : ℕ) : ℕ := one (NDIRECT ≤ bn ∧ d.indirect = 0)

/-- The indirect block, if there is one, is logged or accounted for. -/
def IndirectLogged (E : Panic → Prop) (F : Finset ℕ) (s : State) (d : Dinode) : Prop :=
  E .tooBig ∨ (d.indirect ≠ 0 → d.indirect ∈ F ∨ d.indirect ∈ s.lh)

namespace State

variable {bn : ℕ}

/-- `bmap` returns the number of a block of the inode in hand, allocating what is missing. -/
theorem bmap_ends (h : Hand sb tab i s d) (hbn : bn < MAXFILE) (hlogged : IndirectLogged E F s d)
    (hbudget : Budget E sb F s (blocks + one (addrOf s.disk d bn = 0) + indirectCost d bn)
      (logs + 1 + indirectCost d bn)) :
    Ends E (s.bmap sb d bn) fun r =>
      (Hand sb tab i r.2.2 r.2.1 ∧ Kept sb tab i (Fills bn) s d r.2.2 r.2.1) ∧
      (addrOf r.2.2.disk r.2.1 bn = r.1 ∧ r.1 ≠ 0) ∧ IndirectLogged E F r.2.2 r.2.1 ∧
      ((NDIRECT ≤ bn → r.2.1.indirect ≠ 0) ∧ (bn < NDIRECT → r.2.1.indirect = d.indirect)) ∧
      (r.1 ∈ r.2.2.lh ∧ Budget E sb F r.2.2 blocks logs ∨
        Budget E sb F r.2.2 blocks (logs + 1)) := by
  unfold bmap
  rw [addrOf_eq hbn] at hbudget
  by_cases hdirect : bn < NDIRECT
  · rw [dif_pos hdirect]
    have hind : indirectCost d bn = 0 := if_neg fun hc => absurd hdirect (Nat.not_lt.mpr hc.1)
    have hpos : Pos.ofAddr (Fin.castSucc ⟨bn, hdirect⟩) = dataPos bn := by
      rw [Pos.ofAddr_castSucc, dataPos_direct hdirect]
    have hblock : ∀ disk d', blockAt disk d' (dataPos bn) =
        (d'.addrs (Fin.castSucc ⟨bn, hdirect⟩)).toNat := by
      intro disk d'
      rw [← hpos, blockAt_ofAddr]
    have hzero : blockAt s.disk d (dataPos bn) = 0 ↔
        d.addrs (Fin.castSucc ⟨bn, hdirect⟩) = 0 := by
      rw [hblock]
      exact UInt32.toNat_inj (b := 0)
    rw [hind] at hbudget
    -- a new block is logged by its allocation, an old one by the write to come
    have hbudget' : Budget E sb F s
        (blocks + one (d.addrs (Fin.castSucc ⟨bn, hdirect⟩) = 0))
        (logs + one (d.addrs (Fin.castSucc ⟨bn, hdirect⟩) = 0)) := by
      refine hbudget.mono ?_ ?_ <;> simp only [one, hzero] <;> split <;> omega
    refine (addrOrAlloc_ends h _ hbudget').mono fun r hr => ?_
    obtain ⟨⟨hhand, hkept⟩, ⟨haddr, hne⟩, hb, hcase⟩ := hr
    have hindirect : r.2.1.indirect = d.indirect := by
      refine hkept.blocks .indirect (.inl ?_)
      rw [hpos]
      exact (dataPos_ne_indirect bn).symm
    refine ⟨⟨hhand, hkept.mono fun pos hp => .inl (hp.trans hpos)⟩, ⟨?_, hne⟩, ?_,
      ⟨fun hle => absurd hdirect (Nat.not_lt.mpr hle), fun _ => hindirect⟩, ?_⟩
    · rw [addrOf_eq hbn, hblock]
      exact haddr
    · refine hlogged.imp id fun hl hne' => ?_
      rw [hindirect] at hne' ⊢
      exact (hl hne').imp id (hkept.lh_subset _)
    · rcases hcase with hin | ⟨hold, heq⟩
      · exact .inl ⟨hin, hb⟩
      · rw [heq]
        exact .inr (hbudget.mono (by omega) (by omega))
  · have hlt : bn - NDIRECT < NINDIRECT := by
      unfold MAXFILE at hbn
      omega
    have hpos := dataPos_entry hdirect hlt
    rw [dif_neg hdirect, if_pos hlt]
    have hzero : (d.addrs (Fin.last NDIRECT) = 0) ↔ NDIRECT ≤ bn ∧ d.indirect = 0 := by
      rw [Dinode.indirect, ← UInt32.toNat_inj]
      exact ⟨fun hz => ⟨Nat.le_of_not_lt hdirect, hz⟩, And.right⟩
    have hcost : indirectCost d bn = one (d.addrs (Fin.last NDIRECT) = 0) := by
      simp only [indirectCost, one, hzero]
    rw [hcost, hpos] at hbudget
    refine .bind (addrOrAlloc_ends h (Fin.last NDIRECT) hbudget) fun r₁ hr₁ => ?_
    obtain ⟨addr, d₁, s₁⟩ := r₁
    obtain ⟨⟨hhand₁, hkept₁⟩, ⟨haddr, hne₁⟩, hbudget₁, hcase₁⟩ := hr₁
    have hind₁ : d₁.indirect = addr := haddr
    subst hind₁
    rw [Pos.ofAddr_last] at hkept₁
    have hentry : blockAt s₁.disk d₁ (.entry ⟨bn - NDIRECT, hlt⟩) =
        blockAt s.disk d (.entry ⟨bn - NDIRECT, hlt⟩) :=
      hkept₁.blocks _ (.inl Pos.noConfusion)
    have hlogged₁ : E .tooBig ∨ d₁.indirect ∈ F ∨ d₁.indirect ∈ s₁.lh := by
      rcases hcase₁ with hin | ⟨-, heq⟩
      · exact .inr (.inr hin)
      · cases heq
        exact hlogged.imp id fun hl => hl hne₁
    have hbudget₁' : Budget E sb F s₁
        (blocks + one (blockAt s₁.disk d₁ (.entry ⟨bn - NDIRECT, hlt⟩) = 0))
        (logs + one (blockAt s₁.disk d₁ (.entry ⟨bn - NDIRECT, hlt⟩) = 0)) := by
      rw [hentry]
      refine hbudget₁.mono (le_refl _) ?_
      simp only [one]
      split <;> omega
    refine .bind (entryOrAlloc_ends hhand₁ hne₁ ⟨bn - NDIRECT, hlt⟩ hlogged₁ hbudget₁')
      fun r₂ hr₂ => ?_
    obtain ⟨entry, s₂⟩ := r₂
    obtain ⟨⟨hhand₂, hkept₂⟩, ⟨hentry₂, hne₂⟩, hbudget₂, hcase₂⟩ := hr₂
    have hkept : Kept sb tab i (Fills bn) s d s₂ d₁ :=
      (hkept₁.mono fun pos hp => .inr ⟨Nat.le_of_not_lt hdirect, hp⟩).trans
        (hkept₂.mono fun pos hp => .inl (hp.trans hpos.symm))
    refine .pure ⟨⟨hhand₂, hkept⟩, ⟨?_, hne₂⟩, ?_, ⟨fun _ => hne₁, fun hlt' => ?_⟩, ?_⟩
    · rw [addrOf_eq hbn, hpos]
      exact hentry₂
    · exact hlogged₁.imp id fun hl _ => hl.imp id (hkept₂.lh_subset _)
    · exact (hdirect hlt').elim
    · rcases hcase₂ with hin | ⟨-, heq⟩
      · exact .inl ⟨hin, hbudget₂⟩
      · have hs : s₂ = s₁ := heq
        subst hs
        exact .inr (hbudget₁.mono (Nat.le_add_right _ _) (le_refl _))

end State

end Xv6.Fs
