/-
# Block ownership

The blocks an inode refers to are its direct addresses, its indirect block and the
entries of that. Over a table of inodes these references own the data blocks: the
bitmap has the bits of the metadata and of the blocks referred to, and no block is
referred to twice. The table is a parameter, since the inode in hand may be ahead of
its copy on the disk.

The lemmas say what allocating, writing and freeing a block do to ownership.
-/

import Xv6.Fs.Inode
import Xv6.Lib.Ownership

namespace Xv6.Fs

open Function Xv6.Lib

/-- The places of an inode that hold a block number. -/
inductive Pos
  | direct (a : Fin NDIRECT)
  | indirect
  | entry (j : Fin NINDIRECT)
  deriving DecidableEq

/-- The block number at a place. Without an indirect block there are no entries. -/
def blockAt (disk : Disk) (d : Dinode) : Pos → ℕ
  | .direct a => (d.addrs a.castSucc).toNat
  | .indirect => d.indirect
  | .entry j => if d.indirect = 0 then 0 else getEntry (disk d.indirect) j

/-- A place of an inode. -/
abbrev Ref := ℕ × Pos

/-- The block a reference holds. Only allocated inodes have references, and a zero block
number is none. -/
def refOf (sb : Superblock) (disk : Disk) (tab : ℕ → Dinode) (r : Ref) : Option ℕ :=
  if r.1 < sb.ninodes ∧ (tab r.1).type ≠ 0 ∧ blockAt disk (tab r.1) r.2 ≠ 0 then
    some (blockAt disk (tab r.1) r.2)
  else none

/-- The references own the data blocks. -/
def Owned (sb : Superblock) (disk : Disk) (tab : ℕ → Dinode) : Prop :=
  Owns sb.IsMeta sb.IsData (fun b => sb.inUse disk b = true) (refOf sb disk tab)

variable {sb : Superblock} {disk disk' : Disk} {tab tab' : ℕ → Dinode} {b i x : ℕ} {v : Bytes}
  {d : Dinode} {p : Pos}

theorem refOf_eq_some {r : Ref} : refOf sb disk tab r = some b ↔
    r.1 < sb.ninodes ∧ (tab r.1).type ≠ 0 ∧ b ≠ 0 ∧ blockAt disk (tab r.1) r.2 = b := by
  unfold refOf
  grind

theorem refOf_eq_none {r : Ref} : refOf sb disk tab r = none ↔
    (r.1 < sb.ninodes → (tab r.1).type ≠ 0 → blockAt disk (tab r.1) r.2 = 0) := by
  rw [Option.eq_none_iff_forall_ne_some]
  constructor
  · intro h hi ht
    by_contra hne
    exact h _ (refOf_eq_some.mpr ⟨hi, ht, hne, rfl⟩)
  · rintro h b hb
    obtain ⟨hi, ht, hne, hblock⟩ := refOf_eq_some.mp hb
    exact hne (hblock.symm.trans (h hi ht))

/-- References depend on the type and the block numbers of allocated inodes only. -/
theorem refOf_congr {r : Ref} (htype : (tab' r.1).type = 0 ↔ (tab r.1).type = 0)
    (hblock : r.1 < sb.ninodes → (tab r.1).type ≠ 0 →
      blockAt disk' (tab' r.1) r.2 = blockAt disk (tab r.1) r.2) :
    refOf sb disk' tab' r = refOf sb disk tab r := by
  unfold refOf
  grind

/-- A block number depends on the indirect block only, and that only for entries. -/
theorem blockAt_congr (h : d.indirect ≠ 0 → disk' d.indirect = disk d.indirect) :
    blockAt disk' d p = blockAt disk d p := by
  cases p with
  | direct a => rfl
  | indirect => rfl
  | entry j =>
    simp only [blockAt]
    split
    · rfl
    · next hne => rw [h hne]

namespace Owned

section

variable (h : Owned sb disk tab)

include h

/-- A block an inode refers to is a data block in use. -/
theorem isData (hi : i < sb.ninodes) (ht : (tab i).type ≠ 0) (hne : blockAt disk (tab i) p ≠ 0) :
    sb.IsData (blockAt disk (tab i) p) :=
  h.shared_of_ref (i, p) _ (refOf_eq_some.mpr ⟨hi, ht, hne, rfl⟩)

/-- Different places of inodes hold different blocks. -/
theorem ref_eq {j : ℕ} {q : Pos} (hi : i < sb.ninodes) (ht : (tab i).type ≠ 0)
    (hj : j < sb.ninodes) (ht' : (tab j).type ≠ 0) (hne : blockAt disk (tab i) p ≠ 0)
    (heq : blockAt disk (tab i) p = blockAt disk (tab j) q) : i = j ∧ p = q := by
  have hr := h.inj (i, p) (j, q) _ (refOf_eq_some.mpr ⟨hi, ht, hne, rfl⟩)
    (refOf_eq_some.mpr ⟨hj, ht', hne, heq.symm⟩)
  exact Prod.mk.inj hr

/-- A free block is a data block nobody refers to. -/
theorem free (hb : b < sb.size) (hfree : sb.inUse disk b = false) :
    sb.IsData b ∧ ∀ j < sb.ninodes, (tab j).type ≠ 0 → ∀ q, blockAt disk (tab j) q ≠ b := by
  have hcases : sb.IsMeta b ∨ sb.IsData b := by
    unfold Superblock.IsMeta Superblock.IsData
    omega
  obtain ⟨hdata, hnobody⟩ := h.free_of_not_used hcases (by simp [hfree])
  refine ⟨hdata, fun j hj ht q hq => hnobody (j, q) ?_⟩
  exact refOf_eq_some.mpr ⟨hj, ht, hdata.pos.ne', hq⟩

/-- Writing a block that is neither bitmap nor indirect block changes no reference. -/
theorem write (hmap : ∀ c < sb.size, x ≠ sb.bblock c)
    (hind : ∀ j < sb.ninodes, (tab j).type ≠ 0 → (tab j).indirect ≠ 0 → (tab j).indirect ≠ x) :
    Owned sb (update disk x v) tab := by
  refine h.congr (fun c hc => ?_) fun r => ?_
  · rw [Superblock.inUse_update_of_ne (hmap c ?_)]
    unfold Superblock.IsMeta Superblock.IsData at hc
    have := sb.dataStart_le
    omega
  · grind [refOf_congr, blockAt_congr]

/-- Writing a data block an inode refers to, directly or by an entry. -/
theorem write_data (hi : i < sb.ninodes) (ht : (tab i).type ≠ 0) (hpos : p ≠ .indirect)
    (hx : blockAt disk (tab i) p = x) (hne : x ≠ 0) : Owned sb (update disk x v) tab := by
  have hdata : sb.IsData x := hx ▸ h.isData hi ht (hx ▸ hne)
  refine h.write (fun c hc => hdata.ne_bblock hc) fun j hj ht' hind heq => ?_
  have := h.ref_eq (q := .indirect) hi ht hj ht' (hx ▸ hne) (hx.trans heq.symm)
  exact hpos this.2

/-- Writing an inode block. -/
theorem write_iblock (hi : i < sb.ninodes) : Owned sb (update disk (sb.iblock i) v) tab := by
  refine h.write (fun c _ => Superblock.iblock_ne_bblock hi) fun j hj ht hne heq => ?_
  have hdata : sb.IsData (tab j).indirect := h.isData (p := .indirect) hj ht hne
  exact hdata.ne_iblock hi heq

end

end Owned

/-- The disk after `balloc` returned `b`. -/
def allocated (sb : Superblock) (disk : Disk) (b : ℕ) : Disk :=
  update (update disk (sb.bblock b) (sb.marked disk b)) b fun _ => 0

theorem allocated_self : allocated sb disk b b = fun _ => 0 := update_self ..

theorem allocated_of_ne (hb : x ≠ b) (hmap : x ≠ sb.bblock b) : allocated sb disk b x = disk x := by
  unfold allocated
  rw [update_of_ne hb, update_of_ne hmap]

theorem inUse_allocated (hb : sb.IsData b) {c : ℕ} (hc : c < sb.size) :
    sb.inUse (allocated sb disk b) c = (decide (c = b) || sb.inUse disk c) := by
  unfold allocated
  rw [Superblock.inUse_update_of_ne (hb.ne_bblock hc), Superblock.inUse_marked]

theorem dinode_allocated (hb : sb.IsData b) (hi : i < sb.ninodes) :
    sb.dinode (allocated sb disk b) i = sb.dinode disk i := by
  unfold allocated
  rw [Superblock.dinode_update_of_ne (hb.ne_iblock hi),
    Superblock.dinode_update_of_ne (Superblock.iblock_ne_bblock hi).symm]

namespace Owned

/-- `balloc` changes no block number of an inode. -/
theorem blockAt_allocated (h : Owned sb disk tab) (hb : b < sb.size)
    (hfree : sb.inUse disk b = false) (hi : i < sb.ninodes) (ht : (tab i).type ≠ 0) :
    blockAt (allocated sb disk b) (tab i) p = blockAt disk (tab i) p := by
  refine blockAt_congr fun hne => ?_
  have hdata : sb.IsData (tab i).indirect := h.isData (p := .indirect) hi ht hne
  exact allocated_of_ne ((h.free hb hfree).2 i hi ht .indirect) (hdata.ne_bblock hb)

theorem used_allocated (h : Owned sb disk tab) (hb : b < sb.size)
    (hfree : sb.inUse disk b = false) (c : ℕ) (hc : sb.IsData c ∨ sb.IsMeta c) :
    sb.inUse (allocated sb disk b) c = true ↔ c = b ∨ sb.inUse disk c = true := by
  have hlt : c < sb.size := by
    unfold Superblock.IsMeta Superblock.IsData at hc
    have := sb.dataStart_le
    omega
  rw [inUse_allocated (h.free hb hfree).1 hlt, Bool.or_eq_true, decide_eq_true_eq]

end Owned

/-- The place of `addrs[a]`. -/
def Pos.ofAddr (a : Fin (NDIRECT + 1)) : Pos :=
  if h : a.val < NDIRECT then .direct ⟨a.val, h⟩ else .indirect

theorem Pos.ofAddr_castSucc (a : Fin NDIRECT) : Pos.ofAddr a.castSucc = .direct a := by
  have h : a.castSucc.val < NDIRECT := a.isLt
  unfold Pos.ofAddr
  rw [dif_pos h]
  rfl

theorem Pos.ofAddr_last : Pos.ofAddr (Fin.last NDIRECT) = .indirect := by
  unfold Pos.ofAddr
  rw [dif_neg (by simp)]

theorem blockAt_ofAddr (a : Fin (NDIRECT + 1)) :
    blockAt disk d (Pos.ofAddr a) = (d.addrs a).toNat := by
  induction a using Fin.lastCases with
  | last => rw [Pos.ofAddr_last]; rfl
  | cast a => rw [Pos.ofAddr_castSucc]; rfl

theorem toNat_setAddr_self {a : Fin (NDIRECT + 1)} (hb : b < 2 ^ 32) :
    ((d.setAddr a b).addrs a).toNat = b := by
  have hself : (d.setAddr a b).addrs a = UInt32.ofNat b := update_self ..
  rw [hself]
  exact UInt32.toNat_ofNat_of_lt' hb

theorem setAddr_of_ne {a c : Fin (NDIRECT + 1)} (h : c ≠ a) :
    (d.setAddr a b).addrs c = d.addrs c :=
  update_of_ne h ..

theorem indirect_setAddr_castSucc {a : Fin NDIRECT} :
    (d.setAddr a.castSucc b).indirect = d.indirect := by
  unfold Dinode.indirect
  rw [setAddr_of_ne (Fin.castSucc_lt_last a).ne']

/-- Setting an address that was zero changes the block number at its place only, if a new
indirect block is zeroed. -/
theorem blockAt_setAddr {a : Fin (NDIRECT + 1)} (hb : b < 2 ^ 32) (hzero : d.addrs a = 0)
    (hblank : disk b = fun _ => 0) :
    blockAt disk (d.setAddr a b) p =
      if p = Pos.ofAddr a then b else blockAt disk d p := by
  split
  · next h => rw [h, blockAt_ofAddr, toNat_setAddr_self hb]
  next hpos =>
  induction a using Fin.lastCases with
  | cast a =>
    have hind := indirect_setAddr_castSucc (d := d) (a := a) (b := b)
    cases p with
    | direct c =>
      have hca : c.castSucc ≠ a.castSucc := by
        grind [Pos.ofAddr_castSucc]
      simp only [blockAt, setAddr_of_ne hca]
    | indirect => exact hind
    | entry j => simp only [blockAt, hind]
  | last =>
    have hind : (d.setAddr (Fin.last NDIRECT) b).indirect = b := toNat_setAddr_self hb
    have hzero' : d.indirect = 0 := by
      rw [Dinode.indirect, hzero]
      rfl
    cases p with
    | direct c => simp only [blockAt, setAddr_of_ne (Fin.castSucc_lt_last c).ne]
    | indirect => exact (hpos Pos.ofAddr_last.symm).elim
    | entry j =>
      simp only [blockAt, hind, hzero', if_true, hblank, getEntry_zero, ite_self]

namespace Owned

/-- A new block for an address of inode `i`. -/
theorem alloc_addr (h : Owned sb disk tab) (hb : b < sb.size) (hfree : sb.inUse disk b = false)
    (hi : i < sb.ninodes) (ht : (tab i).type ≠ 0) {a : Fin (NDIRECT + 1)}
    (hzero : (tab i).addrs a = 0) :
    Owned sb (allocated sb disk b) (update tab i ((tab i).setAddr a b)) := by
  have hdata := (h.free hb hfree).1
  have hb32 : b < 2 ^ 32 := Nat.lt_trans hb (Nat.lt_trans sb.size_lt (by decide))
  have hnone : refOf sb disk tab (i, Pos.ofAddr a) = none := by
    refine refOf_eq_none.mpr fun _ _ => ?_
    rw [blockAt_ofAddr, hzero]
    rfl
  refine (h.take hdata (by simp [hfree]) hnone (h.used_allocated hb hfree)).congr
    (fun _ _ => Iff.rfl) fun r => ?_
  obtain ⟨j, p⟩ := r
  by_cases hj : j = i
  · subst hj
    have hblock := @blockAt_setAddr (allocated sb disk b) b (tab j) p a hb32 hzero allocated_self
    by_cases hpos : p = Pos.ofAddr a
    · subst hpos
      rw [update_self]
      refine refOf_eq_some.mpr ⟨hi, ?_, hdata.pos.ne', ?_⟩
      · rw [update_self]
        exact ht
      · rw [update_self, hblock, if_pos rfl]
    · rw [update_of_ne fun he => hpos (Prod.mk.inj he).2]
      refine refOf_congr ?_ fun _ _ => ?_
      · rw [update_self]
        rfl
      · rw [update_self, hblock, if_neg hpos]
        exact h.blockAt_allocated hb hfree hi ht
  · rw [update_of_ne fun he => hj (Prod.mk.inj he).1]
    refine refOf_congr ?_ fun hj' ht' => ?_
    · rw [update_of_ne hj]
    · rw [update_of_ne hj]
      exact h.blockAt_allocated hb hfree hj' ht'

/-- A new block for an entry of the indirect block of inode `i`. -/
theorem alloc_entry (h : Owned sb disk tab) (hb : b < sb.size) (hfree : sb.inUse disk b = false)
    (hi : i < sb.ninodes) (ht : (tab i).type ≠ 0) (hind : (tab i).indirect ≠ 0)
    {j : Fin NINDIRECT} (hzero : getEntry (disk (tab i).indirect) j = 0) :
    Owned sb (update (allocated sb disk b) (tab i).indirect
      (setEntry (disk (tab i).indirect) j b)) tab := by
  have hdata := (h.free hb hfree).1
  have hb32 : b < 2 ^ 32 := Nat.lt_trans hb (Nat.lt_trans sb.size_lt (by decide))
  have hinddata : sb.IsData (tab i).indirect := h.isData (p := .indirect) hi ht hind
  have hnone : refOf sb disk tab (i, .entry j) = none := by
    refine refOf_eq_none.mpr fun _ _ => ?_
    simp only [blockAt, if_neg hind, hzero]
  refine (h.take hdata (by simp [hfree]) hnone (h.used_allocated hb hfree)).congr
    (fun c hc => ?_) fun r => ?_
  · rw [Superblock.inUse_update_of_ne (hinddata.ne_bblock ?_)]
    unfold Superblock.IsMeta Superblock.IsData at hc
    have := sb.dataStart_le
    omega
  obtain ⟨k, p⟩ := r
  by_cases hr : (k, p) = (i, Pos.entry j)
  · rw [hr, update_self]
    refine refOf_eq_some.mpr ⟨hi, ht, hdata.pos.ne', ?_⟩
    simp only [blockAt, if_neg hind, update_self, getEntry_setEntry hb32, if_true]
  · rw [update_of_ne hr]
    refine refOf_congr Iff.rfl fun hk ht' => ?_
    rw [← h.blockAt_allocated hb hfree hk ht']
    by_cases hki : k = i
    · subst hki
      cases p with
      | direct a => rfl
      | indirect => rfl
      | entry l =>
        have hlj : (l : ℕ) ≠ j := fun hlj => hr (by rw [Fin.ext hlj])
        have hold : allocated sb disk b (tab k).indirect = disk (tab k).indirect :=
          allocated_of_ne ((h.free hb hfree).2 k hk ht' .indirect) (hinddata.ne_bblock hb)
        simp only [blockAt, if_neg hind, update_self, getEntry_setEntry hb32,
          if_neg hlj, hold]
    · refine blockAt_congr fun hne => update_of_ne (fun heq => hki ?_) ..
      exact (h.ref_eq (p := .indirect) (q := .indirect) hk ht' hi ht hne heq).1

end Owned

/-- A reference, of whatever kind, gives its block back to the bitmap. -/
theorem owns_unmarked {R : Type} [DecidableEq R] {ref : R → Option ℕ} {r : R}
    (h : Owns sb.IsMeta sb.IsData (fun b => sb.inUse disk b = true) ref) (hr : ref r = some b) :
    Owns sb.IsMeta sb.IsData
      (fun c => sb.inUse (update disk (sb.bblock b) (sb.unmarked disk b)) c = true)
      (update ref r none) := by
  refine h.drop hr fun c _ => ?_
  rw [Superblock.inUse_unmarked, Bool.and_eq_true, Bool.not_eq_true', decide_eq_false_iff_not]

/-- The block number at a place of an allocated inode, from its reference. -/
theorem getD_refOf (hi : i < sb.ninodes) (ht : (tab i).type ≠ 0) :
    (refOf sb disk tab (i, p)).getD 0 = blockAt disk (tab i) p := by
  by_cases hne : blockAt disk (tab i) p = 0
  · rw [refOf_eq_none.mpr fun _ _ => hne, hne]
    rfl
  · rw [refOf_eq_some.mpr ⟨hi, ht, hne, rfl⟩]
    rfl

end Xv6.Fs
