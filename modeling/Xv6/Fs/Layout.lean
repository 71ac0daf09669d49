/-
# The on-disk format

Boot block, superblock, log, inode blocks, free bitmap, data blocks. The superblock
says where each part starts. The bitmap has one bit per block; an inode block holds
`IPB` inodes of 64 bytes; an indirect block is an array of block numbers.
-/

import Xv6.Lib.Bytes
import Mathlib.Data.Nat.Bitwise
import Mathlib.Data.List.OfFn
import Mathlib.Data.List.FinRange
import Mathlib.Data.Fintype.Basic
import Mathlib.Logic.Function.Basic

namespace Xv6.Fs

open Function Xv6.Lib

/-- Block size. -/
def BSIZE : ℕ := 512

/-- Direct addresses of an inode. -/
def NDIRECT : ℕ := 12

/-- Entries of an indirect block. -/
def NINDIRECT : ℕ := BSIZE / 4

/-- Blocks of the largest file. -/
def MAXFILE : ℕ := NDIRECT + NINDIRECT

/-- Inodes per block. -/
def IPB : ℕ := BSIZE / 64

/-- Bitmap bits per block. -/
def BPB : ℕ := BSIZE * 8

/-- Entries of the inode cache. -/
def NINODE : ℕ := 50

theorem ninode_pos : 0 < NINODE := by decide

/-- Entries of the device table. -/
def NDEV : ℕ := 10

def T_DIR : UInt16 := 1
def T_FILE : UInt16 := 2
def T_DEV : UInt16 := 3

/-- The members of `struct superblock`, in an order of the parts that leaves room for
each of them. -/
structure Superblock where
  size : ℕ
  nblocks : ℕ
  ninodes : ℕ
  nlog : ℕ
  logstart : ℕ
  inodestart : ℕ
  bmapstart : ℕ
  log_fits : logstart + nlog ≤ inodestart
  inodes_fit : inodestart + ninodes / IPB + 1 ≤ bmapstart
  bmap_fits : bmapstart + size / BPB + 1 + nblocks ≤ size
  size_lt : size < 2 ^ 31

/-- The disk as the buffer cache shows it. -/
abbrev Disk := ℕ → Bytes

namespace Superblock

variable (sb : Superblock)

/-- The first data block. -/
def dataStart : ℕ := sb.size - sb.nblocks

/-- Boot block, superblock, log, inodes and bitmap. -/
def IsMeta (b : ℕ) : Prop := b < sb.dataStart

/-- A block of the data area. -/
def IsData (b : ℕ) : Prop := sb.dataStart ≤ b ∧ b < sb.size
  deriving Decidable

instance (b : ℕ) : Decidable (sb.IsMeta b) := inferInstanceAs (Decidable (_ < _))

/-- `BBLOCK`. -/
def bblock (b : ℕ) : ℕ := b / BPB + sb.bmapstart

/-- `IBLOCK`. -/
def iblock (i : ℕ) : ℕ := i / IPB + sb.inodestart

variable {sb} {b i : ℕ}

theorem bblock_lt (h : b < sb.size) : sb.bblock b < sb.dataStart := by
  have hdiv : b / BPB ≤ sb.size / BPB := Nat.div_le_div_right h.le
  have := sb.bmap_fits
  unfold bblock dataStart
  omega

theorem bmapstart_le_bblock : sb.bmapstart ≤ sb.bblock b := Nat.le_add_left ..

theorem iblock_lt (h : i < sb.ninodes) : sb.iblock i < sb.bmapstart := by
  have hdiv : i / IPB ≤ sb.ninodes / IPB := Nat.div_le_div_right h.le
  have := sb.inodes_fit
  unfold iblock
  omega

theorem bmapstart_lt : sb.bmapstart < sb.dataStart := by
  have hdiv : 0 ≤ sb.size / BPB := Nat.zero_le _
  have := sb.bmap_fits
  unfold dataStart
  omega

theorem dataStart_le : sb.dataStart ≤ sb.size := Nat.sub_le ..

theorem iblock_ne_bblock {c : ℕ} (h : i < sb.ninodes) : sb.iblock i ≠ sb.bblock c :=
  (Nat.lt_of_lt_of_le (iblock_lt h) bmapstart_le_bblock).ne

theorem IsData.ne_bblock {c : ℕ} (h : sb.IsData b) (hc : c < sb.size) : b ≠ sb.bblock c :=
  (Nat.lt_of_lt_of_le (bblock_lt hc) h.1).ne'

theorem IsData.ne_iblock (h : sb.IsData b) (hi : i < sb.ninodes) : b ≠ sb.iblock i :=
  (Nat.lt_of_lt_of_le (Nat.lt_trans (iblock_lt hi) bmapstart_lt) h.1).ne'

theorem IsData.pos (h : sb.IsData b) : 0 < b :=
  Nat.lt_of_lt_of_le (Nat.zero_lt_of_lt bmapstart_lt) h.1

end Superblock

/-- `1 << k`, for the bits of a byte. -/
def mask (k : ℕ) : UInt8 := UInt8.ofNat (2 ^ k)

/-- Bit `bi` of a bitmap block. -/
def testBit (bp : Bytes) (bi : ℕ) : Bool := bp (bi / 8) &&& mask (bi % 8) != 0

/-- `bp->data[bi/8] |= m`. -/
def setBit (bp : Bytes) (bi : ℕ) : Bytes :=
  update bp (bi / 8) (bp (bi / 8) ||| mask (bi % 8))

/-- `bp->data[bi/8] &= ~m`. -/
def clearBit (bp : Bytes) (bi : ℕ) : Bytes :=
  update bp (bi / 8) (bp (bi / 8) &&& ~~~ mask (bi % 8))

theorem and_mask_ne_zero {x : UInt8} {k : ℕ} (hk : k < 8) :
    (x &&& mask k != 0) = x.toNat.testBit k := by
  have hpow : 2 ^ k < 256 := Nat.pow_lt_pow_right (by omega) hk
  have hval : (x &&& mask k).toNat = (x.toNat.testBit k).toNat * 2 ^ k := by
    rw [UInt8.toNat_and, mask, UInt8.toNat_ofNat_of_lt' hpow, Nat.and_two_pow]
  have hzero : x &&& mask k = 0 ↔ (x.toNat.testBit k).toNat * 2 ^ k = 0 := by
    rw [← hval]
    exact UInt8.toNat_inj.symm
  grind

theorem testBit_or_mask {x : UInt8} {k j : ℕ} (hk : k < 8) :
    (x ||| mask k).toNat.testBit j = (x.toNat.testBit j || decide (k = j)) := by
  have hpow : 2 ^ k < 256 := Nat.pow_lt_pow_right (by omega) hk
  rw [UInt8.toNat_or, mask, UInt8.toNat_ofNat_of_lt' hpow, Nat.testBit_or, Nat.testBit_two_pow]

theorem testBit_not_mask : ∀ k j : Fin 8,
    (~~~ mask k).toNat.testBit j = !decide (k = j) := by
  decide

theorem testBit_and_not_mask {x : UInt8} {k j : ℕ} (hk : k < 8) (hj : j < 8) :
    (x &&& ~~~ mask k).toNat.testBit j = (x.toNat.testBit j && !decide (k = j)) := by
  have := testBit_not_mask ⟨k, hk⟩ ⟨j, hj⟩
  rw [UInt8.toNat_and, Nat.testBit_and, this]
  simp

/-- Setting a bit changes that bit only. -/
theorem testBit_setBit (bp : Bytes) (bi c : ℕ) :
    testBit (setBit bp bi) c = (decide (c = bi) || testBit bp c) := by
  have hsplit : c = bi ↔ c / 8 = bi / 8 ∧ bi % 8 = c % 8 := by omega
  have hlt : ∀ n, n % 8 < 8 := fun n => Nat.mod_lt _ (by omega)
  unfold testBit setBit
  grind [and_mask_ne_zero, testBit_or_mask]

/-- Clearing a bit changes that bit only. -/
theorem testBit_clearBit (bp : Bytes) (bi c : ℕ) :
    testBit (clearBit bp bi) c = (!decide (c = bi) && testBit bp c) := by
  have hsplit : c = bi ↔ c / 8 = bi / 8 ∧ bi % 8 = c % 8 := by omega
  have hlt : ∀ n, n % 8 < 8 := fun n => Nat.mod_lt _ (by omega)
  unfold testBit clearBit
  grind [and_mask_ne_zero, testBit_and_not_mask]

/-- `struct dinode`, also the part of `struct inode` that is a copy of it. The `short`
members are kept as bit patterns. -/
structure Dinode where
  type : UInt16 := 0
  major : UInt16 := 0
  minor : UInt16 := 0
  nlink : UInt16 := 0
  size : UInt32 := 0
  addrs : Fin (NDIRECT + 1) → UInt32 := fun _ => 0

/-- Read the inode at offset `o` of a block. -/
def getDinode (bp : Bytes) (o : ℕ) : Dinode where
  type := UInt16.ofNat (bp.getLE o 2)
  major := UInt16.ofNat (bp.getLE (o + 2) 2)
  minor := UInt16.ofNat (bp.getLE (o + 4) 2)
  nlink := UInt16.ofNat (bp.getLE (o + 6) 2)
  size := UInt32.ofNat (bp.getLE (o + 8) 4)
  addrs a := UInt32.ofNat (bp.getLE (o + 12 + 4 * a) 4)

/-- Store an inode at offset `o` of a block. -/
def putDinode (bp : Bytes) (o : ℕ) (d : Dinode) : Bytes :=
  (((((bp.setLE o 2 d.type.toNat).setLE (o + 2) 2 d.major.toNat).setLE (o + 4) 2
    d.minor.toNat).setLE (o + 6) 2 d.nlink.toNat).setLE (o + 8) 4 d.size.toNat).setWords (o + 12)
      (List.ofFn fun a => (d.addrs a).toNat)

theorem getDinode_putDinode (bp : Bytes) (o : ℕ) (d : Dinode) :
    getDinode (putDinode bp o d) o = d := by
  have hword : ∀ a : Fin (NDIRECT + 1),
      (putDinode bp o d).getLE (o + 12 + 4 * a) 4 = (d.addrs a).toNat := by
    intro a
    refine Bytes.getLE_setWords (fun w hw => ?_) ?_
    · obtain ⟨c, rfl⟩ := List.mem_ofFn.mp hw
      exact (d.addrs c).toNat_lt
    · rw [List.getElem?_ofFn, dif_pos a.isLt]
  have hbelow : ∀ {off n : ℕ}, off + n ≤ o + 12 →
      (putDinode bp o d).getLE off n = Bytes.getLE _ off n := fun hle =>
    Bytes.getLE_setWords_of_disjoint _ (.inl hle)
  have htype : (putDinode bp o d).getLE o 2 = d.type.toNat := by
    grind [Bytes.getLE_setLE_of_disjoint, Bytes.getLE_setLE, d.type.toNat_lt]
  have hmajor : (putDinode bp o d).getLE (o + 2) 2 = d.major.toNat := by
    grind [Bytes.getLE_setLE_of_disjoint, Bytes.getLE_setLE, d.major.toNat_lt]
  have hminor : (putDinode bp o d).getLE (o + 4) 2 = d.minor.toNat := by
    grind [Bytes.getLE_setLE_of_disjoint, Bytes.getLE_setLE, d.minor.toNat_lt]
  have hnlink : (putDinode bp o d).getLE (o + 6) 2 = d.nlink.toNat := by
    rw [hbelow (by omega), Bytes.getLE_setLE_of_disjoint (.inl (by omega))]
    exact Bytes.getLE_setLE _ _ _ _ d.nlink.toNat_lt
  have hsize : (putDinode bp o d).getLE (o + 8) 4 = d.size.toNat := by
    rw [hbelow (by omega)]
    exact Bytes.getLE_setLE _ _ _ _ d.size.toNat_lt
  simp only [getDinode, hword, htype, hmajor, hminor, hnlink, hsize, UInt16.ofNat_toNat,
    UInt32.ofNat_toNat]

theorem putDinode_of_out {bp : Bytes} {o : ℕ} {d : Dinode} {i : ℕ} (h : i < o ∨ o + 64 ≤ i) :
    putDinode bp o d i = bp i := by
  unfold putDinode
  rw [Bytes.setWords_of_out, Bytes.setLE_of_out, Bytes.setLE_of_out, Bytes.setLE_of_out,
    Bytes.setLE_of_out, Bytes.setLE_of_out]
  all_goals try omega
  rw [List.length_ofFn, NDIRECT]
  omega

theorem getDinode_congr {bp bp' : Bytes} {o : ℕ} (h : ∀ i, o ≤ i → i < o + 64 → bp i = bp' i) :
    getDinode bp o = getDinode bp' o := by
  have hget : ∀ off n : ℕ, o ≤ off → off + n ≤ o + 64 → bp.getLE off n = bp'.getLE off n :=
    fun _ _ hle hlt => Bytes.getLE_congr fun i hi hi' => h i (by omega) (by omega)
  have hword : ∀ a : Fin (NDIRECT + 1),
      bp.getLE (o + 12 + 4 * a) 4 = bp'.getLE (o + 12 + 4 * a) 4 := fun a =>
    hget _ _ (by omega) (by have := a.isLt; simp only [NDIRECT] at this; omega)
  simp [getDinode, hword, hget]

/-- `a[j]` of an indirect block. -/
def getEntry (bp : Bytes) (j : ℕ) : ℕ := bp.getLE (4 * j) 4

/-- `a[j] = addr`. -/
def setEntry (bp : Bytes) (j addr : ℕ) : Bytes := bp.setLE (4 * j) 4 addr

theorem getEntry_setEntry {bp : Bytes} {j k addr : ℕ} (h : addr < 2 ^ 32) :
    getEntry (setEntry bp j addr) k = if k = j then addr else getEntry bp k := by
  unfold getEntry setEntry
  grind [Bytes.getLE_setLE, Bytes.getLE_setLE_of_disjoint]

theorem getEntry_zero (j : ℕ) : getEntry (fun _ => 0) j = 0 := rfl

namespace Superblock

variable (sb : Superblock)

/-- The bit of block `b`. -/
def inUse (disk : Disk) (b : ℕ) : Bool := testBit (disk (sb.bblock b)) (b % BPB)

/-- The bitmap block of `b` with the bit of `b` set. -/
def marked (disk : Disk) (b : ℕ) : Bytes := setBit (disk (sb.bblock b)) (b % BPB)

/-- The bitmap block of `b` with the bit of `b` clear. -/
def unmarked (disk : Disk) (b : ℕ) : Bytes := clearBit (disk (sb.bblock b)) (b % BPB)

/-- The disk inode `i`. -/
def dinode (disk : Disk) (i : ℕ) : Dinode := getDinode (disk (sb.iblock i)) (i % IPB * 64)

/-- The block of inode `i` with `d` in its place. -/
def withDinode (disk : Disk) (i : ℕ) (d : Dinode) : Bytes :=
  putDinode (disk (sb.iblock i)) (i % IPB * 64) d

variable {sb} {disk : Disk} {b c i x : ℕ} {v : Bytes} {d : Dinode}

theorem inUse_update_of_ne (h : x ≠ sb.bblock c) :
    sb.inUse (update disk x v) c = sb.inUse disk c := by
  unfold inUse
  rw [update_of_ne h.symm]

theorem eq_iff_bblock : c = b ↔ sb.bblock c = sb.bblock b ∧ c % BPB = b % BPB := by
  unfold bblock
  grind [Nat.div_add_mod]

theorem inUse_marked :
    sb.inUse (update disk (sb.bblock b) (sb.marked disk b)) c =
      (decide (c = b) || sb.inUse disk c) := by
  by_cases hblock : sb.bblock c = sb.bblock b
  · rw [inUse, hblock, update_self, marked, testBit_setBit, inUse, hblock]
    simp only [@eq_iff_bblock sb b c, hblock, true_and]
  · grind [inUse_update_of_ne]

theorem inUse_unmarked :
    sb.inUse (update disk (sb.bblock b) (sb.unmarked disk b)) c =
      (!decide (c = b) && sb.inUse disk c) := by
  by_cases hblock : sb.bblock c = sb.bblock b
  · rw [inUse, hblock, update_self, unmarked, testBit_clearBit, inUse, hblock]
    simp only [@eq_iff_bblock sb b c, hblock, true_and]
  · grind [inUse_update_of_ne]

theorem dinode_update_of_ne (h : x ≠ sb.iblock i) :
    sb.dinode (update disk x v) i = sb.dinode disk i := by
  unfold dinode
  rw [update_of_ne h.symm]

/-- Storing an inode changes that inode only. -/
theorem dinode_withDinode :
    sb.dinode (update disk (sb.iblock i) (sb.withDinode disk i d)) =
      update (sb.dinode disk) i d := by
  funext j
  by_cases hj : j = i
  · subst hj
    rw [dinode, update_self, update_self, withDinode, getDinode_putDinode]
  · rw [update_of_ne hj]
    by_cases hblock : sb.iblock j = sb.iblock i
    · have hmod : j % IPB ≠ i % IPB := by
        intro hmod
        have hdiv : j / IPB = i / IPB := Nat.add_right_cancel hblock
        exact hj (by rw [← Nat.div_add_mod j IPB, ← Nat.div_add_mod i IPB, hmod, hdiv])
      rw [dinode, hblock, update_self, dinode, hblock]
      refine getDinode_congr fun p hle hlt => putDinode_of_out ?_
      omega
    · exact dinode_update_of_ne (Ne.symm hblock)

end Superblock

end Xv6.Fs
