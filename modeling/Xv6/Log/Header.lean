/-
# The log header block

The log is a run of blocks: a header, then one slot per logged block. The header
holds a count and the home block numbers, as 32-bit integers. `write_head` fills in
the count and the first entries and leaves the rest of the block as it was.
-/

import Xv6.Lib.Bytes
import Mathlib.Data.List.Range

namespace Xv6.Log

open Xv6.Lib

/-- Blocks one operation may write. -/
def MAXOPBLOCKS : ℕ := 10

/-- Entries of the log header. -/
def LOGSIZE : ℕ := MAXOPBLOCKS * 3

/-- Where the log lies: `log.start` and `log.size`, as the superblock has them. The
first block is the header. -/
structure Geometry where
  start : ℕ
  size : ℕ
  size_pos : 0 < size
  deriving DecidableEq

/-- The blocks of the log area. -/
def Geometry.InLog (g : Geometry) (b : ℕ) : Prop := g.start ≤ b ∧ b < g.start + g.size
  deriving Decidable

/-- The slot of the log entry `tail`. -/
def Geometry.slot (g : Geometry) (tail : ℕ) : ℕ := g.start + tail + 1

/-- `lh->n`, an `int`; the loops over the entries do not run when it is negative. -/
def headCount (head : Bytes) : ℕ := (BitVec.ofNat 32 (head.getLE 0 4)).toInt.toNat

/-- `lh->block[i]`. -/
def headBlock (head : Bytes) (i : ℕ) : ℕ := head.getLE (4 + 4 * i) 4

/-- The entries `read_head` copies into memory. -/
def readHead (head : Bytes) : List ℕ := (List.range (headCount head)).map (headBlock head)

/-- The header block `write_head` writes, given what the block held. -/
def writeHead (lh : List ℕ) (head : Bytes) : Bytes :=
  (head.setLE 0 4 lh.length).setWords 4 lh

theorem headCount_writeHead {lh : List ℕ} (head : Bytes) (hlen : lh.length < 2 ^ 31) :
    headCount (writeHead lh head) = lh.length := by
  rw [headCount, writeHead, Bytes.getLE_setWords_of_disjoint lh (.inl (by omega)),
    Bytes.getLE_setLE _ _ _ _ (by omega), BitVec.toInt_ofNat']
  rw [Int.bmod_eq_of_le_mul_two (by omega) (by omega)]
  exact Int.toNat_natCast _

/-- `read_head` gets back the entries `write_head` wrote. -/
theorem readHead_writeHead {lh : List ℕ} (head : Bytes) (hlen : lh.length < 2 ^ 31)
    (hfit : ∀ b ∈ lh, b < 2 ^ 32) : readHead (writeHead lh head) = lh := by
  rw [readHead, headCount_writeHead head hlen]
  refine List.ext_getElem (by simp) fun k hk hk' => ?_
  rw [List.getElem_map, List.getElem_range]
  exact Bytes.getLE_setWords hfit (List.getElem?_eq_getElem hk')

/-- After the clearing `write_head` the header has no entries. -/
theorem readHead_writeHead_nil (head : Bytes) : readHead (writeHead [] head) = [] :=
  readHead_writeHead head (by simp) (by simp)

end Xv6.Log
