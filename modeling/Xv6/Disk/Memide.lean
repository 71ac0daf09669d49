/-
# The in-memory disk driver

`iderw` of `memide.c`: it copies one block between a buffer and a memory image and
returns at once. It is what the interrupt-driven driver has to agree with, and
what the buffer cache runs on.

The caller holds the lock of the buffer, so the check for it is left out. A block
is copied as a whole, so its `BSIZE` bytes are kept as one value.
-/

import Xv6.Lib.Bytes

namespace Xv6.Disk

open Function Xv6.Lib

/-- The members of `struct buf` the drivers use; `valid` and `dirty` are the flags
`B_VALID` and `B_DIRTY`. -/
structure Buf where
  valid : Bool := false
  dirty : Bool := false
  dev : ℕ := 0
  blockno : ℕ := 0
  data : Bytes := fun _ => 0

/-- The panics of the drivers. -/
inductive Panic
  /-- "iderw: nothing to do" -/
  | nothingToDo
  /-- "iderw: request not for disk 1" -/
  | notDisk1
  /-- "iderw: block out of range" -/
  | outOfRange
  /-- "iderw: ide disk 1 not present" -/
  | noDisk1
  /-- "incorrect blockno" -/
  | incorrectBlockno
  deriving DecidableEq, Repr

/-- The flags say that the buffer agrees with the disk. -/
def Buf.Synced (x : Buf) : Prop := x.valid = true ∧ x.dirty = false
  deriving Decidable

/-- The buffer after its block was written to the disk. -/
def Buf.written (x : Buf) : Buf := { x with dirty := false, valid := true }

/-- The buffer after its block was read from the disk. -/
def Buf.filled (x : Buf) (data : Bytes) : Buf := { x with data, valid := true }

/-- The blocks of disk 1 and `K` buffers. -/
structure Mem (K : ℕ) where
  disk : ℕ → Bytes
  buf : Fin K → Buf

namespace Memide

variable {K : ℕ}

/-- `iderw` of `memide.c`. -/
def iderw (disksize : ℕ) (m : Mem K) (b : Fin K) : Except Panic (Mem K) :=
  if (m.buf b).Synced then .error .nothingToDo
  else if (m.buf b).dev ≠ 1 then .error .notDisk1
  else if disksize ≤ (m.buf b).blockno then .error .outOfRange
  else if (m.buf b).dirty then
    .ok { disk := update m.disk (m.buf b).blockno (m.buf b).data
          buf := update m.buf b (m.buf b).written }
  else .ok { m with buf := update m.buf b ((m.buf b).filled (m.disk (m.buf b).blockno)) }

/-- What a successful call does. -/
theorem iderw_eq_ok {disksize : ℕ} {m m' : Mem K} {b : Fin K}
    (h : iderw disksize m b = .ok m') :
    ¬ (m.buf b).Synced ∧ (m.buf b).dev = 1 ∧
    ((m.buf b).dirty = true ∧
      m' = ⟨update m.disk (m.buf b).blockno (m.buf b).data,
        update m.buf b (m.buf b).written⟩ ∨
    (m.buf b).dirty = false ∧
      m' = ⟨m.disk,
        update m.buf b ((m.buf b).filled (m.disk (m.buf b).blockno))⟩) := by
  rw [iderw] at h
  grind

end Memide

end Xv6.Disk
