/-
# Blocks, inodes and their contents

The block allocator and the inode layer of the file system, run by one process at a
time. A function that panics returns the panic; otherwise it returns its result and
the new state. Blocks are read and written through the buffer cache, which is the
disk as seen from here; `log_write` records the block in the running transaction and
has the log's own reasons to panic.

Bytes of a block beyond `BSIZE` are never looked at.
-/

import Xv6.Fs.Layout
import Xv6.Log.Header

namespace Xv6.Fs

open Xv6.Lib

/-- The panics of the file system and of `log_write`, and what a call may wait for. -/
inductive Panic
  /-- `acquiresleep` of a lock that is held: the caller sleeps until it is released. -/
  | held
  /-- "balloc: out of blocks" -/
  | outOfBlocks
  /-- "freeing free block" -/
  | freeingFree
  /-- "ialloc: no inodes" -/
  | noInodes
  /-- "iget: no inodes" -/
  | cacheFull
  /-- "ilock" -/
  | ilock
  /-- "ilock: no type" -/
  | noType
  /-- "iunlock" -/
  | iunlock
  /-- "bmap: out of range" -/
  | outOfRange
  /-- "too big a transaction" -/
  | tooBig
  /-- "log_write outside of trans" -/
  | outsideTrans
  /-- Not a panic: `begin_op` waits for room in the log. -/
  | noRoom
  /-- "dirlookup not DIR" -/
  | notDir
  /-- "dirlookup read" -/
  | dirlookupRead
  /-- "dirlink read" -/
  | dirlinkRead
  /-- "dirlink" -/
  | dirlink
  /-- "isdirempty: readi" -/
  | isdiremptyRead
  /-- "unlink: nlink < 1" -/
  | unlinkNlink
  /-- "unlink: writei" -/
  | unlinkWritei
  /-- "create dots" -/
  | createDots
  /-- "create: dirlink" -/
  | createDirlink
  /-- "filedup" -/
  | filedup
  /-- "fileclose" -/
  | fileclose
  /-- "init exiting" -/
  | initExiting
  deriving DecidableEq

/-- `struct inode`. -/
structure Inode where
  inum : ℕ := 0
  ref : ℕ := 0
  /-- Whether the sleep-lock is held. -/
  locked : Bool := false
  valid : Bool := false
  /-- The copy of the disk inode. -/
  copy : Dinode := {}

/-- The blocks, the inode cache, and the log as far as `log_write` looks at it. -/
structure State where
  disk : Disk := fun _ _ => 0
  icache : Fin NINODE → Inode := fun _ => {}
  /-- `log.lh`. -/
  lh : List ℕ := []
  outstanding : ℕ := 0

namespace State

variable (sb : Superblock)

/-- What `log_write` does when it does not panic. -/
def record (s : State) (b : ℕ) (data : Bytes) : State :=
  { s with
    disk := Function.update s.disk b data
    lh := if b ∈ s.lh then s.lh else s.lh ++ [b] }

/-- `log_write` of block `b`, with the contents its buffer was given. -/
def logWrite (s : State) (b : ℕ) (data : Bytes) : Except Panic State :=
  if Log.LOGSIZE ≤ s.lh.length ∨ sb.nlog ≤ s.lh.length + 1 then .error .tooBig
  else if s.outstanding < 1 then .error .outsideTrans
  else .ok (s.record b data)

def beginOp (s : State) : Except Panic State :=
  if s.lh.length + (s.outstanding + 1) * Log.MAXOPBLOCKS > Log.LOGSIZE then .error .noRoom
  else .ok { s with outstanding := s.outstanding + 1 }

/-- `end_op`. The last one commits, which empties the log and leaves the blocks as they
are. -/
def endOp (s : State) : State :=
  { s with
    outstanding := s.outstanding - 1
    lh := if s.outstanding - 1 = 0 then [] else s.lh }

def bzero (s : State) (b : ℕ) : Except Panic State := s.logWrite sb b fun _ => 0

/-- `balloc`. Its two loops go through the block numbers in order. -/
def balloc (s : State) : Except Panic (ℕ × State) :=
  match (List.range sb.size).find? fun b => !sb.inUse s.disk b with
  | none => .error .outOfBlocks
  | some b => do
      let s ← s.logWrite sb (sb.bblock b) (sb.marked s.disk b)
      let s ← s.bzero sb b
      return (b, s)

def bfree (s : State) (b : ℕ) : Except Panic State :=
  if sb.inUse s.disk b then s.logWrite sb (sb.bblock b) (sb.unmarked s.disk b)
  else .error .freeingFree

/-- `iupdate`: copy the in-memory inode `d` to the disk inode `i`. -/
def iupdate (s : State) (i : ℕ) (d : Dinode) : Except Panic State :=
  s.logWrite sb (sb.iblock i) (sb.withDinode s.disk i d)

/-- Replace an entry of the cache. -/
def setInode (s : State) (k : Fin NINODE) (ip : Inode) : State :=
  { s with icache := Function.update s.icache k ip }

/-- Change fields of the inode in cache entry `k`, then call `iupdate`. -/
def modify (s : State) (k : Fin NINODE) (f : Dinode → Dinode) : Except Panic State := do
  let d := f (s.icache k).copy
  let s ← s.iupdate sb (s.icache k).inum d
  return s.setInode k { s.icache k with copy := d }

/-- `iget`: the entry of inode `i`, or the first free one. -/
def iget (s : State) (i : ℕ) : Except Panic (Fin NINODE × State) :=
  match (List.finRange NINODE).find? fun k => 0 < (s.icache k).ref ∧ (s.icache k).inum = i with
  | some k => .ok (k, s.setInode k { s.icache k with ref := (s.icache k).ref + 1 })
  | none =>
    match (List.finRange NINODE).find? fun k => (s.icache k).ref = 0 with
    | some k => .ok (k, s.setInode k { s.icache k with inum := i, ref := 1, valid := false })
    | none => .error .cacheFull

def idup (s : State) (k : Fin NINODE) : State :=
  s.setInode k { s.icache k with ref := (s.icache k).ref + 1 }

/-- What `ilock` has in hand once it holds the lock: the copy, read from the disk if it is
not valid. -/
def load (s : State) (k : Fin NINODE) : Inode :=
  if (s.icache k).valid then s.icache k
  else { s.icache k with copy := sb.dinode s.disk (s.icache k).inum, valid := true }

def ilock (s : State) (k : Fin NINODE) : Except Panic State :=
  if (s.icache k).ref < 1 then .error .ilock
  else if (s.icache k).locked then .error .held
  else if (s.icache k).valid = false ∧ (s.load sb k).copy.type = 0 then .error .noType
  else .ok (s.setInode k { s.load sb k with locked := true })

def iunlock (s : State) (k : Fin NINODE) : Except Panic State :=
  if (s.icache k).locked = false ∨ (s.icache k).ref < 1 then .error .iunlock
  else .ok (s.setInode k { s.icache k with locked := false })

/-- `ialloc`: the first free disk inode is zeroed and given its type, as an `iupdate` of
such an inode would do. -/
def ialloc (s : State) (type : UInt16) : Except Panic (Fin NINODE × State) :=
  match (List.range' 1 (sb.ninodes - 1)).find? fun i => (sb.dinode s.disk i).type = 0 with
  | none => .error .noInodes
  | some i => do
      let s ← s.iupdate sb i { type := type }
      s.iget i

end State

namespace Dinode

/-- `ip->addrs[a] = addr`. -/
def setAddr (d : Dinode) (a : Fin (NDIRECT + 1)) (addr : ℕ) : Dinode :=
  { d with addrs := Function.update d.addrs a (UInt32.ofNat addr) }

/-- `ip->addrs[NDIRECT]`. -/
def indirect (d : Dinode) : ℕ := (d.addrs (Fin.last NDIRECT)).toNat

/-- The direct addresses. -/
def directs (d : Dinode) : List ℕ := List.ofFn fun a : Fin NDIRECT => (d.addrs a.castSucc).toNat

/-- All direct addresses zeroed. -/
def clearDirects (d : Dinode) : Dinode :=
  { d with addrs := fun a => if a.val < NDIRECT then 0 else d.addrs a }

end Dinode

namespace State

variable (sb : Superblock)

/-- `if((addr = ip->addrs[a]) == 0) ip->addrs[a] = addr = balloc(ip->dev);` -/
def addrOrAlloc (s : State) (d : Dinode) (a : Fin (NDIRECT + 1)) :
    Except Panic (ℕ × Dinode × State) :=
  if d.addrs a = 0 then do
    let (addr, s) ← s.balloc sb
    return (addr, d.setAddr a addr, s)
  else return ((d.addrs a).toNat, d, s)

/-- The entry `j` of the indirect block `addr`, allocating it if necessary. -/
def entryOrAlloc (s : State) (addr j : ℕ) : Except Panic (ℕ × State) :=
  let bp := s.disk addr
  if getEntry bp j = 0 then do
    let (entry, s) ← s.balloc sb
    let s ← s.logWrite sb addr (setEntry bp j entry)
    return (entry, s)
  else return (getEntry bp j, s)

/-- `bmap` of block `bn`, for an inode with the copy `d`. -/
def bmap (s : State) (d : Dinode) (bn : ℕ) : Except Panic (ℕ × Dinode × State) :=
  if h : bn < NDIRECT then s.addrOrAlloc sb d (Fin.castSucc ⟨bn, h⟩)
  else if bn - NDIRECT < NINDIRECT then do
    let (addr, d, s) ← s.addrOrAlloc sb d (Fin.last NDIRECT)
    let (entry, s) ← s.entryOrAlloc sb addr (bn - NDIRECT)
    return (entry, d, s)
  else .error .outOfRange

/-- Free those of some blocks that are not zero. -/
def freeAll : List ℕ → State → Except Panic State
  | [], s => return s
  | b :: rest, s => do
      let s ← if b = 0 then pure s else s.bfree sb b
      freeAll rest s

/-- The indirect part of `itrunc`. -/
def freeIndirect (s : State) (d : Dinode) : Except Panic (Dinode × State) :=
  if d.indirect = 0 then return (d, s)
  else do
    let bp := s.disk d.indirect
    let s ← freeAll sb ((List.range NINDIRECT).map (getEntry bp)) s
    let s ← s.bfree sb d.indirect
    return (d.setAddr (Fin.last NDIRECT) 0, s)

/-- `itrunc` of inode `i` with the copy `d`. -/
def itrunc (s : State) (i : ℕ) (d : Dinode) : Except Panic (Dinode × State) := do
  let s ← freeAll sb d.directs s
  let (d, s) ← s.freeIndirect sb d.clearDirects
  let d := { d with size := 0 }
  let s ← s.iupdate sb i d
  return (d, s)

/-- The part of `iput` that frees the inode, when the last reference goes and it has no
links. -/
def release (s : State) (k : Fin NINODE) : Except Panic State :=
  let ip := s.icache k
  if ip.valid ∧ ip.copy.nlink = 0 ∧ ip.ref = 1 then do
    let (d, s) ← s.itrunc sb ip.inum ip.copy
    let d := { d with type := 0 }
    let s ← s.iupdate sb ip.inum d
    return s.setInode k { ip with copy := d, valid := false }
  else return s

/-- `iput`. The lock is held while the inode is freed and not looked at then. -/
def iput (s : State) (k : Fin NINODE) : Except Panic State :=
  if (s.icache k).locked then .error .held
  else do
    let s ← s.release sb k
    return s.setInode k { s.icache k with ref := (s.icache k).ref - 1 }

def iunlockput (s : State) (k : Fin NINODE) : Except Panic State := do
  let s ← s.iunlock k
  s.iput sb k

/-- The loop of `readi`; `fuel` bounds the number of turns, each of which reads at least
one byte. -/
def readLoop : ℕ → State → Dinode → ℕ → ℕ → Except Panic (List UInt8 × Dinode × State)
  | 0, s, d, _, _ => return ([], d, s)
  | fuel + 1, s, d, off, n =>
    if n = 0 then return ([], d, s)
    else do
      let (addr, d, s) ← s.bmap sb d (off / BSIZE)
      let m := min n (BSIZE - off % BSIZE)
      let data := (s.disk addr).slice (off % BSIZE) m
      let (rest, d, s) ← readLoop fuel s d (off + m) (n - m)
      return (data ++ rest, d, s)

/-- The loop of `writei`. -/
def writeLoop : ℕ → State → Dinode → ℕ → List UInt8 → Except Panic (Dinode × State)
  | 0, s, d, _, _ => return (d, s)
  | fuel + 1, s, d, off, src =>
    if src.length = 0 then return (d, s)
    else do
      let (addr, d, s) ← s.bmap sb d (off / BSIZE)
      let m := min src.length (BSIZE - off % BSIZE)
      let s ← s.logWrite sb addr ((s.disk addr).blit (off % BSIZE) (src.take m))
      writeLoop fuel s d (off + m) (src.drop m)

end State

/-- The functions of `devsw[]`: a read gives its bytes or fails, a write its count. -/
structure Devsw where
  read : Fin NDEV → Option (ℕ → Option (List UInt8)) := fun _ => none
  write : Fin NDEV → Option (List UInt8 → Option ℕ) := fun _ => none

namespace State

variable (sb : Superblock) (dev : Devsw)

/-- `readi` of the inode in cache entry `k`; no value stands for `-1`. A negative major
number is beyond `NDEV` as a bit pattern. -/
def readi (s : State) (k : Fin NINODE) (off n : ℕ) : Except Panic (Option (List UInt8) × State) :=
  let d := (s.icache k).copy
  if d.type = T_DEV then
    if h : d.major.toNat < NDEV then
      match dev.read ⟨d.major.toNat, h⟩ with
      | some read => return (read n, s)
      | none => return (none, s)
    else return (none, s)
  else if off > d.size.toNat ∨ (off + n) % 2 ^ 32 < off then return (none, s)
  else do
    let n := if (off + n) % 2 ^ 32 > d.size.toNat then d.size.toNat - off else n
    let (data, d, s) ← readLoop sb n s d off n
    return (some data, s.setInode k { s.icache k with copy := d })

/-- The end of `writei`: the size grows if the end of the write, `off`, is beyond it. -/
def growSize (s : State) (i : ℕ) (d : Dinode) (off n : ℕ) : Except Panic (Dinode × State) :=
  if n > 0 ∧ off > d.size.toNat then do
    let d := { d with size := UInt32.ofNat off }
    let s ← s.iupdate sb i d
    return (d, s)
  else return (d, s)

/-- `writei` to the inode in cache entry `k`; no value stands for `-1`. -/
def writei (s : State) (k : Fin NINODE) (src : List UInt8) (off : ℕ) :
    Except Panic (Option ℕ × State) :=
  let n := src.length
  let d := (s.icache k).copy
  if d.type = T_DEV then
    if h : d.major.toNat < NDEV then
      match dev.write ⟨d.major.toNat, h⟩ with
      | some write => return (write src, s)
      | none => return (none, s)
    else return (none, s)
  else if off > d.size.toNat ∨ (off + n) % 2 ^ 32 < off then return (none, s)
  else if (off + n) % 2 ^ 32 > MAXFILE * BSIZE then return (none, s)
  else do
    let (d, s) ← writeLoop sb n s d off src
    let (d, s) ← s.growSize sb (s.icache k).inum d (off + n) n
    return (some n, s.setInode k { s.icache k with copy := d })

end State

end Xv6.Fs
