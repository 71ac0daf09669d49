/-
# The write-ahead log as a machine

Any number of processes run `begin_op`, `log_write` and `end_op`; the last
`end_op` commits. A step is one region under `log.lock`, the size check that
`log_write` makes before it takes the lock, one region of `bget` or `brelse`, or one
block write of `commit` or `recover_from_log`. The disk writes a block atomically, so
the machine may crash between any two steps and then boots again.

Processes take and release buffers as they like, inside an operation or outside. An
operation modifies a buffer it has locked and passes it to `log_write`; nobody else sees
the buffer in between, so the modification is part of the step that records the block.
`commit` and `recover_from_log` take the buffers of each of their block writes one by
one, and wait where one is locked. Whoever finds no buffer panics.

The ghost part records what was logged by whom. It is read by no step.
-/

import Xv6.Lib.Machine
import Xv6.Lib.Redo
import Xv6.Log.Bcache

namespace Xv6.Log

open Xv6.Lib

/-- Where a process is. An operation has a number of its own, for the ghost state. -/
inductive OpPc
  | idle
  /-- In the loop of `begin_op`, about to test again. -/
  | beginning
  /-- In the loop of `begin_op`, asleep on `&log`. -/
  | sleeping
  /-- Between `begin_op` and `end_op`. -/
  | active (op : ℕ)
  /-- In `log_write`, past its size check, with the modified block. -/
  | checked (op : ℕ) (block : ℕ) (data : Bytes)
  /-- In `end_op`, running `commit`. -/
  | committing

/-- What `commit` and `recover_from_log` write next. -/
inductive Phase
  /-- Neither of them runs. -/
  | running
  /-- `write_log` copies entry `tail` to its slot. -/
  | writeLog (tail : ℕ)
  /-- `write_head`, the commit point. -/
  | writeHead
  /-- `install_trans` copies slot `tail` to its home. -/
  | install (tail : ℕ)
  /-- The `write_head` that erases the transaction. -/
  | clear
  /-- `commit` has returned to `end_op`. -/
  | finish
  /-- Crashed, not yet booted. -/
  | down
  /-- As `install`, in `recover_from_log`. -/
  | recover (tail : ℕ)
  /-- As `clear`, in `recover_from_log`. -/
  | recoverClear
  deriving DecidableEq

/-- The panics of the log and the buffer cache. -/
inductive Panic
  | tooBig
  | outsideTrans
  | committing
  | noBuffers
  deriving DecidableEq

/-- A completed `log_write`: by which operation, to which block, with what data. -/
structure Write where
  op : ℕ
  block : ℕ
  data : Bytes

/-- The record of a run. -/
structure Ghost where
  /-- The disk before the run. -/
  base : ℕ → Bytes := fun _ _ => 0
  /-- The writes of each group whose header write completed. -/
  hist : List (List Write) := []
  /-- The writes since the last commit point or crash. -/
  cur : List Write := []
  /-- Every completed `log_write`. -/
  trace : List Write := []
  /-- Operations that have called `end_op`. -/
  ended : List ℕ := []
  /-- The number of the next operation. -/
  nextOp : ℕ := 0

/-- Disk, buffer cache, `struct log` and the processes. -/
structure State where
  disk : ℕ → Bytes := fun _ _ => 0
  bcache : Bcache := .empty
  /-- `log.lh`. -/
  lh : List ℕ := []
  outstanding : ℕ := 0
  committing : Bool := false
  ops : ℕ → OpPc := fun _ => .idle
  phase : Phase := .down
  panicked : Option Panic := none
  ghost : Ghost := {}

/-- The store after some `log_write`s. -/
def replay (base : ℕ → Bytes) (writes : List Write) : ℕ → Bytes :=
  Redo.replay Write.block Write.data base writes

namespace State

/-- The state the committed groups produce. -/
def committed (s : State) : ℕ → Bytes := replay s.ghost.base s.ghost.hist.flatten

/-- The contents of the buffer `bread` returns. -/
def bread (s : State) (b : ℕ) : Bytes := s.bcache.contents s.disk b

/-- The buffer of a block is dirty. -/
def dirty (s : State) (b : ℕ) : Bool := s.bcache.dirty b

/-- `bget` up to the sleep-lock. -/
def bget (s : State) (h : Holder) (b : ℕ) : State :=
  match s.bcache.bget s.disk h b with
  | none => { s with panicked := some .noBuffers }
  | some bcache => { s with bcache }

/-- The end of `bget`, once the lock is free. -/
def acquire (s : State) (h : Holder) (b : ℕ) : State :=
  { s with bcache := s.bcache.acquire h b }

def brelse (s : State) (h : Holder) (b : ℕ) : State := { s with bcache := s.bcache.brelse h b }

/-- Put `data` in the buffer of block `b` and write it through. -/
def bwrite (s : State) (b : ℕ) (data : Bytes) : State :=
  { s with
    disk := Function.update s.disk b data
    bcache := s.bcache.store b data false }

/-- `wakeup(&log)`. -/
def wakeup (s : State) : State :=
  { s with
    ops := fun p =>
      match s.ops p with
      | .sleeping => .beginning
      | pc => pc }

def setOp (s : State) (p : ℕ) (pc : OpPc) : State :=
  { s with ops := Function.update s.ops p pc }

/-- One turn of the loop of `begin_op`. -/
def beginOp (s : State) (p : ℕ) : State :=
  if s.committing then s.setOp p .sleeping
  else if s.lh.length + (s.outstanding + 1) * MAXOPBLOCKS > LOGSIZE then s.setOp p .sleeping
  else
    { s.setOp p (.active s.ghost.nextOp) with
      outstanding := s.outstanding + 1
      ghost := { s.ghost with nextOp := s.ghost.nextOp + 1 } }

/-- The checks at the start of `log_write`, made without the lock. -/
def logCheck (g : Geometry) (s : State) (p op block : ℕ) (data : Bytes) : State :=
  if LOGSIZE ≤ s.lh.length ∨ g.size ≤ s.lh.length + 1 then { s with panicked := some .tooBig }
  else if s.outstanding < 1 then { s with panicked := some .outsideTrans }
  else s.setOp p (.checked op block data)

/-- The rest of `log_write`: find the block among the entries or append it, and pin
the buffer in the cache. -/
def logAppend (s : State) (p op block : ℕ) (data : Bytes) : State :=
  { s.setOp p (.active op) with
    lh := if block ∈ s.lh then s.lh else s.lh ++ [block]
    bcache := s.bcache.store block data true
    ghost := { s.ghost with
      cur := s.ghost.cur ++ [⟨op, block, data⟩]
      trace := s.ghost.trace ++ [⟨op, block, data⟩] } }

/-- `end_op` up to the release of the lock, and the test at the head of `commit`. -/
def endOp (s : State) (p op : ℕ) : State :=
  let s := { s with
    outstanding := s.outstanding - 1
    ghost := { s.ghost with ended := op :: s.ghost.ended } }
  if s.committing then { s.setOp p .idle with panicked := some .committing }
  else if s.outstanding = 0 then
    { s.setOp p .committing with
      committing := true
      phase := if s.lh.length > 0 then .writeLog 0 else .finish }
  else (s.setOp p .idle).wakeup

/-- The end of an `end_op` that committed. -/
def finish (s : State) : State :=
  { s.wakeup with
    committing := false
    phase := .running
    ops := fun p =>
      match s.wakeup.ops p with
      | .committing => .idle
      | pc => pc }

/-- `write_head()` with the entries in memory. -/
def writeHead (g : Geometry) (s : State) : State :=
  (s.bwrite g.start (Log.writeHead s.lh (s.bread g.start))).brelse .log g.start

/-- One turn of the loop of `write_log`. -/
def writeSlot (g : Geometry) (s : State) (tail : ℕ) : State :=
  ((s.bwrite (g.slot tail) (s.bread (s.lh.getD tail 0))).brelse .log (s.lh.getD tail 0)).brelse
    .log (g.slot tail)

/-- One turn of the loop of `install_trans`. -/
def installSlot (g : Geometry) (s : State) (tail : ℕ) : State :=
  ((s.bwrite (s.lh.getD tail 0) (s.bread (g.slot tail))).brelse .log (g.slot tail)).brelse
    .log (s.lh.getD tail 0)

/-- The blocks whose buffers the next block write takes before, in their order. -/
def needs (g : Geometry) (s : State) : List ℕ :=
  match s.phase with
  | .writeLog tail | .install tail | .recover tail => [g.slot tail, s.lh.getD tail 0]
  | .writeHead | .clear | .recoverClear => [g.start]
  | .running | .finish | .down => []

/-- The next block write, with the buffers it needs at hand. After the last turn of
`install_trans` the entries in memory are dropped (`log.lh.n = 0`). -/
def diskWrite (g : Geometry) (s : State) : State :=
  match s.phase with
  | .writeLog tail =>
    { s.writeSlot g tail with
      phase := if tail + 1 < s.lh.length then .writeLog (tail + 1) else .writeHead }
  | .writeHead =>
    { s.writeHead g with
      phase := .install 0
      ghost := { s.ghost with hist := s.ghost.hist ++ [s.ghost.cur], cur := [] } }
  | .install tail =>
    if tail + 1 < s.lh.length then { s.installSlot g tail with phase := .install (tail + 1) }
    else { s.installSlot g tail with phase := .clear, lh := [] }
  | .clear => { s.writeHead g with phase := .finish }
  | .recover tail =>
    if tail + 1 < s.lh.length then { s.installSlot g tail with phase := .recover (tail + 1) }
    else { s.installSlot g tail with phase := .recoverClear, lh := [] }
  | .recoverClear => { s.writeHead g with phase := .running }
  | .running | .finish | .down => s

/-- Memory is lost, and with it what was not committed. -/
def crash (s : State) : State where
  disk := s.disk
  ghost := { s.ghost with cur := [] }

/-- `initlog` up to the first block write: `read_head`, and the loop test of
`install_trans`. -/
def boot (g : Geometry) (s : State) : State :=
  match s.bcache.bget s.disk .log g.start with
  | none => { s with panicked := some .noBuffers }
  | some bcache =>
    let lh := readHead (bcache.contents s.disk g.start)
    let s := { s with bcache := (bcache.acquire .log g.start).brelse .log g.start }
    if 0 < lh.length then { s with lh := lh, phase := .recover 0 }
    else { s with lh := [], phase := .recoverClear }

end State

/-- The steps, by the process that takes them. -/
inductive Label
  | beginOp (p : ℕ)
  | logCheck (p : ℕ) (block : ℕ) (data : Bytes)
  | logAppend (p : ℕ)
  | endOp (p : ℕ)
  | diskWrite
  | finish
  | crash
  | boot
  | bget (h : Holder) (b : ℕ)
  | acquire (h : Holder) (b : ℕ)
  | brelse (p : ℕ) (b : ℕ)

/-- The kernel has booted and the log is recovered. -/
def Phase.Up : Phase → Prop
  | .down | .recover _ | .recoverClear => False
  | .running | .writeLog _ | .writeHead | .install _ | .clear | .finish => True

instance : DecidablePred Phase.Up := fun ph => by
  cases ph <;> dsimp only [Phase.Up] <;> infer_instance

/-- `commit` or `recover_from_log` is about to write a block. -/
def Phase.Writes : Phase → Prop
  | .running | .finish | .down => False
  | .writeLog _ | .writeHead | .install _ | .clear | .recover _ | .recoverClear => True

instance : DecidablePred Phase.Writes := fun ph => by
  cases ph <;> dsimp only [Phase.Writes] <;> infer_instance

/-- A process may call `begin_op` or is in its loop. -/
def OpPc.CanBegin : OpPc → Prop
  | .idle | .beginning => True
  | .sleeping | .active _ | .checked _ _ _ | .committing => False

instance : DecidablePred OpPc.CanBegin := fun pc => by
  cases pc <;> dsimp only [OpPc.CanBegin] <;> infer_instance

/-- Between `begin_op` and `end_op` and not in `log_write`. -/
def OpPc.IsActive : OpPc → Prop
  | .active _ => True
  | .idle | .beginning | .sleeping | .checked _ _ _ | .committing => False

instance : DecidablePred OpPc.IsActive := fun pc => by
  cases pc <;> dsimp only [OpPc.IsActive] <;> infer_instance

/-- In `log_write`, past its size check. -/
def OpPc.IsChecked : OpPc → Prop
  | .checked _ _ _ => True
  | .idle | .beginning | .sleeping | .active _ | .committing => False

instance : DecidablePred OpPc.IsChecked := fun pc => by
  cases pc <;> dsimp only [OpPc.IsChecked] <;> infer_instance

/-- In none of the functions of the log. -/
def OpPc.IsOutside : OpPc → Prop
  | .idle | .active _ => True
  | .beginning | .sleeping | .checked _ _ _ | .committing => False

instance : DecidablePred OpPc.IsOutside := fun pc => by
  cases pc <;> dsimp only [OpPc.IsOutside] <;> infer_instance

namespace State

/-- Block `b` is the next one `commit` or `recover_from_log` takes a buffer for. -/
def NeedsNext (g : Geometry) (s : State) (b : ℕ) : Prop :=
  (s.needs g).find? (fun x => ¬ s.bcache.Holds .log x) = some b ∧ ¬ s.bcache.Uses .log b
  deriving Decidable

/-- Who may call `bget`. -/
def CanGet (g : Geometry) (s : State) (b : ℕ) : Holder → Prop
  | .proc p => s.phase.Up ∧ (s.ops p).IsOutside
  | .log => s.NeedsNext g b

instance (g : Geometry) (s : State) (b : ℕ) (h : Holder) : Decidable (s.CanGet g b h) := by
  cases h <;> dsimp only [CanGet] <;> infer_instance

/-- Which steps are possible. After a panic the machine can only be restarted. -/
def Enabled (g : Geometry) (s : State) : Label → Prop
  | .crash => True
  | .beginOp p => s.panicked = none ∧ s.phase.Up ∧ (s.ops p).CanBegin
  | .logCheck p block _ => s.panicked = none ∧ (s.ops p).IsActive ∧ block < 2 ^ 32 ∧
    s.bcache.Holds (.proc p) block
  | .logAppend p => s.panicked = none ∧ (s.ops p).IsChecked
  | .endOp p => s.panicked = none ∧ (s.ops p).IsActive
  | .diskWrite => s.panicked = none ∧ s.phase.Writes ∧ ∀ b ∈ s.needs g, s.bcache.Holds .log b
  | .finish => s.panicked = none ∧ s.phase = .finish
  | .boot => s.panicked = none ∧ s.phase = .down
  | .bget h b => s.panicked = none ∧ s.CanGet g b h
  | .acquire h b => s.panicked = none ∧ s.bcache.Uses h b ∧ s.bcache.Unlocked b
  | .brelse p b => s.panicked = none ∧ (s.ops p).IsOutside ∧ s.bcache.Holds (.proc p) b

instance (g : Geometry) (s : State) (l : Label) : Decidable (s.Enabled g l) := by
  cases l <;> dsimp only [Enabled] <;> infer_instance

def next (g : Geometry) (s : State) : Label → State
  | .crash => s.crash
  | .beginOp p => s.beginOp p
  | .logCheck p block data =>
    match s.ops p with
    | .active op => s.logCheck g p op block data
    | _ => s
  | .logAppend p =>
    match s.ops p with
    | .checked op block data => s.logAppend p op block data
    | _ => s
  | .endOp p =>
    match s.ops p with
    | .active op => s.endOp p op
    | _ => s
  | .diskWrite => s.diskWrite g
  | .finish => s.finish
  | .boot => s.boot g
  | .bget h b => s.bget h b
  | .acquire h b => s.acquire h b
  | .brelse p b => s.brelse (.proc p) b

/-- A machine that is off, with an empty log on its disk. -/
def Init (g : Geometry) (s : State) : Prop :=
  readHead (s.disk g.start) = [] ∧ s = { disk := s.disk, ghost := { base := s.disk } }

end State

/-- The log of a disk with the given geometry. -/
def system (g : Geometry) : Machine State Label where
  Init := State.Init g
  Enabled := State.Enabled g
  next := State.next g

instance (g : Geometry) (s : State) (l : Label) : Decidable ((system g).Enabled s l) :=
  inferInstanceAs (Decidable (s.Enabled g l))

/-- The log of the images `mkfs` writes: `LOGSIZE` blocks after the superblock. -/
def mkfsLog : Geometry := ⟨2, LOGSIZE, by decide⟩

/-- The log takes the buffer of a block. -/
def takeLabels (b : ℕ) : List Label := [.bget .log b, .acquire .log b]

/-- Boot with an empty log. -/
def bootLabels (g : Geometry) : List Label := .boot :: takeLabels g.start ++ [.diskWrite]

/-- Process `p` takes the buffer of a block and passes the check of `log_write`. -/
def checkLabels (p b : ℕ) (byte : UInt8) : List Label :=
  [.bget (.proc p) b, .acquire (.proc p) b, .logCheck p b fun _ => byte]

/-- Process `p` calls `log_write` on `n` blocks from `first` on, filled with one byte. -/
def logLabels (p first n : ℕ) (byte : UInt8) : List Label :=
  (List.range n).flatMap fun i => checkLabels p (first + i) byte ++
    [.logAppend p, .brelse p (first + i)]

/-- Turns of the loops of `write_log` and `install_trans` over the entries `L`, from entry
`tail` on. -/
def copyLabels (g : Geometry) (tail : ℕ) : List ℕ → List Label
  | [] => []
  | b :: rest =>
    takeLabels (g.slot tail) ++ takeLabels b ++ [.diskWrite] ++ copyLabels g (tail + 1) rest

end Xv6.Log
