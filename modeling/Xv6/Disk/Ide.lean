/-
# The interrupt-driven disk driver

`iderw`, `idestart` and `ideintr` of `ide.c`. Requests wait in a linked queue; the
first one has been given to the disk, and the interrupt that reports its end
starts the next. A step is one region under `idelock`, or the work of the disk
itself, which goes on beside the processors. A process that sleeps in `iderw` may
also be woken for no reason (`kill` does that), and tests the flags again.

`iderw` is called with the buffer locked, so no two processes are in it with the
same buffer, and as long as nobody is, its holder may change it in any way.

A sector is a block, and block numbers below `FSSIZE` fit into the 28 bits the
controller takes. There are no disk errors.
-/

import Xv6.Disk.Memide
import Xv6.Lib.Chain
import Xv6.Lib.Machine
import Mathlib.Data.Fintype.Card

namespace Xv6.Disk

open Function Xv6.Lib

def FSSIZE : ℕ := 1000

/-- A command for the disk: read a sector, or write it with the given data. -/
structure Cmd where
  /-- The drive bit. -/
  drive : ℕ
  sector : ℕ
  write : Option Bytes

/-- What the disk does. -/
inductive Controller
  | idle
  | busy (cmd : Cmd)
  /-- The command is done and the interrupt is pending; `data` is what `insl` gets. -/
  | ready (cmd : Cmd) (data : Bytes)

/-- Where a process is. -/
inductive Pc (K : ℕ)
  | idle
  /-- In the loop of `iderw`. -/
  | waiting (b : Fin K) (asleep : Bool)
  deriving DecidableEq

/-- The driver, `K` buffers and `N` processes. -/
structure State (K N : ℕ) where
  disks : ℕ → ℕ → Bytes
  buf : Fin K → Buf
  qnext : Fin K → Option (Fin K)
  idequeue : Option (Fin K)
  controller : Controller
  havedisk1 : Bool
  proc : Fin N → Pc K
  panicked : Option Panic

/-- The command `idestart` gives to the disk. -/
def Buf.cmd (x : Buf) : Cmd := ⟨x.dev % 2, x.blockno, if x.dirty then some x.data else none⟩

namespace State

variable {K N : ℕ}

/-- Disk 1 and the buffers. -/
def mem (s : State K N) : Mem K := ⟨s.disks 1, s.buf⟩

/-- Start the request for `b`. -/
def idestart (s : State K N) (b : Fin K) : State K N :=
  if FSSIZE ≤ (s.buf b).blockno then { s with panicked := some .incorrectBlockno }
  else { s with controller := .busy (s.buf b).cmd }

/-- `b->qnext = 0` and the loop that appends `b` to `idequeue`. -/
def append (s : State K N) (b : Fin K) : State K N :=
  let qnext := update s.qnext b none
  match s.idequeue with
  | none => { s with qnext, idequeue := some b }
  | some a => { s with qnext := update qnext (Chain.last qnext K a) (some b) }

/-- The loop test at the end of `iderw`: return or sleep. -/
def await (s : State K N) (p : Fin N) (b : Fin K) : State K N :=
  { s with
    proc := update s.proc p (if (s.buf b).Synced then .idle else .waiting b true) }

/-- `iderw` by process `p` up to its first sleep. -/
def iderw (s : State K N) (p : Fin N) (b : Fin K) : State K N :=
  if (s.buf b).Synced then { s with panicked := some .nothingToDo }
  else if (s.buf b).dev ≠ 0 ∧ s.havedisk1 = false then { s with panicked := some .noDisk1 }
  else
    let s := s.append b
    let s := if s.idequeue = some b then s.idestart b else s
    s.await p b

/-- `wakeup(b)`. -/
def wakeup (s : State K N) (b : Fin K) : State K N :=
  { s with proc := fun p => if s.proc p = .waiting b true then .waiting b false else s.proc p }

/-- The interrupt handler, when the disk has finished a command with `data`. -/
def ideintr (s : State K N) (data : Bytes) : State K N :=
  match s.idequeue with
  | none => s
  | some b =>
    let x := s.buf b
    let s := { s with
      idequeue := s.qnext b
      controller := .idle
      buf := update s.buf b (if x.dirty then x.written else x.filled data) }
    let s := s.wakeup b
    match s.idequeue with
    | none => s
    | some c => s.idestart c

/-- The disk finishes a command. -/
def finish (s : State K N) (cmd : Cmd) : State K N :=
  match cmd.write with
  | some data =>
    { s with
      disks := update s.disks cmd.drive
        (update (s.disks cmd.drive) cmd.sector data)
      controller := .ready cmd data }
  | none => { s with controller := .ready cmd (s.disks cmd.drive cmd.sector) }

/-- No process is in `iderw` with buffer `b`. -/
def Free (s : State K N) (b : Fin K) : Prop :=
  ∀ p, s.proc p ≠ .waiting b true ∧ s.proc p ≠ .waiting b false
  deriving Decidable

end State

/-- The steps. -/
inductive Label (K N : ℕ)
  | iderw (p : Fin N) (b : Fin K)
  /-- A process that was woken tests the flags again. -/
  | resume (p : Fin N)
  /-- A process is woken for another reason. -/
  | wake (p : Fin N)
  /-- The disk finishes its command and raises the interrupt. -/
  | finish
  | ideintr
  /-- The holder of a buffer changes it. -/
  | modify (b : Fin K) (x : Buf)

/-- The disk works on a command. -/
def Controller.isBusy : Controller → Bool
  | .busy _ => true
  | .idle | .ready _ _ => false

/-- The interrupt is pending. -/
def Controller.isReady : Controller → Bool
  | .ready _ _ => true
  | .idle | .busy _ => false

namespace State

variable {K N : ℕ}

/-- Which steps are possible. Nothing is after a panic. -/
def Enabled (s : State K N) : Label K N → Prop
  | .iderw p b => s.panicked = none ∧ s.proc p = .idle ∧ s.Free b
  | .resume p => s.panicked = none ∧ ∃ b, s.proc p = .waiting b false
  | .wake p => s.panicked = none ∧ ∃ b, s.proc p = .waiting b true
  | .finish => s.panicked = none ∧ s.controller.isBusy = true
  | .ideintr => s.panicked = none ∧ s.controller.isReady = true
  | .modify b _ => s.panicked = none ∧ s.Free b

instance (s : State K N) (l : Label K N) : Decidable (s.Enabled l) := by
  cases l <;> dsimp only [Enabled] <;> infer_instance

def next (s : State K N) : Label K N → State K N
  | .iderw p b => s.iderw p b
  | .resume p =>
    match s.proc p with
    | .waiting b _ => s.await p b
    | .idle => s
  | .wake p =>
    match s.proc p with
    | .waiting b _ => { s with proc := update s.proc p (.waiting b false) }
    | .idle => s
  | .finish =>
    match s.controller with
    | .busy cmd => s.finish cmd
    | _ => s
  | .ideintr =>
    match s.controller with
    | .ready _ data => s.ideintr data
    | _ => s
  | .modify b x => { s with buf := update s.buf b x }

/-- Nothing is going on. Buffers and disks may hold anything. -/
def Init (s : State K N) : Prop :=
  s.idequeue = none ∧ s.controller = .idle ∧ (∀ p, s.proc p = .idle) ∧ s.panicked = none

end State

/-- The driver with `K` buffers and `N` processes. -/
def system (K N : ℕ) : Machine (State K N) (Label K N) where
  Init := State.Init
  Enabled := State.Enabled
  next := State.next

instance (K N : ℕ) (s : State K N) (l : Label K N) : Decidable ((system K N).Enabled s l) :=
  inferInstanceAs (Decidable (s.Enabled l))

end Xv6.Disk
