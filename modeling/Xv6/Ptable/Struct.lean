/-
# Processes and the kernel's scheduling state

The data of `proc.h`, `param.h` and the head of `proc.c`. A `struct proc *` is a
slot of the table or null, so pointers are `Option Slot`. The members of
`struct proc` that only the MLFQ code touches are kept in a record of their own
beside the queues; the other builds never read them.

`int` fields are integers. Signed overflow is undefined in C, so the counters
that only ever grow by one are left unbounded, with one exception: `nextpid`,
whose overflow decides whether pids stay distinct, is wrapped explicitly.
`ticks` is unsigned and wraps.
-/

import Xv6.Lib.ArrayQueue
import Mathlib.Algebra.Order.Ring.Int
import Mathlib.Data.Fin.Basic
import Mathlib.Data.List.FinRange

namespace Xv6.Ptable

open Xv6.Lib

/-- Maximum number of processes (`param.h`). -/
def NPROC : ℕ := 64

instance : NeZero NPROC := ⟨by decide⟩

/-- A slot of `ptable.proc`. -/
abbrev Slot := Fin NPROC

/-- Processors are numbered; processor `0` takes the clock ticks. -/
abbrev Cpu := ℕ

/-- The scheduler the kernel is built with (`-D$(SCHEDULER)`). -/
inductive Build
  | rr | fcfs | pbs | mlfq
  deriving DecidableEq, Repr

/-- `enum procstate`. -/
inductive ProcState
  | unused | embryo | sleeping | runnable | running | zombie
  deriving DecidableEq, Repr

/-- Sleep channels: the address of a process (used by `wait`), `&ticks`, or the
address of some other kernel object. -/
inductive Chan
  | proc (p : Slot)
  | ticks
  | other (addr : ℕ)
  deriving DecidableEq, Repr

/-- A 32-bit value read as a C `int`. -/
def toInt32 (x : ℤ) : ℤ := Int.bmod x (2 ^ 32)

theorem toInt32_of_range {x : ℤ} (lower : -2 ^ 31 ≤ x) (upper : x < 2 ^ 31) :
    toInt32 x = x := by
  unfold toInt32
  rw [Int.bmod_def]
  split <;> omega

/-- `struct proc`, without the members that only memory management or MLFQ use. -/
structure Proc where
  state : ProcState := .unused
  pid : ℤ := 0
  parent : Option Slot := none
  chan : Option Chan := none
  killed : Bool := false
  ctime : ℤ := 0
  etime : ℤ := 0
  rtime : ℤ := 0
  iotime : ℤ := 0
  priority : ℤ := 0
  nRun : ℤ := 0
  deriving DecidableEq, Repr

/-- The waiting time `waitx` reports for a finished process. -/
def Proc.wtime (p : Proc) : ℤ := p.etime - p.ctime - p.rtime - p.iotime

/-- What `wait` and `waitx` write into the slot of a child they have found. -/
def Proc.freed (p : Proc) : Proc :=
  { p with pid := 0, parent := none, killed := false, state := .unused }

/-- `p->chan = chan; p->state = SLEEPING`. -/
def Proc.asleep (p : Proc) (chan : Chan) : Proc :=
  { p with chan := some chan, state := .sleeping }

/-- The MLFQ members of `struct proc`. -/
structure MlfqProc where
  curQ : ℕ := 0
  q : ℕ → ℤ := fun _ => 0
  qtime : ℤ := 0
  flg : Bool := false

/-- `max_queue_ticks`, the same table in `proc.c` and `trap.c`. -/
def maxQueueTicks : ℕ → ℤ
  | 0 => 2
  | 1 => 4
  | 2 => 8
  | 3 => 16
  | _ => 32

/-- The five queues `qu`, `q_index` and the MLFQ members of every process.

`clock` and `stamp` are not in the source: they number the appends, so that
"appended earlier" can be said. Nothing the kernel does depends on them. -/
structure Mlfq where
  info : Slot → MlfqProc := fun _ => {}
  qu : ℕ → ArrayQueue (Option Slot) := fun _ => ⟨fun _ => none, -1, -1⟩
  clock : ℕ := 0
  stamp : Slot → ℕ := fun _ => 0

/-- The values `process k had when it became ZOMBIE`, as recorded at its exit. -/
structure Obituary where
  pid : ℤ
  rtime : ℤ
  wtime : ℤ
  deriving DecidableEq, Repr

def Proc.obituary (p : Proc) : Obituary := ⟨p.pid, p.rtime, p.wtime⟩

end Xv6.Ptable
