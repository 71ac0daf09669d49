/-
# Spinlocks and interrupts

`pushcli`, `popcli`, `acquire` and `release` of `spinlock.c` and the context
switches of `proc.c`. The counters `ncli` and `intena` belong to a processor; the
locks and the open `pushcli`s belong to a thread, which is a process or the
scheduler of a processor. A thread that calls `sched` leaves the lock it holds to
the scheduler, and the scheduler leaves it to the process it runs, which may have
called `sched` on another processor.

From `cli` on nothing can come between the instructions of `pushcli`, and a trap
before it returns with the flag as it was, so the function is one step. Traps and
returns from traps change the flag, and so does the `sti` of `scheduler`; they
happen only in threads without locks. Plain `pushcli` and `popcli` stand around code
that takes and releases no locks.
-/

import Mathlib.Data.Int.Notation
import Xv6.Lib.Machine
import Xv6.Lib.Outcome

namespace Xv6.Locks.Cli

open Function Xv6.Lib

inductive Panic
  /-- "acquire" -/
  | acquire
  /-- "release" -/
  | release
  /-- "popcli - interruptible" -/
  | popcliInterruptible
  /-- "popcli" -/
  | popcli
  /-- "sched ptable.lock" -/
  | schedPtable
  /-- "sched locks" -/
  | schedLocks
  /-- "sched interruptible" -/
  | schedInterruptible
  deriving DecidableEq, Repr

/-- `struct cpu`, with the interrupt flag of the processor. -/
structure Cpu (P : Type) where
  proc : Option P := none
  /-- `FL_IF` -/
  intr : Bool := false
  ncli : ℤ := 0
  intena : Bool := false

namespace Cpu

variable {P : Type}

def pushcli (x : Cpu P) : Cpu P :=
  { x with
    intr := false
    intena := if x.ncli = 0 then x.intr else x.intena
    ncli := x.ncli + 1 }

def popcli (x : Cpu P) : Except Panic (Cpu P) :=
  if x.intr then .error .popcliInterruptible
  else if x.ncli - 1 < 0 then .error .popcli
  else .ok { x with ncli := x.ncli - 1, intr := x.ncli - 1 = 0 && x.intena }

end Cpu

/-- The locks: `ptable.lock` and others. -/
inductive Lock (K : Type)
  | ptable
  | other (k : K)
  deriving DecidableEq

structure Spinlock (C : Type) where
  locked : Bool := false
  cpu : Option C := none
  deriving DecidableEq

/-- The kernel threads. -/
inductive Thread (C P : Type)
  | scheduler (c : C)
  | proc (p : P)
  deriving DecidableEq

/-- What a thread has to do with locks. -/
structure Kthread (K : Type) where
  /-- The locks it holds. -/
  locks : List (Lock K) := []
  /-- Its open calls of `pushcli`. -/
  push : ℕ := 0
  /-- The lock it spins for in `acquire`. -/
  spin : Option (Lock K) := none
  /-- The interrupt flag when it took the first of its locks; a new process gets its first
  lock from the scheduler. -/
  first : Option Bool := none
  deriving DecidableEq

/-- Where a process is. -/
inductive Place (C : Type)
  /-- It has not run yet and will start in `forkret`. -/
  | fresh
  | onCpu (c : C)
  /-- In `sched`, with the local variable `intena`. -/
  | inSched (intena : Bool)
  deriving DecidableEq

/-- The process is not on a processor. -/
def Place.away {C : Type} : Place C → Bool
  | .onCpu _ => false
  | .fresh | .inSched _ => true

/-- The processors `C`, the processes `P` and the locks. -/
structure State (C P K : Type) where
  cpu : C → Cpu P := fun _ => {}
  lock : Lock K → Spinlock C := fun _ => {}
  thread : Thread C P → Kthread K := fun _ => {}
  place : P → Place C := fun _ => .fresh

variable {C P K : Type} [DecidableEq C] [DecidableEq P] [DecidableEq K]

namespace State

/-- The thread a processor executes. -/
def cur (s : State C P K) (c : C) : Thread C P :=
  match (s.cpu c).proc with
  | none => .scheduler c
  | some p => .proc p

/-- The processor and the thread it executes change. -/
def set (s : State C P K) (c : C) (x : Cpu P) (k : Kthread K) : State C P K :=
  { s with
    cpu := update s.cpu c x
    thread := update s.thread (s.cur c) k }

/-- `holding`, with the processor after it. -/
def holding (s : State C P K) (x : Cpu P) (c : C) (l : Lock K) :
    Except Panic (Bool × Cpu P) := do
  let r := (s.lock l).locked && (s.lock l).cpu = some c
  let x ← x.pushcli.popcli
  return (r, x)

def pushcli (s : State C P K) (c : C) : State C P K :=
  let k := s.thread (s.cur c)
  s.set c (s.cpu c).pushcli { k with push := k.push + 1 }

def popcli (s : State C P K) (c : C) : Except Panic (State C P K) := do
  let k := s.thread (s.cur c)
  let x ← (s.cpu c).popcli
  return s.set c x { k with push := k.push - 1 }

/-- `acquire` up to the `xchg`. -/
def acquire (s : State C P K) (c : C) (l : Lock K) : Except Panic (State C P K) := do
  let k := s.thread (s.cur c)
  let first := if k.locks = [] then some (s.cpu c).intr else k.first
  let (r, x) ← s.holding (s.cpu c).pushcli c l
  if r then .error .acquire
  else return s.set c x { k with spin := some l, first }

/-- The `xchg` finds the lock free. -/
def xchg (s : State C P K) (c : C) (l : Lock K) : State C P K :=
  let k := s.thread (s.cur c)
  { s.set c (s.cpu c) { k with spin := none, locks := l :: k.locks } with
    lock := update s.lock l ⟨true, some c⟩ }

def release (s : State C P K) (c : C) (l : Lock K) : Except Panic (State C P K) := do
  let k := s.thread (s.cur c)
  let (r, x) ← s.holding (s.cpu c) c l
  if !r then .error .release
  else do
    let x ← x.popcli
    return { s.set c x { k with locks := k.locks.erase l } with
      lock := update s.lock l {} }

/-- `sched` up to `swtch`. The scheduler goes on with the lock. -/
def sched (s : State C P K) (c : C) (p : P) : Except Panic (State C P K) := do
  let k := s.thread (.proc p)
  let (r, x) ← s.holding (s.cpu c) c .ptable
  if !r then .error .schedPtable
  else if x.ncli ≠ 1 then .error .schedLocks
  else if x.intr then .error .schedInterruptible
  else return { s with
    cpu := update s.cpu c { x with proc := none }
    thread := update (update s.thread (.proc p) { k with locks := [] })
      (.scheduler c) { s.thread (.scheduler c) with locks := k.locks }
    place := update s.place p (.inSched x.intena) }

/-- The scheduler switches to a process, which goes on with the lock. If it comes back from
`swtch` in `sched` it restores `intena`. -/
def run (s : State C P K) (c : C) (p : P) : State C P K :=
  let intena := match s.place p with
    | .inSched b => b
    | .fresh | .onCpu _ => (s.cpu c).intena
  let k := s.thread (.scheduler c)
  { s with
    cpu := update s.cpu c { s.cpu c with proc := some p, intena }
    thread := update (update s.thread (.scheduler c) { k with locks := [] })
      (.proc p) { s.thread (.proc p) with locks := k.locks }
    place := update s.place p (.onCpu c) }

/-- A trap, its return, or the `sti` of `scheduler`. -/
def setIf (s : State C P K) (c : C) (b : Bool) : State C P K :=
  s.set c { s.cpu c with intr := b } (s.thread (s.cur c))

end State

inductive Label (C P K : Type)
  | pushcli (c : C)
  | popcli (c : C)
  | acquire (c : C) (l : Lock K)
  | xchg (c : C) (l : Lock K)
  | release (c : C) (l : Lock K)
  | sched (c : C) (p : P)
  | run (c : C) (p : P)
  | setIf (c : C) (b : Bool)

namespace State

/-- The thread on `c` neither spins nor is it inside `pushcli` and `popcli`. -/
def Plain (s : State C P K) (c : C) : Prop :=
  (s.thread (s.cur c)).push = 0 ∧ (s.thread (s.cur c)).spin = none
  deriving Decidable

/-- What the threads do: they pair `pushcli` and `popcli`, acquire locks they do not hold and
release locks they hold, and switch with `ptable.lock` held and no other. -/
def Allowed (s : State C P K) : Label C P K → Prop
  | .pushcli c => (s.thread (s.cur c)).spin = none
  | .popcli c => 0 < (s.thread (s.cur c)).push ∧ (s.thread (s.cur c)).spin = none
  | .acquire c l => s.Plain c ∧ l ∉ (s.thread (s.cur c)).locks
  | .xchg c l => (s.thread (s.cur c)).spin = some l ∧ (s.lock l).locked = false
  | .release c l => s.Plain c ∧ l ∈ (s.thread (s.cur c)).locks
  | .sched c p => s.Plain c ∧ (s.cpu c).proc = some p ∧ (s.thread (.proc p)).locks = [.ptable]
  | .run c p => s.Plain c ∧ (s.cpu c).proc = none ∧
      (s.thread (.scheduler c)).locks = [.ptable] ∧ (s.place p).away = true
  | .setIf c _ => s.Plain c ∧ (s.thread (s.cur c)).locks = []

instance (s : State C P K) (a : Label C P K) : Decidable (s.Allowed a) := by
  cases a <;> dsimp only [Allowed] <;> infer_instance

/-- What a label does. -/
def perform (s : State C P K) : Label C P K → Except Panic (State C P K)
  | .pushcli c => .ok (s.pushcli c)
  | .popcli c => s.popcli c
  | .acquire c l => s.acquire c l
  | .xchg c l => .ok (s.xchg c l)
  | .release c l => s.release c l
  | .sched c p => s.sched c p
  | .run c p => .ok (s.run c p)
  | .setIf c b => .ok (s.setIf c b)

end State

/-- Every processor starts in its scheduler with interrupts off. -/
def system (C P K : Type) [DecidableEq C] [DecidableEq P]
    [DecidableEq K] : Machine (State C P K) (Label C P K) where
  Init s := s = {}
  Enabled s a := s.Allowed a ∧ completes (s.perform a) = true
  next s a := match s.perform a with
    | .ok s' => s'
    | .error _ => s

instance (s : State C P K) (a : Label C P K) : Decidable ((system C P K).Enabled s a) :=
  inferInstanceAs (Decidable (_ ∧ _))

end Xv6.Locks.Cli
