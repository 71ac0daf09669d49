/-
# The process table and the functions that change it

The state behind `ptable.lock`, and the bodies of `proc.c` and of the timer
branch of `trap.c` as updates of it. A thread of control that is between two
critical sections remembers where it is in `pc`; a process that is off the
processor remembers in `resume` which code runs when it is switched to.

`ptable.lock` is held across `swtch`, so a critical section is cut at the two
points where control changes threads: after the scheduler has switched to a
process (`resume c`) and after a process has called `sched` (`back c`). While
the lock is held only its holder moves, which makes each critical section one
step for everybody else.
-/

import Xv6.Ptable.Mlfq

namespace Xv6.Ptable

open Function Xv6.Lib

/-- Where `allocproc` and its caller are, after the locked search. -/
inductive AllocStage
  /-- About to call `kalloc` for the kernel stack. -/
  | kalloc
  /-- About to read `ticks` under `tickslock` into `ctime`. -/
  | ctime
  /-- About to initialise the other members. -/
  | init
  /-- Back in the caller, about to copy or set up the address space. -/
  | copy
  /-- About to take `ptable.lock` and publish the process. -/
  | publish
  deriving DecidableEq, Repr

/-- Where a thread is between critical sections. -/
inductive Pc
  /-- In user code, or in kernel code that is not modelled here. -/
  | user
  /-- In `fork` or `userinit`, working on the new slot. -/
  | alloc (stage : AllocStage) (np : Slot)
  /-- In `set_priority`, about to call `yield`. -/
  | yield
  /-- In `waitx` after `release`, about to store the times of slot `p`. -/
  | waitxStore (p : Slot) (pid : ℤ)
  deriving DecidableEq, Repr

/-- The kernel code a process runs when the scheduler switches to it. -/
inductive Resume
  /-- The end of `yield`, or `forkret`: release the lock. -/
  | release
  /-- The end of `sleep` on another lock: clear `chan`, release the lock. -/
  | sleep
  /-- `sleep` inside `wait` (`false`) or `waitx` (`true`): scan again. -/
  | wait (x : Bool)
  deriving DecidableEq, Repr

/-- Who holds `ptable.lock`. -/
inductive Lk
  | free
  /-- The process on processor `c` has just been switched to. -/
  | resume (c : Cpu)
  /-- The process on processor `c` has called `sched`. -/
  | back (c : Cpu)
  deriving DecidableEq, Repr

/-- How far the clock interrupt on processor `0` has got; any value but `idle`
means that it holds `tickslock`. -/
inductive TickPhase
  | idle | account | wake
  deriving DecidableEq, Repr

/-- A processor: `c->proc`, and the local `high_priority_process` of its
scheduler loop. -/
structure CpuState where
  proc : Option Slot := none
  hp : Option Slot := none
  deriving DecidableEq, Repr

/-- Threads: `main` before the first process runs, and the processes. -/
abbrev Thread := Option Slot

/-- History variables. No guard and no other field depends on them. -/
structure Ghost where
  /-- Slots handed out by `allocproc` so far. -/
  allocs : ℕ := 0
  /-- Clock ticks so far. -/
  tickCount : ℕ := 0
  /-- Ticks at which the slot's process was `EMBRYO` or `RUNNABLE`, since it
  became `EMBRYO`. -/
  waited : Slot → ℕ := fun _ => 0
  /-- The same, since its `ctime` was read. -/
  waitedSinceCtime : Slot → ℕ := fun _ => 0
  /-- What the slot's last process had when it became `ZOMBIE`. -/
  obituary : Slot → Obituary := fun _ => ⟨0, 0, 0⟩
  /-- The obituary of the child a `waitx` in progress has reaped. -/
  reaped : Thread → Obituary := fun _ => ⟨0, 0, 0⟩
  /-- Results of finished `waitx` calls, each with the obituary of the child. -/
  waitxLog : List (Obituary × Obituary) := []
  /-- Dispatches by each processor. -/
  dispatches : Cpu → ℕ := fun _ => 0

/-- The kernel state. -/
structure State where
  proc : Slot → Proc := fun _ => {}
  mlfq : Mlfq := {}
  nextpid : ℤ := 1
  initproc : Option Slot := none
  ticks : ℕ := 0
  cpu : Cpu → CpuState := fun _ => {}
  lk : Lk := .free
  tick : TickPhase := .idle
  booted : Bool := false
  pc : Thread → Pc := fun _ => .user
  resume : Slot → Resume := fun _ => .release
  ghost : Ghost := {}

namespace State

/-- Change one process. -/
def setProc (s : State) (p : Slot) (f : Proc → Proc) : State :=
  { s with proc := update s.proc p (f (s.proc p)) }

/-- Move one thread. -/
def setPc (s : State) (t : Thread) (pc : Pc) : State :=
  { s with pc := update s.pc t pc }

/-- The pids the queue operations compare. -/
def pids (s : State) (p : Slot) : ℤ := (s.proc p).pid

/-- Run a queue operation, in the build that has queues. -/
def queues (s : State) (b : Build) (f : Mlfq → Mlfq) : State :=
  { s with mlfq := if b = .mlfq then f s.mlfq else s.mlfq }

/-- `p->state = RUNNABLE`, and the insertion the MLFQ build does with it. -/
def makeRunnable (s : State) (b : Build) (p : Slot) : State :=
  (s.setProc p fun x => { x with state := .runnable }).queues b
    fun m => m.enqueue s.pids s.ticks p

/-- The body of the loop of `wakeup1`. -/
def wakeSlot (b : Build) (chan : Option Chan) (s : State) (p : Slot) : State :=
  if (s.proc p).state = .sleeping ∧ (s.proc p).chan = chan then
    (s.makeRunnable b p).queues b
      fun m => m.setInfo p fun x => { x with qtime := toInt32 s.ticks }
  else s

/-- `wakeup1(chan)`. Irreducible, like the loop of `exit`: proofs know the loops
by their effect, never by unfolding them over the whole table. -/
@[irreducible]
def wakeup1 (s : State) (b : Build) (chan : Option Chan) : State :=
  (List.finRange NPROC).foldl (wakeSlot b chan) s

/-- `p->chan = chan; p->state = SLEEPING`, on the way into `sched`. -/
def goToSleep (s : State) (c : Cpu) (p : Slot) (chan : Chan) (r : Resume) : State :=
  { s.setProc p fun x => x.asleep chan with
    resume := update s.resume p r
    lk := .back c }

/-- `yield`: give up the processor, still runnable. -/
def yield (s : State) (c : Cpu) (p : Slot) : State :=
  { s.setProc p fun x => { x with state := .runnable } with
    resume := update s.resume p .release
    lk := .back c }

/-- `kill(pid)`: the first slot with that pid, whatever its state. -/
def killTarget (s : State) (pid : ℤ) : Option Slot :=
  (List.finRange NPROC).find? fun p => decide ((s.proc p).pid = pid)

def kill (s : State) (b : Build) (pid : ℤ) : State :=
  match s.killTarget pid with
  | none => s
  | some p =>
    let s := s.setProc p fun x => { x with killed := true }
    if (s.proc p).state = .sleeping then s.makeRunnable b p else s

/-- The value `kill(pid)` returns. -/
def killResult (s : State) (pid : ℤ) : ℤ :=
  if (s.killTarget pid).isSome then 0 else -1

/-- `set_priority`: the new table, and whether the caller must yield. -/
def setPriority (s : State) (b : Build) (t : Thread) (priority pid : ℤ) : State :=
  match s.killTarget pid with
  | none => s
  | some p =>
    let preempt := decide (b = .pbs) && decide (priority < (s.proc p).priority)
    let s := s.setProc p fun x => { x with priority }
    if preempt then s.setPc t .yield else s

/-- The locked search of `allocproc`: the first unused slot. -/
def unusedSlot (s : State) : Option Slot :=
  (List.finRange NPROC).find? fun p => decide ((s.proc p).state = .unused)

/-- `found:` in `allocproc`, up to the release of the lock. -/
def allocFound (s : State) (t : Thread) (p : Slot) : State :=
  { (s.setProc p fun x => { x with state := .embryo, pid := s.nextpid }).setPc t
      (.alloc .kalloc p) with
    nextpid := toInt32 (s.nextpid + 1)
    ghost := { s.ghost with
      allocs := s.ghost.allocs + 1
      waited := update s.ghost.waited p 0 } }

/-- `kalloc` for the kernel stack; on failure the slot goes back to `UNUSED`. On
success the new context is set up to start in `forkret`. -/
def allocKalloc (s : State) (t : Thread) (p : Slot) (ok : Bool) : State :=
  if ok then
    { s.setPc t (.alloc .ctime p) with resume := update s.resume p .release }
  else (s.setProc p fun x => { x with state := .unused }).setPc t .user

/-- `p->ctime = ticks` under `tickslock`. -/
def allocCtime (s : State) (t : Thread) (p : Slot) : State :=
  { (s.setProc p fun x => { x with ctime := toInt32 s.ticks }).setPc t (.alloc .init p) with
    ghost := { s.ghost with
      waitedSinceCtime := update s.ghost.waitedSinceCtime p 0 } }

/-- The rest of `allocproc`. In `userinit` the new process becomes `initproc`. -/
def allocInit (s : State) (b : Build) (t : Thread) (p : Slot) : State :=
  let s := (s.setProc p fun x =>
    { x with etime := 0, rtime := 0, iotime := 0, nRun := 0, priority := 60 }).queues b
      fun m => m.setInfo p fun _ => {}
  let s := s.setPc t (.alloc .copy p)
  if t = none then { s with initproc := some p } else s

/-- `copyuvm` in `fork`, and the assignment of the parent when it succeeds. In
`userinit` a failing `setupkvm` panics, so only success leads anywhere. -/
def allocCopy (s : State) (t : Thread) (p : Slot) (ok : Bool) : State :=
  if ok then
    let s := if t = none then s else s.setProc p fun x => { x with parent := t }
    s.setPc t (.alloc .publish p)
  else (s.setProc p fun x => { x with state := .unused }).setPc t .user

/-- The last critical section of `fork`. -/
def forkPublish (s : State) (b : Build) (t : Thread) (p : Slot) : State :=
  (s.makeRunnable b p).setPc t .user

/-- The last critical section of `userinit`. -/
def userinitPublish (s : State) (b : Build) (p : Slot) : State :=
  { ((s.setProc p fun x => { x with state := .runnable }).queues b
      fun m => m.enqueueFirst s.pids s.ticks p).setPc none .user with
    booted := true }

/-- The body of the loop of `exit` that hands children to `initproc`. -/
def abandonSlot (b : Build) (cur : Slot) (s : State) (p : Slot) : State :=
  if (s.proc p).parent = some cur then
    let s := s.setProc p fun x => { x with parent := s.initproc }
    if (s.proc p).state = .zombie then s.wakeup1 b (s.initproc.map .proc) else s
  else s

/-- The wake-up of the parent and the loop over the children in `exit`. -/
@[irreducible]
def exitDrift (s : State) (b : Build) (cur : Slot) : State :=
  (List.finRange NPROC).foldl (abandonSlot b cur)
    (s.wakeup1 b ((s.proc cur).parent.map .proc))

/-- The critical section of `exit`, up to `sched`. -/
def exit (s : State) (b : Build) (c : Cpu) (cur : Slot) : State :=
  let s := s.exitDrift b cur
  let s := s.setProc cur fun x => { x with state := .zombie, etime := toInt32 s.ticks }
  { s with
    lk := .back c
    ghost := { s.ghost with
      obituary := update s.ghost.obituary cur (s.proc cur).obituary } }

/-- The first `ZOMBIE` child the scan of `wait` meets. -/
def zombieChild (s : State) (cur : Slot) : Option Slot :=
  (List.finRange NPROC).find? fun p =>
    decide ((s.proc p).parent = some cur) && decide ((s.proc p).state = .zombie)

/-- `havekids` after a scan that met no zombie. -/
def haveKids (s : State) (cur : Slot) : Bool :=
  (List.finRange NPROC).any fun p => decide ((s.proc p).parent = some cur)

/-- Free the slot of a zombie. The queue removal comes after `p->pid = 0`, so it
looks for an entry with pid `0`. -/
def reap (s : State) (b : Build) (p : Slot) : State :=
  let s := s.setProc p Proc.freed
  s.queues b fun m => m.dequeue s.pids p

/-- One pass of the loop of `wait` (`x = false`) or `waitx` (`x = true`) by
process `cur` on processor `c`, which holds the lock. -/
def waitBody (s : State) (b : Build) (c : Cpu) (cur : Slot) (x : Bool) : State :=
  match s.zombieChild cur with
  | some p =>
    let pid := (s.proc p).pid
    let s' := { s.reap b p with lk := .free }
    if x then
      { s'.setPc (some cur) (.waitxStore p pid) with
        ghost := { s.ghost with
          reaped := update s.ghost.reaped (some cur) (s.ghost.obituary p) } }
    else s'
  | none =>
    if s.haveKids cur = false ∨ (s.proc cur).killed then { s with lk := .free }
    else s.goToSleep c cur (.proc cur) (.wait x)

/-- The stores of `waitx` after the release of the lock. -/
def waitxStore (s : State) (cur p : Slot) (pid : ℤ) : State :=
  let result : Obituary := ⟨pid, (s.proc p).rtime, (s.proc p).wtime⟩
  { s.setPc (some cur) .user with
    ghost := { s.ghost with
      waitxLog := s.ghost.waitxLog ++ [(result, s.ghost.reaped (some cur))] } }

/-- Switch processor `c` to `p`. -/
def dispatch (s : State) (c : Cpu) (p : Slot) (hp : Option Slot) : State :=
  { s.setProc p fun x => { x with nRun := x.nRun + 1, state := .running } with
    cpu := update s.cpu c ⟨some p, hp⟩
    lk := .resume c
    ghost := { s.ghost with
      dispatches := update s.ghost.dispatches c (s.ghost.dispatches c + 1) } }

/-- The scheduler loop found nothing more to do and releases the lock. -/
def schedIdle (s : State) (c : Cpu) : State :=
  { s with cpu := update s.cpu c {}, lk := .free }

/-- RR: the next runnable slot from index `k` on. -/
def rrNext (s : State) (k : ℕ) : Option Slot :=
  (List.finRange NPROC).find? fun p => decide (k ≤ p.val) && decide ((s.proc p).state = .runnable)

/-- FCFS: the scan for `first_process`. -/
def fcfsScan (s : State) (best : Option Slot) (p : Slot) : Option Slot :=
  if (s.proc p).state ≠ .runnable then best
  else match best with
    | none => some p
    | some f => if (s.proc f).ctime < (s.proc p).ctime then some p else some f

def fcfsPick (s : State) : Option Slot :=
  (List.finRange NPROC).foldl s.fcfsScan none

/-- PBS: the scan for `high_priority_process`. -/
def pbsScan (s : State) (best : Option Slot) (p : Slot) : Option Slot :=
  if (s.proc p).state ≠ .runnable then best
  else match best with
    | none => some p
    | some h => if (s.proc p).priority < (s.proc h).priority then some p else some h

def pbsHighest (s : State) : Option Slot :=
  (List.finRange NPROC).foldl s.pbsScan none

/-- PBS: some runnable process has a higher priority than `hp` has now. -/
def pbsOvertaken (s : State) (hp : Slot) : Bool :=
  (List.finRange NPROC).any fun x =>
    decide ((s.proc x).state = .runnable) && decide ((s.proc x).priority < (s.proc hp).priority)

/-- PBS: the walk of the table from index `k` on. -/
def pbsNext (s : State) (hp : Slot) (k : ℕ) : Option Slot :=
  if s.pbsOvertaken hp then none
  else (List.finRange NPROC).find? fun p =>
    decide (k ≤ p.val) && decide ((s.proc p).state = .runnable) &&
      decide ((s.proc p).priority = (s.proc hp).priority)

/-- The body of `scheduler` from `acquire` to the first `swtch`, or to the
`release` when there is nothing to run. -/
def schedule (s : State) (b : Build) (c : Cpu) : State :=
  match b with
  | .rr =>
    match s.rrNext 0 with
    | some p => s.dispatch c p none
    | none => s.schedIdle c
  | .fcfs =>
    match s.fcfsPick with
    | some p => s.dispatch c p none
    | none => s.schedIdle c
  | .pbs =>
    match s.pbsHighest with
    | some hp =>
      match s.pbsNext hp 0 with
      | some p => s.dispatch c p (some hp)
      | none => s.schedIdle c
    | none => s.schedIdle c
  | .mlfq =>
    let s := { s with mlfq := s.mlfq.age s.pids s.ticks }
    match s.mlfq.pickHead fun p => (s.proc p).state with
    | some (i, p) => { s with mlfq := s.mlfq.charge s.pids i p }.dispatch c p none
    | none => s.schedIdle c

/-- The body of `scheduler` after `swtch` returns from process `p`. RR and PBS
go on walking the table; FCFS and MLFQ leave the loop. -/
def schedBack (s : State) (b : Build) (c : Cpu) (p : Slot) : State :=
  match b with
  | .rr =>
    match s.rrNext (p + 1) with
    | some p' => s.dispatch c p' none
    | none => s.schedIdle c
  | .fcfs => s.schedIdle c
  | .pbs =>
    match (s.cpu c).hp with
    | some hp =>
      match s.pbsNext hp (p + 1) with
      | some p' => s.dispatch c p' (some hp)
      | none => s.schedIdle c
    | none => s.schedIdle c
  | .mlfq =>
    if (s.proc p).state = .runnable then
      { s with mlfq := s.mlfq.requeue s.pids s.ticks p }.schedIdle c
    else s.schedIdle c

/-- What process `p`, just switched to on `c`, does with the lock it holds. -/
def resumed (s : State) (b : Build) (c : Cpu) (p : Slot) : State :=
  match s.resume p with
  | .release => { s with lk := .free }
  | .sleep => { s.setProc p fun x => { x with chan := none } with lk := .free }
  | .wait x => (s.setProc p fun y => { y with chan := none }).waitBody b c p x

/-- `ticks++` under `tickslock`. -/
def tickInc (s : State) : State :=
  { s with
    ticks := (s.ticks + 1) % 2 ^ 32
    tick := .account
    ghost := { s.ghost with tickCount := s.ghost.tickCount + 1 } }

/-- The effect of the accounting pass on one process. -/
def tickProc (x : Proc) : Proc :=
  match x.state with
  | .running => { x with rtime := x.rtime + 1 }
  | .sleeping => { x with iotime := x.iotime + 1 }
  | _ => x

/-- Whether a tick counts as waiting for the process in a slot. -/
def isWaiting (x : Proc) : Bool :=
  decide (x.state = .embryo) || decide (x.state = .runnable)

/-- The accounting pass under `ptable.lock`. -/
def tickAccount (s : State) : State :=
  { s with
    proc := fun p => tickProc (s.proc p)
    tick := .wake
    ghost := { s.ghost with
      waited := fun p =>
        if isWaiting (s.proc p) then s.ghost.waited p + 1 else s.ghost.waited p
      waitedSinceCtime := fun p =>
        if isWaiting (s.proc p) then s.ghost.waitedSinceCtime p + 1
        else s.ghost.waitedSinceCtime p } }

/-- `wakeup(&ticks)` and the release of `tickslock`. -/
def tickWake (s : State) (b : Build) : State :=
  { s.wakeup1 b (some .ticks) with tick := .idle }

/-- The end of `trap` for a timer interrupt taken while `p` runs on `c`. -/
def timerTrap (s : State) (b : Build) (c : Cpu) (p : Slot) : State :=
  match b with
  | .mlfq =>
    let used := s.mlfq.sliceUsed p
    let s := { s with mlfq := s.mlfq.setInfo p Mlfq.ticked }
    if used then s.yield c p else s
  | .fcfs => s
  | _ => s.yield c p

end State

end Xv6.Ptable
