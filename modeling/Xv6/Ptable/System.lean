/-
# The process system as a machine

Labels name a critical section, or a piece of code between two of them, with the
processor and the process that runs it. Everything the environment decides is in
the label: the pid given to `kill`, the channel woken up, whether an allocation
succeeds, and above all the order of the labels. Where the source computes a
value itself (the slot `allocproc` finds, the child `waitx` has reaped) the label
repeats it and the guard checks that it is the right one.

A label is enabled when the lock is free and its thread is where the source has
to be. `resumed` and `back` are the continuations of a critical section across
`swtch`, and the only labels enabled while the lock is held. The clock interrupt
keeps processor `0` busy until it has released `tickslock`; `tick` is the same
interrupt taken as one step. A `fork` that finds no free slot changes nothing
and has no label.
-/

import Xv6.Ptable.Kernel
import Xv6.Lib.Machine

namespace Xv6.Ptable

open Xv6.Lib

inductive Label
  /-- `userinit`: the locked search of `allocproc`. -/
  | userinit (np : Slot)
  /-- `fork`: the locked search of `allocproc`. -/
  | fork (c : Cpu) (p np : Slot)
  | allocKalloc (c : Cpu) (t : Thread) (np : Slot) (ok : Bool)
  | allocCtime (c : Cpu) (t : Thread) (np : Slot)
  | allocInit (c : Cpu) (t : Thread) (np : Slot)
  | allocCopy (c : Cpu) (t : Thread) (np : Slot) (ok : Bool)
  | forkPublish (c : Cpu) (p np : Slot)
  | userinitPublish (np : Slot)
  | exit (c : Cpu) (p : Slot)
  /-- `wait` (`false`) or `waitx` (`true`). -/
  | wait (c : Cpu) (p : Slot) (x : Bool)
  | waitxStore (c : Cpu) (p child : Slot) (pid : ℤ)
  | kill (c : Cpu) (p : Slot) (pid : ℤ)
  /-- An exception in user code: `myproc()->killed = 1`. -/
  | trapKill (c : Cpu) (p : Slot)
  | setPriority (c : Cpu) (p : Slot) (priority pid : ℤ)
  /-- The `yield` of `set_priority`. -/
  | yield (c : Cpu) (p : Slot)
  /-- `sleep` with a lock other than `ptable.lock`. -/
  | sleep (c : Cpu) (p : Slot) (chan : Chan)
  | wakeup (chan : Chan)
  | schedule (c : Cpu)
  | resumed (c : Cpu) (p : Slot)
  | back (c : Cpu) (p : Slot)
  | timerTrap (c : Cpu) (p : Slot)
  | tickInc
  | tickAccount
  | tickWake
  | tick
  deriving DecidableEq, Repr

/-- Only `wait` sleeps on a process. -/
def Chan.isProc : Chan → Bool
  | .proc _ => true
  | _ => false

namespace State

/-- Process `p` executes on processor `c`, and nobody holds the lock. -/
def OnCpu (s : State) (c : Cpu) (p : Slot) : Prop :=
  s.lk = .free ∧ (s.cpu c).proc = some p ∧ (c = 0 → s.tick = .idle)
  deriving Decidable

/-- Thread `t` executes on processor `c`: `main` on processor `0` until
`userinit` is done, or a process. -/
def Executes (s : State) (c : Cpu) : Thread → Prop
  | none => s.lk = .free ∧ c = 0 ∧ s.booted = false
  | some p => s.OnCpu c p

instance (s : State) (c : Cpu) (t : Thread) : Decidable (s.Executes c t) := by
  cases t <;> dsimp only [Executes] <;> infer_instance

/-- When a label may be taken. -/
def Enabled (s : State) : Label → Prop
  | .userinit np => s.Executes 0 none ∧ s.pc none = .user ∧ s.unusedSlot = some np
  | .fork c p np => s.OnCpu c p ∧ s.pc (some p) = .user ∧ s.unusedSlot = some np
  | .allocKalloc c t np ok =>
    s.Executes c t ∧ s.pc t = .alloc .kalloc np ∧ (t = none → ok = true)
  | .allocCtime c t np => s.Executes c t ∧ s.pc t = .alloc .ctime np ∧ s.tick = .idle
  | .allocInit c t np => s.Executes c t ∧ s.pc t = .alloc .init np
  | .allocCopy c t np ok =>
    s.Executes c t ∧ s.pc t = .alloc .copy np ∧ (t = none → ok = true)
  | .forkPublish c p np => s.OnCpu c p ∧ s.pc (some p) = .alloc .publish np
  | .userinitPublish np => s.Executes 0 none ∧ s.pc none = .alloc .publish np
  | .exit c p => s.OnCpu c p ∧ s.pc (some p) = .user ∧ s.initproc ≠ some p
  | .wait c p _ => s.OnCpu c p ∧ s.pc (some p) = .user
  | .waitxStore c p child pid => s.OnCpu c p ∧ s.pc (some p) = .waitxStore child pid
  | .kill c p _ => s.OnCpu c p ∧ s.pc (some p) = .user
  | .trapKill c p => s.OnCpu c p ∧ s.pc (some p) = .user
  | .setPriority c p _ _ => s.OnCpu c p ∧ s.pc (some p) = .user
  | .yield c p => s.OnCpu c p ∧ s.pc (some p) = .yield
  | .sleep c p chan =>
    s.OnCpu c p ∧ s.pc (some p) = .user ∧ chan.isProc = false ∧
      (chan = .ticks → s.tick = .idle)
  | .wakeup chan => s.lk = .free ∧ chan.isProc = false
  | .schedule c =>
    s.lk = .free ∧ (s.cpu c).proc = none ∧ (c = 0 → s.booted = true ∧ s.tick = .idle)
  | .resumed c p => s.lk = .resume c ∧ (s.cpu c).proc = some p
  | .back c p => s.lk = .back c ∧ (s.cpu c).proc = some p
  | .timerTrap c p => s.OnCpu c p
  | .tickInc => s.lk = .free ∧ s.tick = .idle ∧ s.booted = true
  | .tickAccount => s.lk = .free ∧ s.tick = .account
  | .tickWake => s.lk = .free ∧ s.tick = .wake
  | .tick => s.lk = .free ∧ s.tick = .idle ∧ s.booted = true

instance (s : State) (l : Label) : Decidable (s.Enabled l) := by
  cases l <;> dsimp only [Enabled] <;> infer_instance

/-- The state after a label. -/
def next (b : Build) (s : State) : Label → State
  | .userinit np => s.allocFound none np
  | .fork _ p np => s.allocFound (some p) np
  | .allocKalloc _ t np ok => s.allocKalloc t np ok
  | .allocCtime _ t np => s.allocCtime t np
  | .allocInit _ t np => s.allocInit b t np
  | .allocCopy _ t np ok => s.allocCopy t np ok
  | .forkPublish _ p np => s.forkPublish b (some p) np
  | .userinitPublish np => s.userinitPublish b np
  | .exit c p => s.exit b c p
  | .wait c p x => s.waitBody b c p x
  | .waitxStore _ p child pid => s.waitxStore p child pid
  | .kill _ _ pid => s.kill b pid
  | .trapKill _ p => s.setProc p fun x => { x with killed := true }
  | .setPriority _ p priority pid => s.setPriority b (some p) priority pid
  | .yield c p => (s.setPc (some p) .user).yield c p
  | .sleep c p chan => s.goToSleep c p chan .sleep
  | .wakeup chan => s.wakeup1 b (some chan)
  | .schedule c => s.schedule b c
  | .resumed c p => s.resumed b c p
  | .back c p => s.schedBack b c p
  | .timerTrap c p => s.timerTrap b c p
  | .tickInc => s.tickInc
  | .tickAccount => s.tickAccount
  | .tickWake => s.tickWake b
  | .tick => s.tickInc.tickAccount.tickWake b

end State

/-- The process system of a build. It starts with an empty table. -/
def system (b : Build) : Machine State Label where
  Init s := s = {}
  Enabled := State.Enabled
  next := State.next b

instance (b : Build) (s : State) (l : Label) : Decidable ((system b).Enabled s l) :=
  inferInstanceAs (Decidable (s.Enabled l))

/-- `userinit` with nothing in between. -/
def boot : List Label :=
  [.userinit 0, .allocKalloc 0 none 0 true, .allocCtime 0 none 0, .allocInit 0 none 0,
    .allocCopy 0 none 0 true, .userinitPublish 0]

/-- `fork` by process `p` on processor `c` into slot `np`, with nothing in between. -/
def forkLabels (c : Cpu) (p np : Slot) : List Label :=
  [.fork c p np, .allocKalloc c (some p) np true, .allocCtime c (some p) np,
    .allocInit c (some p) np, .allocCopy c (some p) np true, .forkPublish c p np]

end Xv6.Ptable
