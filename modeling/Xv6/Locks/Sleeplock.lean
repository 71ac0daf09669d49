/-
# Sleep-locks

`acquiresleep`, `releasesleep` and `holdingsleep` of `sleeplock.c` with the
`sleep`, `wakeup` and `kill` they rest on. A step is what a process does from one
operation on a spinlock to the next one it may have to wait for, or the scheduler
does with `ptable.lock`; a region under one spinlock that takes no other is a
single step. What matters is kept apart: `sleep` lets go of `lk->lk` in one step
and marks the process `SLEEPING` in a later one, with `ptable.lock` held over both.

Processes are named by their pids. A process that has called `sched` leaves
`ptable.lock` to the scheduler, which releases it or runs another process with it.
-/

import Xv6.Lib.Machine

namespace Xv6.Locks.Sleep

open Function Xv6.Lib

universe u v

/-- Where a process is in the code. -/
inductive Pc (L : Type v)
  | user
  /-- In `sleep`, with `lk->lk`: waits for `ptable.lock`. -/
  | toSleep (l : L)
  /-- In `sleep`, with `ptable.lock`; `lk->lk` is released. -/
  | dozing (l : L)
  /-- In `sched`. -/
  | asleep (l : L)
  /-- Back from `sched`, with `ptable.lock`. -/
  | resumed (l : L)
  /-- At the end of `sleep`: waits for `lk->lk`. -/
  | acquiring (l : L)
  /-- In `releasesleep`, with `lk->lk`: waits for `ptable.lock`. -/
  | waking (l : L)
  /-- At the end of `releasesleep`, with `lk->lk`. -/
  | released (l : L)
  deriving DecidableEq

inductive Status
  | sleeping
  | runnable
  | running
  deriving DecidableEq, Repr

/-- The spinlocks. -/
inductive Spin (L : Type v)
  | ptable
  | lk (l : L)
  deriving DecidableEq

/-- Who can hold a spinlock. -/
inductive Holder (P : Type u)
  | proc (p : P)
  | scheduler
  deriving DecidableEq

/-- The processes `P` and the sleep-locks `L`. -/
structure State (P : Type u) (L : Type v) where
  spin : Spin L → Option (Holder P) := fun _ => none
  locked : L → Bool := fun _ => false
  /-- The member `pid` of a sleep-lock, `none` for 0. -/
  pid : L → Option P := fun _ => none
  pc : P → Pc L := fun _ => .user
  state : P → Status := fun _ => .running
  chan : P → Option L := fun _ => none
  killed : P → Bool := fun _ => false
  /-- The process has returned from `acquiresleep` and not called `releasesleep`. -/
  inside : P → L → Bool := fun _ _ => false

variable {P : Type u} {L : Type v} [DecidableEq P] [DecidableEq L]

namespace State

/-- Another place, and another holder for a spinlock. -/
def move (s : State P L) (p : P) (c : Pc L) (k : Spin L) (o : Option (Holder P)) : State P L :=
  { s with pc := update s.pc p c, spin := update s.spin k o }

/-- `acquiresleep` has found the lock locked, and calls `sleep` with `lk->lk`. -/
def blocked (s : State P L) (p : P) (l : L) : State P L :=
  s.move p (.toSleep l) (.lk l) (some (.proc p))

/-- `lk->locked = 1; lk->pid = myproc()->pid; release(&lk->lk)`. -/
def take (s : State P L) (p : P) (l : L) : State P L :=
  { s with
    locked := update s.locked l true
    pid := update s.pid l (some p)
    pc := update s.pc p .user
    inside := update s.inside p (update (s.inside p) l true) }

/-- `acquiresleep` from the test of its loop on, with `lk->lk` just acquired. -/
def testLocked (s : State P L) (p : P) (l : L) : State P L :=
  if s.locked l then s.blocked p l else s.take p l

/-- `acquire(&ptable.lock); release(lk)`. -/
def enterSleep (s : State P L) (p : P) (l : L) : State P L :=
  (s.move p (.dozing l) (.lk l) none).move p (.dozing l) .ptable (some (.proc p))

/-- `p->chan = chan; p->state = SLEEPING; sched()`. -/
def doze (s : State P L) (p : P) (l : L) : State P L :=
  { s.move p (.asleep l) .ptable (some .scheduler) with
    chan := update s.chan p (some l)
    state := update s.state p .sleeping }

/-- The scheduler switches to the process, which holds `ptable.lock` from now on. -/
def resume (s : State P L) (p : P) (l : L) : State P L :=
  { s.move p (.resumed l) .ptable (some (.proc p)) with
    state := update s.state p .running }

/-- `p->chan = 0; release(&ptable.lock)`. -/
def tidyUp (s : State P L) (p : P) (l : L) : State P L :=
  { s.move p (.acquiring l) .ptable none with chan := update s.chan p none }

/-- `releasesleep` up to `wakeup`, with `lk->lk` just acquired. -/
def clearLocked (s : State P L) (p : P) (l : L) : State P L :=
  { s.move p (.waking l) (.lk l) (some (.proc p)) with
    locked := update s.locked l false
    pid := update s.pid l none
    inside := update s.inside p (update (s.inside p) l false) }

/-- `wakeup(lk)`. -/
def wakeup (s : State P L) (p : P) (l : L) : State P L :=
  { s with
    pc := update s.pc p (.released l)
    state := fun q =>
      if s.state q = .sleeping ∧ s.chan q = some l then .runnable else s.state q }

/-- `release(&lk->lk)` at the end of `releasesleep`. -/
def endRelease (s : State P L) (p : P) (l : L) : State P L := s.move p .user (.lk l) none

/-- `kill` of the process `q`. -/
def kill (s : State P L) (q : P) : State P L :=
  { s with
    killed := update s.killed q true
    state := update s.state q
      (if s.state q = .sleeping then .runnable else s.state q) }

/-- The value of `holdingsleep` in process `p`. -/
def holdingsleep (s : State P L) (p : P) (l : L) : Bool := s.locked l && s.pid l = some p

end State

inductive Label (P : Type u) (L : Type v)
  | acquiresleep (p : P) (l : L)
  | enterSleep (p : P) (l : L)
  | doze (p : P) (l : L)
  | resume (p : P) (l : L)
  | tidyUp (p : P) (l : L)
  /-- `acquire(lk)` at the end of `sleep`, and the test. -/
  | reacquire (p : P) (l : L)
  | releasesleep (p : P) (l : L)
  | wakeup (p : P) (l : L)
  | endRelease (p : P) (l : L)
  | kill (p q : P)
  /-- The scheduler acquires `ptable.lock`. -/
  | schedAcquire
  | schedRelease

namespace State

/-- When a label may be taken. -/
def Enabled (s : State P L) : Label P L → Prop
  | .acquiresleep p l => s.pc p = .user ∧ s.spin (.lk l) = none
  | .enterSleep p l => s.pc p = .toSleep l ∧ s.spin .ptable = none
  | .doze p l => s.pc p = .dozing l
  | .resume p l =>
    s.pc p = .asleep l ∧ s.state p = .runnable ∧ s.spin .ptable = some .scheduler
  | .tidyUp p l => s.pc p = .resumed l
  | .reacquire p l => s.pc p = .acquiring l ∧ s.spin (.lk l) = none
  | .releasesleep p l => s.pc p = .user ∧ s.inside p l = true ∧ s.spin (.lk l) = none
  | .wakeup p l => s.pc p = .waking l ∧ s.spin .ptable = none
  | .endRelease p l => s.pc p = .released l
  | .kill p _ => s.pc p = .user ∧ s.spin .ptable = none
  | .schedAcquire => s.spin .ptable = none
  | .schedRelease => s.spin .ptable = some .scheduler

instance (s : State P L) (a : Label P L) : Decidable (s.Enabled a) := by
  cases a <;> dsimp only [Enabled] <;> infer_instance

/-- The state after a label. -/
def next (s : State P L) : Label P L → State P L
  | .acquiresleep p l | .reacquire p l => s.testLocked p l
  | .enterSleep p l => s.enterSleep p l
  | .doze p l => s.doze p l
  | .resume p l => s.resume p l
  | .tidyUp p l => s.tidyUp p l
  | .releasesleep p l => s.clearLocked p l
  | .wakeup p l => s.wakeup p l
  | .endRelease p l => s.endRelease p l
  | .kill _ q => s.kill q
  | .schedAcquire => { s with spin := update s.spin .ptable (some .scheduler) }
  | .schedRelease => { s with spin := update s.spin .ptable none }

end State

/-- The processes `P` with the sleep-locks `L`. -/
def system (P : Type u) (L : Type v) [DecidableEq P] [DecidableEq L] :
    Machine (State P L) (Label P L) where
  Init s := s = {}
  Enabled := State.Enabled
  next := State.next

instance (s : State P L) (a : Label P L) : Decidable ((system P L).Enabled s a) :=
  inferInstanceAs (Decidable (s.Enabled a))

end Xv6.Locks.Sleep
