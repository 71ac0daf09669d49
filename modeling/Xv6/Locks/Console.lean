/-
# The process table, the console and the clock: order of the locks

The functions that take `ptable.lock`, `cons.lock` or `tickslock`, as lock
programs in program order. `exit` and `getps` print while they hold `ptable.lock`;
`consoleintr` and `consoleread` call `wakeup` and `sleep`, which take
`ptable.lock`, while they hold `cons.lock`. The two nestings go opposite ways, and
two processors that use them at the same time can wait for each other for ever.

Apart from that pair the locks are ordered. In every run in which the two kinds of
function keep out of each other's way there is no cycle of waiting processors.
-/

import Xv6.Lib.LockProg
import Xv6.Ptable.Struct

namespace Xv6.Locks

open Xv6.Lib Xv6.Ptable

inductive SpinLock
  | ptable | cons | tickslock
  deriving DecidableEq

instance : Fintype SpinLock where
  elems := {.ptable, .cons, .tickslock}
  complete l := by cases l <;> decide

/-- The functions that take one of the locks. -/
inductive Fn
  | exit | getps | consoleintr | consoleread | consolewrite | cprintf | wakeup | sleep
  | fork | wait | waitx | kill | setPriority | sysSleep | sysUptime | timer | scheduler
  deriving DecidableEq

abbrev Cmd := LockCmd SpinLock

-- A branch or a loop is kept where a lock operation depends on it.

/-- `cprintf`, once `consoleinit` has set `cons.locking`. -/
def cprintf : Cmd := .seq (.acquire .cons) (.release .cons)

def wakeup : Cmd := .seq (.acquire .ptable) (.release .ptable)

/-- `sleep(chan, lk)` for a lock other than `ptable.lock`; `none` is a lock that is
not modelled. The thread goes on, with `ptable.lock` held, when it is picked. -/
def sleep : Option SpinLock → Cmd
  | some lk => .seq (.acquire .ptable) (.seq (.release lk)
      (.seq .switch (.seq (.release .ptable) (.acquire lk))))
  | none => .seq (.acquire .ptable) (.seq .switch (.release .ptable))

def yield : Cmd := .seq (.acquire .ptable) (.seq .switch (.release .ptable))

def exit : Cmd := .seq (.acquire .ptable) (.seq cprintf .finish)

/-- `getps` prints eight values for each process, or fourteen with MLFQ. -/
def getps (b : Build) : Cmd :=
  .seq cprintf (.seq (.acquire .ptable) (.seq
    (.loop (.opt (.times (if b = .mlfq then 14 else 8) cprintf))) (.release .ptable)))

def procdump : Cmd := .loop (.opt (.seq cprintf (.seq (.loop cprintf) cprintf)))

def consoleintr : Cmd :=
  .seq (.acquire .cons) (.seq (.loop (.opt wakeup)) (.seq (.release .cons) (.opt procdump)))

def consoleread : Cmd :=
  .seq (.acquire .cons) (.seq (.loop (.loop (sleep (some .cons)))) (.release .cons))

def consolewrite : Cmd := .seq (.acquire .cons) (.release .cons)

/-- The locked search of `allocproc`, and `tickslock` for `ctime` if it succeeds. -/
def allocproc : Cmd :=
  .seq (.acquire .ptable) (.seq (.release .ptable)
    (.opt (.seq (.acquire .tickslock) (.release .tickslock))))

def fork : Cmd := .seq allocproc (.opt (.seq (.acquire .ptable) (.release .ptable)))

/-- `wait` sleeps on `ptable.lock` itself. -/
def wait : Cmd := .seq (.acquire .ptable) (.seq (.loop .switch) (.release .ptable))

/-- `waitx` prints after it has released the lock. -/
def waitx : Cmd := .seq wait (.opt cprintf)

def kill : Cmd := .seq (.acquire .ptable) (.release .ptable)

def setPriority (b : Build) : Cmd :=
  .seq (.acquire .ptable) (.seq (.release .ptable) (if b = .pbs then .opt yield else .skip))

def sysSleep : Cmd :=
  .seq (.acquire .tickslock) (.seq (.loop (sleep (some .tickslock))) (.release .tickslock))

def sysUptime : Cmd := .seq (.acquire .tickslock) (.release .tickslock)

/-- The timer branch of `trap`: processor `0` keeps the clock. -/
def timer (b : Build) (c : ℕ) : Cmd :=
  .seq
    (if c = 0 then
      .seq (.acquire .tickslock) (.seq (.acquire .ptable) (.seq (.release .ptable)
        (.seq wakeup (.release .tickslock))))
    else .skip)
    (if b = .fcfs then .skip else .opt yield)

/-- An iteration of `scheduler`, up to the switch or the release. -/
def scheduler : Cmd := .seq (.acquire .ptable) .pick

/-- The kernel, as far as these locks go. -/
def kernel (b : Build) : LockKernel SpinLock Fn where
  baton := .ptable
  scheduler := .scheduler
  body c
    | .exit => exit
    | .getps => getps b
    | .consoleintr => consoleintr
    | .consoleread => consoleread
    | .consolewrite => consolewrite
    | .cprintf => cprintf
    | .wakeup => wakeup
    | .sleep => sleep none
    | .fork => fork
    | .wait => wait
    | .waitx => waitx
    | .kill => kill
    | .setPriority => setPriority b
    | .sysSleep => sysSleep
    | .sysUptime => sysUptime
    | .timer => timer b c
    | .scheduler => scheduler
  interrupt f := f = .consoleintr ∨ f = .timer ∨ f = .wakeup

/-- The functions that print while they hold `ptable.lock`. -/
def printsLocked (f : Fn) : Bool := f = .exit ∨ f = .getps

/-- The functions that take `ptable.lock` while they hold `cons.lock`. -/
def wakesLocked (f : Fn) : Bool := f = .consoleintr ∨ f = .consoleread

/-- The functions that take `ptable.lock` while they hold `tickslock`. -/
def ticksLocked (f : Fn) : Bool := f = .timer ∨ f = .sysSleep

def discipline : LockDiscipline SpinLock Fn where
  nest f
    | .ptable, .cons => printsLocked f
    | .cons, .ptable => wakesLocked f
    | .tickslock, .ptable => ticksLocked f
    | _, _ => false
  parks
    | .consoleread | .sleep | .wait | .waitx | .setPriority | .sysSleep | .timer => true
    | _ => false

/-- All that depends on the processor is whether it keeps the clock. -/
theorem body_eq (b : Build) (c : ℕ) (f : Fn) :
    (kernel b).body c f = (kernel b).body (if c = 0 then 0 else 1) f := by
  cases f with
  | timer =>
    change timer b c = timer b (if c = 0 then 0 else 1)
    by_cases hc : c = 0 <;> simp [timer, hc]
  | _ => rfl

theorem wellNested (b : Build) : discipline.WellNested (kernel b) := by
  intro c f
  rw [body_eq]
  by_cases hc : c = 0
  · rw [if_pos hc]
    cases b <;> cases f <;> decide
  · rw [if_neg hc]
    cases b <;> cases f <;> decide

abbrev State := LockState SpinLock Fn

/-- The label does not let a function that prints under `ptable.lock` take that
lock while one that uses `ptable.lock` under `cons.lock` holds `cons.lock`, nor
the other way round. -/
def Apart (s : State) : LockLabel Fn → Prop
  | .call _ _ => True
  | .exec c _ =>
    (s.Waits c .ptable → (s.running c).any printsLocked = true →
      ¬ s.HeldIn wakesLocked .cons) ∧
    (s.Waits c .cons → (s.running c).any wakesLocked = true →
      ¬ s.HeldIn printsLocked .ptable)

instance (s : State) (l : LockLabel Fn) : Decidable (Apart s l) := by
  cases l <;> dsimp only [Apart] <;> infer_instance

/-- The two kinds of function do not hold their first lock at the same time. -/
def Exclusive (s : State) : Prop :=
  s.HeldIn printsLocked .ptable → ¬ s.HeldIn wakesLocked .cons

/-- The functions that print under `ptable.lock` run to their end. -/
theorem parks_eq_false {f : Fn} (hf : printsLocked f = true) : discipline.parks f = false := by
  cases f with
  | exit | getps => rfl
  | _ => cases hf

theorem Exclusive.next {b : Build} {s : State} {l : LockLabel Fn} (h : Exclusive s)
    (hfits : discipline.Fits (kernel b) s) (enabled : (kernel b).Enabled s l)
    (hapart : Apart s l) : Exclusive ((kernel b).next s l) := by
  rintro ⟨c, f, hown, hrun, hf⟩ ⟨c', f', hown', hrun', hf'⟩
  -- A processor inside such a function was inside it before, with the lock or about to get it.
  have hheld := hfits.held_next enabled hown
  have hheld' := hfits.held_next enabled hown'
  cases hheld with
  | switched _ g hg hpick =>
    rw [hg] at hrun
    cases hrun
    rcases hpick with rfl | hparks
    · cases hf
    · rw [parks_eq_false hf] at hparks
      cases hparks
  | kept hsame hold =>
    rw [hsame] at hrun
    cases hheld' with
    | switched hbaton => cases hbaton
    | kept hsame' hold' =>
      rw [hsame'] at hrun'
      exact h ⟨c, f, hold, hrun, hf⟩ ⟨c', f', hold', hrun', hf'⟩
    | taken hsame' k hl hwait =>
      rw [hsame'] at hrun'
      subst hl
      refine hapart.2 hwait ?_ ⟨c, f, hold, hrun, hf⟩
      simp [hrun', hf']
  | taken hsame k hl hwait =>
    rw [hsame] at hrun
    subst hl
    cases hheld' with
    | switched hbaton => cases hbaton
    | kept hsame' hold' =>
      rw [hsame'] at hrun'
      refine hapart.1 hwait ?_ ⟨c', f', hold', hrun', hf'⟩
      simp [hrun, hf]
    | taken hsame' k' hl' hwait' =>
      -- One processor takes one lock at a time.
      cases hl'
      obtain ⟨g, rest, hcode⟩ := hwait
      obtain ⟨g', rest', hcode'⟩ := hwait'
      rw [hcode] at hcode'
      cases hcode'

/-- In every run in which the two kinds of function are kept apart, no processors
wait for each other in a cycle. -/
theorem no_lock_cycle {b : Build} {s : State}
    (h : ((kernel b).system.restrict Apart).Reachable s) (D : Set ℕ) : ¬ s.Deadlocked D := by
  have both : discipline.Fits (kernel b) s ∧ Exclusive s := by
    refine h.invariant (I := fun s => discipline.Fits (kernel b) s ∧ Exclusive s) ?_ ?_
    · rintro s rfl
      refine ⟨LockDiscipline.fits_init, ?_⟩
      rintro ⟨c, f, hown, -⟩
      cases hown
    · exact fun s l hs enabled => ⟨hs.1.next (wellNested b) enabled.1,
        hs.2.next hs.1 enabled.1 enabled.2⟩
  obtain ⟨hfits, hexcl⟩ := both
  by_cases hprint : s.HeldIn printsLocked .ptable
  · -- Nobody takes `ptable.lock` under `cons.lock` now.
    refine s.not_deadlocked_of_rank
      (fun | .tickslock => 0 | .ptable => 1 | .cons => 2) ?_ D
    intro c held l howner hwait
    obtain ⟨f, hrun, hnest⟩ := hfits.nest hwait howner
    cases held <;> cases l <;> first | decide | cases hnest | skip
    exact absurd ⟨c, f, howner, hrun, hnest⟩ (hexcl hprint)
  · refine s.not_deadlocked_of_rank
      (fun | .tickslock => 0 | .cons => 1 | .ptable => 2) ?_ D
    intro c held l howner hwait
    obtain ⟨f, hrun, hnest⟩ := hfits.nest hwait howner
    cases held <;> cases l <;> first | decide | cases hnest | skip
    exact absurd ⟨c, f, howner, hrun, hnest⟩ hprint

/-- `exit` on one processor, then console input on another that waits for it. -/
theorem no_lock_cycle_after_exit :
    ∃ s : State, ((kernel .rr).system.restrict Apart).Reachable s ∧ s.Waits 1 .ptable ∧
      s.owner .ptable = some 0 ∧ ¬ s.Deadlocked {0, 1} := by
  obtain ⟨s, hs, hwait, howner⟩ := Machine.exists_reachable_of_exec
    ((kernel .rr).system.restrict Apart)
    [.call 0 .exit, .exec 0 0, .exec 0 0, .exec 0 0, .call 1 .wakeup, .exec 1 0] (s := {})
    (P := fun s => s.Waits 1 .ptable ∧ s.owner .ptable = some 0) rfl (by decide +kernel)
  exact ⟨s, hs, hwait, howner, no_lock_cycle hs _⟩

/-- One processor in `exit`, about to print; another in `consoleintr`, about to
wake a reader. -/
theorem exit_and_consoleintr_deadlock :
    ∃ s : State, (kernel .rr).system.Reachable s ∧ s.Deadlocked {0, 1} := by
  obtain ⟨s, hs, hwait₀, hwait₁, howner₀, howner₁⟩ := Machine.exists_reachable_of_exec
    (kernel .rr).system
    [.call 0 .exit, .exec 0 0, .exec 0 0, .call 1 .consoleintr, .exec 1 0, .exec 1 0,
      .exec 1 0, .exec 1 1, .exec 1 1, .exec 1 0, .exec 0 0, .exec 0 0] (s := {})
    (P := fun s => s.Waits 0 .cons ∧ s.Waits 1 .ptable ∧ s.owner .cons = some 1 ∧
      s.owner .ptable = some 0) rfl (by decide +kernel)
  refine ⟨s, hs, ⟨0, by simp⟩, ?_⟩
  rintro c (rfl | rfl)
  · exact ⟨.cons, hwait₀, 1, by simp, by simp, howner₀⟩
  · exact ⟨.ptable, hwait₁, 0, by simp, by simp, howner₁⟩

end Xv6.Locks
