/-
# One pipe and the processes that use it

`pipewrite`, `piperead` and `pipeclose` of `pipe.c`, with `kill`. A step is what a
process does under `p->lock` from one acquire to the next release or sleep: a
writer that finds the pipe full sleeps in the middle of its call and goes on from
there when it is woken. `killed` is read once in such a region, at its end, so a
`kill` that comes while a region runs has the effect of one that came before it.

A process that is inside a call has the descriptor open. So an end of the pipe is
closed only when no process is in a call on that end, and calls are made only on
ends that are open. `n` is the length of the buffer, since `argptr` refuses
negative lengths.
-/

import Xv6.Lib.RingBuffer
import Xv6.Lib.Machine
import Mathlib.Data.Fintype.Basic

namespace Xv6.Pipes

open Xv6.Lib

def PIPESIZE : ℕ := 512

/-- `struct pipe`; `ring` is `data`, `nread` and `nwrite`. -/
structure Pipe where
  ring : RingBuffer UInt8
  readopen : Bool
  writeopen : Bool

/-- The addresses `&p->nread` and `&p->nwrite` as sleep channels. -/
inductive Chan
  | nread
  | nwrite
  deriving DecidableEq, Repr

/-- A call in progress. -/
inductive Call
  /-- Not in the pipe code. -/
  | user
  /-- `pipewrite` of `buf`, with `i` bytes stored. -/
  | write (buf : List UInt8) (i : ℕ)
  /-- `piperead` of up to `n` bytes. -/
  | read (n : ℕ)
  deriving DecidableEq, Repr

/-- The effect of one region under `p->lock`. -/
structure Region where
  /-- The pipe afterwards. -/
  pipe : Pipe
  /-- The bytes stored or taken out. -/
  moved : List UInt8
  /-- The argument of `wakeup`. -/
  wakes : Option Chan
  /-- The value returned; `none` if the region ends in `sleep`. -/
  result : Option ℤ

/-- `pipewrite` from index `i` on. The loop stores bytes until the buffer ends or the
pipe is full, and a full pipe sends the writer to sleep or back with an error. -/
def pipewrite (p : Pipe) (killed : Bool) (buf : List UInt8) (i : ℕ) : Region :=
  let filled := p.ring.fill PIPESIZE (buf.drop i)
  let p' := { p with ring := filled.1 }
  if filled.2 = buf.drop i then ⟨p', filled.2, some .nread, some (buf.length : ℤ)⟩
  else if p.readopen = false ∨ killed = true then ⟨p', filled.2, none, some (-1)⟩
  else ⟨p', filled.2, some .nread, none⟩

/-- `piperead` from the test for an empty pipe on. -/
def piperead (p : Pipe) (killed : Bool) (n : ℕ) : Region :=
  if p.ring.Empty ∧ p.writeopen = true then
    if killed then ⟨p, [], none, some (-1)⟩ else ⟨p, [], none, none⟩
  else
    let drained := p.ring.drain PIPESIZE n
    ⟨{ p with ring := drained.1 }, drained.2, some .nwrite, some (drained.2.length : ℤ)⟩

/-- The call after a region of it that ends in `sleep`, and the channel. -/
def Call.suspended (moved : ℕ) : Call → Call × Option Chan
  | .user => (.user, none)
  | .write buf i => (.write buf (i + moved), some .nwrite)
  | .read n => (.read n, some .nread)

/-- The call after a region of it, and the channel the process sleeps on. -/
def Region.after (r : Region) (call : Call) : Call × Option Chan :=
  match r.result with
  | some _ => (.user, none)
  | none => call.suspended r.moved.length

/-- What a process has to do with the pipe. -/
structure Proc where
  call : Call := .user
  /-- `SLEEPING`, and on which channel. -/
  chan : Option Chan := none
  killed : Bool := false

/-- The pipe and `N` processes. -/
structure State (N : ℕ) where
  pipe : Pipe
  proc : Fin N → Proc

/-- The steps, by the process that takes them. -/
inductive Label (N : ℕ)
  | write (q : Fin N) (buf : List UInt8)
  | read (q : Fin N) (n : ℕ)
  /-- The process has been woken and goes on with its call. -/
  | resume (q : Fin N)
  | pipeclose (writable : Bool)
  | kill (q : Fin N)

/-- The call uses the end of the pipe that `pipeclose` closes. -/
def Call.uses (writable : Bool) : Call → Bool
  | .user => false
  | .write _ _ => writable
  | .read _ => !writable

namespace State

variable {N : ℕ}

/-- The call a step works on. -/
def current (s : State N) : Label N → Option (Fin N × Call)
  | .write q buf => some (q, .write buf 0)
  | .read q n => some (q, .read n)
  | .resume q => some (q, (s.proc q).call)
  | .pipeclose _ | .kill _ => none

/-- The region of a call. -/
def region (s : State N) (q : Fin N) : Call → Region
  | .user => ⟨s.pipe, [], none, some 0⟩
  | .write buf i => pipewrite s.pipe (s.proc q).killed buf i
  | .read n => piperead s.pipe (s.proc q).killed n

/-- `wakeup(chan)`. -/
def wakeup (s : State N) (chan : Chan) : State N :=
  { s with proc := fun q =>
      if (s.proc q).chan = some chan then { s.proc q with chan := none } else s.proc q }

/-- Run a region of a call of process `q`. -/
def perform (s : State N) (q : Fin N) (call : Call) : State N :=
  let r := s.region q call
  let woken := match r.wakes with
    | some chan => s.wakeup chan
    | none => s
  { pipe := r.pipe
    proc := Function.update woken.proc q
      { woken.proc q with call := (r.after call).1, chan := (r.after call).2 } }

def pipeclose (s : State N) (writable : Bool) : State N :=
  if writable then { s with pipe := { s.pipe with writeopen := false } }.wakeup .nread
  else { s with pipe := { s.pipe with readopen := false } }.wakeup .nwrite

def kill (s : State N) (q : Fin N) : State N :=
  { s with proc := Function.update s.proc q { s.proc q with killed := true, chan := none } }

/-- Which steps are possible. -/
def Enabled (s : State N) : Label N → Prop
  | .write q _ => (s.proc q).call = .user ∧ s.pipe.writeopen = true
  | .read q _ => (s.proc q).call = .user ∧ s.pipe.readopen = true
  | .resume q => (s.proc q).call ≠ .user ∧ (s.proc q).chan = none
  | .pipeclose writable =>
    (if writable then s.pipe.writeopen else s.pipe.readopen) = true ∧
      ∀ q, (s.proc q).call.uses writable = false
  | .kill _ => True

instance (s : State N) (l : Label N) : Decidable (s.Enabled l) := by
  cases l <;> dsimp only [Enabled] <;> infer_instance

def next (s : State N) (l : Label N) : State N :=
  match s.current l, l with
  | some (q, call), _ => s.perform q call
  | none, .pipeclose writable => s.pipeclose writable
  | none, .kill q => s.kill q
  | none, _ => s

/-- What `pipealloc` makes, with no process in a call. The page comes from `kalloc`
with any contents. -/
def Init (s : State N) : Prop :=
  s.pipe.ring.nread = 0 ∧ s.pipe.ring.nwrite = 0 ∧ s.pipe.readopen = true ∧
    s.pipe.writeopen = true ∧ ∀ q, (s.proc q).call = .user ∧ (s.proc q).chan = none

end State

/-- A pipe used by `N` processes. -/
def system (N : ℕ) : Machine (State N) (Label N) where
  Init := State.Init
  Enabled := State.Enabled
  next := State.next

instance (N : ℕ) (s : State N) (l : Label N) : Decidable ((system N).Enabled s l) :=
  inferInstanceAs (Decidable (s.Enabled l))

/-- A new pipe and `N` processes that do not use it yet. -/
def fresh (N : ℕ) : State N := ⟨⟨⟨fun _ => 0, 0, 0⟩, true, true⟩, fun _ => {}⟩

end Xv6.Pipes
