/-
# The console input buffer

`consoleintr` and `consoleread` of `console.c`. The characters stand in a ring with
three indices: what has been read ends at `r`, what is committed ends at `w`, and
what is being edited ends at `e`. The indices are 32 bits wide and never reset.

A step of the system is what happens between taking and giving up `cons.lock`.
`consoleintr` is one step. `consoleread` gives the lock up when it sleeps, so a call
is one step or several, and other calls may come in between.

`procdump`, which `consoleintr` calls for Control-P after it has released the lock,
and the echo of the characters do not touch the buffer.
-/

import Xv6.Lib.Machine
import Xv6.Lib.RingBuffer

namespace Xv6.Console

open Xv6.Lib

def INPUT_BUF : ℕ := 128

/-- The macro `C`: Control and a letter. -/
def ctrl (x : Char) : UInt8 := UInt8.ofNat (x.toNat - 64)

def newline : UInt8 := 10

def carriageReturn : UInt8 := 13

/-- The variable `input`. -/
structure Input where
  buf : ℕ → UInt8 := fun _ => 0
  /-- Read index. -/
  r : UInt32 := 0
  /-- Write index. -/
  w : UInt32 := 0
  /-- Edit index. -/
  e : UInt32 := 0

namespace Input

/-- The loop of Control-U. Each turn brings `e` one closer to `w`, so `e - w` turns are
enough. -/
def killLine : ℕ → Input → Input
  | 0, s => s
  | fuel + 1, s =>
    if s.e ≠ s.w ∧ s.buf ((s.e - 1).toNat % INPUT_BUF) ≠ newline then
      killLine fuel { s with e := s.e - 1 }
    else s

/-- The body of the loop in `consoleintr`; also whether it calls `wakeup`. -/
def key (s : Input) (c : UInt8) : Input × Bool :=
  if c = ctrl 'P' then (s, false)
  else if c = ctrl 'U' then (s.killLine (s.e - s.w).toNat, false)
  else if c = ctrl 'H' ∨ c = 0x7f then
    (if s.e ≠ s.w then { s with e := s.e - 1 } else s, false)
  else if c ≠ 0 ∧ s.e - s.r < UInt32.ofNat INPUT_BUF then
    let c := if c = carriageReturn then newline else c
    let s := { s with
      buf := Function.update s.buf (s.e.toNat % INPUT_BUF) c
      e := s.e + 1 }
    if c = newline ∨ c = ctrl 'D' ∨ s.e = s.r + UInt32.ofNat INPUT_BUF then
      ({ s with w := s.e }, true)
    else (s, false)
  else (s, false)

/-- `consoleintr`, given the characters `getc` returns; also whether it calls `wakeup`. -/
def consoleintr : List UInt8 → Input → Input × Bool
  | [], s => (s, false)
  | c :: rest, s =>
    let (s, woken) := s.key c
    let (s, later) := consoleintr rest s
    (s, woken || later)

/-- How a step of `consoleread` ends. -/
inductive Outcome
  /-- It sleeps, with `n` bytes still to be read. -/
  | sleeps (n : ℕ) (dst : List UInt8)
  /-- It returns `value`; `dst` is what it has copied to the caller. -/
  | returns (value : ℕ) (dst : List UInt8)
  /-- It returns -1. -/
  | killed (dst : List UInt8)
  deriving DecidableEq

/-- The bytes that have been copied to the caller. -/
def Outcome.dst : Outcome → List UInt8
  | .sleeps _ dst | .returns _ dst | .killed dst => dst

/-- The loop of `consoleread`, from taking `cons.lock` until it sleeps or returns. -/
def consoleread (killed : Bool) (target : ℕ) : ℕ → List UInt8 → Input → Input × Outcome
  | 0, dst, s => (s, .returns target dst)
  | n + 1, dst, s =>
    if s.r = s.w then
      (s, if killed then .killed dst else .sleeps (n + 1) dst)
    else
      let c := s.buf (s.r.toNat % INPUT_BUF)
      let s := { s with r := s.r + 1 }
      if c = ctrl 'D' then
        (if n + 1 < target then { s with r := s.r - 1 } else s,
          .returns (target - (n + 1)) dst)
      else if c = newline then (s, .returns (target - n) (dst ++ [c]))
      else consoleread killed target n (dst ++ [c]) s

end Input

/-- A process inside `consoleread`, between two steps. -/
structure Reader where
  target : ℕ
  n : ℕ
  dst : List UInt8
  asleep : Bool
  deriving DecidableEq

/-- A process that goes to sleep stays inside `consoleread`. -/
def Reader.after (rd : Reader) : Input.Outcome → Option Reader
  | .sleeps n dst => some { rd with n, dst, asleep := true }
  | .returns _ _ | .killed _ => none

structure State (P : Type) where
  input : Input := {}
  /-- The processes inside `consoleread`. -/
  reader : P → Option Reader := fun _ => none

inductive Label (P : Type)
  /-- An interrupt that brings these characters. -/
  | consoleintr (cs : List UInt8)
  /-- A process calls `consoleread`. -/
  | consoleread (p : P) (n : ℕ)
  /-- A process comes back from `sleep` in `consoleread`. -/
  | wakes (p : P)

namespace State

variable {P : Type}

/-- `wakeup(&input.r)`. -/
def wakeup (s : State P) : State P :=
  { s with reader p := (s.reader p).map fun rd => { rd with asleep := false } }

/-- The reader of a process that takes a step: itself at the start of the call, or what it left
when it went to sleep. -/
def readerOf (s : State P) : Label P → Option (P × Reader)
  | .consoleintr _ => none
  | .consoleread p n => some (p, { target := n, n, dst := [], asleep := false })
  | .wakes p => (s.reader p).map fun rd => (p, rd)

/-- The step of a reader. The readers are not killed. -/
def reads (s : State P) (rd : Reader) : Input × Input.Outcome :=
  s.input.consoleread false rd.target rd.n rd.dst

variable [DecidableEq P]

def step (s : State P) (p : P) (rd : Reader) : State P where
  input := (s.reads rd).1
  reader := Function.update s.reader p (rd.after (s.reads rd).2)

/-- A process calls `consoleread` with a positive length, and goes on only after a wakeup. -/
def Allowed (s : State P) : Label P → Prop
  | .consoleintr _ => True
  | .consoleread p n => s.reader p = none ∧ 0 < n
  | .wakes p => (s.reader p).any (fun rd => !rd.asleep) = true

instance (s : State P) (a : Label P) : Decidable (s.Allowed a) := by
  cases a <;> dsimp only [Allowed] <;> infer_instance

def perform (s : State P) : Label P → State P
  | .consoleintr cs =>
    let out := s.input.consoleintr cs
    if out.2 then { s.wakeup with input := out.1 } else { s with input := out.1 }
  | a => match s.readerOf a with
    | some (p, rd) => s.step p rd
    | none => s

end State

def system (P : Type) [DecidableEq P] : Machine (State P) (Label P) where
  Init s := s = {}
  Enabled := State.Allowed
  next := State.perform

instance {P : Type} [DecidableEq P] (s : State P) (a : Label P) :
    Decidable ((system P).Enabled s a) :=
  inferInstanceAs (Decidable (s.Allowed a))

end Xv6.Console
