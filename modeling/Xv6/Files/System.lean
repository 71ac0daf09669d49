/-
# Open files and pipes

The table of open files, the descriptors of the processes, and the pipes. A pipe lives in a
page of its own, which `pipealloc` gets from `kalloc` and `pipeclose` returns to `kfree` when
the second end is closed. Of `open` only what it does once the inode has been looked up or
created is modelled; what a file of type `FD_INODE` does to its inode is no part of this model,
nor are the bytes in a pipe.

A call is performed to its end. An error stands for a panic, or for the use of a pipe that
is not there any more.
-/

import Xv6.Lib.Machine
import Xv6.Lib.Outcome
import Xv6.Lib.RefCount
import Xv6.Ptable.Struct
import Mathlib.Data.List.FinRange

namespace Xv6.Files

open Xv6.Lib Xv6.Ptable

/-- Open files of a process. -/
def NOFILE : ℕ := 16

/-- Open files of the system. -/
def NFILE : ℕ := 100

/-- The number of a page of physical memory. -/
abbrev Page := ℕ

inductive FileType
  | fdNone
  | fdPipe
  | fdInode
  deriving DecidableEq, Repr

/-- `struct file`, without the inode and the offset. -/
structure File where
  type : FileType := .fdNone
  ref : ℕ := 0
  readable : Bool := false
  writable : Bool := false
  pipe : Page := 0
  deriving DecidableEq, Repr

/-- The ends of `struct pipe`. -/
structure Pipe where
  readopen : Bool
  writeopen : Bool
  deriving DecidableEq, Repr

inductive Panic
  /-- "filedup" -/
  | filedup
  /-- "fileclose" -/
  | fileclose
  /-- "init exiting" -/
  | initExiting
  /-- Not a panic: the page is not a pipe. -/
  | notPipe
  deriving DecidableEq, Repr

/-- Open files, descriptors and pipes. -/
structure State where
  ftable : Fin NFILE → File := fun _ => {}
  ofile : Slot × Fin NOFILE → Option (Fin NFILE) := fun _ => none
  pipe : Page → Option Pipe := fun _ => none
  /-- The pages `pipealloc` has got from `kalloc`. -/
  kalloced : List Page := []
  /-- The pages given to `kfree`. -/
  kfreed : List Page := []

namespace State

def setFile (s : State) (f : Fin NFILE) (file : File) : State :=
  { s with ftable := Function.update s.ftable f file }

def setFd (s : State) (p : Slot) (fd : Fin NOFILE) (f : Option (Fin NFILE)) : State :=
  { s with ofile := Function.update s.ofile (p, fd) f }

def setPipe (s : State) (a : Page) (x : Option Pipe) : State :=
  { s with pipe := Function.update s.pipe a x }

def filealloc (s : State) : Option (Fin NFILE) × State :=
  match (List.finRange NFILE).find? fun f => (s.ftable f).ref = 0 with
  | some f => (some f, s.setFile f { s.ftable f with ref := 1 })
  | none => (none, s)

def filedup (s : State) (f : Fin NFILE) : Except Panic State :=
  if (s.ftable f).ref < 1 then .error .filedup
  else .ok (s.setFile f { s.ftable f with ref := (s.ftable f).ref + 1 })

/-- `kfree` of the page of a pipe. -/
def kfree (s : State) (a : Page) : State :=
  { s.setPipe a none with kfreed := s.kfreed ++ [a] }

/-- One end of a pipe after the other. -/
def Pipe.close (x : Pipe) (writable : Bool) : Pipe :=
  if writable then { x with writeopen := false } else { x with readopen := false }

def pipeclose (s : State) (a : Page) (writable : Bool) : Except Panic State :=
  match s.pipe a with
  | none => .error .notPipe
  | some x =>
    let x := Pipe.close x writable
    if x.readopen = false ∧ x.writeopen = false then .ok (s.kfree a)
    else .ok (s.setPipe a (some x))

def fileclose (s : State) (f : Fin NFILE) : Except Panic State :=
  let ff := s.ftable f
  if ff.ref < 1 then .error .fileclose
  else if ff.ref - 1 > 0 then .ok (s.setFile f { ff with ref := ff.ref - 1 })
  else
    let s := s.setFile f { ff with ref := 0, type := .fdNone }
    match ff.type with
    | .fdPipe => s.pipeclose ff.pipe ff.writable
    | .fdInode | .fdNone => .ok s

/-- `pipealloc`, where `kalloc` returns `page`. -/
def pipealloc (s : State) (page : Option Page) :
    Except Panic (Option (Fin NFILE × Fin NFILE) × State) :=
  match s.filealloc with
  | (none, s) => .ok (none, s)
  | (some f0, s) =>
    match s.filealloc with
    | (none, s) => do
        let s ← s.fileclose f0
        return (none, s)
    | (some f1, s) =>
      match page with
      | none => do
          let s ← s.fileclose f0
          let s ← s.fileclose f1
          return (none, s)
      | some a =>
        let s := { s.setPipe a (some ⟨true, true⟩) with kalloced := s.kalloced ++ [a] }
        let s := s.setFile f0 { s.ftable f0 with
          type := .fdPipe, readable := true, writable := false, pipe := a }
        let s := s.setFile f1 { s.ftable f1 with
          type := .fdPipe, readable := false, writable := true, pipe := a }
        .ok (some (f0, f1), s)

def fdalloc (s : State) (p : Slot) (f : Fin NFILE) : Option (Fin NOFILE) × State :=
  match (List.finRange NOFILE).find? fun fd => s.ofile (p, fd) = none with
  | some fd => (some fd, s.setFd p fd (some f))
  | none => (none, s)

/-- `sys_open` once it has the inode. -/
def sysOpen (s : State) (p : Slot) (readable writable : Bool) : Except Panic State :=
  match s.filealloc with
  | (none, s) => .ok s
  | (some f, s) =>
    match s.fdalloc p f with
    | (none, s) => s.fileclose f
    | (some _, s) => .ok (s.setFile f { s.ftable f with type := .fdInode, readable, writable })

def sysDup (s : State) (p : Slot) (fd : Fin NOFILE) : Except Panic State :=
  match s.ofile (p, fd) with
  | none => .ok s
  | some f =>
    match s.fdalloc p f with
    | (none, s) => .ok s
    | (some _, s) => s.filedup f

def sysClose (s : State) (p : Slot) (fd : Fin NOFILE) : Except Panic State :=
  match s.ofile (p, fd) with
  | none => .ok s
  | some f => (s.setFd p fd none).fileclose f

def sysPipe (s : State) (p : Slot) (page : Option Page) : Except Panic State := do
  let (ends, s) ← s.pipealloc page
  match ends with
  | none => return s
  | some (rf, wf) =>
    match s.fdalloc p rf with
    | (none, s) => do
        let s ← s.fileclose rf
        s.fileclose wf
    | (some fd0, s) =>
      match s.fdalloc p wf with
      | (none, s) => do
          let s ← (s.setFd p fd0 none).fileclose rf
          s.fileclose wf
      | (some _, s) => return s

/-- The loop of `fork` over the open files. -/
def dupAll (p np : Slot) : List (Fin NOFILE) → State → Except Panic State
  | [], s => return s
  | fd :: rest, s =>
    match s.ofile (p, fd) with
    | none => dupAll p np rest s
    | some f => do
        let s ← s.filedup f
        dupAll p np rest (s.setFd np fd (some f))

/-- The loop of `exit` over the open files. -/
def closeAll (p : Slot) : List (Fin NOFILE) → State → Except Panic State
  | [], s => return s
  | fd :: rest, s =>
    match s.ofile (p, fd) with
    | none => closeAll p rest s
    | some f => do
        let s ← s.fileclose f
        closeAll p rest (s.setFd p fd none)

end State

/-- The calls, with what the rest of the kernel decides: an argument that `argfd` or `argptr`
refuses is `none`, `found` says whether `open` has got an inode, `page` is what `kalloc` returns,
and `np` is the slot of the child if `fork` gets one and the memory for it. -/
inductive Call
  | open (found readable writable : Bool)
  | dup (fd : Option (Fin NOFILE))
  | close (fd : Option (Fin NOFILE))
  | pipe (arg : Bool) (page : Option Page)
  | fork (np : Option Slot)
  | exit
  | exec

/-- Perform a call in process `p`. The first process is `initproc`. -/
def Call.perform (s : State) (p : Slot) : Call → Except Panic State
  | .open false _ _ => .ok s
  | .open true readable writable => s.sysOpen p readable writable
  | .dup none => .ok s
  | .dup (some fd) => s.sysDup p fd
  | .close none => .ok s
  | .close (some fd) => s.sysClose p fd
  | .pipe false _ => .ok s
  | .pipe true page => s.sysPipe p page
  | .fork none => .ok s
  | .fork (some np) => State.dupAll p np (List.finRange NOFILE) s
  | .exit => if p = 0 then .error .initExiting else State.closeAll p (List.finRange NOFILE) s
  | .exec => .ok s

/-- What the rest of the kernel keeps to: the child of `fork` gets a slot without open files,
that of a process that has exited or never was, and `kalloc` does not return a page it has
returned before and not got back. -/
def Call.Proper (s : State) (p : Slot) : Call → Prop
  | .fork (some np) => ∀ fd, s.ofile (np, fd) = none
  | .exit => p ≠ 0
  | .pipe _ (some a) => s.kalloced.count a = s.kfreed.count a
  | .pipe _ none | .fork none | .open _ _ _ | .dup _ | .close _ | .exec => True

instance (s : State) (p : Slot) (c : Call) : Decidable (c.Proper s p) :=
  match c with
  | .fork (some np) => inferInstanceAs (Decidable (∀ fd, s.ofile (np, fd) = none))
  | .exit => inferInstanceAs (Decidable (_ ≠ _))
  | .pipe _ (some _) => inferInstanceAs (Decidable (_ = _))
  | .pipe _ none | .fork none | .open _ _ _ | .dup _ | .close _ | .exec => .isTrue trivial

/-- The machine whose steps are completed calls. It starts without open files. -/
def system : Machine State (Slot × Call) where
  Init s := s = {}
  Enabled s l := l.2.Proper s l.1 ∧ completes (l.2.perform s l.1) = true
  next s l := match l.2.perform s l.1 with
    | .ok s' => s'
    | .error _ => s

instance (s : State) (l : Slot × Call) : Decidable (system.Enabled s l) :=
  inferInstanceAs (Decidable (_ ∧ _))

end Xv6.Files
