/-
# Processes and their pages

The system calls that take or give back pages: `fork`, `exec`, `sbrk`, `pipe`, `close`,
`exit`, `wait` and `waitx`, with `open` and `dup` for the sake of the open files. A call is
performed to its end, so a process is live, a zombie, or its slot is unused. `kalloc` fails
when the free list is empty and only then.

What `exec` finds in the file and whether the arguments fit is part of its label.
-/

import Xv6.Vm.Conserve

namespace Xv6.Vm

open Xv6.Lib Xv6.Files Xv6.Ptable

inductive Status
  | unused
  | live
  | zombie
  deriving DecidableEq, Repr

/-- The members of `struct proc` that have to do with memory. -/
structure Proc where
  state : Status := .unused
  parent : Option Slot := none
  kstack : Option Page := none
  /-- The pointer stays when the slot becomes unused. -/
  pgdir : Option Pgdir := none
  sz : ℕ := 0

structure State where
  free : Free
  proc : Slot → Proc := fun _ => {}
  files : Files.State := {}
  kpgdir : Option Pgdir := none
  /-- The stacks `startothers` has allocated for the other processors. -/
  cpuStacks : List Page := []

/-- A program header, and whether it and its segment can be read. -/
structure Segment where
  read : Bool := true
  load : Bool := true
  filesz : ℕ
  memsz : ℕ
  vaddr : ℕ
  loaded : Bool := true

/-- What `exec` finds: whether the header is good, the segments, and whether the arguments can
be pushed. -/
structure Program where
  header : Bool := true
  segments : List Segment
  args : Bool := true

variable (kmap : List Kmap)

namespace State

def setProc (s : State) (p : Slot) (x : Proc) : State :=
  { s with proc := Function.update s.proc p x }

/-- An operation on the open files, with the panics of this model. -/
def onFiles {α : Type} : Except Files.Panic α → Except Panic α
  | .ok a => .ok a
  | .error e => .error (.files e)

/-- The open files have become `files`: the page of a new pipe came from the free list, and
the pages of closed pipes go there. -/
def absorb (s : State) (files : Files.State) : State :=
  { s with
    files
    free := kfreeAll (files.kfreed.drop s.files.kfreed.length)
      (s.free.drop (files.kalloced.length - s.files.kalloced.length)) }

/-- The search of `allocproc`. -/
def unusedSlot (s : State) : Option Slot :=
  (List.finRange NPROC).find? fun p => (s.proc p).state = .unused

def fork (s : State) (p : Slot) : Except Panic State :=
  match s.unusedSlot with
  | none => .ok s
  | some np =>
    match kalloc s.free, (s.proc p).pgdir with
    | (none, _), _ => .ok s
    | (some _, _), none => .error .copyuvmPte
    | (some kstack, free), some pgdir => do
        let (d, free) ← copyuvm kmap pgdir (s.proc p).sz free
        match d with
        | none =>
          return { s with free := kfree kstack free }.setProc np
            { s.proc np with kstack := none, pgdir := none, state := .unused }
        | some d => do
            let files ← onFiles (Files.State.dupAll p np (List.finRange NOFILE) s.files)
            return { s with free, files }.setProc np
              { state := .live, parent := some p, kstack := some kstack, pgdir := some d,
                sz := (s.proc p).sz }

/-- The new size, directory and free list of `growproc`. Sizes are of type `uint`. -/
def resize (d : Pgdir) (sz : ℕ) (n : ℤ) (free : Free) : Except Panic (ℕ × Pgdir × Free) :=
  let newsz := ((sz + n) % 2 ^ 32).toNat
  if n > 0 then d.allocuvm sz newsz free else d.deallocuvm sz newsz free

def growproc (s : State) (p : Slot) (n : ℤ) : Except Panic State :=
  match (s.proc p).pgdir with
  | none => .error .freevm
  | some d =>
    if n = 0 then .ok s
    else do
      let (sz, d, free) ← resize d (s.proc p).sz n s.free
      return { s with free }.setProc p
        { s.proc p with pgdir := some d, sz := if sz = 0 then (s.proc p).sz else sz }

/-- `loaduvm`, which needs the tables of the segment. -/
def loaduvm (d : Pgdir) (seg : Segment) : Except Panic Bool :=
  if seg.loaded = false then .ok false
  else if (List.range (pages seg.filesz)).all fun k => (d.entry (seg.vaddr / PGSIZE + k)).isSome
  then .ok true
  else .error .loaduvm

/-- The loop of `exec` over the program headers; no size stands for `goto bad`. -/
def loadSegments : List Segment → ℕ → Pgdir → Free → Except Panic (Option ℕ × Pgdir × Free)
  | [], sz, d, free => .ok (some sz, d, free)
  | seg :: rest, sz, d, free =>
    let top := (seg.vaddr + seg.memsz) % 2 ^ 32
    if seg.read = false then .ok (none, d, free)
    else if seg.load = false then loadSegments rest sz d free
    else if seg.memsz < seg.filesz then .ok (none, d, free)
    else if top < seg.vaddr then .ok (none, d, free)
    else do
      let (sz, d, free) ← d.allocuvm sz top free
      if sz = 0 then return (none, d, free)
      else if seg.vaddr % PGSIZE ≠ 0 then return (none, d, free)
      else do
        let ok ← loaduvm d seg
        if ok then loadSegments rest sz d free else return (none, d, free)

/-- `exec` once the program is loaded: the stack and the arguments. -/
def pushArgs (args : Bool) (sz : ℕ) (d : Pgdir) (free : Free) :
    Except Panic (Option ℕ × Pgdir × Free) := do
  let sz := pages sz * PGSIZE
  let (sz, d, free) ← d.allocuvm sz (sz + 2 * PGSIZE) free
  if sz = 0 then return (none, d, free)
  else if (d.entry ((sz - 2 * PGSIZE) / PGSIZE)).isNone then .error .clearpteu
  else if args then return (some sz, d, free)
  else return (none, d, free)

/-- The new image of `exec`, or none at `bad`. -/
def loadImage (prog : Program) (d : Pgdir) (free : Free) :
    Except Panic (Option ℕ × Pgdir × Free) := do
  let (sz, d, free) ← loadSegments prog.segments 0 d free
  match sz with
  | none => return (none, d, free)
  | some sz => pushArgs prog.args sz d free

/-- `exec` of a program that has been found. -/
def exec (s : State) (p : Slot) (prog : Program) : Except Panic State :=
  if prog.header = false then .ok s
  else do
    let (d, free) ← setupkvm kmap s.free
    match d with
    | none => return { s with free }
    | some d => do
        let (sz, d, free) ← loadImage prog d free
        match sz, (s.proc p).pgdir with
        | none, _ => do
            let free ← d.freevm free
            return { s with free }
        | some _, none => .error .freevm
        | some sz, some oldpgdir => do
            let free ← oldpgdir.freevm free
            return { s with free }.setProc p { s.proc p with pgdir := some d, sz }

/-- A call on the open files. -/
def fileCall (s : State) (p : Slot) (c : Files.Call) : Except Panic State := do
  let files ← onFiles (c.perform s.files p)
  return s.absorb files

/-- `exit`. The children go to the first process. -/
def exit (s : State) (p : Slot) : Except Panic State := do
  let s ← s.fileCall p .exit
  let s := { s with proc := fun q => { s.proc q with
    parent := if (s.proc q).parent = some p then some 0 else (s.proc q).parent } }
  return s.setProc p { s.proc p with state := .zombie }

/-- The child that `wait` and `waitx` collect. -/
def zombieChild (s : State) (p : Slot) : Option Slot :=
  (List.finRange NPROC).find? fun q => (s.proc q).parent = some p ∧ (s.proc q).state = .zombie

/-- The body of `wait` and `waitx`. Without a zombie they return or sleep. -/
def collect (s : State) (p : Slot) : Except Panic State :=
  match s.zombieChild p with
  | none => .ok s
  | some q =>
    match (s.proc q).kstack, (s.proc q).pgdir with
    | some kstack, some d => do
        let free ← d.freevm (kfree kstack s.free)
        return { s with free }.setProc q
          { s.proc q with kstack := none, parent := none, state := .unused }
    | none, _ => .error .kfree
    | _, none => .error .freevm

def wait (s : State) (p : Slot) : Except Panic State := s.collect p

def waitx (s : State) (p : Slot) : Except Panic State := s.collect p

end State

/-- The system calls. -/
inductive Call
  | fork
  | exec (prog : Option Program)
  | sbrk (n : ℤ)
  | open (found readable writable : Bool)
  | dup (fd : Option (Fin NOFILE))
  | close (fd : Option (Fin NOFILE))
  | pipe (arg : Bool)
  | exit
  | wait
  | waitx

def Call.perform (s : State) (p : Slot) : Call → Except Panic State
  | .fork => s.fork kmap p
  | .exec none => .ok s
  | .exec (some prog) => s.exec kmap p prog
  | .sbrk n => s.growproc p n
  | .open found readable writable => s.fileCall p (.open found readable writable)
  | .dup fd => s.fileCall p (.dup fd)
  | .close fd => s.fileCall p (.close fd)
  | .pipe arg => s.fileCall p (.pipe arg (kalloc s.free).1)
  | .exit => s.exit p
  | .wait => s.wait p
  | .waitx => s.waitx p

/-- The addresses that say which pages are free: where the kernel ends, `4*1024*1024` and
`PHYSTOP`. -/
structure Memory where
  kernelEnd : ℕ
  early : ℕ
  phystop : ℕ

/-- Every page given to `kfree` at boot. -/
def Memory.pages (m : Memory) : List Page :=
  pageRange m.kernelEnd m.early ++ pageRange m.early m.phystop

def kinit1 (m : Memory) : Free := freerange m.kernelEnd m.early []

def kinit2 (m : Memory) (free : Free) : Free := freerange m.early m.phystop free

/-- The stacks for `n` other processors; none if memory runs out. -/
def startothers : ℕ → List Page → Free → Option (List Page × Free)
  | 0, cpuStacks, free => some (cpuStacks, free)
  | n + 1, cpuStacks, free =>
    match kalloc free with
    | (none, _) => none
    | (some a, free) => startothers n (a :: cpuStacks) free

/-- `userinit`; none if memory runs out. -/
def userinit (s : State) : Except Panic (Option State) :=
  match kalloc s.free with
  | (none, _) => .ok none
  | (some kstack, free) => do
      let (d, free) ← setupkvm kmap free
      match d, kalloc free with
      | none, _ => return none
      | _, (none, _) => return none
      | some d, (some mem, free) => do
          let (ok, d, free) ← d.mappages 0 PGSIZE mem free
          if ok then return some ({ s with free }.setProc 0
            { state := .live, kstack := some kstack, pgdir := some d, sz := PGSIZE })
          else return none

/-- The state in which the first process starts, if there is memory enough for it. -/
def boot (m : Memory) (others : ℕ) : Except Panic (Option State) := do
  let (kpgdir, free) ← setupkvm kmap (kinit1 m)
  match kpgdir, startothers others [] free with
  | none, _ => return none
  | _, none => return none
  | some kpgdir, some (cpuStacks, free) =>
    userinit kmap { free := kinit2 m free, kpgdir := some kpgdir, cpuStacks }

/-- The machine whose steps are completed calls of live processes. -/
def system (m : Memory) (others : ℕ) : Machine State (Slot × Call) where
  Init s := boot kmap m others = .ok (some s)
  Enabled s l := (s.proc l.1).state = .live ∧ completes (l.2.perform kmap s l.1) = true
  next s l := match l.2.perform kmap s l.1 with
    | .ok s' => s'
    | .error _ => s

instance (m : Memory) (others : ℕ) (s : State) (l : Slot × Call) :
    Decidable ((system kmap m others).Enabled s l) := inferInstanceAs (Decidable (_ ∧ _))

end Xv6.Vm
