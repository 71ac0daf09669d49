/-
# exec

`exec` builds a new image: it reads the headers and segments of the program, gives it a
stack of one page above a page that the user cannot reach, pushes the arguments, and only
then replaces the old image. The loader takes the reads of the file as a parameter, so that
it can be run on a file's contents and on the inodes of the file system.
-/

import Xv6.Mmu.Tables

namespace Xv6.Mmu

open Xv6.Lib Xv6.Files
open Xv6.Vm (PGSIZE NPDENTRIES NPTENTRIES KERNBASE pages)
open Xv6.Fs (NINODE Superblock Devsw)

def MAXARG : ℕ := 32

def ELF_MAGIC : ℕ := 0x464C457F

def ELF_PROG_LOAD : ℕ := 1

/-- The fields of `struct elfhdr` that `exec` uses. -/
structure Elfhdr where
  magic : ℕ
  entry : ℕ
  phoff : ℕ
  phnum : ℕ

/-- `sizeof(struct elfhdr)` -/
def ELFHDRSIZE : ℕ := 52

def Elfhdr.ofBytes (b : Bytes) : Elfhdr where
  magic := b.getLE 0 4
  entry := b.getLE 24 4
  phoff := b.getLE 28 4
  phnum := b.getLE 44 2

/-- The fields of `struct proghdr` that `exec` uses. -/
structure Proghdr where
  type : ℕ
  off : ℕ
  vaddr : ℕ
  filesz : ℕ
  memsz : ℕ

/-- `sizeof(struct proghdr)` -/
def PROGHDRSIZE : ℕ := 32

def Proghdr.ofBytes (b : Bytes) : Proghdr where
  type := b.getLE 0 4
  off := b.getLE 4 4
  vaddr := b.getLE 8 4
  filesz := b.getLE 16 4
  memsz := b.getLE 20 4

/-- A buffer into which these bytes have been read. -/
def buffer (data : List UInt8) : Bytes := fun i => data.getD i 0

section Loader

variable {σ : Type} (k : Kernel)
  (readi : σ → ℕ → ℕ → Except Stop (Option (List UInt8) × σ))

/-- The loop of `loaduvm`; false is its return value -1. -/
def Pgdir.loadLoop (d : Pgdir) (addr offset sz : ℕ) :
    ℕ → ℕ → σ → Mem → Except Stop (Bool × σ × Mem)
  | 0, _, _, _ => .error .running
  | fuel + 1, i, s, m =>
    if i < sz then
      match d.walk ((addr + i) % 2 ^ 32) with
      | none => .error .loaduvm
      | some x => do
          let n := if sz - i < PGSIZE then sz - i else PGSIZE
          let (data, s) ← readi s ((offset + i) % 2 ^ 32) n
          match data with
          | none => return (false, s, m)
          | some data => do
              let m := { m.setPage x.addr ((m.data x.addr).blit 0 data) with
                loaded := x.addr :: m.loaded }
              if data.length ≠ n then return (false, s, m)
              else d.loadLoop addr offset sz fuel ((i + PGSIZE) % 2 ^ 32) s m
    else .ok (true, s, m)

def Pgdir.loaduvm (d : Pgdir) (addr offset sz : ℕ) (s : σ) (m : Mem) :
    Except Stop (Bool × σ × Mem) :=
  if addr % PGSIZE ≠ 0 then .error .loaduvmAlign
  else d.loadLoop readi addr offset sz (pages sz + 1) 0 s m

/-- The loop of `exec` over the program headers, with the size of the image; no size stands for
`goto bad`. -/
def loadSegments : ℕ → ℕ → ℕ → σ → Pgdir → Mem → Except Stop (Option ℕ × σ × Pgdir × Mem)
  | 0, _, sz, s, d, m => .ok (some sz, s, d, m)
  | n + 1, off, sz, s, d, m => do
      let (data, s) ← readi s off PROGHDRSIZE
      match data with
      | none => return (none, s, d, m)
      | some data =>
        let ph := Proghdr.ofBytes (buffer data)
        let next := (off + PROGHDRSIZE) % 2 ^ 32
        if data.length ≠ PROGHDRSIZE then return (none, s, d, m)
        else if ph.type ≠ ELF_PROG_LOAD then loadSegments n next sz s d m
        else if ph.memsz < ph.filesz then return (none, s, d, m)
        else if (ph.vaddr + ph.memsz) % 2 ^ 32 < ph.vaddr then return (none, s, d, m)
        else do
          let (sz, d, m) ← d.allocuvm k sz ((ph.vaddr + ph.memsz) % 2 ^ 32) m
          if sz = 0 then return (none, s, d, m)
          else if ph.vaddr % PGSIZE ≠ 0 then return (none, s, d, m)
          else do
            let (ok, s, m) ← d.loaduvm readi ph.vaddr ph.off ph.filesz s m
            if ok then loadSegments n next sz s d m
            else return (none, s, d, m)

/-- How `exec` comes out of its loop. -/
inductive Loaded
  /-- `goto bad`, with `pgdir`. -/
  | bad (pgdir : Option Pgdir)
  | good (pgdir : Pgdir) (sz entry : ℕ)

/-- `exec` from the header of the program to the end of its loop. -/
def load (s : σ) (m : Mem) : Except Stop (Loaded × σ × Mem) := do
  let (data, s) ← readi s 0 ELFHDRSIZE
  match data with
  | none => return (.bad none, s, m)
  | some data =>
    let elf := Elfhdr.ofBytes (buffer data)
    if data.length ≠ ELFHDRSIZE then return (.bad none, s, m)
    else if elf.magic ≠ ELF_MAGIC then return (.bad none, s, m)
    else do
      let (pgdir, m) ← setupkvm k m
      match pgdir with
      | none => return (.bad none, s, m)
      | some d => do
          let (sz, s, d, m) ← loadSegments k readi elf.phnum elf.phoff 0 s d m
          match sz with
          | none => return (.bad (some d), s, m)
          | some sz => return (.good d sz elf.entry, s, m)

end Loader

section Stack

variable (k : Kernel)

/-- `clearpteu` -/
def Pgdir.clearpteu (d : Pgdir) (uva : ℕ) : Except Stop Pgdir :=
  match d.walk uva with
  | none => .error .clearpteu
  | some x => .ok (d.setPte uva { x with flags := x.flags &&& ~~~PTE_U })

/-- The two pages above the program; no size stands for `goto bad`. -/
def Pgdir.allocStack (d : Pgdir) (sz : ℕ) (m : Mem) : Except Stop (Option ℕ × Pgdir × Mem) := do
  let sz := pgRoundUp sz
  let (sz, d, m) ← d.allocuvm k sz ((sz + 2 * PGSIZE) % 2 ^ 32) m
  if sz = 0 then return (none, d, m)
  else do
    let d ← d.clearpteu ((sz + 2 ^ 32 - 2 * PGSIZE) % 2 ^ 32)
    return (some sz, d, m)

/-- `uva2ka`; none is the null pointer. -/
def Pgdir.uva2ka (d : Pgdir) (uva : ℕ) : Except Stop (Option Page) :=
  match d.walk uva with
  | none => .error .nullPte
  | some x =>
    if ¬ x.Has PTE_P then .ok none
    else if ¬ x.Has PTE_U then .ok none
    else .ok (some x.addr)

/-- The loop of `copyout`; false is its return value -1. -/
def Pgdir.copyoutLoop (d : Pgdir) : ℕ → ℕ → List UInt8 → Mem → Except Stop (Bool × Mem)
  | 0, _, _, _ => .error .running
  | fuel + 1, va, buf, m =>
    if buf.length > 0 then do
      let va0 := pgRoundDown va
      let pa0 ← d.uva2ka va0
      match pa0 with
      | none => return (false, m)
      | some pa0 =>
        let n := min (PGSIZE - (va - va0)) buf.length
        let m := m.setPage pa0 ((m.data pa0).blit (va - va0) (buf.take n))
        d.copyoutLoop fuel ((va0 + PGSIZE) % 2 ^ 32) (buf.drop n) m
    else .ok (true, m)

/-- `copyout`. Every turn of its loop copies a byte at least. -/
def Pgdir.copyout (d : Pgdir) (va : ℕ) (p : List UInt8) (m : Mem) : Except Stop (Bool × Mem) :=
  d.copyoutLoop (p.length + 1) va p m

/-- The stack pointer after a string: `(sp - (strlen(s) + 1)) & ~3`. -/
def pushed (sp : ℕ) (s : List UInt8) : ℕ := (sp + 2 ^ 32 - (s.length + 1)) % 2 ^ 32 / 4 * 4

/-- The loop of `exec` over the arguments. It returns the stack pointer and the addresses in
`ustack`; none stands for `goto bad`. -/
def Pgdir.pushStrings (d : Pgdir) : List (List UInt8) → ℕ → List ℕ → Mem →
    Except Stop (Option (ℕ × List ℕ) × Mem)
  | [], sp, ustack, m => .ok (some (sp, ustack), m)
  | s :: rest, sp, ustack, m =>
    if ustack.length ≥ MAXARG then .ok (none, m)
    else do
      let sp := pushed sp s
      let (ok, m) ← d.copyout sp (s ++ [0]) m
      if ok then d.pushStrings rest sp (ustack ++ [sp]) m else return (none, m)

/-- The bytes of a word. -/
def wordBytes (w : ℕ) : List UInt8 :=
  [UInt8.ofNat w, UInt8.ofNat (w / 2 ^ 8), UInt8.ofNat (w / 2 ^ 16), UInt8.ofNat (w / 2 ^ 24)]

/-- What is below the strings: the return address, `argc`, `argv`, and the array of addresses. -/
def ustackOf (sp : ℕ) (addrs : List ℕ) : List ℕ :=
  [0xffffffff, addrs.length, (sp + 2 ^ 32 - (addrs.length + 1) * 4) % 2 ^ 32] ++ addrs ++ [0]

/-- `exec` from the arguments on: it returns the stack pointer. -/
def Pgdir.pushArgs (d : Pgdir) (argv : List (List UInt8)) (sz : ℕ) (m : Mem) :
    Except Stop (Option ℕ × Mem) := do
  let (pushed, m) ← d.pushStrings argv sz [] m
  match pushed with
  | none => return (none, m)
  | some (sp, addrs) =>
    let ustack := ustackOf sp addrs
    let sp := (sp + 2 ^ 32 - (3 + addrs.length + 1) * 4) % 2 ^ 32
    let (ok, m) ← d.copyout sp (ustack.flatMap wordBytes) m
    return (if ok then some sp else none, m)

end Stack

/-- What follows the last slash of a path. -/
def lastName (path : List UInt8) : List UInt8 :=
  (path.reverse.takeWhile (· ≠ Fs.slash)).reverse

section Exec

variable (k : Kernel) (sb : Superblock) (dev : Devsw)

/-- An operation of the file system. -/
def onFs {α : Type} : Except Fs.Panic α → Except Stop α
  | .ok a => .ok a
  | .error e => .error (.fs e)

/-- The label `bad`, with the inode still locked. -/
def execBad (pgdir : Option Pgdir) (ip : Fin NINODE) (curproc : Proc) (fs : Fs.State) (m : Mem) :
    Except Stop (ℤ × Proc × Fs.State × Mem) := do
  let m ← match pgdir with
    | some d => d.freevm k m
    | none => .ok m
  let fs ← onFs (fs.iunlockput sb ip)
  return (-1, curproc, fs.endOp, m)

/-- `exec` once there is a stack. -/
def execArgs (path : List UInt8) (argv : List (List UInt8)) (d : Pgdir) (sz entry : ℕ)
    (curproc : Proc) (fs : Fs.State) (m : Mem) : Except Stop (ℤ × Proc × Fs.State × Mem) := do
  let (sp, m) ← d.pushArgs argv sz m
  match sp with
  | none => do
      let m ← d.freevm k m
      return (-1, curproc, fs, m)
  | some sp => do
      let m ← curproc.pgdir.freevm k m
      return (0, { pgdir := d, sz, name := (lastName path).take 15, eip := entry, esp := sp },
        fs, m)

/-- `exec` once the program is loaded and the inode is put back. -/
def execImage (path : List UInt8) (argv : List (List UInt8)) (d : Pgdir) (sz entry : ℕ)
    (curproc : Proc) (fs : Fs.State) (m : Mem) : Except Stop (ℤ × Proc × Fs.State × Mem) := do
  let (sz, d, m) ← d.allocStack k sz m
  match sz with
  | none => do
      let m ← d.freevm k m
      return (-1, curproc, fs, m)
  | some sz => execArgs k path argv d sz entry curproc fs m

/-- `exec`, with what it returns. -/
def exec (cwd : Fin NINODE) (path : List UInt8) (argv : List (List UInt8)) (curproc : Proc)
    (fs : Fs.State) (m : Mem) : Except Stop (ℤ × Proc × Fs.State × Mem) := do
  let fs ← onFs fs.beginOp
  let (found, fs) ← onFs (fs.namei sb dev cwd path)
  match found with
  | none => return (-1, curproc, fs.endOp, m)
  | some ip => do
      let fs ← onFs (fs.ilock sb ip)
      let (image, fs, m) ← load k (fun fs off n => onFs (fs.readi sb dev ip off n)) fs m
      match image with
      | .bad pgdir => execBad k sb pgdir ip curproc fs m
      | .good d sz entry => do
          let fs ← onFs (fs.iunlockput sb ip)
          execImage k path argv d sz entry curproc fs.endOp m

end Exec

end Xv6.Mmu
