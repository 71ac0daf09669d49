/-
# The system calls on files

Processes with a current directory and open files call `open`, `close`, `dup`, `link`,
`unlink`, `mkdir`, `mknod`, `chdir`, `exec`, `fork` and `exit`. Of a process and of an open
file only what refers to inodes is kept. A call is a step of the machine: it is performed
to its end, and a call that panics or waits for ever ends the run.

An argument that `argstr` or `argfd` refuses is `none`.
-/

import Xv6.Lib.Machine
import Xv6.Lib.Outcome
import Xv6.Ptable.Struct
import Xv6.Fs.Dir

namespace Xv6.Fs

open Function Xv6.Lib Xv6.Ptable

/-- Open files of a process. -/
def NOFILE : ℕ := 16

/-- Open files of the system. -/
def NFILE : ℕ := 100

/-- `struct file`, with the type `FD_NONE` if it has no inode. -/
structure File where
  ref : ℕ := 0
  ip : Option (Fin NINODE) := none
  deriving DecidableEq

/-- The inode layer, the open files and the processes. A process without a current directory
does not exist or has exited. -/
structure Sys where
  fs : State := {}
  ftable : Fin NFILE → File := fun _ => {}
  cwd : Slot → Option (Fin NINODE) := fun _ => none
  ofile : Slot → Fin NOFILE → Option (Fin NFILE) := fun _ _ => none

/-- A path as a system call gets it. -/
abbrev Arg := Option (List UInt8)

namespace Sys

variable (sb : Superblock) (dev : Devsw)

def withFs (s : Sys) (fs : State) : Sys := { s with fs := fs }

def setFile (s : Sys) (f : Fin NFILE) (file : File) : Sys :=
  { s with ftable := update s.ftable f file }

def setFd (s : Sys) (p : Slot) (fd : Fin NOFILE) (f : Option (Fin NFILE)) : Sys :=
  { s with ofile := update s.ofile p (update (s.ofile p) fd f) }

def setCwd (s : Sys) (p : Slot) (k : Option (Fin NINODE)) : Sys :=
  { s with cwd := update s.cwd p k }

def filealloc (s : Sys) : Option (Fin NFILE) × Sys :=
  match (List.finRange NFILE).find? fun f => (s.ftable f).ref = 0 with
  | some f => (some f, s.setFile f { s.ftable f with ref := 1 })
  | none => (none, s)

def fdalloc (s : Sys) (p : Slot) (f : Fin NFILE) : Option (Fin NOFILE) × Sys :=
  match (List.finRange NOFILE).find? fun fd => (s.ofile p fd) = none with
  | some fd => (some fd, s.setFd p fd (some f))
  | none => (none, s)

def filedup (s : Sys) (f : Fin NFILE) : Except Panic Sys :=
  if (s.ftable f).ref < 1 then .error .filedup
  else .ok (s.setFile f { s.ftable f with ref := (s.ftable f).ref + 1 })

/-- `begin_op(); iput(ip); end_op();` -/
def putInode (s : Sys) (k : Fin NINODE) : Except Panic Sys := do
  let fs ← s.fs.beginOp
  let fs ← fs.iput sb k
  return s.withFs fs.endOp

def fileclose (s : Sys) (f : Fin NFILE) : Except Panic Sys :=
  if (s.ftable f).ref < 1 then .error .fileclose
  else if (s.ftable f).ref - 1 > 0 then
    .ok (s.setFile f { s.ftable f with ref := (s.ftable f).ref - 1 })
  else
    match (s.ftable f).ip with
    | none => .ok (s.setFile f {})
    | some k => (s.setFile f {}).putInode sb k

/-- `sys_dup` of a descriptor. -/
def dup (s : Sys) (p : Slot) (fd : Fin NOFILE) : Except Panic Sys :=
  match s.ofile p fd with
  | none => .ok s
  | some f =>
    match s.fdalloc p f with
    | (none, s) => .ok s
    | (some _, s) => s.filedup f

def close (s : Sys) (p : Slot) (fd : Fin NOFILE) : Except Panic Sys :=
  match s.ofile p fd with
  | none => .ok s
  | some f => (s.setFd p fd none).fileclose sb f

/-- What `sys_link` does at `bad`, and when the new name is in place. -/
def linkBad (fs : State) (ip : Fin NINODE) : Except Panic State := do
  let fs ← fs.ilock sb ip
  let fs ← fs.modify sb ip fun d => { d with nlink := d.nlink - 1 }
  let fs ← fs.iunlockput sb ip
  return fs.endOp

/-- `sys_link` once the inode has one link more. -/
def linkTo (fs : State) (cwd ip : Fin NINODE) (path : List UInt8) : Except Panic State := do
  let (parent, fs) ← fs.nameiparent sb dev cwd path
  match parent with
  | none => linkBad sb fs ip
  | some (dp, name) =>
    let fs ← fs.ilock sb dp
    let (ok, fs) ← fs.dirlink sb dev dp name (fs.icache ip).inum
    let fs ← fs.iunlockput sb dp
    if ok = false then linkBad sb fs ip
    else do
      let fs ← fs.iput sb ip
      return fs.endOp

/-- `sys_link`. There is one device only. -/
def linkFs (fs : State) (cwd : Fin NINODE) (old new : List UInt8) : Except Panic State := do
  let fs ← fs.beginOp
  let (found, fs) ← fs.namei sb dev cwd old
  match found with
  | none => return fs.endOp
  | some ip =>
    let fs ← fs.ilock sb ip
    if (fs.icache ip).copy.type = T_DIR then do
      let fs ← fs.iunlockput sb ip
      return fs.endOp
    else do
      let fs ← fs.modify sb ip fun d => { d with nlink := d.nlink + 1 }
      let fs ← fs.iunlock ip
      linkTo sb dev fs cwd ip new

/-- The link from ".." goes with a directory. -/
def unlinkDots (fs : State) (dp ip : Fin NINODE) : Except Panic State :=
  if (fs.icache ip).copy.type = T_DIR then
    fs.modify sb dp fun d => { d with nlink := d.nlink - 1 }
  else return fs

/-- `sys_unlink` with both inodes locked and the entry at `off` to be erased. -/
def unlinkEntry (fs : State) (dp ip : Fin NINODE) (off : ℕ) : Except Panic State := do
  let fs ← fs.writeDirent sb dev dp off .empty .unlinkWritei
  let fs ← unlinkDots sb fs dp ip
  let fs ← fs.iunlockput sb dp
  let fs ← fs.modify sb ip fun d => { d with nlink := d.nlink - 1 }
  let fs ← fs.iunlockput sb ip
  return fs.endOp

/-- What `sys_unlink` does at `bad`. -/
def unlinkBad (fs : State) (dp : Fin NINODE) : Except Panic State := do
  let fs ← fs.iunlockput sb dp
  return fs.endOp

/-- `nlink < 1`, of type `short`. -/
def noLinks (d : Dinode) : Bool := d.nlink.toInt16 < 1

/-- The part of `isdirempty` in `sys_unlink`. -/
def unlinkable (fs : State) (ip : Fin NINODE) : Except Panic (Bool × State) :=
  if (fs.icache ip).copy.type = T_DIR then fs.isdirempty sb dev ip else return (true, fs)

def unlinkFs (fs : State) (cwd : Fin NINODE) (path : List UInt8) : Except Panic State := do
  let fs ← fs.beginOp
  let (parent, fs) ← fs.nameiparent sb dev cwd path
  match parent with
  | none => return fs.endOp
  | some (dp, name) =>
    let fs ← fs.ilock sb dp
    if namecmp name dot = 0 ∨ namecmp name dotdot = 0 then unlinkBad sb fs dp
    else do
      let (found, fs) ← fs.dirlookup sb dev dp name
      match found with
      | none => unlinkBad sb fs dp
      | some (ip, off) =>
        let fs ← fs.ilock sb ip
        if noLinks (fs.icache ip).copy then .error .unlinkNlink
        else do
          let (ok, fs) ← unlinkable sb dev fs ip
          if ok = false then do
            let fs ← fs.iunlockput sb ip
            unlinkBad sb fs dp
          else unlinkEntry sb dev fs dp ip off

/-- `sys_mkdir` and `sys_mknod`. -/
def makeFs (fs : State) (cwd : Fin NINODE) (path : Arg) (type major minor : UInt16) :
    Except Panic State := do
  let fs ← fs.beginOp
  match path with
  | none => return fs.endOp
  | some path =>
    let (found, fs) ← fs.create sb dev cwd path type major minor
    match found with
    | none => return fs.endOp
    | some ip =>
      let fs ← fs.iunlockput sb ip
      return fs.endOp

/-- The inode `sys_open` opens, locked. The flags are `O_CREATE` and whether the mode is
`O_RDONLY`. -/
def openInode (fs : State) (cwd : Fin NINODE) (path : List UInt8) (create rdonly : Bool) :
    Except Panic (Option (Fin NINODE) × State) :=
  if create then fs.create sb dev cwd path T_FILE 0 0
  else do
    let (found, fs) ← fs.namei sb dev cwd path
    match found with
    | none => return (none, fs)
    | some ip =>
      let fs ← fs.ilock sb ip
      if (fs.icache ip).copy.type = T_DIR ∧ rdonly = false then do
        let fs ← fs.iunlockput sb ip
        return (none, fs)
      else return (some ip, fs)

/-- `sys_open` when there is no descriptor or no file left. -/
def openFail (s : Sys) (ip : Fin NINODE) : Except Panic Sys := do
  let fs ← s.fs.iunlockput sb ip
  return s.withFs fs.endOp

/-- `sys_open` with the inode in hand. -/
def openFile (s : Sys) (p : Slot) (ip : Fin NINODE) : Except Panic Sys :=
  match s.filealloc with
  | (none, s) => s.openFail sb ip
  | (some f, s) =>
    match s.fdalloc p f with
    | (none, s) => do
        let s ← s.fileclose sb f
        s.openFail sb ip
    | (some _, s) => do
        let fs ← s.fs.iunlock ip
        return (s.withFs fs.endOp).setFile f { s.ftable f with ip := some ip }

def sysOpen (s : Sys) (p : Slot) (cwd : Fin NINODE) (path : Arg) (create rdonly : Bool) :
    Except Panic Sys :=
  match path with
  | none => .ok s
  | some path => do
      let fs ← s.fs.beginOp
      let (found, fs) ← openInode sb dev fs cwd path create rdonly
      match found with
      | none => return s.withFs fs.endOp
      | some ip => (s.withFs fs).openFile sb p ip

def chdir (s : Sys) (p : Slot) (cwd : Fin NINODE) (path : Arg) : Except Panic Sys := do
  let fs ← s.fs.beginOp
  match path with
  | none => return s.withFs fs.endOp
  | some path =>
    let (found, fs) ← fs.namei sb dev cwd path
    match found with
    | none => return s.withFs fs.endOp
    | some ip =>
      let fs ← fs.ilock sb ip
      if (fs.icache ip).copy.type ≠ T_DIR then do
        let fs ← fs.iunlockput sb ip
        return s.withFs fs.endOp
      else do
        let fs ← fs.iunlock ip
        let fs ← fs.iput sb cwd
        return (s.withFs fs.endOp).setCwd p (some ip)

/-- The reads of `exec`. -/
def readAll (k : Fin NINODE) : List (UInt32 × UInt32) → State → Except Panic State
  | [], fs => return fs
  | (off, n) :: rest, fs => do
      let (_, fs) ← fs.readi sb dev k off.toNat n.toNat
      readAll k rest fs

/-- `exec` as far as it uses the file system. What it reads of the file depends on the contents
and on the memory; here it is any list of reads, and after the last one, whether the program
is good or not, the inode is put back. -/
def execFs (fs : State) (cwd : Fin NINODE) (path : List UInt8)
    (reads : List (UInt32 × UInt32)) :
    Except Panic State := do
  let fs ← fs.beginOp
  let (found, fs) ← fs.namei sb dev cwd path
  match found with
  | none => return fs.endOp
  | some ip =>
    let fs ← fs.ilock sb ip
    let fs ← readAll sb dev ip reads fs
    let fs ← fs.iunlockput sb ip
    return fs.endOp

/-- The loop of `fork` over the open files. -/
def dupAll (p np : Slot) : List (Fin NOFILE) → Sys → Except Panic Sys
  | [], s => return s
  | fd :: rest, s =>
    match s.ofile p fd with
    | none => dupAll p np rest s
    | some f => do
        let s ← s.filedup f
        dupAll p np rest (s.setFd np fd (some f))

/-- `fork` into the slot `np`, with the current directory `cwd`. -/
def fork (s : Sys) (p np : Slot) (cwd : Fin NINODE) : Except Panic Sys := do
  let s ← dupAll p np (List.finRange NOFILE) s
  return (s.withFs (s.fs.idup cwd)).setCwd np (some cwd)

/-- The loop of `exit` over the open files. -/
def closeAll (p : Slot) : List (Fin NOFILE) → Sys → Except Panic Sys
  | [], s => return s
  | fd :: rest, s =>
    match s.ofile p fd with
    | none => closeAll p rest s
    | some f => do
        let s ← s.fileclose sb f
        closeAll p rest (s.setFd p fd none)

/-- `exit` of a process with the current directory `cwd`. The first process is `initproc`. -/
def exit (s : Sys) (p : Slot) (cwd : Fin NINODE) : Except Panic Sys :=
  if p = 0 then .error .initExiting
  else do
    let s ← closeAll sb p (List.finRange NOFILE) s
    let s ← s.putInode sb cwd
    return s.setCwd p none

end Sys

/-- The system calls. -/
inductive SysCall
  | open (path : Arg) (create rdonly : Bool)
  | close (fd : Option (Fin NOFILE))
  | dup (fd : Option (Fin NOFILE))
  | link (old new : Arg)
  | unlink (path : Arg)
  | mkdir (path : Arg)
  | mknod (path : Arg) (major minor : UInt16)
  | chdir (path : Arg)
  | exec (path : Arg) (reads : List (UInt32 × UInt32))
  | fork (np : Slot)
  | exit

namespace SysCall

variable (sb : Superblock) (dev : Devsw)

/-- A call that uses the inode layer only. -/
def onFs (s : Sys) (x : Except Panic State) : Except Panic Sys := x.map s.withFs

/-- Perform the call in process `p`, whose current directory is `cwd`. -/
def perform (s : Sys) (p : Slot) (cwd : Fin NINODE) : SysCall → Except Panic Sys
  | .open path create rdonly => s.sysOpen sb dev p cwd path create rdonly
  | .close none => .ok s
  | .close (some fd) => s.close sb p fd
  | .dup none => .ok s
  | .dup (some fd) => s.dup p fd
  | .link (some old) (some new) => onFs s (Sys.linkFs sb dev s.fs cwd old new)
  | .link _ _ => .ok s
  | .unlink none => .ok s
  | .unlink (some path) => onFs s (Sys.unlinkFs sb dev s.fs cwd path)
  | .mkdir path => onFs s (Sys.makeFs sb dev s.fs cwd path T_DIR 0 0)
  | .mknod path major minor => onFs s (Sys.makeFs sb dev s.fs cwd path T_DEV major minor)
  | .chdir path => s.chdir sb dev p cwd path
  | .exec none _ => .ok s
  | .exec (some path) reads => onFs s (Sys.execFs sb dev s.fs cwd path reads)
  | .fork np => s.fork p np cwd
  | .exit => s.exit sb p cwd

/-- The child of `fork` gets a slot that is not in use. -/
def Proper (s : Sys) : SysCall → Prop
  | .fork np => s.cwd np = none
  | _ => True

instance (s : Sys) (c : SysCall) : Decidable (c.Proper s) := by
  cases c <;> unfold Proper <;> infer_instance

end SysCall

/-- The state after a call of process `p`, if there is such a process. -/
def Sys.step (sb : Superblock) (dev : Devsw) (s : Sys) (l : Slot × SysCall) : Except Panic Sys :=
  match s.cwd l.1 with
  | none => .ok s
  | some cwd => l.2.perform sb dev s l.1 cwd

/-- The file system and the processes after boot: the first process is in the root directory. -/
structure Booted (s : Sys) : Prop where
  ftable_eq : ∀ f, s.ftable f = {}
  ofile_eq : ∀ p fd, s.ofile p fd = none
  cwd_init : s.cwd 0 = some ⟨0, by decide⟩
  cwd_other : ∀ p ≠ 0, s.cwd p = none
  root : s.fs.icache ⟨0, by decide⟩ = { inum := ROOTINO, ref := 1 }
  icache_eq : ∀ k : Fin NINODE, k.val ≠ 0 → s.fs.icache k = {}
  lh_eq : s.fs.lh = []
  outstanding_eq : s.fs.outstanding = 0

/-- The boot state of a disk. -/
def boot (disk : Disk) : Sys where
  fs := { disk, icache := fun k => if k.val = 0 then { inum := ROOTINO, ref := 1 } else {} }
  ftable _ := {}
  cwd p := if p = 0 then some ⟨0, ninode_pos⟩ else none
  ofile _ _ := none

theorem booted (disk : Disk) : Booted (boot disk) :=
  ⟨fun _ => rfl, fun _ _ => rfl, rfl, fun _ hp => if_neg hp, rfl, fun _ hk => if_neg hk, rfl, rfl⟩

/-- The machine whose steps are completed system calls. -/
def sysMachine (sb : Superblock) (dev : Devsw) : Machine Sys (Slot × SysCall) where
  Init := Booted
  Enabled s l := (s.cwd l.1).isSome ∧ l.2.Proper s ∧ completes (s.step sb dev l) = true
  next s l := match s.step sb dev l with
    | .ok s' => s'
    | .error _ => s

instance (sb : Superblock) (dev : Devsw) (s : Sys) (l : Slot × SysCall) :
    Decidable ((sysMachine sb dev).Enabled s l) := inferInstanceAs (Decidable (_ ∧ _))

/-- A file system of twenty blocks, six of them for data, and seven inodes. -/
def sample : Superblock where
  size := 20
  nblocks := 6
  ninodes := 7
  nlog := 10
  logstart := 2
  inodestart := 12
  bmapstart := 13
  log_fits := Nat.le_refl 12
  inodes_fit := by decide
  bmap_fits := by decide
  size_lt := by decide

/-- The sample file system with the directories `/` (inode 1, block 14), `/a` (inode 2, block 15)
and `/a/b` (inode 3, block 16) and the empty file `/f` (inode 4). -/
def sampleDisk : Disk := fun b o =>
  match b, o with
  -- the inodes: type, nlink, size and first address
  | 12, 64 => 1
  | 12, 70 => 2
  | 12, 72 => 64
  | 12, 76 => 14
  | 12, 128 => 1
  | 12, 134 => 2
  | 12, 136 => 48
  | 12, 140 => 15
  | 12, 192 => 1
  | 12, 198 => 1
  | 12, 200 => 32
  | 12, 204 => 16
  | 12, 256 => 2
  | 12, 262 => 1
  -- the bitmap
  | 13, 0 => 255
  | 13, 1 => 255
  | 13, 2 => 1
  -- the entries of `/`
  | 14, 0 => 1
  | 14, 2 => 46
  | 14, 16 => 1
  | 14, 18 => 46
  | 14, 19 => 46
  | 14, 32 => 2
  | 14, 34 => 97
  | 14, 48 => 4
  | 14, 50 => 102
  -- of `/a`
  | 15, 0 => 2
  | 15, 2 => 46
  | 15, 16 => 1
  | 15, 18 => 46
  | 15, 19 => 46
  | 15, 32 => 3
  | 15, 34 => 98
  -- and of `/a/b`
  | 16, 0 => 3
  | 16, 2 => 46
  | 16, 16 => 2
  | 16, 18 => 46
  | 16, 19 => 46
  | _, _ => 0

end Xv6.Fs
