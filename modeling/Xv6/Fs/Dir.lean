/-
# Directories and paths

A directory is a file of entries of sixteen bytes, an inode number and a name of at most
fourteen characters. The functions here run in one process and use the inode layer for
everything; they are translated statement by statement, with the loops over a directory
and over the elements of a path as recursions.

A string is the list of its characters before the terminating zero.
-/

import Xv6.Fs.Inode

namespace Xv6.Fs

open Xv6.Lib

/-- The number of the root inode. -/
def ROOTINO : ℕ := 1

/-- Characters of a name in a directory. -/
def DIRSIZ : ℕ := 14

/-- `sizeof(struct dirent)`. -/
def DIRENT : ℕ := 2 + DIRSIZ

/-- `strncmp`. Behind the end of a list there are zeros. -/
def strncmp (s t : List UInt8) : ℕ → ℤ
  | 0 => 0
  | n + 1 =>
    if s.headD 0 ≠ 0 ∧ s.headD 0 = t.headD 0 then strncmp s.tail t.tail n
    else (s.headD 0).toNat - (t.headD 0).toNat

/-- The `n` characters `strncpy` writes. -/
def strncpy (t : List UInt8) : ℕ → List UInt8
  | 0 => []
  | n + 1 => if t.headD 0 = 0 then List.replicate (n + 1) 0 else t.headD 0 :: strncpy t.tail n

def namecmp (s t : List UInt8) : ℤ := strncmp s t DIRSIZ

/-- The name ".". -/
def dot : List UInt8 := [46]

/-- The name "..". -/
def dotdot : List UInt8 := [46, 46]

/-- `struct dirent`. -/
structure Dirent where
  inum : ℕ
  name : List UInt8
  deriving DecidableEq

namespace Dirent

/-- The entry some bytes hold. -/
def ofBytes (bytes : List UInt8) : Dirent :=
  ⟨(bytes.getD 0 0).toNat + 256 * (bytes.getD 1 0).toNat, bytes.drop 2⟩

/-- The bytes of an entry; the inode number is an `ushort`. -/
def toBytes (de : Dirent) : List UInt8 :=
  UInt8.ofNat (de.inum % 256) :: UInt8.ofNat (de.inum / 256 % 256) :: strncpy de.name DIRSIZ

/-- The entry `memset` leaves. -/
def empty : Dirent := ⟨0, []⟩

end Dirent

namespace State

variable (sb : Superblock) (dev : Devsw)

/-- Read the entry at `off`; a short read is the panic `e`. -/
def readDirent (s : State) (k : Fin NINODE) (off : ℕ) (e : Panic) :
    Except Panic (Dirent × State) := do
  let (data, s) ← s.readi sb dev k off DIRENT
  match data with
  | none => .error e
  | some bytes => if bytes.length ≠ DIRENT then .error e else return (Dirent.ofBytes bytes, s)

/-- The turns a loop over the entries of the directory in entry `k` may take. -/
def turns (s : State) (k : Fin NINODE) : ℕ := (s.icache k).copy.size.toNat / DIRENT + 1

/-- The loop of `dirlookup`. -/
def lookupLoop (name : List UInt8) (k : Fin NINODE) :
    ℕ → State → ℕ → Except Panic (Option (Fin NINODE × ℕ) × State)
  | 0, s, _ => return (none, s)
  | fuel + 1, s, off =>
    if off < (s.icache k).copy.size.toNat then do
      let (de, s) ← s.readDirent sb dev k off .dirlookupRead
      if de.inum = 0 then lookupLoop name k fuel s (off + DIRENT)
      else if namecmp name de.name = 0 then do
        let (next, s) ← s.iget de.inum
        return (some (next, off), s)
      else lookupLoop name k fuel s (off + DIRENT)
    else return (none, s)

/-- `dirlookup`, with the offset of the entry. -/
def dirlookup (s : State) (k : Fin NINODE) (name : List UInt8) :
    Except Panic (Option (Fin NINODE × ℕ) × State) :=
  if (s.icache k).copy.type ≠ T_DIR then .error .notDir
  else lookupLoop sb dev name k (s.turns k) s 0

/-- The loop of `dirlink`: the offset of an empty entry, or of the end. -/
def emptyLoop (k : Fin NINODE) : ℕ → State → ℕ → Except Panic (ℕ × State)
  | 0, s, off => return (off, s)
  | fuel + 1, s, off =>
    if off < (s.icache k).copy.size.toNat then do
      let (de, s) ← s.readDirent sb dev k off .dirlinkRead
      if de.inum = 0 then return (off, s) else emptyLoop k fuel s (off + DIRENT)
    else return (off, s)

/-- Write an entry; a failed write is the panic `e`. -/
def writeDirent (s : State) (k : Fin NINODE) (off : ℕ) (de : Dirent) (e : Panic) :
    Except Panic State := do
  let (count, s) ← s.writei sb dev k de.toBytes off
  if count ≠ some DIRENT then .error e else return s

/-- `dirlink`; the result says whether the entry was written. -/
def dirlink (s : State) (k : Fin NINODE) (name : List UInt8) (inum : ℕ) :
    Except Panic (Bool × State) := do
  let (found, s) ← s.dirlookup sb dev k name
  match found with
  | some (ip, _) =>
    let s ← s.iput sb ip
    return (false, s)
  | none =>
    let (off, s) ← emptyLoop sb dev k (s.turns k) s 0
    let s ← s.writeDirent sb dev k off ⟨inum, name⟩ .dirlink
    return (true, s)

/-- The loop of `isdirempty`. -/
def isdiremptyLoop (k : Fin NINODE) : ℕ → State → ℕ → Except Panic (Bool × State)
  | 0, s, _ => return (true, s)
  | fuel + 1, s, off =>
    if off < (s.icache k).copy.size.toNat then do
      let (de, s) ← s.readDirent sb dev k off .isdiremptyRead
      if de.inum ≠ 0 then return (false, s) else isdiremptyLoop k fuel s (off + DIRENT)
    else return (true, s)

def isdirempty (s : State) (k : Fin NINODE) : Except Panic (Bool × State) :=
  isdiremptyLoop sb dev k (s.turns k) s (2 * DIRENT)

end State

/-- The character "/". -/
def slash : UInt8 := 47

/-- `skipelem`: the next element of a path, and the rest. -/
def skipelem (path : List UInt8) : Option (List UInt8 × List UInt8) :=
  let path := path.dropWhile (· = slash)
  if path = [] then none
  else some ((path.takeWhile (· ≠ slash)).take DIRSIZ,
    (path.dropWhile (· ≠ slash)).dropWhile (· = slash))

theorem skipelem_cases (path : List UInt8) :
    (path.dropWhile (· = slash) = [] ∧ skipelem path = none) ∨
      ∃ c word, c ≠ slash ∧ path.dropWhile (· = slash) = c :: word ∧
        skipelem path = some ((c :: word.takeWhile (· ≠ slash)).take DIRSIZ,
          (word.dropWhile (· ≠ slash)).dropWhile (· = slash)) := by
  have hhead := List.head?_dropWhile_not (fun c => decide (c = slash)) path
  unfold skipelem
  cases hpath : path.dropWhile (· = slash) with
  | nil => exact .inl ⟨rfl, rfl⟩
  | cons c word =>
    rw [hpath] at hhead
    have hc : c ≠ slash := of_decide_eq_false hhead
    refine .inr ⟨c, word, hc, rfl, ?_⟩
    simp [hc]

/-- An element takes a character at least. -/
theorem length_lt_of_skipelem {path name rest : List UInt8}
    (h : skipelem path = some (name, rest)) : rest.length < path.length := by
  have hle := (List.dropWhile_sublist (· = slash) (l := path)).length_le
  obtain ⟨-, hnone⟩ | ⟨c, word, -, hpath, hsome⟩ := skipelem_cases path
  · cases hnone.symm.trans h
  · obtain ⟨-, rfl⟩ := Prod.mk.inj (Option.some.inj (hsome.symm.trans h))
    rw [hpath] at hle
    calc _ ≤ (word.dropWhile (· ≠ slash)).length := (List.dropWhile_sublist _).length_le
      _ ≤ word.length := (List.dropWhile_sublist _).length_le
      _ < path.length := hle

/-- What `skipelem` returns when it is called again and again until it returns the null pointer;
none if `fuel` calls are too few. -/
def elementsLoop : ℕ → List UInt8 → Option (List (List UInt8))
  | 0, _ => none
  | fuel + 1, path =>
    match skipelem path with
    | none => some []
    | some (name, rest) => (elementsLoop fuel rest).map (name :: ·)

theorem isSome_elementsLoop {fuel : ℕ} {path : List UInt8} (h : path.length < fuel) :
    (elementsLoop fuel path).isSome := by
  induction fuel generalizing path with
  | zero => exact absurd h (Nat.not_lt_zero _)
  | succ fuel ih =>
    unfold elementsLoop
    cases hnext : skipelem path with
    | none => rfl
    | some p =>
      have hlt := length_lt_of_skipelem hnext
      rw [Option.isSome_map]
      exact ih (by omega)

/-- The elements of a path. -/
def elements (path : List UInt8) : List (List UInt8) :=
  (elementsLoop (path.length + 1) path).get (isSome_elementsLoop (Nat.lt_succ_self _))

namespace State

variable (sb : Superblock) (dev : Devsw)

/-- The loop of `namex` over the remaining elements, with a reference to the inode in entry `k`.
With `parent` it stops at the last one and returns its name. -/
def namexLoop (parent : Bool) :
    List (List UInt8) → State → Fin NINODE → Except Panic (Option (Fin NINODE × List UInt8) × State)
  | [], s, k =>
    if parent then do
      let s ← s.iput sb k
      return (none, s)
    else return (some (k, []), s)
  | name :: rest, s, k => do
      let s ← s.ilock sb k
      if (s.icache k).copy.type ≠ T_DIR then do
        let s ← s.iunlockput sb k
        return (none, s)
      else if parent ∧ rest = [] then do
        let s ← s.iunlock k
        return (some (k, name), s)
      else do
        let (next, s) ← s.dirlookup sb dev k name
        let s ← s.iunlockput sb k
        match next with
        | none => return (none, s)
        | some (ip, _) => namexLoop parent rest s ip

/-- Where `namex` starts. -/
def namexStart (s : State) (cwd : Fin NINODE) (path : List UInt8) :
    Except Panic (Fin NINODE × State) :=
  if path.head? = some slash then s.iget ROOTINO else return (cwd, s.idup cwd)

def namex (s : State) (cwd : Fin NINODE) (path : List UInt8) (parent : Bool) :
    Except Panic (Option (Fin NINODE × List UInt8) × State) := do
  let (k, s) ← s.namexStart cwd path
  namexLoop sb dev parent (elements path) s k

def namei (s : State) (cwd : Fin NINODE) (path : List UInt8) :
    Except Panic (Option (Fin NINODE) × State) := do
  let (found, s) ← s.namex sb dev cwd path false
  return (found.map Prod.fst, s)

def nameiparent (s : State) (cwd : Fin NINODE) (path : List UInt8) :
    Except Panic (Option (Fin NINODE × List UInt8) × State) :=
  s.namex sb dev cwd path true

/-- The part of `create` for a directory: the link from "..", and the two entries. -/
def createDots (s : State) (type : UInt16) (ip dp : Fin NINODE) : Except Panic State :=
  if type = T_DIR then do
    let s ← s.modify sb dp fun d => { d with nlink := d.nlink + 1 }
    let (ok, s) ← s.dirlink sb dev ip dot (s.icache ip).inum
    if ok = false then .error .createDots
    else do
      let (ok, s) ← s.dirlink sb dev ip dotdot (s.icache dp).inum
      if ok = false then .error .createDots else return s
  else return s

/-- The part of `create` for a name that is not in the directory. -/
def createNew (s : State) (dp : Fin NINODE) (name : List UInt8) (type major minor : UInt16) :
    Except Panic (Fin NINODE × State) := do
  let (ip, s) ← s.ialloc sb type
  let s ← s.ilock sb ip
  let s ← s.modify sb ip fun d => { d with major := major, minor := minor, nlink := 1 }
  let s ← s.createDots sb dev type ip dp
  let (ok, s) ← s.dirlink sb dev dp name (s.icache ip).inum
  if ok = false then .error .createDirlink
  else do
    let s ← s.iunlockput sb dp
    return (ip, s)

/-- `create`: the inode, locked. -/
def create (s : State) (cwd : Fin NINODE) (path : List UInt8) (type major minor : UInt16) :
    Except Panic (Option (Fin NINODE) × State) := do
  let (parent, s) ← s.nameiparent sb dev cwd path
  match parent with
  | none => return (none, s)
  | some (dp, name) =>
    let s ← s.ilock sb dp
    let (found, s) ← s.dirlookup sb dev dp name
    match found with
    | some (ip, _) =>
      let s ← s.iunlockput sb dp
      let s ← s.ilock sb ip
      if type = T_FILE ∧ (s.icache ip).copy.type = T_FILE then return (some ip, s)
      else do
        let s ← s.iunlockput sb ip
        return (none, s)
    | none =>
      let (ip, s) ← s.createNew sb dev dp name type major minor
      return (some ip, s)

end State

end Xv6.Fs
