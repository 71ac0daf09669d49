/-
# Writers that share an open file

`filewrite` writes its buffer in pieces of at most 1536 bytes. Each piece has a transaction
of its own, and is written at the offset of the open file, which is read and advanced under
the lock of the inode. Here any number of processes write through one open file of a
regular file, while everybody else may call the inode layer in any way that does not write
this file.

The bytes end up in the file one piece after the other, in the order in which the pieces
were written.
-/

import Xv6.Fs.System

namespace Xv6.Fs

open Function Xv6.Lib

/-- The local variable `max` of `filewrite`. -/
def maxPiece : ℕ := (Log.MAXOPBLOCKS - 1 - 1 - 2) / 2 * 512

/-- The piece `filewrite` writes at `addr + i`, of the length `n1`. -/
def piece (buf : List UInt8) (i : ℕ) : List UInt8 := (buf.drop i).take maxPiece

/-- Where a process is in `filewrite`. -/
inductive Writer
  /-- Outside, with the value the last call has returned. -/
  | returned (r : ℤ)
  /-- Before the `begin_op` of the piece at `i`. -/
  | next (buf : List UInt8) (i : ℕ)
  /-- In the transaction, before `ilock`. -/
  | inOp (buf : List UInt8) (i : ℕ)
  /-- Before `end_op`, with the value of `writei`. -/
  | wrote (buf : List UInt8) (i : ℕ) (r : Option ℕ)
  deriving DecidableEq

/-- Whether the process is in a transaction. -/
def Writer.isInOp : Writer → Bool
  | .inOp _ _ | .wrote _ _ _ => true
  | .returned _ | .next _ _ => false

/-- The loop test of `filewrite`, and the value it returns. -/
def Writer.loop (buf : List UInt8) (i : ℕ) : Writer :=
  if i < buf.length then .next buf i
  else .returned (if i = buf.length then (buf.length : ℤ) else -1)

/-- The piece that is written next, at `off`, fits in a file of the largest size. -/
def Writer.Fits (off : ℕ) : Writer → Prop
  | .inOp buf i => off + (piece buf i).length ≤ MAXFILE * BSIZE
  | .returned _ | .next _ _ | .wrote _ _ _ => True

instance (off : ℕ) (w : Writer) : Decidable (w.Fits off) := by
  cases w <;> dsimp only [Writer.Fits] <;> infer_instance

/-- The inode layer, an open file of type `FD_INODE`, and `N` processes that have it open. -/
structure Shared (N : ℕ) where
  fs : State
  ip : Fin NINODE
  off : ℕ := 0
  readable : Bool := true
  writable : Bool := true
  writer : Fin N → Writer := fun _ => .returned 0

/-- The steps. A region between `ilock` and `iunlock` is one. -/
inductive ShareLabel (N : ℕ)
  | filewrite (p : Fin N) (buf : List UInt8)
  | beginOp (p : Fin N)
  | writePiece (p : Fin N)
  | endOp (p : Fin N)
  | fileread (p : Fin N) (n : ℕ)
  /-- Somebody else calls the inode layer. -/
  | other (c : Call)

/-- `if (r > 0) f->off += r;` -/
def advance (off : ℕ) (r : Option ℕ) : ℕ :=
  match r with
  | some n => if 0 < n then (off + n) % 2 ^ 32 else off
  | none => off

namespace Shared

variable {N : ℕ} (sb : Superblock) (dev : Devsw)

def setWriter (s : Shared N) (p : Fin N) (w : Writer) : Shared N :=
  { s with writer := update s.writer p w }

/-- The beginning of `filewrite`. -/
def filewrite (s : Shared N) (p : Fin N) (buf : List UInt8) : Shared N :=
  if s.writable = false then s.setWriter p (.returned (-1))
  else s.setWriter p (.loop buf 0)

/-- The region of `filewrite` between `ilock` and `iunlock`. -/
def writePiece (s : Shared N) (p : Fin N) (buf : List UInt8) (i : ℕ) :
    Except Panic (Shared N) := do
  let fs ← s.fs.ilock sb s.ip
  let (r, fs) ← fs.writei sb dev s.ip (piece buf i) s.off
  let fs ← fs.iunlock s.ip
  return { s with fs, off := advance s.off r }.setWriter p (.wrote buf i r)

/-- `end_op` and what follows in the loop of `filewrite`. No value stands for
panic("short filewrite"). -/
def endPiece (s : Shared N) (p : Fin N) (buf : List UInt8) (i : ℕ) (r : Option ℕ) :
    Option (Shared N) :=
  let s := { s with fs := s.fs.endOp }
  match r with
  | none => some (s.setWriter p (.returned (if i = buf.length then (buf.length : ℤ) else -1)))
  | some m => if m ≠ (piece buf i).length then none else some (s.setWriter p (.loop buf (i + m)))

/-- `fileread` of `n` bytes. -/
def fileread (s : Shared N) (n : ℕ) : Except Panic (Shared N) :=
  if s.readable = false then .ok s
  else do
    let fs ← s.fs.ilock sb s.ip
    let (r, fs) ← fs.readi sb dev s.ip s.off n
    let fs ← fs.iunlock s.ip
    return { s with fs, off := advance s.off (r.map List.length) }

/-- The calls of the others. They do not write the file, nor do they give up the reference
of the open file or end a transaction that is not theirs. -/
def Spared (s : Shared N) : Call → Prop
  | .endOp => Fintype.card { p // (s.writer p).isInOp = true } < s.fs.outstanding
  | .iput k => k = s.ip → 1 < (s.fs.icache k).ref
  | .ialloc type => type ≠ 0
  | .writei k _ _ => k ≠ s.ip
  | .beginOp | .iget _ | .idup _ | .ilock _ | .iunlock _ | .iupdate _ _ _ _ | .readi _ _ _ => True

instance (s : Shared N) (c : Call) : Decidable (s.Spared c) := by
  apply c.casesOn (motive := fun c => Decidable (s.Spared c)) <;> intros <;>
    dsimp only [Spared] <;> infer_instance

/-- What a label asks for. Lengths are of type `int`. -/
def Proper (s : Shared N) : ShareLabel N → Prop
  | .filewrite _ buf => buf.length < 2 ^ 31
  | .fileread _ n => n < 2 ^ 31
  | .other c => c.Proper sb s.fs ∧ s.Spared c
  | .beginOp _ | .writePiece _ | .endOp _ => True

instance (s : Shared N) (l : ShareLabel N) : Decidable (s.Proper sb l) := by
  cases l <;> dsimp only [Proper] <;> infer_instance

/-- A step, if the process is there and it does not panic or wait. -/
def step (s : Shared N) : ShareLabel N → Option (Shared N)
  | .filewrite p buf =>
    match s.writer p with
    | .returned _ => some (s.filewrite p buf)
    | _ => none
  | .beginOp p =>
    match s.writer p with
    | .next buf i => s.fs.beginOp.toOption.map fun fs => { s with fs }.setWriter p (.inOp buf i)
    | _ => none
  | .writePiece p =>
    match s.writer p with
    | .inOp buf i => (s.writePiece sb dev p buf i).toOption
    | _ => none
  | .endOp p =>
    match s.writer p with
    | .wrote buf i r => s.endPiece p buf i r
    | _ => none
  | .fileread p n =>
    match s.writer p with
    | .returned _ => (s.fileread sb dev n).toOption
    | _ => none
  | .other c => (c.perform sb dev s.fs).toOption.map fun fs => { s with fs }

/-- The contents of the file. -/
def contents (s : Shared N) : List UInt8 :=
  content s.fs.disk (sb.dinode s.fs.disk (s.fs.icache s.ip).inum)

/-- The file has just been opened for writing. -/
structure Opened (s : Shared N) : Prop where
  wf : WellFormed sb s.fs
  ref_pos : 0 < (s.fs.icache s.ip).ref
  regular : (sb.dinode s.fs.disk (s.fs.icache s.ip).inum).type = T_FILE
  off_eq : s.off = 0
  writable : s.writable = true
  writer_eq : ∀ p, s.writer p = .returned 0

/-- No piece is written beyond the largest size of a file. -/
def Fits (s : Shared N) : ShareLabel N → Prop
  | .writePiece p => (s.writer p).Fits s.off
  | .filewrite _ _ | .beginOp _ | .endOp _ | .fileread _ _ | .other _ => True

instance (s : Shared N) (l : ShareLabel N) : Decidable (s.Fits l) := by
  cases l <;> dsimp only [Fits] <;> infer_instance

end Shared

/-- Processes that read and write through one open file, without reaching the largest size
of a file. -/
def sharers (sb : Superblock) (dev : Devsw) (N : ℕ) : Machine (Shared N) (ShareLabel N) where
  Init := Shared.Opened sb
  Enabled s l := s.Proper sb l ∧ s.Fits l ∧ (s.step sb dev l).isSome = true
  next s l := (s.step sb dev l).getD s

instance (sb : Superblock) (dev : Devsw) (N : ℕ) (s : Shared N) (l : ShareLabel N) :
    Decidable ((sharers sb dev N).Enabled s l) := inferInstanceAs (Decidable (_ ∧ _ ∧ _))

/-- Nobody reads through the open file. -/
def OnlyWrites {N : ℕ} (_ : Shared N) : ShareLabel N → Prop
  | .fileread _ _ => False
  | .filewrite _ _ | .beginOp _ | .writePiece _ | .endOp _ | .other _ => True

instance {N : ℕ} (s : Shared N) (l : ShareLabel N) : Decidable (OnlyWrites s l) := by
  cases l <;> dsimp only [OnlyWrites] <;> infer_instance

variable {E : Panic → Prop} {sb : Superblock} {dev : Devsw} {s s' : State} {k l : Fin NINODE}
  {N : ℕ}

/-- The type and the contents of a node. -/
def Node.file (nd : Node) : UInt16 × List UInt8 := (nd.type, nd.data)

/-- The inode in entry `k` is the same file as before. -/
structure SameContents (sb : Superblock) (s : State) (k : Fin NINODE) (s' : State) : Prop where
  wf : WellFormed sb s'
  ref_pos : 0 < (s'.icache k).ref
  inum_eq : (s'.icache k).inum = (s.icache k).inum
  file_eq : (sb.node s'.disk (s.icache k).inum).map Node.file =
    (sb.node s.disk (s.icache k).inum).map Node.file

/-- An entry of the cache has changed, and the disk has not. -/
theorem SameContents.of_setInode {ip : Inode} (hwf : WellFormed sb (s.setInode l ip))
    (href : 0 < (s.icache k).ref)
    (hip : l = k → 0 < ip.ref ∧ ip.inum = (s.icache k).inum) :
    SameContents sb s k (s.setInode l ip) := by
  by_cases h : k = l
  · obtain ⟨hpos, hinum⟩ := hip h.symm
    refine ⟨hwf, ?_, ?_, rfl⟩
    · rw [h, icache_setInode_self]
      exact hpos
    · rw [h, icache_setInode_self, hinum, h]
  · refine ⟨hwf, ?_, ?_, rfl⟩
    · rw [icache_setInode_of_ne _ h]
      exact href
    · rw [icache_setInode_of_ne _ h]

/-- Another entry and its node have changed. -/
theorem SameContents.of_update {i : ℕ} {x : Option Node} (hwf : WellFormed sb s')
    (href : 0 < (s.icache k).ref) (hentry : s'.icache k = s.icache k)
    (hnode : sb.node s'.disk = update (sb.node s.disk) i x)
    (hi : (s.icache k).inum ≠ i) : SameContents sb s k s' := by
  refine ⟨hwf, ?_, ?_, ?_⟩
  · rw [hentry]
    exact href
  · rw [hentry]
  · rw [hnode, update_of_ne hi]

theorem SameContents.iget {i : ℕ} (h : WellFormed sb s) (href : 0 < (s.icache k).ref)
    (hi : i < sb.ninodes) (hgot : Got i s l s') : SameContents sb s k s' := by
  have hwf := h.got hgot hi
  grind [hgot.eq, SameContents.of_setInode, hgot.inum_eq]

theorem SameContents.iput (h : WellFormed sb s) (href : 0 < (s.icache k).ref)
    (hkeeps : l = k → 1 < (s.icache l).ref) (hput : Put sb s l s') :
    SameContents sb s k s' := by
  by_cases hlk : l = k
  · subst hlk
    have hmore := hkeeps rfl
    have hstays : ¬ Frees s l := fun hf => absurd hf.2.2 (by omega)
    have hwf := hput.wf
    rw [hput.kept hstays] at hwf ⊢
    exact .of_setInode hwf href fun _ => ⟨by dsimp only; omega, rfl⟩
  · have hentry := hput.others k (Ne.symm hlk)
    by_cases hfrees : Frees s l
    · have hnode := hput.node_eq
      rw [if_pos hfrees] at hnode
      have hpos : 0 < (s.icache l).ref := by
        rw [hfrees.2.2]
        exact Nat.one_pos
      exact .of_update hput.wf href hentry hnode (h.ne_of_inum hpos href (Ne.symm hlk))
    · have hwf := hput.wf
      rw [hput.kept hfrees] at hwf ⊢
      exact .of_setInode hwf href fun heq => absurd heq hlk

theorem SameContents.ialloc {type : UInt16} {i : ℕ} (href : 0 < (s.icache k).ref)
    (hnode : sb.node s.disk (s.icache k).inum ≠ none) (htype : type ≠ 0)
    (ha : Allocated sb s type i l s') : SameContents sb s k s' := by
  have hi : (s.icache k).inum ≠ i := by
    intro heq
    rw [heq] at hnode
    exact hnode ha.was_free
  obtain ⟨s₁, hicache, hgot⟩ := ha.got
  have hkl : k ≠ l := by
    rintro rfl
    have hinum := hgot.inum_eq
    rw [hicache] at hinum
    exact hi (hinum href)
  apply SameContents.of_update ha.wf href _ (ha.node_eq htype) hi
  rw [hgot.eq, icache_setInode_of_ne _ hkl, hicache]

section

variable (h : WellFormed sb s) (href : 0 < (s.icache k).ref)

include h href

theorem SameContents.modify {e : Dinode} (hlocked : s.Locked l)
    (hf : SameFile (s.icache l).copy e) (hm : Modified sb s l e s') : SameContents sb s k s' := by
  by_cases hlk : l = k
  · subst hlk
    refine ⟨hm.wf, ?_, ?_, ?_⟩
    · rw [hm.icache_eq, update_self]
      exact href
    · rw [hm.icache_eq, update_self]
    · rw [hm.node_eq, update_self, h.node_eq href hlocked.2.2, Option.map_some,
        Option.map_some, Node.file, Node.file, Dinode.toNode, Dinode.toNode,
        (content_of_addrs hf.2.1 hf.2.2).1, hf.1]
  · apply SameContents.of_update hm.wf href _ hm.node_eq
      (h.ne_of_inum hlocked.1 href (Ne.symm hlk))
    rw [hm.icache_eq, update_of_ne (Ne.symm hlk)]

theorem SameContents.writei {src : List UInt8} {off : ℕ} (hlocked : s.Locked l) (hlk : l ≠ k)
    (hw : Written sb s l src off s') : SameContents sb s k s' :=
  .of_update hw.wf href (hw.others k (Ne.symm hlk)) (hw.node_eq hlocked.1 hlocked.2.2)
    (h.ne_of_inum hlocked.1 href (Ne.symm hlk))

theorem SameContents.refl : SameContents sb s k s := ⟨h, href, rfl, rfl⟩

end

/-- A call that spares the file leaves it as it is. -/
theorem Call.perform_sameContents {x : Shared N} {c : Call} (h : WellFormed sb x.fs)
    (href : 0 < (x.fs.icache x.ip).ref)
    (hnode : sb.node x.fs.disk (x.fs.icache x.ip).inum ≠ none) (hproper : c.Proper sb x.fs)
    (hspared : x.Spared c) :
    Ends (fun _ => True) (c.perform sb dev x.fs) (SameContents sb x.fs x.ip) := by
  have hE : Lax fun _ => True := fun _ _ _ _ _ => trivial
  have hself := SameContents.refl h href
  cases c with
  | beginOp =>
    apply (State.beginOp_ends trivial).mono
    intro s' hs'
    rw [hs']
    exact ⟨h.congr rfl rfl h.lh_nodup, href, rfl, rfl⟩
  | endOp => exact .ok ⟨h.endOp, href, rfl, rfl⟩
  | iget i =>
    apply ends_map_snd
    exact (State.iget_ends (.inl trivial)).mono fun r hr => .iget h href hproper hr
  | idup l =>
    apply Ends.ok
    apply SameContents.of_setInode (h.idup hproper) href
    rintro rfl
    exact ⟨Nat.succ_pos _, rfl⟩
  | ilock l =>
    apply (State.ilock_ends h hE (.inl trivial) (.inl trivial)).mono
    rintro s' ⟨hlocks, hwf⟩
    grind [hlocks.eq, SameContents.of_setInode]
  | iunlock l =>
    apply (State.iunlock_ends trivial).mono
    intro s' hs'
    have hwf := h.unlocks hs'
    grind [hs'.eq, SameContents.of_setInode]
  | iput l =>
    exact (State.iput_ends h hE hproper (.inl trivial)).mono fun s' hs' =>
      .iput h href hspared hs'
  | ialloc type =>
    apply ends_map_snd
    apply (State.ialloc_ends h hE).mono
    rintro r ⟨i, hi⟩
    exact .ialloc href hnode hspared hi
  | iupdate l major minor nlink =>
    have hf : SameFile (x.fs.icache l).copy { (x.fs.icache l).copy with
        major := major, minor := minor, nlink := nlink } := ⟨rfl, rfl, rfl⟩
    exact (State.modify_ends (f := fun d => { d with
      major := major, minor := minor, nlink := nlink }) h hE hproper.1 hproper.2.2 hf).mono
        fun s' hs' => .modify h href hproper hf hs'
  | readi l off n =>
    apply ends_map_snd
    apply (State.readi_ends h hproper.1 hproper.2.2).mono
    intro r hr
    rw [hr]
    exact hself
  | writei l src off =>
    apply ends_map_snd
    apply (State.writei_spec h hE hproper.1 hproper.2.2).mono
    rintro r (heq | ⟨-, hw⟩)
    · rw [heq]
      exact hself
    · exact .writei h href hproper.1 hspared hw

end Xv6.Fs
