/-
# Who holds the references

A reference to an entry of the inode cache is held by a process as its current directory,
or by an open file. Between system calls the count of every entry is exactly the number of
its holders: each call, on each of its ways out, has put back the references it took, but
for those it hands to a holder.
-/

import Xv6.Lib.RefCount
import Xv6.Fs.Refs
import Xv6.Fs.Sysfile

namespace Xv6.Fs

open Xv6.Lib Xv6.Ptable

variable {sb : Superblock} {dev : Devsw} {fs fs' fs'' : State} {k ip dp cwd : Fin NINODE}
  {δ δ' : Fin NINODE → ℤ}

/-- What a call that returns an entry adds. -/
def gainOf : Option (Fin NINODE) → Fin NINODE → ℤ
  | none => 0
  | some k => single k

theorem gain_eq {α : Type} (found : Option (Fin NINODE × α)) :
    gain found = gainOf (found.map Prod.fst) := by
  cases found <;> rfl

namespace State

theorem namei_moves (path : List UInt8) (hcwd : 0 < (fs.icache cwd).ref) :
    Yields (fs.namei sb dev cwd path) fun r => Moves (gainOf r.1) fs r.2 := by
  unfold namei
  refine .bind (namex_moves path false hcwd) fun r hr => .pure ?_
  exact hr.congr (gain_eq r.1)

theorem createDots_moves (type : UInt16) :
    Yields (fs.createDots sb dev type ip dp) (Moves 0 fs) := by
  unfold createDots
  refine .ite (fun _ => ?_) fun _ => .pure (.refl fs)
  refine .bind (modify_moves _) fun s₁ h₁ => ?_
  refine .bind (dirlink_moves _ _) fun r₂ h₂ => ?_
  refine .ite (fun _ => .error trivial) fun _ => ?_
  refine .bind (dirlink_moves _ _) fun r₃ h₃ => ?_
  exact .ite (fun _ => .error trivial) fun _ => .pure ((h₁.after h₂).after h₃)

theorem createNew_moves (name : List UInt8) (type major minor : UInt16) :
    Yields (fs.createNew sb dev dp name type major minor) fun r =>
      Moves (single r.1 - single dp) fs r.2 := by
  unfold createNew
  refine .bind (ialloc_moves type) fun r₁ h₁ => ?_
  refine .bind ilock_moves fun s₂ h₂ => ?_
  refine .bind (modify_moves _) fun s₃ h₃ => ?_
  refine .bind (createDots_moves type) fun s₄ h₄ => ?_
  refine .bind (dirlink_moves _ _) fun r₅ h₅ => ?_
  refine .ite (fun _ => .error trivial) fun _ => ?_
  refine .bind iunlockput_moves fun s₆ h₆ => .pure ?_
  have h₁₅ := (((h₁.before h₂).before h₃).before h₄).before h₅
  exact (h₁₅.trans h₆).congr (sub_eq_add_neg _ _).symm

theorem create_moves (path : List UInt8) (type major minor : UInt16)
    (hcwd : 0 < (fs.icache cwd).ref) :
    Yields (fs.create sb dev cwd path type major minor) fun r => Moves (gainOf r.1) fs r.2 := by
  unfold create
  refine .bind (namex_moves path true hcwd) fun r₁ h₁ => ?_
  obtain ⟨parent, s₁⟩ := r₁
  cases parent with
  | none => exact .pure h₁
  | some parent =>
    have hdp : Moves (single parent.1) fs s₁ := h₁
    refine .bind ilock_moves fun s₂ h₂ => ?_
    refine .bind (dirlookup_moves _) fun r₃ h₃ => ?_
    obtain ⟨found, s₃⟩ := r₃
    have h₁₃ := (hdp.before h₂).trans h₃
    cases found with
    | none =>
      refine .bind (createNew_moves _ _ _ _) fun r₄ h₄ => .pure ?_
      refine (h₁₃.trans h₄).congr ?_
      change single parent.1 + 0 + (single r₄.1 - single parent.1) = single r₄.1
      abel
    | some found =>
      refine .bind iunlockput_moves fun s₄ h₄ => ?_
      refine .bind ilock_moves fun s₅ h₅ => ?_
      have h₁₅ : Moves (single found.1) fs s₅ := by
        refine ((h₁₃.trans h₄).before h₅).congr ?_
        change single parent.1 + single found.1 + -single parent.1 = single found.1
        abel
      refine .ite (fun _ => .pure h₁₅) fun _ => ?_
      exact .bind iunlockput_moves fun s₆ h₆ => .pure ((h₁₅.trans h₆).congr (add_neg_cancel _))

end State

/-- A transaction is open since `fs`, and `fs'` is the state after its end. -/
def Closes (δ : Fin NINODE → ℤ) (fs fs' : State) : Prop := ∃ fs₁, Moves δ fs fs₁ ∧ fs' = fs₁.endOp

theorem Moves.closes (h : Moves δ fs fs') : Closes δ fs fs'.endOp := ⟨fs', h, rfl⟩

theorem Closes.after (h : Moves δ fs fs') (h' : Closes δ' fs' fs'') : Closes (δ + δ') fs fs'' := by
  obtain ⟨fs₁, hmoves, rfl⟩ := h'
  exact (h.trans hmoves).closes

theorem Closes.congr (h : Closes δ fs fs') (hδ : δ = δ') : Closes δ' fs fs' := hδ ▸ h

/-- A whole transaction. -/
theorem Closes.moves (h : Closes δ { fs with outstanding := fs.outstanding + 1 } fs') :
    Moves δ fs fs' := by
  obtain ⟨fs₁, hmoves, rfl⟩ := h
  refine ⟨hmoves.ref_eq, hmoves.one, ?_⟩
  unfold State.endOp
  dsimp only
  rw [hmoves.outstanding_eq]
  rfl

theorem State.beginOp_yields : Yields fs.beginOp fun fs' =>
    fs' = { fs with outstanding := fs.outstanding + 1 } := by
  unfold State.beginOp
  exact .ite (fun _ => .error trivial) fun _ => .ok rfl

/-- The rule for a system call that is one transaction. -/
theorem yields_transaction {x : State → Except Panic State}
    (h : Yields (x { fs with outstanding := fs.outstanding + 1 })
      (Closes δ { fs with outstanding := fs.outstanding + 1 })) :
    Yields (fs.beginOp >>= x) (Moves δ fs) := by
  refine .bind State.beginOp_yields fun fs₁ h₁ => ?_
  subst h₁
  exact h.mono fun fs₂ h₂ => h₂.moves

namespace Sys

theorem linkBad_closes : Yields (linkBad sb fs ip) (Closes (-single ip) fs) := by
  unfold linkBad
  refine .bind State.ilock_moves fun s₁ h₁ => ?_
  refine .bind (State.modify_moves _) fun s₂ h₂ => ?_
  exact .bind State.iunlockput_moves fun s₃ h₃ => .pure ((h₁.after h₂).after h₃).closes

theorem linkTo_closes (path : List UInt8) (hip : 0 < (fs.icache ip).ref)
    (hcwd : 0 < (fs.icache cwd).ref) :
    Yields (linkTo sb dev fs cwd ip path) (Closes (-single ip) fs) := by
  unfold linkTo
  refine .bind (State.namex_moves path true hcwd) fun r₁ h₁ => ?_
  obtain ⟨parent, s₁⟩ := r₁
  cases parent with
  | none => exact linkBad_closes.mono fun fs' h => (Closes.after h₁ h).congr (zero_add _)
  | some parent =>
    have hdp : Moves (single parent.1) fs s₁ := h₁
    refine .bind State.ilock_moves fun s₂ h₂ => ?_
    refine .bind (State.dirlink_moves _ _) fun r₃ h₃ => ?_
    refine .bind State.iunlockput_moves fun s₄ h₄ => ?_
    have h₁₄ : Moves 0 fs s₄ :=
      (((hdp.before h₂).before h₃).trans h₄).congr (add_neg_cancel _)
    refine .ite (fun _ => ?_) fun _ => ?_
    · exact linkBad_closes.mono fun fs' h => (Closes.after h₁₄ h).congr (zero_add _)
    · exact .bind (State.iput_moves (h₁₄.pos hip)) fun s₅ h₅ => .pure (h₁₄.after h₅).closes

theorem linkFs_moves (old new : List UInt8) (hcwd : 0 < (fs.icache cwd).ref) :
    Yields (linkFs sb dev fs cwd old new) (Moves 0 fs) := by
  refine yields_transaction ?_
  refine .bind (State.namei_moves old hcwd) fun r₁ h₁ => ?_
  obtain ⟨found, s₁⟩ := r₁
  cases found with
  | none => exact .pure (Moves.closes h₁)
  | some ip =>
    have hgain : Moves (single ip) _ s₁ := h₁
    refine .bind State.ilock_moves fun s₂ h₂ => ?_
    refine .ite (fun _ => ?_) fun _ => ?_
    · refine .bind State.iunlockput_moves fun s₃ h₃ => .pure (Moves.closes ?_)
      exact ((hgain.before h₂).trans h₃).congr (add_neg_cancel _)
    · refine .bind (State.modify_moves _) fun s₃ h₃ => ?_
      refine .bind State.iunlock_moves fun s₄ h₄ => ?_
      have h₁₄ := ((hgain.before h₂).before h₃).before h₄.1
      have hcwd₄ := h₁₄.pos_of_nonneg (single_nonneg ip cwd) hcwd
      exact (linkTo_closes new h₁₄.pos_single hcwd₄).mono fun fs' h =>
        (Closes.after h₁₄ h).congr (add_neg_cancel _)

theorem unlinkBad_closes : Yields (unlinkBad sb fs dp) (Closes (-single dp) fs) := by
  unfold unlinkBad
  exact .bind State.iunlockput_moves fun s₁ h₁ => .pure h₁.closes

theorem unlinkDots_moves : Yields (unlinkDots sb fs dp ip) (Moves 0 fs) := by
  unfold unlinkDots
  exact .ite (fun _ => State.modify_moves _) fun _ => .pure (.refl fs)

theorem unlinkEntry_closes (off : ℕ) :
    Yields (unlinkEntry sb dev fs dp ip off) (Closes (-single dp - single ip) fs) := by
  unfold unlinkEntry
  refine .bind (State.writeDirent_moves _ _ _) fun s₁ h₁ => ?_
  refine .bind unlinkDots_moves fun s₂ h₂ => ?_
  refine .bind State.iunlockput_moves fun s₃ h₃ => ?_
  refine .bind (State.modify_moves _) fun s₄ h₄ => ?_
  refine .bind State.iunlockput_moves fun s₅ h₅ => .pure (Moves.closes ?_)
  exact ((((h₁.after h₂).after h₃).before h₄).trans h₅).congr (sub_eq_add_neg _ _).symm

theorem unlinkable_moves : Yields (unlinkable sb dev fs ip) fun r => Moves 0 fs r.2 := by
  unfold unlinkable
  refine .ite (fun _ => ?_) fun _ => .pure (.refl fs)
  exact State.isdiremptyLoop_moves _ _

theorem unlinkFs_moves (path : List UInt8) (hcwd : 0 < (fs.icache cwd).ref) :
    Yields (unlinkFs sb dev fs cwd path) (Moves 0 fs) := by
  refine yields_transaction ?_
  refine .bind (State.namex_moves path true hcwd) fun r₁ h₁ => ?_
  obtain ⟨parent, s₁⟩ := r₁
  cases parent with
  | none => exact .pure (Moves.closes h₁)
  | some parent =>
    have hdp : Moves (single parent.1) _ s₁ := h₁
    refine .bind State.ilock_moves fun s₂ h₂ => ?_
    refine .ite (fun _ => ?_) fun _ => ?_
    · exact unlinkBad_closes.mono fun fs' h =>
        (Closes.after (hdp.before h₂) h).congr (add_neg_cancel _)
    refine .bind (State.dirlookup_moves _) fun r₃ h₃ => ?_
    obtain ⟨found, s₃⟩ := r₃
    cases found with
    | none =>
      exact unlinkBad_closes.mono fun fs' h =>
        (Closes.after ((hdp.before h₂).before h₃) h).congr (add_neg_cancel _)
    | some found =>
      have hip : Moves (single found.1) s₂ s₃ := h₃
      refine .bind State.ilock_moves fun s₄ h₄ => ?_
      refine .ite (fun _ => .error trivial) fun _ => ?_
      refine .bind unlinkable_moves fun r₅ h₅ => ?_
      have h₁₅ := (((hdp.before h₂).trans hip).before h₄).before h₅
      refine .ite (fun _ => ?_) fun _ => ?_
      · refine .bind State.iunlockput_moves fun s₆ h₆ => ?_
        refine unlinkBad_closes.mono fun fs' h =>
          (Closes.after (h₁₅.trans h₆) h).congr ?_
        abel
      · refine (unlinkEntry_closes _).mono fun fs' h => (Closes.after h₁₅ h).congr ?_
        abel

theorem makeFs_moves (path : Arg) (type major minor : UInt16) (hcwd : 0 < (fs.icache cwd).ref) :
    Yields (makeFs sb dev fs cwd path type major minor) (Moves 0 fs) := by
  refine yields_transaction ?_
  cases path with
  | none => exact .pure (Moves.refl _).closes
  | some path =>
    refine .bind (State.create_moves path type major minor hcwd) fun r₁ h₁ => ?_
    obtain ⟨found, s₁⟩ := r₁
    cases found with
    | none => exact .pure (Moves.closes h₁)
    | some ip =>
      refine .bind State.iunlockput_moves fun s₂ h₂ => .pure (Moves.closes ?_)
      exact (Moves.trans h₁ h₂).congr (add_neg_cancel _)

theorem readAll_moves (reads : List (UInt32 × UInt32)) :
    Yields (readAll sb dev k reads fs) (Moves 0 fs) := by
  induction reads generalizing fs with
  | nil => exact .pure (.refl fs)
  | cons read rest ih =>
    rw [readAll]
    exact .bind (State.readi_moves _ _) fun r₁ h₁ => ih.mono fun s₂ h₂ => h₁.after h₂

theorem execFs_moves (path : List UInt8) (reads : List (UInt32 × UInt32))
    (hcwd : 0 < (fs.icache cwd).ref) :
    Yields (execFs sb dev fs cwd path reads) (Moves 0 fs) := by
  refine yields_transaction ?_
  refine .bind (State.namei_moves path hcwd) fun r₁ h₁ => ?_
  obtain ⟨found, s₁⟩ := r₁
  cases found with
  | none => exact .pure (Moves.closes h₁)
  | some ip =>
    have hgain : Moves (single ip) _ s₁ := h₁
    refine .bind State.ilock_moves fun s₂ h₂ => ?_
    refine .bind (readAll_moves reads) fun s₃ h₃ => ?_
    refine .bind State.iunlockput_moves fun s₄ h₄ => .pure (Moves.closes ?_)
    exact (((hgain.before h₂).before h₃).trans h₄).congr (add_neg_cancel _)

/-- The inode `open` opens. -/
theorem openInode_moves (path : List UInt8) (create rdonly : Bool)
    (hcwd : 0 < (fs.icache cwd).ref) :
    Yields (openInode sb dev fs cwd path create rdonly) fun r => Moves (gainOf r.1) fs r.2 := by
  unfold openInode
  refine .ite (fun _ => State.create_moves _ _ _ _ hcwd) fun _ => ?_
  refine .bind (State.namei_moves path hcwd) fun r₁ h₁ => ?_
  obtain ⟨found, s₁⟩ := r₁
  cases found with
  | none => exact .pure h₁
  | some ip =>
    have hgain : Moves (single ip) fs s₁ := h₁
    refine .bind State.ilock_moves fun s₂ h₂ => ?_
    refine .ite (fun _ => ?_) fun _ => .pure (hgain.before h₂)
    refine .bind State.iunlockput_moves fun s₃ h₃ => .pure ?_
    exact ((hgain.before h₂).trans h₃).congr (add_neg_cancel _)

end Sys

/-! ## The holders -/

/-- The reference an open file holds. -/
def File.gain (f : File) : Fin NINODE → ℤ := if 0 < f.ref then gainOf f.ip else 0

/-- The references processes and open files hold. -/
def Sys.held (s : Sys) : Fin NINODE → ℤ :=
  ∑ p, gainOf (s.cwd p) + ∑ f, (s.ftable f).gain

/-- The counts are exact but for the references `δ` the running call has, no inode has two
entries, and a file that is not in use holds nothing. -/
structure Exact (δ : Fin NINODE → ℤ) (s : Sys) : Prop where
  count : ∀ k, ((s.fs.icache k).ref : ℤ) = s.held k + δ k
  one : OneEntry s.fs
  clean : ∀ f, (s.ftable f).ref = 0 → (s.ftable f).ip = none

theorem gainOf_apply (k : Fin NINODE) (o : Option (Fin NINODE)) :
    gainOf o k = if o = some k then 1 else 0 := by
  cases o with
  | none => rfl
  | some l =>
    rw [gainOf, single_apply]
    grind

namespace Sys

variable {s s' : Sys} {p : Slot} {f : Fin NFILE} {file : File}

theorem held_setFile : (s.setFile f file).held = s.held - (s.ftable f).gain + file.gain := by
  unfold held setFile
  dsimp only
  rw [sum_update]
  abel

theorem held_setCwd (o : Option (Fin NINODE)) :
    (s.setCwd p o).held = s.held - gainOf (s.cwd p) + gainOf o := by
  unfold held setCwd
  dsimp only
  rw [sum_update]
  abel

theorem held_withFs : (s.withFs fs).held = s.held := rfl

end Sys

theorem gainOf_nonneg (o : Option (Fin NINODE)) (k : Fin NINODE) : 0 ≤ gainOf o k := by
  cases o with
  | none => exact le_refl _
  | some l => exact single_nonneg l k

theorem File.gain_nonneg (f : File) (k : Fin NINODE) : 0 ≤ f.gain k := by
  unfold File.gain
  split
  · exact gainOf_nonneg _ _
  · exact le_refl _

namespace Exact

variable {s s' : Sys} {p : Slot} {f : Fin NFILE} {file : File}

/-- The references, their holders and the running call have changed alike. -/
theorem moves {ε : Fin NINODE → ℤ} (h : Exact δ s) (hmoves : Moves δ' s.fs s'.fs)
    (hheld : s'.held + ε = s.held + δ + δ')
    (hclean : ∀ f, (s'.ftable f).ref = 0 → (s'.ftable f).ip = none) : Exact ε s' := by
  refine ⟨fun k => ?_, hmoves.one h.one, hclean⟩
  have hk := congrFun hheld k
  rw [Pi.add_apply, Pi.add_apply, Pi.add_apply] at hk
  rw [hmoves.ref_eq, h.count, hk]

/-- Only the inode layer and the running call have moved. -/
theorem withFs (h : Exact δ s) (hmoves : Moves δ' s.fs fs) : Exact (δ + δ') (s.withFs fs) :=
  h.moves hmoves (add_assoc _ _ _).symm h.clean

/-- A call with one transaction. -/
theorem transaction (h : Exact 0 s)
    (hmoves : Moves δ { s.fs with outstanding := s.fs.outstanding + 1 } fs) :
    Exact δ (s.withFs fs.endOp) :=
  h.moves (Closes.moves hmoves.closes) (congrArg (· + δ) (add_zero _).symm) h.clean

theorem held_cwd_le (s : Sys) (p : Slot) (k : Fin NINODE) : gainOf (s.cwd p) k ≤ s.held k := by
  unfold Sys.held
  rw [Pi.add_apply, Finset.sum_apply, Finset.sum_apply]
  have hcwds := Finset.single_le_sum (f := fun q => gainOf (s.cwd q) k)
    (fun q _ => gainOf_nonneg _ _) (Finset.mem_univ p)
  have hfiles : (0 : ℤ) ≤ ∑ f, (s.ftable f).gain k :=
    Finset.sum_nonneg fun f _ => (s.ftable f).gain_nonneg k
  omega

theorem held_file_le (s : Sys) (f : Fin NFILE) (k : Fin NINODE) :
    (s.ftable f).gain k ≤ s.held k := by
  unfold Sys.held
  rw [Pi.add_apply, Finset.sum_apply, Finset.sum_apply]
  have hfiles := Finset.single_le_sum (f := fun g => (s.ftable g).gain k)
    (fun g _ => (s.ftable g).gain_nonneg k) (Finset.mem_univ f)
  have hcwds : (0 : ℤ) ≤ ∑ q, gainOf (s.cwd q) k := Finset.sum_nonneg fun q _ => gainOf_nonneg _ _
  omega

/-- A held reference is counted. -/
theorem pos (h : Exact δ s) (hδ : 0 ≤ δ k) (hcwd : s.cwd p = some k) :
    0 < (s.fs.icache k).ref := by
  have hle := held_cwd_le s p k
  rw [hcwd, gainOf_apply, if_pos rfl] at hle
  have := h.count k
  omega

theorem pos_file (h : Exact δ s) (hδ : 0 ≤ δ k) (hgain : (s.ftable f).gain = single k) :
    0 < (s.fs.icache k).ref := by
  have hle := held_file_le s f k
  rw [hgain, single_apply, if_pos rfl] at hle
  have := h.count k
  omega

/-- What a change of one file owes. -/
theorem clean_setFile (h : Exact δ s) (hnew : file.ref = 0 → file.ip = none) (g : Fin NFILE)
    (hg : ((s.setFile f file).ftable g).ref = 0) : ((s.setFile f file).ftable g).ip = none := by
  unfold Sys.setFile at hg ⊢
  grind [h.clean]

/-- A file that has no inode, before and after. -/
theorem setFile_bare (h : Exact δ s) (hold : (s.ftable f).ip = none) (hnew : file.ip = none) :
    Exact δ (s.setFile f file) := by
  have hgain : ∀ g : File, g.ip = none → g.gain = 0 := by
    intro g hg
    unfold File.gain
    rw [hg]
    exact ite_self 0
  refine h.moves (Moves.refl _) ?_ (h.clean_setFile fun _ => hnew)
  rw [Sys.held_setFile, hgain _ hold, hgain _ hnew, sub_zero]
  abel

/-- A file in use that stays in use, with the same inode. -/
theorem setFile_ref (h : Exact δ s) {n : ℕ} (hold : 0 < (s.ftable f).ref) (hn : 0 < n) :
    Exact δ (s.setFile f { s.ftable f with ref := n }) := by
  refine h.moves (Moves.refl _) ?_ (h.clean_setFile fun hz => absurd hz hn.ne')
  rw [Sys.held_setFile]
  unfold File.gain
  rw [if_pos hold, if_pos hn]
  abel

theorem setFd (h : Exact δ s) (fd : Fin NOFILE) (o : Option (Fin NFILE)) :
    Exact δ (s.setFd p fd o) :=
  ⟨h.count, h.one, h.clean⟩

end Exact

namespace Sys

variable {s : Sys} {p np : Slot} {f : Fin NFILE} {fd : Fin NOFILE}

theorem putInode_moves (hk : 0 < (s.fs.icache k).ref) :
    Yields (s.putInode sb k) fun s' => ∃ fs, s' = s.withFs fs ∧ Moves (-single k) s.fs fs := by
  unfold putInode
  refine .bind State.beginOp_yields fun fs₁ h₁ => ?_
  subst h₁
  exact .bind (State.iput_moves hk) fun fs₂ h₂ => .pure ⟨_, rfl, Closes.moves h₂.closes⟩

theorem filedup_exact (h : Exact δ s) :
    Yields (s.filedup f) fun s' => Exact δ s' ∧ s'.cwd = s.cwd := by
  unfold filedup
  exact .ite (fun _ => .error trivial) fun hpos =>
    .ok ⟨h.setFile_ref (by omega) (Nat.succ_pos _), rfl⟩

theorem fileclose_exact (h : Exact δ s) (hδ : 0 ≤ δ) :
    Yields (s.fileclose sb f) fun s' => Exact δ s' ∧ s'.cwd = s.cwd := by
  unfold fileclose
  refine .ite (fun _ => .error trivial) fun hpos => .ite (fun hmore => ?_) fun hlast => ?_
  · exact .ok ⟨h.setFile_ref (by omega) hmore, rfl⟩
  have hused : 0 < (s.ftable f).ref := by omega
  cases hip : (s.ftable f).ip with
  | none => exact .ok ⟨h.setFile_bare hip rfl, rfl⟩
  | some k =>
    have hgain : (s.ftable f).gain = single k := by
      unfold File.gain
      rw [if_pos hused, hip]
      rfl
    have hk : 0 < ((s.setFile f {}).fs.icache k).ref := h.pos_file (hδ k) hgain
    refine (putInode_moves hk).mono fun s' hs' => ?_
    obtain ⟨fs, rfl, hmoves⟩ := hs'
    refine ⟨h.moves hmoves ?_ (h.clean_setFile fun _ => rfl), rfl⟩
    rw [held_withFs, held_setFile, hgain]
    change s.held - single k + 0 + δ = _
    abel

theorem dup_exact (h : Exact δ s) : Yields (s.dup p fd) (Exact δ) := by
  unfold dup
  cases s.ofile p fd with
  | none => exact .ok h
  | some f =>
    unfold fdalloc
    cases (List.finRange NOFILE).find? fun fd => (s.ofile p fd) = none with
    | none => exact .ok h
    | some fd' => exact (filedup_exact (h.setFd fd' (some f))).mono fun _ hs => hs.1

theorem close_exact (h : Exact 0 s) : Yields (s.close sb p fd) (Exact 0) := by
  unfold close
  cases s.ofile p fd with
  | none => exact .ok h
  | some f => exact (fileclose_exact (h.setFd fd none) (le_refl _)).mono fun _ hs => hs.1

/-- The transaction of the running call ends. -/
theorem exact_endOp (h : Exact δ s) : Exact δ (s.withFs s.fs.endOp) :=
  ⟨h.count, h.one, h.clean⟩

/-- `open` gives up the inode in hand. -/
theorem openFail_exact (h : Exact (single ip) s) : Yields (s.openFail sb ip) (Exact 0) := by
  unfold openFail
  refine .bind State.iunlockput_moves fun fs h₁ => .pure ?_
  have hs := h.withFs h₁
  rw [add_neg_cancel] at hs
  exact exact_endOp hs

/-- A file that is not in use is handed out. -/
theorem filealloc_cases (s : Sys) : s.filealloc = (none, s) ∨
    ∃ f, (s.ftable f).ref = 0 ∧
      s.filealloc = (some f, s.setFile f { s.ftable f with ref := 1 }) := by
  unfold filealloc
  grind

theorem openFile_exact (h : Exact (single ip) s) : Yields (s.openFile sb p ip) (Exact 0) := by
  unfold openFile
  obtain hfull | ⟨f, hfree, hf⟩ := filealloc_cases s
  · rw [hfull]
    exact openFail_exact h
  rw [hf]
  dsimp only
  have hip := h.clean f hfree
  have h₁ : Exact (single ip) (s.setFile f { s.ftable f with ref := 1 }) := h.setFile_bare hip hip
  generalize hs₁ : s.setFile f { s.ftable f with ref := 1 } = s₁ at h₁
  have hf₁ : s₁.ftable f = { s.ftable f with ref := 1 } := by
    rw [← hs₁]
    exact Function.update_self ..
  unfold fdalloc
  cases (List.finRange NOFILE).find? fun fd => (s₁.ofile p fd) = none with
  | none =>
    exact .bind (fileclose_exact h₁ (single_nonneg ip)) fun s₂ h₂ => openFail_exact h₂.1
  | some fd =>
    refine .bind State.iunlock_moves fun fs h₂ => .pure ?_
    have h₃ : Exact (single ip) ((s₁.setFd p fd (some f)).withFs fs.endOp) := by
      have hsame := (h₁.setFd (p := p) fd (some f)).withFs h₂.1
      rw [add_zero] at hsame
      exact exact_endOp hsame
    refine h₃.moves (Moves.refl _) ?_ (h₃.clean_setFile fun hz => ?_)
    · have hold : (s₁.ftable f).gain = 0 := by
        unfold File.gain
        rw [hf₁, hip]
        rfl
      have hnew : ({ s₁.ftable f with ip := some ip } : File).gain = single ip := by
        unfold File.gain
        rw [hf₁]
        rfl
      rw [held_setFile]
      change _ - (s₁.ftable f).gain + ({ s₁.ftable f with ip := some ip } : File).gain + 0 = _
      rw [hold, hnew]
      abel
    · change (s₁.ftable f).ref = 0 at hz
      rw [hf₁] at hz
      exact absurd hz one_ne_zero

theorem sysOpen_exact (h : Exact 0 s) (hcwd : 0 < (s.fs.icache cwd).ref) (path : Arg)
    (create rdonly : Bool) :
    Yields (s.sysOpen sb dev p cwd path create rdonly) (Exact 0) := by
  unfold sysOpen
  cases path with
  | none => exact .ok h
  | some path =>
    refine .bind State.beginOp_yields fun fs₁ h₁ => ?_
    subst h₁
    refine .bind (openInode_moves path create rdonly hcwd) fun r₂ h₂ => ?_
    have hbegun : Exact 0 (s.withFs { s.fs with outstanding := s.fs.outstanding + 1 }) :=
      ⟨h.count, h.one, h.clean⟩
    have hs := hbegun.withFs h₂
    rw [zero_add] at hs
    obtain ⟨found, fs₂⟩ := r₂
    cases found with
    | none => exact .pure (exact_endOp hs)
    | some ip => exact openFile_exact hs

theorem chdir_exact (h : Exact 0 s) (hcwd : s.cwd p = some cwd) (path : Arg) :
    Yields (s.chdir sb dev p cwd path) (Exact 0) := by
  have hpos := h.pos (le_refl _) hcwd
  unfold chdir
  refine .bind State.beginOp_yields fun fs₁ h₁ => ?_
  subst h₁
  cases path with
  | none => exact .pure (h.transaction (Moves.refl _))
  | some path =>
    refine .bind (State.namei_moves path hpos) fun r₂ h₂ => ?_
    obtain ⟨found, fs₂⟩ := r₂
    cases found with
    | none => exact .pure (h.transaction h₂)
    | some ip =>
      have hgain : Moves (single ip) _ fs₂ := h₂
      refine .bind State.ilock_moves fun fs₃ h₃ => .ite (fun _ => ?_) fun _ => ?_
      · refine .bind State.iunlockput_moves fun fs₄ h₄ => .pure (h.transaction ?_)
        exact ((hgain.before h₃).trans h₄).congr (add_neg_cancel _)
      · refine .bind State.iunlock_moves fun fs₄ h₄ => ?_
        have hin := (hgain.before h₃).before h₄.1
        have hcwd₄ := hin.pos_of_nonneg (single_nonneg ip cwd) hpos
        refine .bind (State.iput_moves hcwd₄) fun fs₅ h₅ => .pure ?_
        refine (h.transaction (hin.trans h₅)).moves (Moves.refl _) ?_ h.clean
        rw [held_setCwd, held_withFs]
        change s.held - gainOf (s.cwd p) + single ip + 0 = _
        rw [hcwd]
        change s.held - single cwd + single ip + 0 = _
        abel

/-- The open files of the parent, dup'ed. -/
theorem dupAll_exact (fds : List (Fin NOFILE)) (h : Exact δ s) :
    Yields (dupAll p np fds s) fun s' => Exact δ s' ∧ s'.cwd = s.cwd := by
  induction fds generalizing s with
  | nil => exact .ok ⟨h, rfl⟩
  | cons fd rest ih =>
    unfold dupAll
    cases s.ofile p fd with
    | none => exact ih h
    | some f =>
      refine .bind (filedup_exact h) fun s₁ h₁ => ?_
      exact (ih (h₁.1.setFd fd (some f))).mono fun s₂ h₂ => ⟨h₂.1, h₂.2.trans h₁.2⟩

theorem fork_exact (h : Exact 0 s) (hcwd : s.cwd p = some cwd) (hnew : s.cwd np = none) :
    Yields (s.fork p np cwd) (Exact 0) := by
  unfold fork
  refine .bind (dupAll_exact _ h) fun s₁ h₁ => .pure ?_
  obtain ⟨h₁, hsame⟩ := h₁
  have hpos := h₁.pos (le_refl _) ((congrFun hsame p).trans hcwd)
  refine (h₁.withFs (State.idup_moves hpos)).moves (Moves.refl _) ?_ h₁.clean
  rw [held_setCwd, held_withFs]
  change s₁.held - gainOf (s₁.cwd np) + single cwd + 0 = _
  rw [congrFun hsame np, hnew]
  change s₁.held - 0 + single cwd + 0 = _
  abel

/-- The open files of a process that exits, closed. -/
theorem closeAll_exact (fds : List (Fin NOFILE)) (h : Exact 0 s) :
    Yields (closeAll sb p fds s) fun s' => Exact 0 s' ∧ s'.cwd = s.cwd := by
  induction fds generalizing s with
  | nil => exact .ok ⟨h, rfl⟩
  | cons fd rest ih =>
    unfold closeAll
    cases s.ofile p fd with
    | none => exact ih h
    | some f =>
      refine .bind (fileclose_exact h (le_refl _)) fun s₁ h₁ => ?_
      exact (ih (h₁.1.setFd fd none)).mono fun s₂ h₂ => ⟨h₂.1, h₂.2.trans h₁.2⟩

theorem exit_exact (h : Exact 0 s) (hcwd : s.cwd p = some cwd) :
    Yields (s.exit sb p cwd) (Exact 0) := by
  unfold exit
  refine .ite (fun _ => .error trivial) fun _ => ?_
  refine .bind (closeAll_exact _ h) fun s₁ h₁ => ?_
  obtain ⟨h₁, hsame⟩ := h₁
  have hcwd₁ : s₁.cwd p = some cwd := (congrFun hsame p).trans hcwd
  refine .bind (putInode_moves (h₁.pos (le_refl _) hcwd₁)) fun s₂ h₂ => .pure ?_
  obtain ⟨fs, rfl, hmoves⟩ := h₂
  refine (h₁.withFs hmoves).moves (Moves.refl _) ?_ h₁.clean
  rw [held_setCwd, held_withFs]
  change s₁.held - gainOf (s₁.cwd p) + 0 + 0 = _
  rw [hcwd₁]
  change s₁.held - single cwd + 0 + 0 = _
  abel

end Sys

theorem onFs_exact {s : Sys} {x : Except Panic State} (h : Exact 0 s)
    (hx : Yields x (Moves 0 s.fs)) : Yields (SysCall.onFs s x) (Exact 0) := by
  unfold SysCall.onFs
  cases x with
  | error e => exact trivial
  | ok fs => exact h.withFs (show Moves 0 s.fs fs from hx)

/-- Every call leaves the counts exact. -/
theorem SysCall.perform_exact {s : Sys} {p : Slot} (c : SysCall) (h : Exact 0 s)
    (hcwd : s.cwd p = some cwd) (hproper : c.Proper s) :
    Yields (c.perform sb dev s p cwd) (Exact 0) := by
  have hpos := h.pos (le_refl _) hcwd
  unfold perform
  split
  · exact Sys.sysOpen_exact h hpos _ _ _
  · exact .ok h
  · exact Sys.close_exact h
  · exact .ok h
  · exact Sys.dup_exact h
  · exact onFs_exact h (Sys.linkFs_moves _ _ hpos)
  · exact .ok h
  · exact .ok h
  · exact onFs_exact h (Sys.unlinkFs_moves _ hpos)
  · exact onFs_exact h (Sys.makeFs_moves _ _ _ _ hpos)
  · exact onFs_exact h (Sys.makeFs_moves _ _ _ _ hpos)
  · exact Sys.chdir_exact h hcwd _
  · exact .ok h
  · exact onFs_exact h (Sys.execFs_moves _ _ hpos)
  · exact Sys.fork_exact h hcwd hproper
  · exact Sys.exit_exact h hcwd

theorem Booted.held_eq {s : Sys} (h : Booted s) : s.held = single ⟨0, by decide⟩ := by
  unfold Sys.held
  have hfiles : ∀ f, (s.ftable f).gain = 0 := fun f => by
    rw [h.ftable_eq]
    rfl
  have hcwds : ∀ p ≠ 0, gainOf (s.cwd p) = 0 := fun p hp => by
    rw [h.cwd_other p hp]
    rfl
  rw [Finset.sum_eq_single 0 (fun p _ hp => hcwds p hp) (fun hz => (hz (Finset.mem_univ _)).elim),
    Finset.sum_eq_zero fun f _ => hfiles f, h.cwd_init, add_zero]
  rfl

theorem Booted.icache_of_ne {s : Sys} (h : Booted s) (hk : k ≠ ⟨0, by decide⟩) :
    s.fs.icache k = {} := h.icache_eq k fun hz => hk (Fin.ext hz)

/-- Only the root directory is in use. -/
theorem Booted.eq_of_ref {s : Sys} (h : Booted s) (hk : 0 < (s.fs.icache k).ref) :
    k = ⟨0, by decide⟩ := by
  by_contra hne
  rw [h.icache_of_ne hne] at hk
  exact absurd hk (by decide)

theorem Booted.exact {s : Sys} (h : Booted s) : Exact 0 s := by
  refine ⟨fun k => ?_, fun k l hk hl _ => ?_, fun f _ => ?_⟩
  · rw [h.held_eq, Pi.zero_apply, add_zero, single_apply]
    split
    case isTrue hk =>
      rw [hk, h.root]
      rfl
    case isFalse hk =>
      rw [h.icache_of_ne hk]
      rfl
  · rw [h.eq_of_ref hk, h.eq_of_ref hl]
  · rw [h.ftable_eq]

theorem exact_of_reachable {s : Sys} (h : (sysMachine sb dev).Reachable s) : Exact 0 s := by
  refine h.invariant (fun s hs => Booted.exact hs) fun s l hs henabled => ?_
  obtain ⟨hrunning, hproper, hcompletes⟩ := henabled
  obtain ⟨cwd, hcwd⟩ := Option.isSome_iff_exists.mp hrunning
  obtain ⟨s', hs'⟩ := exists_of_completes hcompletes
  simp only [sysMachine, hs']
  unfold Sys.step at hs'
  rw [hcwd] at hs'
  have hends : Ends _ (l.2.perform sb dev s l.1 cwd) _ := l.2.perform_exact hs hcwd hproper
  exact hends.of_ok hs'

/-- The holders of a reference, counted. -/
theorem held_eq_card (s : Sys) (k : Fin NINODE) : s.held k =
    (Finset.univ.filter fun p => s.cwd p = some k).card +
      (Finset.univ.filter fun f => 0 < (s.ftable f).ref ∧ (s.ftable f).ip = some k).card := by
  have hfile : ∀ f : File, f.gain k = if 0 < f.ref ∧ f.ip = some k then 1 else 0 := by
    intro f
    unfold File.gain
    by_cases hpos : 0 < f.ref
    · rw [if_pos hpos, gainOf_apply]
      simp only [hpos, true_and]
    · rw [if_neg hpos, if_neg fun h => hpos h.1]
      rfl
  simp [Sys.held, gainOf_apply, hfile]

/-- In every state between system calls an inode has at most one cache entry in use, and the
entry's count is the number of processes that have it as their current directory plus the
number of open files on it. A path lookup, from any state and current directory, gains one
reference to what it returns and none otherwise. -/
theorem inode_refs_exact {s : Sys} (h : (sysMachine sb dev).Reachable s) :
    (∀ k l, 0 < (s.fs.icache k).ref → 0 < (s.fs.icache l).ref →
      (s.fs.icache k).inum = (s.fs.icache l).inum → k = l) ∧
    (∀ k, (s.fs.icache k).ref = (Finset.univ.filter fun p => s.cwd p = some k).card +
      (Finset.univ.filter fun f => 0 < (s.ftable f).ref ∧ (s.ftable f).ip = some k).card) ∧
    ∀ fs cwd path parent found fs', 0 < (fs.icache cwd).ref →
      State.namex sb dev fs cwd path parent = .ok (found, fs') →
      ∀ k, (fs'.icache k).ref =
        (fs.icache k).ref + if found.map Prod.fst = some k then 1 else 0 := by
  have hexact := exact_of_reachable h
  refine ⟨hexact.one, fun k => ?_, fun fs cwd path parent found fs' hcwd hok k => ?_⟩
  · have hcount := hexact.count k
    rw [held_eq_card, Pi.zero_apply, add_zero] at hcount
    exact_mod_cast hcount
  · have hends : Ends _ (State.namex sb dev fs cwd path parent) _ :=
      State.namex_moves path parent hcwd
    have hmoves := (hends.of_ok hok).ref_eq k
    dsimp only at hmoves
    rw [gain_eq, gainOf_apply] at hmoves
    split at hmoves <;> split <;> first | omega | contradiction

set_option maxRecDepth 10000 in
/-- After `chdir("/a")`, `open("/f")` and `dup` the process has one reference and the file one. -/
theorem inode_refs_exact_after_open : ∃ s, (sysMachine sample {}).Reachable s ∧
    ∃ k l, s.cwd 0 = some k ∧ (s.ftable ⟨0, by decide⟩) = ⟨2, some l⟩ ∧ k ≠ l ∧
    (s.fs.icache k).ref = (Finset.univ.filter fun p => s.cwd p = some k).card +
      (Finset.univ.filter fun f => 0 < (s.ftable f).ref ∧ (s.ftable f).ip = some k).card := by
  obtain ⟨s, hs, hcwd, hfile⟩ := Machine.exists_reachable_of_exec (sysMachine sample {})
    [(0, .chdir (some [47, 97])), (0, .open (some [47, 102]) false true),
      (0, .dup (some ⟨0, by decide⟩))]
    (s := boot sampleDisk) (P := fun s => s.cwd 0 = some ⟨1, by decide⟩ ∧
      s.ftable ⟨0, by decide⟩ = ⟨2, some ⟨2, by decide⟩⟩)
    (booted _) (by decide +kernel)
  exact ⟨s, hs, _, _, hcwd, hfile, by decide, (inode_refs_exact hs).2.1 _⟩

end Xv6.Fs
