/-
# System calls and the file system at rest

Every system call that returns leaves the file system at rest: no lock is held, the log is
empty and the directories are arranged. Two calls can do worse on their way, `link` and
`unlink`, and what they need of the state before is stated with them.
-/

import Xv6.Fs.Unlink

namespace Xv6.Fs

open Xv6.Lib Xv6.Ptable

variable {E : Panic → Prop} {sb : Superblock} {dev : Devsw} {fs fs' : State}
  {k ip cwd : Fin NINODE}

namespace Sys

theorem makeFs_calm {path : Arg} {type major minor : UInt16} (hr : Rests E sb fs) (hE : Lax E)
    (hcwd : 0 < (fs.icache cwd).ref) (htype : type ≠ 0)
    (hroom : E .noType ∨ (type = T_DIR → Roomy (sb.node fs.disk))) :
    Ends E (makeFs sb dev fs cwd path type major minor) (Rests E sb) := by
  refine ends_transaction hr (makeFs_moves path type major minor hcwd) fun fs₁ h₁ => ?_
  rw [← h₁.icache_eq] at hcwd
  rw [← h₁.disk_eq] at hroom
  cases path with
  | none => exact .pure (h₁.calm.ended h₁.locks_eq)
  | some path =>
    refine .bind (State.create_calm h₁.calm hE hcwd h₁.locks_eq htype hroom) fun r₂ h₂ => ?_
    obtain ⟨found, fs₂⟩ := r₂
    cases found with
    | none => exact .pure (h₂.1.ended h₂.2)
    | some ip =>
      refine .bind (State.iunlockput_calm h₂.calm hE) fun fs₃ h₃ => .pure (h₃.calm.ended ?_)
      rw [h₃.locks_eq, h₂.locks_eq, update_oneLock]

theorem readAll_ends (reads : List (UInt32 × UInt32)) (hwf : WellFormed sb fs)
    (hk : fs.Locked k) : Ends E (readAll sb dev k reads fs) fun fs' => fs' = fs := by
  induction reads with
  | nil => exact .pure rfl
  | cons read rest ih =>
    rw [readAll]
    refine .bind (State.readi_ends hwf hk (UInt32.toNat_lt read.2)) fun r hr => ?_
    obtain ⟨data, fs₁⟩ := r
    obtain rfl : fs = fs₁ := hr.symm
    exact ih

theorem execFs_calm {path : List UInt8} {reads : List (UInt32 × UInt32)} (hr : Rests E sb fs)
    (hE : Lax E) (hcwd : 0 < (fs.icache cwd).ref) :
    Ends E (execFs sb dev fs cwd path reads) (Rests E sb) := by
  refine ends_transaction hr (execFs_moves path reads hcwd) fun fs₁ h₁ => ?_
  rw [← h₁.icache_eq] at hcwd
  refine .bind (State.namei_calm hE h₁.calm path hcwd h₁.locks_eq) fun r₂ h₂ => ?_
  obtain ⟨found, fs₂⟩ := r₂
  obtain ⟨⟨hc₂, hfree₂, -, hmoves₂⟩, -⟩ := h₂
  dsimp only at hc₂ hfree₂ hmoves₂ ⊢
  cases found with
  | none => exact .pure (hc₂.ended hfree₂)
  | some ip =>
    refine .bind (State.ilock_calm hc₂ hE hmoves₂.pos_single (.inr (congrFun hfree₂ ip)))
      fun fs₃ h₃ => ?_
    obtain ⟨hc₃, hlock⟩ := h₃
    refine .bind (readAll_ends reads hc₃.wf hlock.locked) fun fs₄ h₄ => ?_
    subst h₄
    refine .bind (State.iunlockput_calm hc₃ hE) fun fs₅ h₅ => .pure (h₅.calm.ended ?_)
    rw [h₅.locks_eq, hlock.oneLock hfree₂, update_oneLock]

/-- The inode `open` opens is locked, and nothing else is. -/
theorem openInode_calm {path : List UInt8} {create rdonly : Bool} (hc : Calm E sb 0 fs)
    (hE : Lax E) (hfree : fs.locks = noLocks) (hcwd : 0 < (fs.icache cwd).ref) :
    Ends E (openInode sb dev fs cwd path create rdonly) fun r =>
      match r.1 with
      | none => Calm E sb 0 r.2 ∧ r.2.locks = noLocks
      | some ip => Created E sb ip r.2 := by
  have hfile : T_FILE ≠ T_DIR := by decide
  unfold openInode
  refine .ite (fun _ => State.create_calm hc hE hcwd hfree (by decide)
    (.inr fun h => (hfile h).elim)) fun _ => ?_
  refine .bind (State.namei_calm hE hc path hcwd hfree) fun r₁ h₁ => ?_
  obtain ⟨found, fs₁⟩ := r₁
  obtain ⟨⟨hc₁, hfree₁, -, hmoves₁⟩, -⟩ := h₁
  dsimp only at hc₁ hfree₁ hmoves₁ ⊢
  cases found with
  | none => exact .pure ⟨hc₁, hfree₁⟩
  | some ip =>
    refine .bind (State.ilock_calm hc₁ hE hmoves₁.pos_single (.inr (congrFun hfree₁ ip)))
      fun fs₂ h₂ => ?_
    obtain ⟨hc₂, hlock⟩ := h₂
    have hlocks₂ := hlock.oneLock hfree₁
    refine .ite (fun _ => ?_) fun _ => .pure ⟨hc₂, hlocks₂, hlock.locked⟩
    refine .bind (State.iunlockput_calm hc₂ hE) fun fs₃ h₃ => .pure ⟨h₃.calm, ?_⟩
    rw [h₃.locks_eq, hlocks₂, update_oneLock]

variable {s : Sys} {p np : Slot} {f : Fin NFILE} {fd : Fin NOFILE}

theorem openFail_rests (hc : Created E sb ip s.fs) (hE : Lax E) (hout : s.fs.outstanding = 1) :
    Ends E (s.openFail sb ip) fun s' => Rests E sb s'.fs := by
  unfold openFail
  refine .bind (State.iunlockput_calm hc.calm hE) fun fs h => .pure (h.calm.rests ?_ ?_)
  · rw [h.locks_eq, hc.locks_eq, update_oneLock]
  · exact h.moves.outstanding_eq.trans hout

/-- Closing a file that has no inode. -/
theorem fileclose_bare (hf : s.ftable f = ⟨1, none⟩) :
    s.fileclose sb f = .ok (s.setFile f {}) := by
  unfold fileclose
  rw [if_neg (by rw [hf]; decide), if_neg (by rw [hf]; decide)]
  simp only [hf]

theorem openFile_rests (hc : Created E sb ip s.fs) (hE : Lax E) (hout : s.fs.outstanding = 1)
    (hclean : ∀ f, (s.ftable f).ref = 0 → (s.ftable f).ip = none) :
    Ends E (s.openFile sb p ip) fun s' => Rests E sb s'.fs := by
  unfold openFile
  obtain hfull | ⟨f, hfree, hf⟩ := filealloc_cases s
  · rw [hfull]
    exact openFail_rests hc hE hout
  rw [hf]
  dsimp only
  have hip := hclean f hfree
  unfold fdalloc
  cases (List.finRange NOFILE).find? fun fd => ((s.setFile f { s.ftable f with ref := 1 }).ofile p
    fd) = none with
  | none =>
    -- the file has no inode yet
    have hf₁ : (s.setFile f { s.ftable f with ref := 1 }).ftable f = ⟨1, none⟩ :=
      (Function.update_self ..).trans (congrArg (File.mk 1) hip)
    dsimp only
    rw [fileclose_bare hf₁]
    exact openFail_rests hc hE hout
  | some fd =>
    refine .bind (State.iunlock_calm hc.calm hE) fun fs h => .pure (h.1.rests ?_ ?_)
    · rw [h.2.locks_eq]
      change Function.update s.fs.locks ip false = noLocks
      rw [hc.locks_eq, update_oneLock]
    · exact h.2.moves.outstanding_eq.trans hout

theorem sysOpen_rests {path : Arg} {create rdonly : Bool} (hr : Rests E sb s.fs) (hE : Lax E)
    (hclean : ∀ f, (s.ftable f).ref = 0 → (s.ftable f).ip = none)
    (hcwd : 0 < (s.fs.icache cwd).ref) :
    Ends E (s.sysOpen sb dev p cwd path create rdonly) fun s' => Rests E sb s'.fs := by
  unfold sysOpen
  cases path with
  | none => exact .ok hr
  | some path =>
    refine .bind hr.beginOp fun fs₁ h₁ => ?_
    rw [← h₁.icache_eq] at hcwd
    refine .bind ((openInode_calm h₁.calm hE h₁.locks_eq hcwd).and
      (openInode_moves path create rdonly hcwd)) fun r₂ h₂ => ?_
    obtain ⟨found, fs₂⟩ := r₂
    obtain ⟨hc₂, hmoves₂⟩ := h₂
    have hout : fs₂.outstanding = 1 := hmoves₂.outstanding_eq.trans h₁.outstanding_eq
    cases found with
    | none => exact .pure (Calm.rests hc₂.1 hc₂.2 hout)
    | some ip => exact openFile_rests hc₂ hE hout hclean

theorem chdir_rests {path : Arg} (hr : Rests E sb s.fs) (hE : Lax E)
    (hcwd : 0 < (s.fs.icache cwd).ref) :
    Ends E (s.chdir sb dev p cwd path) fun s' => Rests E sb s'.fs := by
  unfold chdir
  refine .bind hr.beginOp fun fs₁ h₁ => ?_
  rw [← h₁.icache_eq] at hcwd
  cases path with
  | none => exact .pure (h₁.calm.rests h₁.locks_eq h₁.outstanding_eq)
  | some path =>
    refine .bind (State.namei_calm hE h₁.calm path hcwd h₁.locks_eq) fun r₂ h₂ => ?_
    obtain ⟨found, fs₂⟩ := r₂
    obtain ⟨⟨hc₂, hfree₂, -, hmoves₂⟩, -⟩ := h₂
    dsimp only at hc₂ hfree₂ hmoves₂ ⊢
    have hout₂ : fs₂.outstanding = 1 := hmoves₂.outstanding_eq.trans h₁.outstanding_eq
    cases found with
    | none => exact .pure (hc₂.rests hfree₂ hout₂)
    | some ip =>
      refine .bind (State.ilock_calm hc₂ hE hmoves₂.pos_single (.inr (congrFun hfree₂ ip)))
        fun fs₃ h₃ => ?_
      obtain ⟨hc₃, hlock⟩ := h₃
      have hlocks₃ := hlock.oneLock hfree₂
      have hout₃ := hlock.moves.outstanding_eq.trans hout₂
      refine .ite (fun _ => ?_) fun _ => ?_
      · refine .bind (State.iunlockput_calm hc₃ hE) fun fs₄ h₄ => .pure (h₄.calm.rests ?_ ?_)
        · rw [h₄.locks_eq, hlocks₃, update_oneLock]
        · exact h₄.moves.outstanding_eq.trans hout₃
      · refine .bind (State.iunlock_calm hc₃ hE) fun fs₄ h₄ => ?_
        obtain ⟨hc₄, hu⟩ := h₄
        have hfree₄ : fs₄.locks = noLocks := by rw [hu.locks_eq, hlocks₃, update_oneLock]
        have hcwd₂ := hmoves₂.pos_of_nonneg (single_nonneg ip cwd) hcwd
        have hcwd₄ := hu.moves.pos (hlock.moves.pos hcwd₂)
        refine .bind (State.iput_calm hc₄ hE hcwd₄ (.inr (congrFun hfree₄ cwd)))
          fun fs₅ h₅ => .pure (h₅.calm.rests (h₅.locks_eq.trans hfree₄) ?_)
        exact h₅.moves.outstanding_eq.trans (hu.moves.outstanding_eq.trans hout₃)

theorem putInode_rests (hr : Rests E sb s.fs) (hE : Lax E) (hk : 0 < (s.fs.icache k).ref) :
    Ends E (s.putInode sb k) fun s' => Rests E sb s'.fs := by
  unfold putInode
  refine .bind hr.beginOp fun fs₁ h₁ => ?_
  rw [← h₁.icache_eq] at hk
  refine .bind (State.iput_calm h₁.calm hE hk (.inr (congrFun h₁.locks_eq k))) fun fs₂ h₂ =>
    .pure (h₂.calm.rests (h₂.locks_eq.trans h₁.locks_eq) ?_)
  exact h₂.moves.outstanding_eq.trans h₁.outstanding_eq

theorem fileclose_rests (h : Exact 0 s) (hr : Rests E sb s.fs) (hE : Lax E) :
    Ends E (s.fileclose sb f) fun s' => Rests E sb s'.fs := by
  have hlax : E .fileclose :=
    hE.allows Panic.noConfusion Panic.noConfusion Panic.noConfusion Panic.noConfusion
  unfold fileclose
  refine .ite (fun _ => .error hlax) fun hpos => .ite (fun _ => .ok hr) fun hlast => ?_
  have hused : 0 < (s.ftable f).ref := by omega
  cases hip : (s.ftable f).ip with
  | none => exact .ok hr
  | some k =>
    have hgain : (s.ftable f).gain = single k := by
      unfold File.gain
      rw [if_pos hused, hip]
      rfl
    exact putInode_rests hr hE (h.pos_file (le_refl _) hgain)

theorem filedup_fs (hE : Lax E) : Ends E (s.filedup f) fun s' => s'.fs = s.fs := by
  unfold filedup
  exact .ite (fun _ => .error (hE.allows Panic.noConfusion Panic.noConfusion Panic.noConfusion
    Panic.noConfusion)) fun _ => .ok rfl

end Sys

/-- The state between two system calls. -/
structure Settled (E : Panic → Prop) (sb : Superblock) (s : Sys) : Prop where
  exact : Exact 0 s
  rests : Rests E sb s.fs

namespace Sys

variable {s : Sys} {p np : Slot} {f : Fin NFILE} {fd : Fin NOFILE}

theorem dup_rests (hr : Rests E sb s.fs) (hE : Lax E) :
    Ends E (s.dup p fd) fun s' => Rests E sb s'.fs := by
  unfold dup
  cases s.ofile p fd with
  | none => exact .ok hr
  | some f =>
    unfold fdalloc
    cases (List.finRange NOFILE).find? fun fd => (s.ofile p fd) = none with
    | none => exact .ok hr
    | some fd' => exact (filedup_fs hE).mono fun s' h' => h' ▸ hr

theorem dupAll_fs (fds : List (Fin NOFILE)) (hE : Lax E) :
    Ends E (dupAll p np fds s) fun s' => s'.fs = s.fs := by
  induction fds generalizing s with
  | nil => exact .pure rfl
  | cons fd rest ih =>
    unfold dupAll
    cases s.ofile p fd with
    | none => exact ih
    | some f =>
      refine .bind (filedup_fs hE) fun s₁ h₁ => ih.mono fun s₂ h₂ => ?_
      exact h₂.trans h₁

theorem fork_rests (hr : Rests E sb s.fs) (hE : Lax E) (hcwd : 0 < (s.fs.icache cwd).ref) :
    Ends E (s.fork p np cwd) fun s' => Rests E sb s'.fs := by
  unfold fork
  refine .bind (dupAll_fs _ hE) fun s₁ h₁ => .pure ?_
  change Rests E sb (s₁.fs.idup cwd)
  rw [h₁]
  refine ⟨⟨hr.calm.of_disk (hr.calm.idup hcwd) rfl, ?_, hr.lh_eq⟩, hr.outstanding_eq⟩
  exact State.locks_idup.trans hr.locks_eq

theorem closeAll_settled (fds : List (Fin NOFILE)) (h : Settled E sb s) (hE : Lax E) :
    Ends E (closeAll sb p fds s) fun s' => Settled E sb s' ∧ s'.cwd = s.cwd := by
  induction fds generalizing s with
  | nil => exact .pure ⟨h, rfl⟩
  | cons fd rest ih =>
    unfold closeAll
    cases s.ofile p fd with
    | none => exact ih h
    | some f =>
      refine .bind ((fileclose_rests h.exact h.rests hE).and
        (fileclose_exact h.exact (le_refl _))) fun s₁ h₁ => ?_
      obtain ⟨hr₁, hexact₁, hcwd₁⟩ := h₁
      exact (ih ⟨hexact₁.setFd fd none, hr₁⟩).mono fun s₂ h₂ => ⟨h₂.1, h₂.2.trans hcwd₁⟩

theorem exit_rests (h : Settled E sb s) (hE : Lax E) (hcwd : s.cwd p = some cwd) :
    Ends E (s.exit sb p cwd) fun s' => Rests E sb s'.fs := by
  unfold exit
  refine .ite (fun _ => .error (hE.allows Panic.noConfusion Panic.noConfusion Panic.noConfusion
    Panic.noConfusion)) fun _ => ?_
  refine .bind (closeAll_settled _ h hE) fun s₁ h₁ => ?_
  obtain ⟨hs₁, hsame⟩ := h₁
  have hpos := hs₁.exact.pos (le_refl _) ((congrFun hsame p).trans hcwd)
  exact .bind (putInode_rests hs₁.rests hE hpos) fun s₂ h₂ => .pure h₂

end Sys

namespace SysCall

/-- The call does not come to a directory through its own entry while it is locked. -/
def LocksOnce (sb : Superblock) (s : Sys) (cwd : Fin NINODE) : SysCall → Prop
  | .link (some old) (some new) =>
    ¬ LinksParent (sb.node s.fs.disk) (s.fs.icache cwd).inum old new
  | .unlink (some path) => ¬ UnlinksParent (sb.node s.fs.disk) (s.fs.icache cwd).inum path
  | _ => True

/-- The call removes no directory that is in use, and has room to count a link. -/
def Mild (sb : Superblock) (s : Sys) (cwd : Fin NINODE) : SysCall → Prop
  | .link (some _) (some _) => Roomy (sb.node s.fs.disk)
  | .mkdir _ => Roomy (sb.node s.fs.disk)
  | .unlink (some path) =>
    ∀ i, Removes (sb.node s.fs.disk) (s.fs.icache cwd).inum path i → ¬ InUse s.fs i
  | _ => True

theorem onFs_ends {s : Sys} {x : Except Panic State} {P : State → Prop} (hx : Ends E x P) :
    Ends E (onFs s x) fun s' => P s'.fs := by
  unfold onFs
  cases x with
  | error e => exact hx
  | ok fs => exact hx

variable {s : Sys} {p : Slot}

/-- The calls that follow a path. -/
def OnPath : SysCall → Prop
  | .open _ _ _ | .link _ _ | .unlink _ | .mkdir _ | .mknod _ _ _ | .chdir _ | .exec _ _ => True
  | _ => False

/-- They need little to leave the file system at rest. If one returns, it has locked no
directory twice. -/
theorem perform_path {c : SysCall} (hr : Rests E sb s.fs) (hE : Lax E)
    (hclean : ∀ f, (s.ftable f).ref = 0 → (s.ftable f).ip = none)
    (hcwd : 0 < (s.fs.icache cwd).ref) (hc : c.OnPath) (honce : E .held ∨ c.LocksOnce sb s cwd)
    (hmild : E .noType ∨ c.Mild sb s cwd) :
    Ends E (c.perform sb dev s p cwd) fun s' => Rests E sb s'.fs ∧ c.LocksOnce sb s cwd := by
  have hdev : T_DEV ≠ T_DIR := by decide
  have hplain {x : Except Panic Sys} (hx : Ends E x fun s' => Rests E sb s'.fs) :
      Ends E x fun s' => Rests E sb s'.fs ∧ True := hx.mono fun _ hs' => ⟨hs', trivial⟩
  unfold perform
  split
  · exact hplain (Sys.sysOpen_rests hr hE hclean hcwd)
  · exact hc.elim
  · exact hc.elim
  · exact hc.elim
  · exact hc.elim
  · exact onFs_ends (Sys.linkFs_calm hr hE hcwd hmild honce)
  · next hnot =>
    refine .ok ⟨hr, ?_⟩
    unfold LocksOnce
    grind
  · exact hplain (.ok hr)
  · exact onFs_ends (Sys.unlinkFs_calm hr hE hcwd honce hmild)
  · exact hplain (onFs_ends (Sys.makeFs_calm hr hE hcwd (by decide)
      (hmild.imp_right fun hm _ => hm)))
  · exact hplain (onFs_ends (Sys.makeFs_calm hr hE hcwd (by decide)
      (.inr fun h => (hdev h).elim)))
  · exact hplain (Sys.chdir_rests hr hE hcwd)
  · exact hplain (.ok hr)
  · exact hplain (onFs_ends (Sys.execFs_calm hr hE hcwd))
  · exact hc.elim
  · exact hc.elim

/-- Every call leaves the file system at rest. -/
theorem perform_settled (c : SysCall) (h : Settled E sb s) (hE : Lax E) (hcwd : s.cwd p = some cwd)
    (hproper : c.Proper s) (honce : E .held ∨ c.LocksOnce sb s cwd)
    (hmild : E .noType ∨ c.Mild sb s cwd) :
    Ends E (c.perform sb dev s p cwd) (Settled E sb) := by
  have hpos := h.exact.pos (le_refl _) hcwd
  have hr := h.rests
  suffices hrests : Ends E (c.perform sb dev s p cwd) fun s' => Rests E sb s'.fs from
    (hrests.and (c.perform_exact h.exact hcwd hproper)).mono fun s' h' => ⟨h'.2, h'.1⟩
  by_cases hc : c.OnPath
  · exact (perform_path hr hE h.exact.clean hpos hc honce hmild).mono fun _ hs' => hs'.1
  cases c with
  | close fd =>
    cases fd with
    | none => exact .ok hr
    | some fd =>
      change Ends E (s.close sb p fd) _
      unfold Sys.close
      split
      · exact .ok hr
      · exact Sys.fileclose_rests (h.exact.setFd _ _) hr hE
  | dup fd =>
    cases fd with
    | none => exact .ok hr
    | some fd => exact Sys.dup_rests hr hE
  | fork np => exact Sys.fork_rests hr hE hpos
  | exit => exact Sys.exit_rests h hE hcwd
  | _ => exact (hc trivial).elim

end SysCall

end Xv6.Fs
