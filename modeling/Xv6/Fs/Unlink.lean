/-
# unlink

`sys_unlink` erases the entry and then takes the links back. A file keeps one link that is
not in the tree until its count is written. With a directory the tree is whole again only
when the last reference to it has gone and its inode has been freed, so a directory that is
in use stays behind, with a ".." that is not counted any more.
-/

import Xv6.Fs.Link

namespace Xv6.Fs

open Function Xv6.Lib

/-- `unlink` of the path removes the empty directory `i`, if all goes well. -/
def Removes (N : ℕ → Option Node) (cwd : ℕ) (path : List UInt8) (i : ℕ) : Prop :=
  ∃ d name off nd, Names N cwd path d name i off ∧
    (namecmp name dot ≠ 0 ∧ namecmp name dotdot ≠ 0) ∧ N i = some nd ∧ nd.type = T_DIR ∧
    ∀ e ∈ (entries nd.data).drop 2, e.inum = 0

/-- `unlink` of the path locks a directory twice. -/
def UnlinksParent (N : ℕ → Option Node) (cwd : ℕ) (path : List UInt8) : Prop :=
  ∃ d name off, Names N cwd path d name d off ∧ namecmp name dot ≠ 0 ∧ namecmp name dotdot ≠ 0

/-- A directory that has lost the subdirectory with the entry at `off`. -/
def Node.without (nd : Node) (off : ℕ) : Node := { nd.erase off with nlink := nd.nlink - 1 }

/-- Some process or open file refers to inode `i`. -/
def InUse (s : State) (i : ℕ) : Prop := ∃ l, 0 < (s.icache l).ref ∧ (s.icache l).inum = i

variable {E : Panic → Prop} {sb : Superblock} {dev : Devsw} {s s' : State} {δ : ℕ → ℕ}
  {k l dp ip cwd : Fin NINODE} {i off : ℕ} {name path : List UInt8} {N N' : ℕ → Option Node}

/-- The entry of the inode in entry `ip` has been erased. -/
structure Erasing (sb : Superblock) (s : State) (dp ip : Fin NINODE) (name : List UInt8)
    (off : ℕ) : Prop where
  dp_locked : s.Locked dp
  ip_locked : s.Locked ip
  ne : ip ≠ dp
  locks_eq : s.locks = update (oneLock dp) ip true
  dir : (s.icache dp).copy.type = T_DIR
  name_ne : namecmp name dot ≠ 0 ∧ namecmp name dotdot ≠ 0
  lookup_eq : lookup (s.dataOf dp) name = some ((s.icache ip).inum, off)

theorem lt_of_mem_erase {n : ℕ} {nd : Node} (hfound : lookup nd.data name = some (i, off))
    (hold : ∀ e ∈ entries nd.data, e.inum < n) (hn : 0 < n) :
    ∀ e ∈ entries (nd.erase off).data, e.inum < n := by
  obtain ⟨j, e, hget, rfl, -⟩ := lookup_mem hfound
  intro e' he'
  rw [entries_erase (List.getElem?_eq_some_iff.mp hget).1] at he'
  rcases mem_putAt he' with rfl | hmem
  · exact hn
  · exact hold e' hmem

/-- A file has a link that is not in the tree any more. -/
theorem Erasing.calm (he : Erasing sb s dp ip name off) (hc : Calm E sb 0 s)
    (hch : Changed sb s dp ((s.nodeAt dp).erase off) s')
    (hfile : E .noType ∨ (s.icache ip).copy.type ≠ T_DIR) :
    Calm E sb (Pi.single (s.icache ip).inum 1) s' := by
  have hnode := hc.node_eq he.dp_locked
  refine ⟨hch.steady he.dp_locked hc.toSteady, hc.root_lt, ?_, ?_⟩
  · rw [hch.node_eq]
    exact hc.inRange.update fun _ => lt_of_mem_erase he.lookup_eq
      (hc.inRange _ _ hnode he.dir) (Nat.zero_lt_of_lt hc.root_lt)
  · by_cases hE : E .noType
    · exact .inl hE
    obtain ⟨harr, hshort⟩ := hc.arranged.resolve_left hE
    rw [hch.node_eq]
    refine .inr ⟨harr.unlink hnode he.dir he.name_ne he.lookup_eq (hc.node_eq he.ip_locked)
      (hfile.resolve_left hE) ?_ fun x hx => ?_, hshort.update ?_⟩
    · rw [Pi.single_eq_same]
      rfl
    · rw [Pi.single_eq_of_ne hx]
      rfl
    · exact hshort _ (s.nodeAt dp) hnode

namespace Sys

theorem unlinkDots_calm {i : ℕ} (hc : Calm E sb (Pi.single i 1) s) (hE : Lax E)
    (hdp : s.Locked dp) (hfile : E .noType ∨ (s.icache ip).copy.type ≠ T_DIR) :
    Ends E (unlinkDots sb s dp ip) fun s' => Calm E sb (Pi.single i 1) s' ∧ SameCache s s' := by
  unfold unlinkDots
  refine .ite (fun hdir => ?_) fun _ => .pure ⟨hc, SameCache.refl s⟩
  refine (State.modify_steady (f := fun d => { d with nlink := d.nlink - 1 }) hc.toSteady hE hdp
    ⟨rfl, rfl, rfl⟩).mono fun s' h' => ?_
  obtain ⟨⟨hs', hch⟩, -⟩ := h'
  exact ⟨hch.setNlink hdp hs' hc (.inl (hfile.resolve_right fun hne => hne hdir)), hch.sameCache⟩

/-- `unlink` of a file. -/
theorem unlinkEntry_file (he : Erasing sb s dp ip name off) (hc : Calm E sb 0 s) (hE : Lax E)
    (hfile : E .noType ∨ (s.icache ip).copy.type ≠ T_DIR) :
    Ends E (unlinkEntry sb dev s dp ip off) (Ended E sb) := by
  have hlax : E .unlinkWritei :=
    hE.allows Panic.noConfusion Panic.noConfusion Panic.noConfusion Panic.noConfusion
  unfold unlinkEntry
  refine .bind (State.writeDirent_steady hc.toSteady hE he.dp_locked he.dir .empty hlax)
    fun s₁ h₁ => ?_
  obtain ⟨⟨-, hch₁⟩, -⟩ := h₁
  have hfile₁ : E .noType ∨ (s₁.icache ip).copy.type ≠ T_DIR := by
    rw [hch₁.others ip he.ne]
    exact hfile
  refine .bind (unlinkDots_calm (he.calm hc hch₁ hfile) hE (hch₁.locked he.dp_locked) hfile₁)
    fun s₂ h₂ => ?_
  obtain ⟨hc₂, hsame₂⟩ := h₂
  have hsame := hch₁.sameCache.trans hsame₂
  refine .bind (State.iunlockput_calm hc₂ hE) fun s₃ h₃ => ?_
  have hlocks₃ : s₃.locks = oneLock ip := by
    rw [h₃.locks_eq, hsame.locks_eq, he.locks_eq, update_comm he.ne, update_oneLock]
    rfl
  obtain ⟨hip₃, hinum₃⟩ := h₃.locked he.ne (hsame.locked he.ip_locked)
    ((congrFun (h₃.locks_eq.symm.trans hlocks₃) ip).trans (update_self ..))
  rw [hsame.inum_eq] at hinum₃
  refine .bind (State.modify_steady (f := fun d => { d with nlink := d.nlink - 1 })
    h₃.calm.toSteady hE hip₃ ⟨rfl, rfl, rfl⟩) fun s₄ h₄ => ?_
  obtain ⟨⟨hs₄, hch₄⟩, -⟩ := h₄
  have hc₄ := hch₄.uncountLink hip₃ hs₄ (hinum₃.symm ▸ h₃.calm)
  refine .bind (State.iunlockput_calm hc₄ hE) fun s₅ h₅ => .pure (h₅.calm.ended ?_)
  rw [h₅.locks_eq, hch₄.locks_eq, hlocks₃, update_oneLock]

/-- What `iunlockput` has done, in a state whose directories are not arranged. -/
structure Released (E : Panic → Prop) (sb : Superblock) (s : State) (k : Fin NINODE)
    (s' : State) : Prop where
  steady : Steady E sb s'
  locks_eq : s'.locks = update s.locks k false
  others : ∀ l ≠ k, s'.icache l = s.icache l
  node_eq : sb.node s'.disk =
    if Frees s k then update (sb.node s.disk) (s.icache k).inum none else sb.node s.disk

theorem iunlockput_steady (hs : Steady E sb s) (hE : Lax E) :
    Ends E (s.iunlockput sb k) (Released E sb s k) := by
  unfold State.iunlockput
  refine .bind (State.iunlock_steady hs hE) fun s₁ h₁ => ?_
  obtain ⟨hs₁, hu⟩ := h₁
  have hfree : s₁.locks k = false := by rw [hu.locks_eq, update_self]
  refine (State.iput_steady hs₁ hE (hu.moves.pos hu.ref_pos) (.inr hfree)).mono fun s₂ h₂ => ?_
  obtain ⟨⟨hs₂, hp⟩, -⟩ := h₂
  have hk : s₁.icache k = { s.icache k with locked := false } := by
    rw [hu.eq, icache_setInode_self]
  have hfrees : Frees s₁ k ↔ Frees s k := by
    unfold Frees
    rw [hk]
  refine ⟨hs₂, hp.locks_eq.trans hu.locks_eq, fun l hl => ?_, ?_⟩
  · rw [hp.others l hl, hu.eq, icache_setInode_of_ne _ hl]
  · rw [hp.node_eq, hu.disk_eq, hu.inum_eq, if_congr hfrees rfl rfl]

theorem of_update_none {x : ℕ} {nd : Node} (h : update N i none x = some nd) :
    N x = some nd := by
  grind

/-- The directories when an empty one has gone. -/
theorem rmdir_calm (he : Erasing sb s dp ip name off) (hc : Calm E sb 0 s) (hno : ¬ E .noType)
    (hdir : (s.icache ip).copy.type = T_DIR)
    (hempty : ∀ e ∈ (entries (s.dataOf ip)).drop 2, e.inum = 0) :
    ((s.nodeAt dp).without off).nlink ≠ 0 ∧ (s.icache ip).copy.nlink = 1 ∧
      ∀ s', Steady E sb s' → sb.node s'.disk = update (update (sb.node s.disk)
        (s.icache dp).inum (some ((s.nodeAt dp).without off))) (s.icache ip).inum none →
        Calm E sb 0 s' := by
  obtain ⟨harr, hshort⟩ := hc.arranged.resolve_left hno
  have hnode := hc.node_eq he.dp_locked
  have hnodei := hc.node_eq he.ip_locked
  have hne : (s.icache dp).inum ≠ (s.icache ip).inum :=
    hc.wf.ne_of_inum he.ip_locked.1 he.dp_locked.1 he.ne.symm
  obtain ⟨harr', hlinks⟩ :=
    harr.rmdir hnode he.dir he.name_ne he.lookup_eq hnodei hdir hempty
  have hpos : 0 < (s.nodeAt dp).nlink.toNat := by
    have hnz := harr.nlink_ne_of_dir hnode he.dir
    exact Nat.pos_of_ne_zero fun hz => hnz (UInt16.toNat_inj.mp hz)
  refine ⟨?_, ?_, fun s' hs' heq => ⟨hs', hc.root_lt, ?_, .inr ⟨heq ▸ harr', ?_⟩⟩⟩
  · refine harr'.nlink_ne_of_dir (i := (s.icache dp).inum) ?_ he.dir
    rw [update_of_ne hne, update_self]
    rfl
  · have hcount := harr.nlink _ _ hnodei
    rw [hlinks] at hcount
    exact UInt16.toNat_inj.mp hcount
  · rw [heq]
    have hr : InRange sb.ninodes (update (sb.node s.disk) (s.icache dp).inum
        (some ((s.nodeAt dp).without off))) :=
      hc.inRange.update fun _ => lt_of_mem_erase he.lookup_eq (hc.inRange _ _ hnode he.dir)
        (Nat.zero_lt_of_lt hc.root_lt)
    exact fun x nd hx => hr x nd (of_update_none hx)
  · rw [heq]
    have hlt : (s.nodeAt dp).nlink.toNat < 2 ^ 15 := hshort _ (s.nodeAt dp) hnode
    have hs : Short (update (sb.node s.disk) (s.icache dp).inum
        (some ((s.nodeAt dp).without off))) := by
      refine hshort.update ?_
      change ((s.nodeAt dp).nlink - 1).toNat < 2 ^ 15
      rw [toNat_pred hpos]
      omega
    exact fun x nd hx => hs x nd (of_update_none hx)

theorem unlinkDots_dir (hs : Steady E sb s) (hE : Lax E) (hdp : s.Locked dp)
    (hdir : (s.icache ip).copy.type = T_DIR) :
    Ends E (unlinkDots sb s dp ip) fun s' => Steady E sb s' ∧
      Changed sb s dp { s.nodeAt dp with nlink := (s.nodeAt dp).nlink - 1 } s' := by
  unfold unlinkDots
  rw [if_pos hdir]
  exact (State.modify_steady (f := fun d => { d with nlink := d.nlink - 1 }) hs hE hdp
    ⟨rfl, rfl, rfl⟩).mono fun s' h' => h'.1

/-- `unlink` of an empty directory that nobody else refers to. -/
theorem unlinkEntry_dir (he : Erasing sb s dp ip name off) (hc : Calm E sb 0 s) (hE : Lax E)
    (hno : ¬ E .noType) (hdir : (s.icache ip).copy.type = T_DIR)
    (hempty : ∀ e ∈ (entries (s.dataOf ip)).drop 2, e.inum = 0) (href : (s.icache ip).ref = 1) :
    Ends E (unlinkEntry sb dev s dp ip off) (Ended E sb) := by
  have hlax : E .unlinkWritei :=
    hE.allows Panic.noConfusion Panic.noConfusion Panic.noConfusion Panic.noConfusion
  obtain ⟨hnlink, hone, hcalm⟩ := rmdir_calm he hc hno hdir hempty
  unfold unlinkEntry
  refine .bind (State.writeDirent_steady hc.toSteady hE he.dp_locked he.dir .empty hlax)
    fun s₁ h₁ => ?_
  obtain ⟨⟨hs₁, hch₁⟩, -⟩ := h₁
  have hdp₁ := hch₁.locked he.dp_locked
  refine .bind (unlinkDots_dir hs₁ hE hdp₁ (by rw [hch₁.others ip he.ne]; exact hdir))
    fun s₂ h₂ => ?_
  obtain ⟨hs₂, hch₂⟩ := h₂
  rw [hch₁.nodeAt_self he.dp_locked] at hch₂
  change Changed sb s₁ dp ((s.nodeAt dp).without off) s₂ at hch₂
  -- the parent has links left, so it stays
  have hkept : ¬ Frees s₂ dp := by
    rintro ⟨-, hz, -⟩
    rw [← hch₂.nodeAt_self hdp₁] at hnlink
    exact hnlink hz
  refine .bind (iunlockput_steady hs₂ hE) fun s₃ h₃ => ?_
  have hnode₃ : sb.node s₃.disk = update (sb.node s.disk) (s.icache dp).inum
      (some ((s.nodeAt dp).without off)) := by
    rw [h₃.node_eq, if_neg hkept, hch₂.node_eq, hch₁.inum_eq, hch₁.node_eq, update_idem]
  have hip₃ : s₃.icache ip = s.icache ip := by
    rw [h₃.others ip he.ne, hch₂.others ip he.ne, hch₁.others ip he.ne]
  have hlocked₃ : s₃.Locked ip := by
    unfold State.Locked
    rw [hip₃]
    exact he.ip_locked
  have hlocks₃ : s₃.locks = oneLock ip := by
    rw [h₃.locks_eq, hch₂.locks_eq, hch₁.locks_eq, he.locks_eq, update_comm he.ne,
      update_oneLock]
    rfl
  refine .bind (State.modify_steady (f := fun d => { d with nlink := d.nlink - 1 })
    h₃.steady hE hlocked₃ ⟨rfl, rfl, rfl⟩) fun s₄ h₄ => ?_
  obtain ⟨⟨hs₄, hch₄⟩, -⟩ := h₄
  -- its last link and its last reference have gone
  have hfrees : Frees s₄ ip := by
    refine ⟨(hch₄.locked hlocked₃).2.2, ?_, ?_⟩
    · have hz := congrArg Node.nlink (hch₄.nodeAt_self hlocked₃)
      dsimp only at hz
      rw [hip₃, hone] at hz
      exact hz
    · rw [hch₄.ref_eq, hip₃]
      exact href
  refine .bind (iunlockput_steady hs₄ hE) fun s₅ h₅ => .pure (Calm.ended (hcalm s₅ h₅.steady ?_) ?_)
  · rw [h₅.node_eq, if_pos hfrees, hch₄.node_eq, hch₄.inum_eq, hip₃, hnode₃, update_idem]
  · rw [h₅.locks_eq, hch₄.locks_eq, hlocks₃, update_oneLock]

theorem unlinkBad_calm (hc : Calm E sb 0 s) (hE : Lax E) (hlocks : s.locks = oneLock dp) :
    Ends E (unlinkBad sb s dp) (Ended E sb) := by
  unfold unlinkBad
  refine .bind (State.iunlockput_calm hc hE) fun s₁ h₁ => .pure (h₁.calm.ended ?_)
  rw [h₁.locks_eq, hlocks, update_oneLock]

theorem unlinkable_ends (hwf : WellFormed sb s) (hE : Lax E) (hip : s.Locked ip) :
    Ends E (unlinkable sb dev s ip) fun r => r.2 = s ∧ (r.1 = true →
      (s.icache ip).copy.type = T_DIR → ∀ e ∈ (entries (s.dataOf ip)).drop 2, e.inum = 0) := by
  unfold unlinkable
  refine .ite (fun hdir => ?_) fun hfile => .pure ⟨rfl, fun _ hdir => (hfile hdir).elim⟩
  refine (State.isdirempty_ends hwf hE hip hdir).mono fun r hr => ?_
  grind

/-- `unlink` with both inodes locked. -/
theorem unlinkEntry_calm (he : Erasing sb s dp ip name off) (hc : Calm E sb 0 s) (hE : Lax E)
    (hempty : (s.icache ip).copy.type = T_DIR →
      ∀ e ∈ (entries (s.dataOf ip)).drop 2, e.inum = 0)
    (href : E .noType ∨ ((s.icache ip).copy.type = T_DIR → (s.icache ip).ref = 1)) :
    Ends E (unlinkEntry sb dev s dp ip off) (Ended E sb) := by
  grind [unlinkEntry_file, unlinkEntry_dir]

/-- The entry has been looked up and both inodes are locked. -/
theorem erasing_of_lookup {s₁ s₂ : State} (hdp : s.Locked dp) (hlocks : s₁.locks = oneLock dp)
    (hdir : (s.icache dp).copy.type = T_DIR)
    (hname : namecmp name dot ≠ 0 ∧ namecmp name dotdot ≠ 0)
    (hlookup : lookup (s.dataOf dp) name = some (i, off)) (hgot : Got i s ip s₁)
    (hlock : Locks sb s₁ ip s₂) : Erasing sb s₂ dp ip name off := by
  have hne : ip ≠ dp := by
    rintro rfl
    have hheld : s₁.locks ip = true := by
      rw [hlocks]
      exact update_self ..
    exact Bool.noConfusion (hheld.symm.trans hlock.unlocked)
  have hicache : s₂.icache dp = s.icache dp := by
    rw [hlock.others hne.symm, hgot.eq, icache_setInode_of_ne _ hne.symm]
  have hdata : s₂.dataOf dp = s.dataOf dp := by
    unfold State.dataOf
    rw [hicache, hlock.disk_eq, hgot.disk_eq]
  refine ⟨?_, hlock.locked, hne, ?_, hicache ▸ hdir, hname, ?_⟩
  · unfold State.Locked
    rw [hicache]
    exact hdp
  · rw [hlock.locks_eq, hlocks]
  · rw [hdata, hlock.inum_eq, hgot.inum]
    exact hlookup

/-- An inode nobody referred to when the call began has one reference once it is looked up. -/
theorem ref_eq_one {s₁ s₂ s₃ s₄ : State} {find : (ℕ → Option Node) → Option (ℕ × List UInt8)}
    (hw : Walked E sb δ 0 s find (some (dp, name), s₁)) (hlock : Locks sb s₁ dp s₂)
    (hgot : Got i s₂ ip s₃) (hlock' : Locks sb s₃ ip s₄) (hne : ip ≠ dp) (hnot : ¬ InUse s i) :
    (s₄.icache ip).ref = 1 := by
  have hzero : (s₂.icache ip).ref = 0 := by
    by_contra href
    have hpos₂ := Nat.pos_of_ne_zero href
    have href := ((hw.moves.congr (sub_zero _)).before hlock.moves).ref_eq ip
    change ((s₂.icache ip).ref : ℤ) = (s.icache ip).ref + single dp ip at href
    rw [single_apply, if_neg hne] at href
    have hpos : 0 < (s.icache ip).ref := by omega
    refine hnot ⟨ip, hpos, ?_⟩
    rw [← (hw.keeps.kept_pos hpos).1, ← hlock.inum_eq]
    exact hgot.inum_eq hpos₂
  have href := ((moves_got hgot).before hlock'.moves).ref_eq ip
  rw [hzero, single_apply, if_pos rfl] at href
  exact Int.ofNat_inj.mp href

/-- If `unlink` returns, it has not come to a directory through its own entry. -/
theorem unlinkFs_calm (hr : Rests E sb s) (hE : Lax E) (hcwd : 0 < (s.icache cwd).ref)
    (hself : E .held ∨ ¬ UnlinksParent (sb.node s.disk) (s.icache cwd).inum path)
    (hused : E .noType ∨ ∀ i, Removes (sb.node s.disk) (s.icache cwd).inum path i → ¬ InUse s i) :
    Ends E (unlinkFs sb dev s cwd path) fun s' =>
      Rests E sb s' ∧ ¬ UnlinksParent (sb.node s.disk) (s.icache cwd).inum path := by
  have hlax : E .unlinkNlink :=
    hE.allows Panic.noConfusion Panic.noConfusion Panic.noConfusion Panic.noConfusion
  refine ends_transaction_and hr (unlinkFs_moves path hcwd) fun s₁ h₁ => ?_
  unfold InUse at hused
  rw [← h₁.icache_eq] at hcwd hself hused ⊢
  rw [← h₁.disk_eq] at hself hused ⊢
  have ha := (Drops.refl (sb.node s₁.disk)).alike
  unfold State.nameiparent
  refine .bind (State.namex_calm hE h₁.calm path hcwd h₁.locks_eq) fun r₂ h₂ => ?_
  obtain ⟨found, s₂⟩ := r₂
  obtain ⟨hc₂, hfree₂, hkeeps₂, hmoves₂, -⟩ := id h₂
  dsimp only at hc₂ hfree₂ hkeeps₂ hmoves₂ ⊢
  rw [sub_zero] at hmoves₂
  cases found with
  | none =>
    refine .pure ⟨hc₂.ended hfree₂, ?_⟩
    rintro ⟨d, name, off, hnames, -⟩
    exact h₂.not_names ha hnames
  | some q =>
    obtain ⟨dp, name⟩ := q
    refine .bind (State.ilock_calm hc₂ hE hmoves₂.pos_single (.inr (congrFun hfree₂ dp)))
      fun s₃ h₃ => ?_
    obtain ⟨hc₃, hlock⟩ := h₃
    have hlocks₃ := hlock.oneLock hfree₂
    -- what the path names is what `dirlookup` finds below
    have hparent (hfind : ∀ off, (namecmp name dot ≠ 0 ∧ namecmp name dotdot ≠ 0) →
        lookup (s₃.dataOf dp) name ≠ some ((s₃.icache dp).inum, off)) :
        ¬ UnlinksParent (sb.node s₁.disk) (s₁.icache cwd).inum path := by
      rintro ⟨d, name', off, hnames, hne⟩
      obtain ⟨rfl, rfl, hlookup⟩ := (h₂.names_iff ha hlock hc₃.wf).mp hnames
      exact hfind off hne hlookup
    refine .ite (fun hdots => ?_) fun hname => ?_
    · refine (unlinkBad_calm hc₃ hE hlocks₃).mono fun s' hs' => ⟨hs', hparent fun off hne _ => ?_⟩
      exact not_or.mpr hne hdots
    refine .bind (State.dirlookup_calm hc₃ hE hlock.locked) fun r₄ h₄ => ?_
    obtain ⟨found, s₄⟩ := r₄
    have hlocks₄ : s₄.locks = oneLock dp := h₄.locks_eq.trans hlocks₃
    cases found with
    | none =>
      refine (unlinkBad_calm h₄.calm hE hlocks₄).mono fun s' hs' => ⟨hs', hparent fun off _ => ?_⟩
      rw [h₄.finds.of_none.1]
      exact (Option.some_ne_none _).symm
    | some q =>
      obtain ⟨ip, off⟩ := q
      obtain ⟨i, hlookup, hgot⟩ := h₄.finds.of_some
      have hname' : namecmp name dot ≠ 0 ∧ namecmp name dotdot ≠ 0 := not_or.mp hname
      have hnames := (h₂.names_iff ha hlock hc₃.wf).mpr ⟨rfl, rfl, hlookup⟩
      have hfree₄ : E .held ∨ s₄.locks ip = false := by
        refine hself.imp_right fun hnot => ?_
        rw [hlocks₄]
        refine update_of_ne ?_ ..
        rintro rfl
        have hi : (s₃.icache ip).inum = i := hgot.inum_eq hlock.locked.1
        exact hnot ⟨i, name, off, hi ▸ hnames, hname'⟩
      refine .bind (State.ilock_calm h₄.calm hE hgot.ref_pos hfree₄) fun s₅ h₅ => ?_
      obtain ⟨hc₅, hlock₅⟩ := h₅
      have he := erasing_of_lookup hlock.locked hlocks₄ h₄.dir hname' hlookup hgot hlock₅
      have hapart := hparent fun off' _ hself' => by
        obtain ⟨rfl, -⟩ := Prod.mk.inj (Option.some.inj (hlookup.symm.trans hself'))
        exact he.ne (hc₃.wf.got_entry_eq hgot hlock.locked.1 rfl)
      refine .ite (fun _ => .error hlax) fun _ => ?_
      refine .bind (unlinkable_ends hc₅.wf hE hlock₅.locked) fun r₆ h₆ => ?_
      obtain ⟨ok, s₆⟩ := r₆
      obtain ⟨heq, hempty⟩ := h₆
      obtain rfl : s₅ = s₆ := heq.symm
      refine .ite (fun _ => ?_) fun hok => ?_
      · refine .bind (State.iunlockput_calm hc₅ hE) fun s₇ h₇ =>
          (unlinkBad_calm h₇.calm hE ?_).mono fun s' hs' => ⟨hs', hapart⟩
        rw [h₇.locks_eq, he.locks_eq, update_idem]
        have hfalse : oneLock dp ip = false := update_of_ne he.ne ..
        exact update_eq_self_iff.mpr hfalse.symm
      · have hok' := Bool.eq_true_of_not_eq_false hok
        refine (unlinkEntry_calm he hc₅ hE (hempty hok') (hused.imp_right fun hnot hdir =>
          ?_)).mono fun s' hs' => ⟨hs', hapart⟩
        have hnode₅ := hc₅.node_eq hlock₅.locked
        rw [hlock₅.inum_eq, hgot.inum] at hnode₅
        refine ref_eq_one h₂ hlock hgot hlock₅ he.ne fun hinuse => hnot i ?_ hinuse
        refine ⟨_, name, off, s₅.nodeAt ip, hnames, hname', ?_, hdir, hempty hok' hdir⟩
        refine hkeeps₂.drops.eq_of_some ?_
        rw [← hlock.disk_eq, ← hgot.disk_eq, ← hlock₅.disk_eq]
        exact hnode₅

end Sys

end Xv6.Fs
