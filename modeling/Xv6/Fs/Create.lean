/-
# Creating files and directories

`create` returns the inode of the path locked, an old one or a new one. A new directory has
its two entries before it gets a name, and its parent one link more.
-/

import Xv6.Fs.Change
import Xv6.Fs.Held

namespace Xv6.Fs

open Function Xv6.Lib

variable {E : Panic → Prop} {sb : Superblock} {dev : Devsw} {s s' : State} {δ : ℕ → ℕ}
  {k dp ip cwd : Fin NINODE} {i : ℕ} {name path : List UInt8} {type major minor : UInt16}

/-- The contents `create` gives a directory `i` in the directory `d`. -/
def Node.withDots (nd : Node) (i d : ℕ) : Node := (nd.withEntry dot i).withEntry dotdot d

theorem Node.entries_dot {nd : Node} (h : nd.data = []) : State.Whole (nd.withEntry dot i).data ∧
    entries (nd.withEntry dot i).data = [Dirent.stored ⟨i, dot⟩] := by
  have hwhole : State.Whole nd.data := by rw [h]; rfl
  have hentries := entries_withEntry hwhole dot i
  rw [h] at hentries
  exact hentries

theorem Node.lookup_dotdot {nd : Node} (h : nd.data = []) :
    lookup (nd.withEntry dot i).data dotdot = none := by
  refine lookupIn_eq_none.mpr fun e he _ => ?_
  rw [(Node.entries_dot h).2, List.mem_singleton] at he
  subst he
  change namecmp dotdot (strncpy dot DIRSIZ) ≠ 0
  decide

theorem Node.entries_withDots {nd : Node} {d : ℕ} (h : nd.data = []) (hi : i % 2 ^ 16 ≠ 0) :
    State.Whole (nd.withDots i d).data ∧ entries (nd.withDots i d).data =
      [Dirent.stored ⟨i, dot⟩, Dirent.stored ⟨d, dotdot⟩] := by
  obtain ⟨hwhole, hentries⟩ := Node.entries_dot (i := i) h
  obtain ⟨hwhole', hentries'⟩ := entries_withEntry hwhole dotdot d
  refine ⟨hwhole', hentries'.trans ?_⟩
  have hslot : State.freeSlot (nd.withEntry dot i).data = 1 := by
    unfold State.freeSlot
    have hused : ¬ (Dirent.stored ⟨i, dot⟩).inum = 0 := hi
    rw [hentries, List.findIdx_cons, decide_eq_false hused]
    rfl
  rw [hslot, hentries]
  rfl

/-- The new inode before it has a name. -/
def Node.dotted (nd : Node) (type : UInt16) (i d : ℕ) : Node :=
  if type = T_DIR then nd.withDots i d else nd

/-- Its parent then. -/
def Node.counted (nd : Node) (type : UInt16) : Node :=
  if type = T_DIR then { nd with nlink := nd.nlink + 1 } else nd

theorem Node.data_counted (nd : Node) (type : UInt16) : (nd.counted type).data = nd.data := by
  unfold Node.counted
  split <;> rfl

/-- What `create` does for a directory before the name is written. -/
structure Dotted (E : Panic → Prop) (sb : Superblock) (s : State) (type : UInt16)
    (ip dp : Fin NINODE) (s' : State) : Prop where
  steady : Steady E sb s'
  same : SameCache s s'
  moves : Moves 0 s s'
  node_eq : sb.node s'.disk = update (update (sb.node s.disk)
    (s.icache dp).inum (some ((s.nodeAt dp).counted type)))
    (s.icache ip).inum (some ((s.nodeAt ip).dotted type (s.icache ip).inum (s.icache dp).inum))

/-- The node of a locked entry. -/
theorem Steady.node_eq (hs : Steady E sb s) (hk : s.Locked k) :
    sb.node s.disk (s.icache k).inum = some (s.nodeAt k) := hs.wf.node_eq hk.1 hk.2.2

theorem State.createDots_steady (hs : Steady E sb s) (hE : Lax E) (hip : s.Locked ip)
    (hdp : s.Locked dp) (hne : ip ≠ dp) (hdata : (s.nodeAt ip).data = []) :
    Ends E (s.createDots sb dev type ip dp) (Dotted E sb s type ip dp) := by
  unfold State.createDots
  refine .ite (fun hdir => ?_) fun hfile => .pure ⟨hs, SameCache.refl s, Moves.refl s, ?_⟩
  rotate_left
  · unfold Node.counted Node.dotted
    rw [if_neg hfile, if_neg hfile, ← hs.node_eq hdp, update_eq_self, ← hs.node_eq hip,
      update_eq_self]
  have hf : SameFile (s.icache dp).copy { (s.icache dp).copy with
    nlink := (s.icache dp).copy.nlink + 1 } := ⟨rfl, rfl, rfl⟩
  refine .bind (State.modify_steady (f := fun d => { d with nlink := d.nlink + 1 }) hs hE hdp hf)
    fun s₁ h₁ => ?_
  obtain ⟨⟨hs₁, hc₁⟩, hm₁⟩ := h₁
  have hip₁ := hc₁.locked hip
  have hnode₁ : s₁.nodeAt ip = s.nodeAt ip := hc₁.nodeAt_of_ne hs.wf hip hdp hne
  have hlookup₁ : lookup (s₁.dataOf ip) dot = none := by
    change lookup (s₁.nodeAt ip).data dot = none
    rw [hnode₁, hdata]
    rfl
  refine .bind (State.dirlink_new hs₁ hE hip₁ hlookup₁) fun r₂ h₂ => ?_
  obtain ⟨ok, s₂⟩ := r₂
  obtain ⟨rfl, hs₂, -, -, hc₂, hm₂⟩ := h₂
  dsimp only at hs₂ hc₂ hm₂ ⊢
  rw [if_neg Bool.noConfusion]
  have hip₂ := hc₂.locked hip₁
  have hnode₂ := hc₂.nodeAt_self hip₁
  rw [hnode₁, hc₁.inum_eq] at hnode₂
  have hlookup₂ : lookup (s₂.dataOf ip) dotdot = none := by
    change lookup (s₂.nodeAt ip).data dotdot = none
    rw [hnode₂]
    exact Node.lookup_dotdot hdata
  refine .bind (State.dirlink_new hs₂ hE hip₂ hlookup₂) fun r₃ h₃ => ?_
  obtain ⟨ok, s₃⟩ := r₃
  obtain ⟨rfl, hs₃, -, -, hc₃, hm₃⟩ := h₃
  dsimp only at hs₃ hc₃ hm₃ ⊢
  rw [if_neg Bool.noConfusion]
  refine .pure ⟨hs₃, (hc₁.sameCache.trans hc₂.sameCache).trans hc₃.sameCache,
    (hm₁.before hm₂).before hm₃, ?_⟩
  have hinum₂ : ∀ l, (s₂.icache l).inum = (s.icache l).inum := fun l =>
    (hc₂.inum_eq l).trans (hc₁.inum_eq l)
  unfold Node.counted Node.dotted
  rw [if_pos hdir, if_pos hdir, hc₃.node_eq, hc₂.node_eq, hc₁.node_eq, hnode₂, hinum₂, hinum₂,
    hc₁.inum_eq, update_idem]
  rfl

/-- What is known of the directory that gets the new name, and of the new inode. -/
structure Creates (sb : Superblock) (N : ℕ → Option Node) (name : List UInt8) (d i : ℕ)
    (nd : Node) : Prop where
  parent : N d = some nd
  dir : nd.type = T_DIR
  whole : State.Whole nd.data
  new : lookup nd.data name = none
  free : N i = none
  lt : i < sb.ninodes
  pos : i ≠ 0

namespace Creates

variable {N : ℕ → Option Node} {d : ℕ} {nd ndi : Node}

theorem ne (h : Creates sb N name d i nd) : d ≠ i := by
  rintro rfl
  have hparent := h.parent
  rw [h.free] at hparent
  cases hparent

theorem inRange (h : Creates sb N name d i nd) (hr : InRange sb.ninodes N) (hd : d < sb.ninodes)
    (hdata : ndi.data = []) (htype : ndi.type = type) :
    InRange sb.ninodes (update (update N d
      (some ((nd.counted type).withEntry name i))) i (some (ndi.dotted type i d))) := by
  have hcounted := Node.data_counted nd type
  refine (hr.update fun _ => ?_).update fun hdir => ?_
  · refine lt_of_mem_withEntry (hcounted ▸ h.whole) ?_ h.lt
    rw [hcounted]
    exact hr d nd h.parent h.dir
  · unfold Node.dotted at hdir ⊢
    by_cases hT : type = T_DIR
    · rw [if_pos hT] at hdir ⊢
      obtain ⟨hwhole, hentries⟩ := Node.entries_dot (i := i) hdata
      refine lt_of_mem_withEntry hwhole ?_ hd
      refine lt_of_mem_withEntry (by rw [hdata]; rfl) ?_ h.lt
      rw [hdata]
      intro e he
      cases he
    · rw [if_neg hT] at hdir
      exact (hT (htype.symm.trans hdir)).elim

theorem short (h : Creates sb N name d i nd) (hs : Short N) (hnlink : ndi.nlink = 1)
    (hroom : type = T_DIR → nd.nlink.toNat + 1 < 2 ^ 15) :
    Short (update (update N d
      (some ((nd.counted type).withEntry name i))) i (some (ndi.dotted type i d))) := by
  refine (hs.update ?_).update ?_
  · change (nd.counted type).nlink.toNat < 2 ^ 15
    unfold Node.counted
    split
    · next hT =>
      grind [UInt16.toNat_add]
    · exact hs d nd h.parent
  · have hone : (ndi.dotted type i d).nlink = 1 := by
      unfold Node.dotted
      split
      · exact hnlink
      · exact hnlink
    rw [hone]
    decide

theorem arranged (h : Creates sb N name d i nd) (ha : Arranged sb.ninodes 0 N)
    (hdata : ndi.data = []) (htype : ndi.type = type) (hnlink : ndi.nlink = 1)
    (hroom : type = T_DIR → nd.nlink.toNat + 1 < 2 ^ 15) :
    Arranged sb.ninodes 0 (update (update N d
      (some ((nd.counted type).withEntry name i))) i (some (ndi.dotted type i d))) := by
  unfold Node.counted Node.dotted
  have hmod : ∀ x < sb.ninodes, x % 2 ^ 16 = x := fun x hx =>
    Nat.mod_eq_of_lt (Nat.lt_of_lt_of_le hx ha.small)
  by_cases hT : type = T_DIR
  · rw [if_pos hT, if_pos hT]
    have hdlt := ha.bound d nd h.parent
    obtain ⟨hwhole, hentries⟩ := Node.entries_withDots (d := d) hdata ((hmod i h.lt).symm ▸ h.pos)
    have hname : ∀ name, namecmp (strncpy name DIRSIZ) name = 0 := fun name =>
      (namecmp_strncpy name name).mpr (namecmp_self name)
    exact ha.mkdir h.parent h.dir h.new (Nat.lt_trans (hroom hT) (by decide)) h.free h.lt h.pos
      (htype.trans hT) hwhole hentries ⟨hmod i h.lt, hname dot⟩ ⟨hmod d hdlt, hname dotdot⟩ hnlink
      rfl
  · rw [if_neg hT, if_neg hT, update_comm h.ne]
    have hfile : ndi.type ≠ T_DIR := htype ▸ hT
    have hnew : Arranged sb.ninodes (Pi.single i 1) (update N i (some ndi)) := by
      refine ha.newFile h.free h.lt h.pos hfile ?_ fun x hx => ?_
      · rw [hnlink, Pi.single_eq_same]
        rfl
      · rw [Pi.single_eq_of_ne hx]
        rfl
    refine hnew.link ?_ h.dir h.new (update_self ..) hfile ?_ fun x hx => ?_
    · rw [update_of_ne h.ne]
      exact h.parent
    · rw [Pi.single_eq_same]
      rfl
    · rw [Pi.single_eq_of_ne hx]
      rfl

end Creates

/-- No link count is at the end of its range. -/
def Roomy (N : ℕ → Option Node) : Prop := ∀ i nd, N i = some nd → nd.nlink.toNat + 1 < 2 ^ 15

theorem Roomy.drops {N N' : ℕ → Option Node} (hr : Roomy N) (hd : Drops N N') : Roomy N' :=
  fun i nd hi => hr i nd (hd.eq_of_some hi)

/-- What `create` leaves when it returns the inode in entry `k`. -/
structure Created (E : Panic → Prop) (sb : Superblock) (k : Fin NINODE) (s' : State) : Prop where
  calm : Calm E sb 0 s'
  locks_eq : s'.locks = oneLock k
  locked : s'.Locked k

/-- The inode `i` has been allocated for a new name in the directory in entry `dp`. -/
structure Prepared (E : Panic → Prop) (sb : Superblock) (s : State) (dp ip : Fin NINODE) (i : ℕ)
    (ndi : Node) (s' : State) : Prop where
  steady : Steady E sb s'
  ne : dp ≠ ip
  dp_eq : s'.icache dp = s.icache dp
  inum_eq : (s'.icache ip).inum = i
  locked : s'.Locked ip
  locks_eq : s'.locks = update s.locks ip true
  lt : i < sb.ninodes
  pos : i ≠ 0
  was_free : sb.node s.disk i = none
  node_eq : sb.node s'.disk = update (sb.node s.disk) i (some ndi)

theorem Fresh.prepared {s₁ : State} (hf : Fresh E sb s type i ip s₁) (hne : dp ≠ ip)
    (hs : Steady E sb s') (hc : Changed sb s₁ ip ⟨type, major, minor, 1, []⟩ s') :
    Prepared E sb s dp ip i ⟨type, major, minor, 1, []⟩ s' := by
  refine ⟨hs, hne, (hc.others dp hne).trans (hf.others dp hne), (hc.inum_eq ip).trans hf.inum_eq,
    hc.locked hf.locked, hc.locks_eq.trans hf.locks_eq, hf.lt, hf.pos, hf.was_free, ?_⟩
  rw [hc.node_eq, hf.inum_eq, hf.node_eq, update_idem]

namespace Prepared

variable {ndi : Node}

section

variable (hp : Prepared E sb s dp ip i ndi s')

include hp

theorem locked_dp (hdp : s.Locked dp) : s'.Locked dp := by
  unfold State.Locked
  rw [hp.dp_eq]
  exact hdp

theorem nodeAt_ip : s'.nodeAt ip = ndi := by
  have hnode := hp.steady.node_eq hp.locked
  rw [hp.inum_eq, hp.node_eq, update_self] at hnode
  exact (Option.some.inj hnode).symm

theorem creates (hs : Steady E sb s) (hdp : s.Locked dp) (hdir : (s.icache dp).copy.type = T_DIR)
    (hnew : lookup (s.dataOf dp) name = none) (hwhole : State.Whole (s.dataOf dp)) :
    Creates sb (sb.node s.disk) name (s.icache dp).inum i (s.nodeAt dp) :=
  ⟨hs.node_eq hdp, hdir, hwhole, hnew, hp.was_free, hp.lt, hp.pos⟩

theorem nodeAt_dp (hs : Steady E sb s) (hdp : s.Locked dp) (hne : (s.icache dp).inum ≠ i) :
    s'.nodeAt dp = s.nodeAt dp := by
  have hnode := hp.steady.node_eq (hp.locked_dp hdp)
  rw [hp.dp_eq, hp.node_eq, update_of_ne hne, hs.node_eq hdp] at hnode
  exact (Option.some.inj hnode).symm

end

end Prepared

/-- The directories after the new name has been written. -/
theorem Creates.calm {ndi : Node} (hn : Creates sb (sb.node s.disk) name (s.icache dp).inum i
      (s.nodeAt dp)) (hc : Calm E sb 0 s) (hs : Steady E sb s') (hdp : s.Locked dp)
    (hdata : ndi.data = []) (htype : ndi.type = type) (hnlink : ndi.nlink = 1)
    (hroom : E .noType ∨ (type = T_DIR → Roomy (sb.node s.disk)))
    (hnode : sb.node s'.disk = update (update (sb.node s.disk)
      (s.icache dp).inum (some (((s.nodeAt dp).counted type).withEntry name i))) i
      (some (ndi.dotted type i (s.icache dp).inum))) : Calm E sb 0 s' := by
  refine ⟨hs, hc.root_lt, ?_, ?_⟩
  · rw [hnode]
    exact hn.inRange hc.inRange (hc.wf.inum_lt dp hdp.1) hdata htype
  · by_cases hE : E .noType
    · exact .inl hE
    · obtain ⟨harr, hshort⟩ := hc.arranged.resolve_left hE
      have hlt : type = T_DIR → (s.nodeAt dp).nlink.toNat + 1 < 2 ^ 15 := fun hT =>
        hroom.resolve_left hE hT _ _ (hc.toSteady.node_eq hdp)
      rw [hnode]
      exact .inr ⟨hn.arranged harr hdata htype hnlink hlt, hn.short hshort hnlink hlt⟩

theorem State.createNew_calm (hc : Calm E sb 0 s) (hE : Lax E) (hdp : s.Locked dp)
    (hlocks : s.locks = oneLock dp) (hdir : (s.icache dp).copy.type = T_DIR)
    (hnew : lookup (s.dataOf dp) name = none) (hwhole : State.Whole (s.dataOf dp))
    (htype : type ≠ 0) (hroom : E .noType ∨ (type = T_DIR → Roomy (sb.node s.disk))) :
    Ends E (s.createNew sb dev dp name type major minor) fun r => Created E sb r.1 r.2 := by
  unfold State.createNew
  refine .bind ((State.ialloc_ends hc.wf hE).and (State.ialloc_moves type)) fun r₁ h₁ => ?_
  obtain ⟨ip, s₁⟩ := r₁
  obtain ⟨⟨i, halloc⟩, hmoves₁⟩ := h₁
  dsimp only at halloc hmoves₁ ⊢
  have hne : dp ≠ ip := halloc.ne_of_locked hc.wf hdp
  have hfree : s.locks ip = false := by
    rw [hlocks]
    exact update_of_ne hne.symm ..
  refine .bind (State.ilock_fresh halloc hmoves₁ hc.toSteady hE htype (.inr hfree)) fun s₂ h₂ => ?_
  have hnode₂ : s₂.nodeAt ip = { type := type } := by
    have hnode := h₂.steady.node_eq h₂.locked
    rw [h₂.inum_eq, h₂.node_eq, update_self] at hnode
    exact (Option.some.inj hnode).symm
  refine .bind (State.modify_steady (f := fun d =>
    { d with major := major, minor := minor, nlink := 1 }) h₂.steady hE h₂.locked ⟨rfl, rfl, rfl⟩)
    fun s₃ h₃ => ?_
  obtain ⟨⟨hs₃, hc₃⟩, -⟩ := h₃
  rw [hnode₂] at hc₃
  change Changed sb s₂ ip ⟨type, major, minor, 1, []⟩ s₃ at hc₃
  have hp := h₂.prepared hne hs₃ hc₃
  have hcreates := hp.creates hc.toSteady hdp hdir hnew hwhole
  have hnode₃ := hp.nodeAt_dp hc.toSteady hdp hcreates.ne
  have hdp₃ := hp.locked_dp hdp
  have hdata₃ : (s₃.nodeAt ip).data = [] := by rw [hp.nodeAt_ip]
  refine .bind (State.createDots_steady hs₃ hE hp.locked hdp₃ hne.symm hdata₃) fun s₄ h₄ => ?_
  have hdp₄ := h₄.same.locked hdp₃
  have hinum₄ : ∀ l, (s₄.icache l).inum = (s₃.icache l).inum := h₄.same.inum_eq
  have hnode₄ : s₄.nodeAt dp = (s.nodeAt dp).counted type := by
    have hnode := h₄.steady.node_eq hdp₄
    rw [hinum₄, h₄.node_eq, hp.inum_eq, hp.dp_eq, update_of_ne hcreates.ne,
      update_self, hnode₃] at hnode
    exact (Option.some.inj hnode).symm
  have hnew₄ : lookup (s₄.dataOf dp) name = none := by
    change lookup (s₄.nodeAt dp).data name = none
    rw [hnode₄, Node.data_counted]
    exact hnew
  refine .bind (State.dirlink_new h₄.steady hE hdp₄ hnew₄) fun r₅ h₅ => ?_
  obtain ⟨ok, s₅⟩ := r₅
  obtain ⟨rfl, hs₅, -, -, hc₅, -⟩ := h₅
  dsimp only at hs₅ hc₅ ⊢
  rw [if_neg Bool.noConfusion]
  have hcalm₅ : Calm E sb 0 s₅ := by
    have hdata : (Node.mk type major minor 1 []).data = [] := rfl
    refine hcreates.calm hc hs₅ hdp hdata rfl rfl hroom ?_
    grind [hc₅.node_eq, h₄.node_eq, hp.node_eq, hp.dp_eq, hp.inum_eq, hp.nodeAt_ip,
      update_comm, hcreates.ne, update_idem]
  have hlocks₅ : s₅.locks = update (oneLock dp) ip true := by
    rw [hc₅.locks_eq, h₄.same.locks_eq, hp.locks_eq, hlocks]
  refine .bind (State.iunlockput_calm hcalm₅ hE) fun s₆ h₆ => .pure ?_
  have hlocks₆ : s₆.locks = oneLock ip := by
    rw [h₆.locks_eq, hlocks₅, update_comm hne.symm, update_oneLock]
    rfl
  refine ⟨h₆.calm, hlocks₆, (h₆.locked hne.symm (hc₅.locked (h₄.same.locked hp.locked)) ?_).1⟩
  exact (congrFun (h₆.locks_eq.symm.trans hlocks₆) ip).trans (update_self ..)

theorem State.create_calm (hc : Calm E sb 0 s) (hE : Lax E) (hcwd : 0 < (s.icache cwd).ref)
    (hfree : s.locks = noLocks) (htype : type ≠ 0)
    (hroom : E .noType ∨ (type = T_DIR → Roomy (sb.node s.disk))) :
    Ends E (s.create sb dev cwd path type major minor) fun r =>
      match r.1 with
      | none => Calm E sb 0 r.2 ∧ r.2.locks = noLocks
      | some ip => Created E sb ip r.2 := by
  unfold State.create State.nameiparent
  refine .bind (State.namex_calm hE hc path hcwd hfree) fun r₁ h₁ => ?_
  obtain ⟨found, s₁⟩ := r₁
  cases found with
  | none => exact .pure ⟨h₁.calm, h₁.locks_eq⟩
  | some q =>
    obtain ⟨dp, name⟩ := q
    have hfree₁ : s₁.locks = noLocks := h₁.locks_eq
    have hdp₁ : 0 < (s₁.icache dp).ref := (h₁.moves.congr (sub_zero _)).pos_single
    refine .bind (State.ilock_calm h₁.calm hE hdp₁ (.inr (congrFun hfree₁ dp))) fun s₂ h₂ => ?_
    obtain ⟨hc₂, hlock⟩ := h₂
    have hlocks₂ := hlock.oneLock hfree₁
    refine .bind (State.dirlookup_calm hc₂ hE hlock.locked) fun r₃ h₃ => ?_
    obtain ⟨found, s₃⟩ := r₃
    cases found with
    | none =>
      obtain ⟨hlookup, rfl⟩ := h₃.finds.of_none
      refine .bind (State.createNew_calm hc₂ hE hlock.locked hlocks₂ h₃.dir hlookup
        (h₃.whole hlookup) htype (hroom.imp_right fun hr hT => ?_)) fun r₄ h₄ => .pure h₄
      exact (hr hT).drops (h₁.keeps.drops.trans (hlock.disk_eq ▸ Drops.refl _))
    | some q =>
      obtain ⟨ip, off⟩ := q
      refine .bind (State.iunlockput_calm h₃.calm hE) fun s₄ h₄ => ?_
      obtain ⟨i, -, -, hip₄⟩ := h₃.survives hlock.locked.1 h₄
      have hfree₄ : s₄.locks = noLocks := by
        rw [h₄.locks_eq, h₃.locks_eq, hlocks₂, update_oneLock]
      refine .bind (State.ilock_calm h₄.calm hE hip₄ (.inr (congrFun hfree₄ ip)))
        fun s₅ h₅ => ?_
      obtain ⟨hc₅, hlock₅⟩ := h₅
      have hlocks₅ := hlock₅.oneLock hfree₄
      refine .ite (fun _ => .pure ⟨hc₅, hlocks₅, hlock₅.locked⟩) fun _ => ?_
      refine .bind (State.iunlockput_calm hc₅ hE) fun s₆ h₆ => .pure ⟨h₆.calm, ?_⟩
      rw [h₆.locks_eq, hlocks₅, update_oneLock]

end Xv6.Fs
