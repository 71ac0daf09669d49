/-
# Changing a locked inode

`iupdate` of a field and writing a directory entry change one node of the table and leave
the cache as it is. Allocating an inode and locking it adds a node.
-/

import Xv6.Fs.Walk

namespace Xv6.Fs

open Function Xv6.Lib

/-- The node of the inode in entry `k`, if its copy is valid. -/
def State.nodeAt (s : State) (k : Fin NINODE) : Node := (s.icache k).copy.toNode s.disk

/-- The node of the locked inode in entry `k` has become `nd`. -/
structure Changed (sb : Superblock) (s : State) (k : Fin NINODE) (nd : Node) (s' : State) :
    Prop where
  wf : WellFormed sb s'
  others : ∀ l ≠ k, s'.icache l = s.icache l
  entry : ∃ d, s'.icache k = { s.icache k with copy := d }
  node_eq : sb.node s'.disk = update (sb.node s.disk) (s.icache k).inum (some nd)

variable {E : Panic → Prop} {sb : Superblock} {dev : Devsw} {s s' s'' : State} {δ : ℕ → ℕ}
  {k l : Fin NINODE} {i n off inum : ℕ} {name src : List UInt8} {N : ℕ → Option Node} {nd : Node}

namespace Changed

section

variable (hc : Changed sb s k nd s')

include hc

theorem inum_eq (l : Fin NINODE) : (s'.icache l).inum = (s.icache l).inum := by
  by_cases h : l = k
  · subst h
    obtain ⟨d, hd⟩ := hc.entry
    rw [hd]
  · rw [hc.others l h]

theorem ref_eq (l : Fin NINODE) : (s'.icache l).ref = (s.icache l).ref := by
  by_cases h : l = k
  · subst h
    obtain ⟨d, hd⟩ := hc.entry
    rw [hd]
  · rw [hc.others l h]

theorem valid_eq (l : Fin NINODE) : (s'.icache l).valid = (s.icache l).valid := by
  by_cases h : l = k
  · subst h
    obtain ⟨d, hd⟩ := hc.entry
    rw [hd]
  · rw [hc.others l h]

theorem locks_eq : s'.locks = s.locks := by
  funext l
  unfold State.locks
  by_cases h : l = k
  · subst h
    obtain ⟨d, hd⟩ := hc.entry
    rw [hd]
  · rw [hc.others l h]

theorem locked (hl : s.Locked l) : s'.Locked l := by
  obtain ⟨href, hlocked, hvalid⟩ := hl
  refine ⟨?_, (congrFun hc.locks_eq l).trans hlocked, ?_⟩
  · rw [hc.ref_eq]
    exact href
  · rw [hc.valid_eq]
    exact hvalid

/-- The node of another entry. -/
theorem nodeAt_of_ne (hwf : WellFormed sb s) (hl : s.Locked l) (hk : s.Locked k) (h : l ≠ k) :
    s'.nodeAt l = s.nodeAt l := by
  have hold := hwf.node_eq hl.1 hl.2.2
  have hl' := hc.locked hl
  have hnew := hc.wf.node_eq hl'.1 hl'.2.2
  rw [hc.inum_eq, hc.node_eq, update_of_ne (hwf.ne_of_inum hk.1 hl.1 h), hold] at hnew
  exact (Option.some.inj hnew).symm

theorem nodeAt_self (hk : s.Locked k) : s'.nodeAt k = nd := by
  have hk' := hc.locked hk
  have hnew := hc.wf.node_eq hk'.1 hk'.2.2
  rw [hc.inum_eq, hc.node_eq, update_self] at hnew
  exact (Option.some.inj hnew).symm

theorem cached (hk : s.Locked k) (hs : Cached sb s) : Cached sb s' := by
  refine ⟨fun l hl => ?_, fun i nd' hi hz => ?_⟩
  · rw [hc.inum_eq, hc.node_eq]
    grind [hc.ref_eq, hs.live]
  · rw [hc.node_eq] at hi
    by_cases h : i = (s.icache k).inum
    · refine ⟨k, ?_, ?_, ?_⟩
      · rw [hc.ref_eq]
        exact hk.1
      · rw [hc.valid_eq]
        exact hk.2.2
      · rw [hc.inum_eq, h]
    · rw [update_of_ne h] at hi
      obtain ⟨l, hl, hv, hinum⟩ := hs.anchored i nd' hi hz
      refine ⟨l, ?_, ?_, ?_⟩
      · rw [hc.ref_eq]
        exact hl
      · rw [hc.valid_eq]
        exact hv
      · rw [hc.inum_eq]
        exact hinum

theorem steady (hk : s.Locked k) (hs : Steady E sb s) : Steady E sb s' :=
  ⟨hc.wf, hs.cached.imp_right (hc.cached hk)⟩

end

end Changed

theorem Modified.changed {e : Dinode} (hm : Modified sb s k e s') :
    Changed sb s k (e.toNode s.disk) s' := by
  refine ⟨hm.wf, fun l h => ?_, ⟨e, ?_⟩, hm.node_eq⟩
  · rw [hm.icache_eq, update_of_ne h]
  · rw [hm.icache_eq, update_self]

theorem Written.changed (hw : Written sb s k src off s') (hk : s.Locked k) :
    Changed sb s k { s.nodeAt k with data := splice (s.dataOf k) off src } s' :=
  ⟨hw.wf, hw.others, ⟨_, hw.entry⟩, hw.node_eq hk.1 hk.2.2⟩

/-- A field of a node changes with that of the inode. -/
theorem toNode_eq {d e : Dinode} {disk : Disk} (h : SameFile d e) : e.toNode disk =
    { d.toNode disk with major := e.major, minor := e.minor, nlink := e.nlink } := by
  unfold Dinode.toNode
  rw [(content_of_addrs h.2.1 h.2.2).1, h.1]

/-- Changing fields of a locked inode. -/
theorem State.modify_steady {f : Dinode → Dinode} (hs : Steady E sb s) (hE : Lax E)
    (hk : s.Locked k) (hf : SameFile (s.icache k).copy (f (s.icache k).copy)) :
    Ends E (s.modify sb k f) fun s' => (Steady E sb s' ∧ Changed sb s k { s.nodeAt k with
      major := (f (s.icache k).copy).major, minor := (f (s.icache k).copy).minor,
      nlink := (f (s.icache k).copy).nlink } s') ∧ Moves 0 s s' := by
  refine ((State.modify_ends hs.wf hE hk.1 hk.2.2 hf).mono fun s' hm => ?_).and
    (State.modify_moves f)
  have hc := hm.changed
  rw [toNode_eq hf] at hc
  exact ⟨hc.steady hk hs, hc⟩

/-- Writing an entry of a locked directory. -/
theorem State.writeDirent_steady {e : Panic} (hs : Steady E sb s) (hE : Lax E) (hk : s.Locked k)
    (hdir : (s.icache k).copy.type = T_DIR) (de : Dirent) (he : E e) :
    Ends E (s.writeDirent sb dev k off de e) fun s' => (Steady E sb s' ∧
      Changed sb s k { s.nodeAt k with data := splice (s.dataOf k) off de.toBytes } s') ∧
      Moves 0 s s' := by
  refine ((State.writeDirent_ends hs.wf hE hk hdir de he).mono fun s' hw => ?_).and
    (State.writeDirent_moves off de e)
  exact ⟨(hw.changed hk).steady hk hs, hw.changed hk⟩

/-- What `dirlink` of a new name has done. -/
structure LinkedNew (E : Panic → Prop) (sb : Superblock) (s : State) (k : Fin NINODE)
    (name : List UInt8) (inum : ℕ) (r : Bool × State) : Prop where
  ok : r.1 = true
  steady : Steady E sb r.2
  dir : (s.icache k).copy.type = T_DIR
  whole : State.Whole (s.dataOf k)
  changed : Changed sb s k ((s.nodeAt k).withEntry name inum) r.2
  moves : Moves 0 s r.2

theorem State.dirlink_new (hs : Steady E sb s) (hE : Lax E) (hk : s.Locked k)
    (hnew : lookup (s.dataOf k) name = none) :
    Ends E (s.dirlink sb dev k name inum) (LinkedNew E sb s k name inum) := by
  refine ((State.dirlink_ends hs.wf hE hk (fun _ i off hf => ?_) (.inr fun i off _ _ hf => ?_)).and
    (State.dirlink_moves name inum)).mono fun r hr => ?_
  · rw [hnew] at hf
    cases hf
  · rw [hnew] at hf
    cases hf
  · obtain ⟨⟨hdir, hlinked⟩, hmoves⟩ := hr
    cases hlinked with
    | found hf _ _ =>
      rw [hnew] at hf
      cases hf
    | written _ hwhole hw =>
      exact ⟨rfl, (hw.changed hk).steady hk hs, hdir, hwhole, hw.changed hk, hmoves⟩

/-- The cache has stayed the same but for the copies. -/
structure SameCache (s s' : State) : Prop where
  inum_eq : ∀ l, (s'.icache l).inum = (s.icache l).inum
  ref_eq : ∀ l, (s'.icache l).ref = (s.icache l).ref
  valid_eq : ∀ l, (s'.icache l).valid = (s.icache l).valid
  locks_eq : s'.locks = s.locks

namespace SameCache

theorem refl (s : State) : SameCache s s := ⟨fun _ => rfl, fun _ => rfl, fun _ => rfl, rfl⟩

theorem trans (h : SameCache s s') (h' : SameCache s' s'') : SameCache s s'' :=
  ⟨fun l => (h'.inum_eq l).trans (h.inum_eq l), fun l => (h'.ref_eq l).trans (h.ref_eq l),
    fun l => (h'.valid_eq l).trans (h.valid_eq l), h'.locks_eq.trans h.locks_eq⟩

theorem locked (h : SameCache s s') (hl : s.Locked l) : s'.Locked l := by
  refine ⟨?_, (congrFun h.locks_eq l).trans hl.2.1, (h.valid_eq l).trans hl.2.2⟩
  rw [h.ref_eq]
  exact hl.1

end SameCache

theorem Changed.sameCache (hc : Changed sb s k nd s') : SameCache s s' :=
  ⟨hc.inum_eq, hc.ref_eq, hc.valid_eq, hc.locks_eq⟩

/-- The inode `i` has been allocated and locked, in entry `k`. -/
structure Fresh (E : Panic → Prop) (sb : Superblock) (s : State) (type : UInt16) (i : ℕ)
    (k : Fin NINODE) (s' : State) : Prop where
  steady : Steady E sb s'
  lt : i < sb.ninodes
  pos : i ≠ 0
  was_free : sb.node s.disk i = none
  node_eq : sb.node s'.disk = update (sb.node s.disk) i (some { type := type })
  others : ∀ l ≠ k, s'.icache l = s.icache l
  inum_eq : (s'.icache k).inum = i
  locked : s'.Locked k
  locks_eq : s'.locks = update s.locks k true
  moves : Moves (single k) s s'

/-- The entry is not that of an inode that was locked before. -/
theorem Allocated.ne_of_locked {type : UInt16} (ha : Allocated sb s type i k s')
    (hwf : WellFormed sb s) (hl : s.Locked l) : l ≠ k := by
  rintro rfl
  obtain ⟨s₁, hicache, hgot⟩ := ha.got
  have hinum := hgot.inum_eq
  rw [hicache] at hinum
  have hnode := hwf.node_eq hl.1 hl.2.2
  rw [hinum hl.1, ha.was_free] at hnode
  cases hnode

theorem State.ilock_fresh {type : UInt16} {s₁ : State} (ha : Allocated sb s type i k s₁)
    (hmoves : Moves (single k) s s₁) (hs : Steady E sb s) (hE : Lax E) (htype : type ≠ 0)
    (hfree : E .held ∨ s.locks k = false) :
    Ends E (s₁.ilock sb k) (Fresh E sb s type i k) := by
  obtain ⟨s₀, hicache, hgot⟩ := ha.got
  have hnode := ha.node_eq htype
  have hsome : sb.node s₁.disk (s₁.icache k).inum = some { type := type } := by
    rw [hgot.inum, hnode, update_self]
  have hothers₁ : ∀ l ≠ k, s₁.icache l = s.icache l := by
    intro l h
    rw [hgot.eq, icache_setInode_of_ne _ h, hicache]
  have hlocks₁ : s₁.locks = s.locks := by
    rw [hgot.locks_eq]
    unfold State.locks
    rw [hicache]
  have hheld : E .held ∨ (s₁.icache k).locked = false :=
    hfree.imp_right fun hf => (congrFun hlocks₁ k).trans hf
  refine (State.ilock_ends ha.wf hE hheld (.inr (Superblock.node_eq_some.mp hsome).2.1)).mono
    fun s₂ h₂ => ?_
  obtain ⟨hlock, hwf₂⟩ := h₂
  have hothers : ∀ l ≠ k, s₂.icache l = s.icache l := fun l h =>
    (hlock.others h).trans (hothers₁ l h)
  have hinum : (s₂.icache k).inum = i := by
    rw [hlock.icache_eq]
    exact hgot.inum
  have hnode₂ : sb.node s₂.disk = update (sb.node s.disk) i (some { type := type }) := by
    rw [hlock.disk_eq]
    exact hnode
  -- the entry was free, or that of the inode already
  have hkept : ∀ l, 0 < (s.icache l).ref → (s.icache l).inum = (s₂.icache l).inum := by
    grind [hgot.inum_eq]
  refine ⟨⟨hwf₂, hs.cached.imp_right fun hc => ⟨fun l hl => ?_, fun x nd hx hz => ?_⟩⟩, ha.lt,
    ha.pos.ne', ha.was_free, hnode₂, hothers, hinum, hlock.locked, hlocks₁ ▸ hlock.locks_eq,
    hmoves.before hlock.moves⟩
  · rw [hnode₂]
    grind [hc.live]
  · obtain ⟨href, -, hvalid⟩ := hlock.locked
    by_cases h : x = i
    · exact ⟨k, href, hvalid, hinum.trans h.symm⟩
    · rw [hnode₂, update_of_ne h] at hx
      grind [hc.anchored]

end Xv6.Fs
