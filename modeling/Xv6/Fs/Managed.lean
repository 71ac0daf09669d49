/-
# States during a system call

What holds of the file system between the steps of a system call: the state is well formed,
no entry names an inode number that is out of range, and, unless "ilock: no type" is a
failure one does not mind, the directories are arranged, every cache entry in use is that
of an allocated inode, and an inode without links is kept by a cache entry.

The functions on the inode cache are followed step by step: which locks are held, and which
cache entries are still those of the same inodes.
-/

import Xv6.Fs.Refs
import Xv6.Fs.Tree

namespace Xv6.Fs

open Function Xv6.Lib

/-- Entries name inodes of the file system. -/
def InRange (n : ℕ) (N : ℕ → Option Node) : Prop :=
  ∀ i nd, N i = some nd → nd.type = T_DIR → ∀ e ∈ entries nd.data, e.inum < n

/-- Link counts are of type `short`. -/
def Short (N : ℕ → Option Node) : Prop := ∀ i nd, N i = some nd → nd.nlink.toNat < 2 ^ 15

/-- The cache keeps what is in use: an entry in use is that of an allocated inode, and an inode
without links has one. -/
structure Cached (sb : Superblock) (s : State) : Prop where
  live : ∀ l, 0 < (s.icache l).ref → ∃ nd, sb.node s.disk (s.icache l).inum = some nd
  anchored : ∀ i nd, sb.node s.disk i = some nd → nd.nlink = 0 →
    ∃ l, 0 < (s.icache l).ref ∧ (s.icache l).valid = true ∧ (s.icache l).inum = i

/-- What every function on inodes keeps. -/
structure Steady (E : Panic → Prop) (sb : Superblock) (s : State) : Prop where
  wf : WellFormed sb s
  cached : E .noType ∨ Cached sb s

/-- What is kept between changes of the directories. -/
structure Calm (E : Panic → Prop) (sb : Superblock) (δ : ℕ → ℕ) (s : State) : Prop
    extends Steady E sb s where
  root_lt : ROOTINO < sb.ninodes
  inRange : InRange sb.ninodes (sb.node s.disk)
  arranged : E .noType ∨ Arranged sb.ninodes δ (sb.node s.disk) ∧ Short (sb.node s.disk)

/-- Which locks are held. -/
def State.locks (s : State) : Fin NINODE → Bool := fun l => (s.icache l).locked

/-- No lock is held. -/
def noLocks : Fin NINODE → Bool := fun _ => false

/-- The lock of one entry is held. -/
def oneLock (k : Fin NINODE) : Fin NINODE → Bool := update noLocks k true

theorem update_oneLock (k : Fin NINODE) : update (oneLock k) k false = noLocks := by
  unfold oneLock
  rw [update_idem]
  exact update_eq_self k noLocks

/-- The inodes may have been freed that were free to be, and the cache entries with more than
`h` references are still those of the same inodes. -/
structure Keeps (sb : Superblock) (h : Fin NINODE → ℤ) (s s' : State) : Prop where
  drops : Drops (sb.node s.disk) (sb.node s'.disk)
  kept : ∀ l, h l < (s.icache l).ref → (s'.icache l).inum = (s.icache l).inum ∧
    ((s.icache l).valid = true → (s'.icache l).valid = true)

variable {E : Panic → Prop} {sb : Superblock} {dev : Devsw} {s s' s'' : State} {δ : ℕ → ℕ}
  {k l : Fin NINODE} {i : ℕ} {h h' μ : Fin NINODE → ℤ} {name : List UInt8}
  {N N' : ℕ → Option Node}

theorem InRange.drops {n : ℕ} (hr : InRange n N) (hd : Drops N N') : InRange n N' :=
  fun i nd hi => hr i nd (hd.eq_of_some hi)

theorem InRange.update {n : ℕ} {nd : Node} (hr : InRange n N)
    (hnd : nd.type = T_DIR → ∀ e ∈ entries nd.data, e.inum < n) :
    InRange n (update N i (some nd)) := by
  intro x ndx hx
  by_cases h : x = i
  · subst h
    rw [update_self] at hx
    exact Option.some.inj hx ▸ hnd
  · rw [update_of_ne h] at hx
    exact hr x ndx hx

theorem lt_of_mem_withEntry {n x : ℕ} {nd : Node} (hwhole : State.Whole nd.data)
    (hold : ∀ e ∈ entries nd.data, e.inum < n) (hx : x < n) :
    ∀ e ∈ entries (nd.withEntry name x).data, e.inum < n := by
  intro e he
  rw [(entries_withEntry hwhole name x).2] at he
  rcases mem_putAt he with rfl | hmem
  · exact Nat.lt_of_le_of_lt (Nat.mod_le _ _) hx
  · exact hold e hmem

theorem Short.update {nd : Node} (hs : Short N) (hnd : nd.nlink.toNat < 2 ^ 15) :
    Short (update N i (some nd)) := by
  intro x ndx hx
  by_cases h : x = i
  · subst h
    rw [update_self] at hx
    exact Option.some.inj hx ▸ hnd
  · rw [update_of_ne h] at hx
    exact hs x ndx hx

theorem lookup_mem {data : List UInt8} {off : ℕ} (h : lookup data name = some (i, off)) :
    ∃ j e, (entries data)[j]? = some e ∧ off = DIRENT * j ∧ e.inum = i ∧ i ≠ 0 ∧
      namecmp name e.name = 0 := by
  obtain ⟨j, e, hget, hoff, hrest⟩ := lookupIn_eq_some h
  exact ⟨j, e, hget, hoff.trans (Nat.zero_add _), hrest⟩

namespace Keeps

theorem refl (s : State) : Keeps sb h s s := ⟨Drops.refl _, fun _ _ => ⟨rfl, id⟩⟩

theorem kept_pos (hk : Keeps sb 0 s s') (hl : 0 < (s.icache l).ref) :
    (s'.icache l).inum = (s.icache l).inum ∧
      ((s.icache l).valid = true → (s'.icache l).valid = true) :=
  hk.kept l (Int.natCast_pos.mpr hl)

theorem mono (hk : Keeps sb h s s') (hle : ∀ l, h l ≤ h' l) : Keeps sb h' s s' :=
  ⟨hk.drops, fun l hl => hk.kept l (lt_of_le_of_lt (hle l) hl)⟩

/-- One after the other; the references in hand change in between. -/
theorem trans (hk : Keeps sb h s s') (hm : Moves μ s s') (hk' : Keeps sb (h + μ) s' s'') :
    Keeps sb h s s'' := by
  refine ⟨hk.drops.trans hk'.drops, fun l hl => ?_⟩
  grind [hm.ref_eq, Pi.add_apply, hk.kept, hk'.kept]

end Keeps

/-- Only the cache has changed, and what was in use and valid still is. -/
theorem Cached.of_icache (hm : Cached sb s) (hdisk : s'.disk = s.disk)
    (hlive : ∀ l, 0 < (s'.icache l).ref →
      0 < (s.icache l).ref ∧ (s'.icache l).inum = (s.icache l).inum ∨
      ∃ nd, sb.node s.disk (s'.icache l).inum = some nd)
    (hvalid : ∀ l, 0 < (s.icache l).ref → (s.icache l).valid = true →
      0 < (s'.icache l).ref ∧ (s'.icache l).valid = true ∧
        (s'.icache l).inum = (s.icache l).inum) : Cached sb s' := by
  refine ⟨fun l hl => ?_, fun i nd hi hz => ?_⟩
  · grind [hm.live]
  · grind [hm.anchored]

/-- The directories are those of before. -/
theorem Calm.of_disk (hc : Calm E sb δ s) (hs : Steady E sb s') (hdisk : s'.disk = s.disk) :
    Calm E sb δ s' :=
  ⟨hs, hc.root_lt, hdisk ▸ hc.inRange, hdisk ▸ hc.arranged⟩

/-- Some unlinked inodes have been freed. -/
theorem Calm.of_drops (hc : Calm E sb δ s) (hs : Steady E sb s')
    (hd : Drops (sb.node s.disk) (sb.node s'.disk)) : Calm E sb δ s' := by
  refine ⟨hs, hc.root_lt, hc.inRange.drops hd, hc.arranged.imp_right fun ha => ?_⟩
  exact ⟨ha.1.drops hd, fun i nd hi => ha.2 i nd (hd.eq_of_some hi)⟩

theorem Got.keeps (hg : Got i s k s') : Keeps sb 0 s s' := by
  have hdisk : s'.disk = s.disk := by rw [hg.eq]; rfl
  refine ⟨hdisk ▸ Drops.refl _, fun l hl => ?_⟩
  have hpos : 0 < (s.icache l).ref := Int.natCast_pos.mp hl
  grind [hg.eq, icache_setInode_self, hg.inum_eq, icache_setInode_of_ne]

theorem Got.locks_eq (hg : Got i s k s') : s'.locks = s.locks := by
  funext l
  unfold State.locks
  grind [hg.eq, icache_setInode_self, icache_setInode_of_ne]

theorem Got.ref_pos (hg : Got i s k s') : 0 < (s'.icache k).ref := by
  rw [hg.eq, icache_setInode_self]
  exact Nat.succ_pos _

theorem Got.inum (hg : Got i s k s') : (s'.icache k).inum = i := by
  rw [hg.eq, icache_setInode_self]

theorem Got.disk_eq (hg : Got i s k s') : s'.disk = s.disk := by
  rw [hg.eq]
  rfl

namespace Steady

theorem got (hs : Steady E sb s) (hg : Got i s k s') (hi : i < sb.ninodes)
    (hlive : E .noType ∨ ∃ nd, sb.node s.disk i = some nd) : Steady E sb s' := by
  refine ⟨hs.wf.got hg hi, ?_⟩
  by_cases hE : E .noType
  · exact .inl hE
  refine .inr ((hs.cached.resolve_left hE).of_icache hg.disk_eq (fun l hl => ?_)
    fun l hl hv => ?_)
  · grind [hg.inum, hg.eq, icache_setInode_of_ne]
  · obtain ⟨hinum, hvalid⟩ := (@Got.keeps sb _ _ _ _ hg).kept_pos hl
    exact ⟨(moves_got hg).pos_of_nonneg (single_nonneg k l) hl, hvalid hv, hinum⟩

/-- A cache entry that keeps its inode, has references, and is valid if it was. -/
theorem setInode (hs : Steady E sb s) {ip : Inode} (hwf : WellFormed sb (s.setInode k ip))
    (hk : 0 < (s.icache k).ref) (hinum : ip.inum = (s.icache k).inum) (href : 0 < ip.ref)
    (hvalid : (s.icache k).valid = true → ip.valid = true) : Steady E sb (s.setInode k ip) := by
  refine ⟨hwf, hs.cached.imp_right fun hm => ?_⟩
  refine hm.of_icache rfl (fun l hl => ?_) fun l hl hv => ?_
  · grind [icache_setInode_self, icache_setInode_of_ne]
  · grind [icache_setInode_self, icache_setInode_of_ne]

theorem idup (hs : Steady E sb s) (hk : 0 < (s.icache k).ref) : Steady E sb (s.idup k) :=
  hs.setInode (hs.wf.idup hk) hk rfl (Nat.succ_pos _) id

end Steady

/-- The root is allocated. -/
theorem Calm.root (hc : Calm E sb δ s) : E .noType ∨ ∃ nd, sb.node s.disk ROOTINO = some nd := by
  refine hc.arranged.imp_right fun ha => ?_
  obtain ⟨-, nd, hnd, -⟩ := mem_dirs.mp ha.1.tree.root_mem
  exact ⟨nd, hnd⟩

theorem State.idup_keeps : Keeps sb h s (s.idup k) := by
  refine ⟨Drops.refl _, fun l _ => ?_⟩
  unfold State.idup
  grind [icache_setInode_self, icache_setInode_of_ne]

theorem State.locks_idup : (s.idup k).locks = s.locks := by
  funext l
  unfold State.locks State.idup
  by_cases hlk : l = k
  · subst hlk
    rw [icache_setInode_self]
  · rw [icache_setInode_of_ne _ hlk]

namespace Locks

section

variable (hl : Locks sb s k s')

include hl

theorem disk_eq : s'.disk = s.disk := by
  rw [hl.eq]
  rfl

theorem icache_eq : s'.icache k = { s.icache k with
    copy := sb.dinode s.disk (s.icache k).inum, valid := true, locked := true } := by
  rw [hl.eq, icache_setInode_self]

theorem others {l : Fin NINODE} (h : l ≠ k) : s'.icache l = s.icache l := by
  rw [hl.eq, icache_setInode_of_ne _ h]

theorem locks_eq : s'.locks = update s.locks k true := by
  funext l
  unfold State.locks
  by_cases h : l = k
  · subst h
    rw [hl.icache_eq, update_self]
  · rw [hl.others h, update_of_ne h]

theorem inum_eq (l : Fin NINODE) : (s'.icache l).inum = (s.icache l).inum := by
  by_cases h : l = k
  · rw [h, hl.icache_eq]
  · rw [hl.others h]

theorem oneLock (hfree : s.locks = noLocks) : s'.locks = oneLock k := by
  rw [hl.locks_eq, hfree]
  rfl

theorem moves : Moves 0 s s' := by
  rw [hl.eq]
  exact moves_setInode rfl rfl

theorem keeps : Keeps sb h s s' := by
  refine ⟨hl.disk_eq ▸ Drops.refl _, fun l _ => ?_⟩
  by_cases h : l = k
  · subst h
    rw [hl.icache_eq]
    exact ⟨rfl, fun _ => rfl⟩
  · rw [hl.others h]
    exact ⟨rfl, id⟩

theorem locked : s'.Locked k := by
  refine ⟨?_, ?_, ?_⟩ <;> rw [hl.icache_eq]
  exact hl.ref_pos

/-- The node of the inode that was locked. -/
theorem node_eq (hwf : WellFormed sb s') :
    sb.node s.disk (s.icache k).inum = some ((s'.icache k).copy.toNode s'.disk) := by
  obtain ⟨href, -, hvalid⟩ := hl.locked
  have hnode := hwf.node_eq href hvalid
  rw [hl.disk_eq, hl.icache_eq] at hnode
  rw [hl.disk_eq, hl.icache_eq]
  exact hnode

end

end Locks

theorem State.ilock_steady (hs : Steady E sb s) (hE : Lax E) (hk : 0 < (s.icache k).ref)
    (hfree : E .held ∨ s.locks k = false) :
    Ends E (s.ilock sb k) fun s' => Steady E sb s' ∧ Locks sb s k s' := by
  refine (State.ilock_ends hs.wf hE hfree ?_).mono fun s' hs' => ?_
  · refine hs.cached.imp_right fun hm => ?_
    obtain ⟨nd, hnd⟩ := hm.live k hk
    exact (Superblock.node_eq_some.mp hnd).2.1
  · obtain ⟨hlocks, hwf⟩ := hs'
    refine ⟨?_, hlocks⟩
    rw [hlocks.eq] at hwf ⊢
    exact hs.setInode hwf hk rfl hk fun _ => rfl

theorem State.ilock_calm (hc : Calm E sb δ s) (hE : Lax E) (hk : 0 < (s.icache k).ref)
    (hfree : E .held ∨ s.locks k = false) :
    Ends E (s.ilock sb k) fun s' => Calm E sb δ s' ∧ Locks sb s k s' :=
  (State.ilock_steady hc.toSteady hE hk hfree).mono
    fun _ h => ⟨hc.of_disk h.1 h.2.disk_eq, h.2⟩

namespace Unlocks

theorem disk_eq (hu : Unlocks s k s') : s'.disk = s.disk := by
  rw [hu.eq]
  rfl

theorem locks_eq (hu : Unlocks s k s') : s'.locks = update s.locks k false := by
  funext l
  unfold State.locks
  grind [hu.eq, icache_setInode_self, icache_setInode_of_ne]

theorem inum_eq (hu : Unlocks s k s') (l : Fin NINODE) :
    (s'.icache l).inum = (s.icache l).inum := by
  rw [hu.eq]
  by_cases h : l = k
  · rw [h, icache_setInode_self]
  · rw [icache_setInode_of_ne _ h]

theorem moves (hu : Unlocks s k s') : Moves 0 s s' := by
  rw [hu.eq]
  exact moves_setInode rfl rfl

theorem keeps (hu : Unlocks s k s') : Keeps sb h s s' := by
  refine ⟨hu.disk_eq ▸ Drops.refl _, fun l _ => ?_⟩
  grind [hu.eq, icache_setInode_self, icache_setInode_of_ne]

end Unlocks

theorem State.iunlock_steady (hs : Steady E sb s) (hE : Lax E) :
    Ends E (s.iunlock k) fun s' => Steady E sb s' ∧ Unlocks s k s' := by
  refine (State.iunlock_ends (hE.allows Panic.noConfusion Panic.noConfusion Panic.noConfusion
    Panic.noConfusion)).mono fun s' hu => ⟨?_, hu⟩
  have hwf := hs.wf.unlocks hu
  rw [hu.eq] at hwf ⊢
  exact hs.setInode hwf hu.ref_pos rfl hu.ref_pos id

theorem State.iunlock_calm (hc : Calm E sb δ s) (hE : Lax E) :
    Ends E (s.iunlock k) fun s' => Calm E sb δ s' ∧ Unlocks s k s' :=
  (State.iunlock_steady hc.toSteady hE).mono fun _ h => ⟨hc.of_disk h.1 h.2.disk_eq, h.2⟩

namespace Put

theorem locks_eq (hp : Put sb s k s') : s'.locks = s.locks := by
  funext l
  unfold State.locks
  by_cases h : l = k
  · rw [h, hp.locked_eq]
  · rw [hp.others l h]

section

variable (hp : Put sb s k s') (hwf : WellFormed sb s) (href : 0 < (s.icache k).ref)

include hp hwf href

/-- An inode that `iput` frees has no links. -/
theorem drops : Drops (sb.node s.disk) (sb.node s'.disk) := by
  intro i
  rw [hp.node_eq]
  split
  · next hfrees =>
    by_cases hi : i = (s.icache k).inum
    · rw [hi, update_self]
      exact .inr ⟨rfl, _, hwf.node_eq href hfrees.1, hfrees.2.1⟩
    · rw [update_of_ne hi]
      exact .inl rfl
  · exact .inl rfl

theorem keeps : Keeps sb (single k) s s' := by
  refine ⟨hp.drops hwf href, fun l hl => ?_⟩
  by_cases h : l = k
  · subst h
    rw [single_apply, if_pos rfl] at hl
    have hno : ¬ Frees s l := fun hfrees => by
      rw [hfrees.2.2] at hl
      exact lt_irrefl _ hl
    rw [hp.kept hno, icache_setInode_self]
    exact ⟨rfl, id⟩
  · rw [hp.others l h]
    exact ⟨rfl, id⟩

theorem cached (hm : Cached sb s) : Cached sb s' := by
  have hdrops := hp.drops hwf href
  refine ⟨fun l hl => ?_, fun i nd hi hz => ?_⟩
  · rw [hp.node_eq]
    by_cases h : l = k
    · -- references are left, so nothing was freed
      subst h
      rw [hp.ref_eq] at hl
      have hno : ¬ Frees s l := fun hfrees => by
        rw [hfrees.2.2] at hl
        exact lt_irrefl _ hl
      rw [hp.inum_eq, if_neg hno]
      exact hm.live l href
    · rw [hp.others l h] at hl ⊢
      obtain ⟨nd, hnd⟩ := hm.live l hl
      refine ⟨nd, ?_⟩
      split
      · rw [update_of_ne (hwf.ne_of_inum href hl h)]
        exact hnd
      · exact hnd
  · obtain ⟨l, hl, hv, hinum⟩ := hm.anchored i nd (hdrops.eq_of_some hi) hz
    by_cases h : l = k
    · subst h
      have hno : ¬ Frees s l := fun hfrees => by
        rw [hp.node_eq, if_pos hfrees, hinum, update_self] at hi
        cases hi
      have hcopy : (s.icache l).copy.nlink = 0 := by
        have hnode := hwf.node_eq hl hv
        rw [hinum, hdrops.eq_of_some hi] at hnode
        rw [← hz, Option.some.inj hnode]
        rfl
      have hmore : (s.icache l).ref ≠ 1 := fun hone => hno ⟨hv, hcopy, hone⟩
      rw [hp.kept hno]
      grind [icache_setInode_self]
    · refine ⟨l, ?_⟩
      rw [hp.others l h]
      exact ⟨hl, hv, hinum⟩

end

end Put

theorem State.iput_steady (hs : Steady E sb s) (hE : Lax E) (hk : 0 < (s.icache k).ref)
    (hfree : E .held ∨ s.locks k = false) :
    Ends E (s.iput sb k) fun s' => (Steady E sb s' ∧ Put sb s k s') ∧ Moves (-single k) s s' :=
  ((State.iput_ends hs.wf hE hk hfree).mono fun _ hp =>
    ⟨⟨hp.wf, hs.cached.imp_right (hp.cached hs.wf hk)⟩, hp⟩).and (State.iput_moves hk)

/-- What a call that drops a reference leaves. -/
structure Left (E : Panic → Prop) (sb : Superblock) (δ : ℕ → ℕ) (s : State) (k : Fin NINODE)
    (locks : Fin NINODE → Bool) (s' : State) : Prop where
  calm : Calm E sb δ s'
  locks_eq : s'.locks = locks
  keeps : Keeps sb (single k) s s'
  moves : Moves (-single k) s s'

/-- An entry with another reference is still in use. -/
theorem Left.ref_pos {locks : Fin NINODE → Bool} (hl : Left E sb δ s k locks s')
    (h : single k l < (s.icache l).ref) : 0 < (s'.icache l).ref := by
  have href := hl.moves.ref_eq l
  rw [Pi.neg_apply] at href
  omega

/-- Another locked inode is still locked. -/
theorem Left.locked {locks : Fin NINODE → Bool} (hl : Left E sb δ s k locks s') (hne : l ≠ k)
    (hlocked : s.Locked l) (hlocks : locks l = true) :
    s'.Locked l ∧ (s'.icache l).inum = (s.icache l).inum := by
  obtain ⟨href, -, hvalid⟩ := hlocked
  have hmore : single k l < (s.icache l).ref := by
    rw [single_apply, if_neg hne]
    exact Int.natCast_pos.mpr href
  obtain ⟨hinum, hkept⟩ := hl.keeps.kept l hmore
  exact ⟨⟨hl.ref_pos hmore, (congrFun hl.locks_eq l).trans hlocks, hkept hvalid⟩, hinum⟩

theorem State.iput_calm (hc : Calm E sb δ s) (hE : Lax E) (hk : 0 < (s.icache k).ref)
    (hfree : E .held ∨ s.locks k = false) :
    Ends E (s.iput sb k) (Left E sb δ s k s.locks) := by
  refine (State.iput_steady hc.toSteady hE hk hfree).mono fun s' h => ?_
  obtain ⟨⟨hs, hp⟩, hmoves⟩ := h
  have hkeeps := hp.keeps hc.wf hk
  exact ⟨hc.of_drops hs hkeeps.drops, hp.locks_eq, hkeeps, hmoves⟩

theorem State.iunlockput_calm (hc : Calm E sb δ s) (hE : Lax E) :
    Ends E (s.iunlockput sb k) (Left E sb δ s k (update s.locks k false)) := by
  unfold State.iunlockput
  refine .bind (State.iunlock_calm hc hE) fun s₁ h₁ => ?_
  obtain ⟨hc₁, hu⟩ := h₁
  have hk := hu.moves.pos hu.ref_pos
  have hfree : s₁.locks k = false := by rw [hu.locks_eq, update_self]
  refine (State.iput_calm hc₁ hE hk (.inr hfree)).mono fun s₂ h₂ => ?_
  refine ⟨h₂.calm, h₂.locks_eq.trans hu.locks_eq, hu.keeps.trans hu.moves ?_,
    hu.moves.after h₂.moves⟩
  rw [add_zero]
  exact h₂.keeps

end Xv6.Fs
