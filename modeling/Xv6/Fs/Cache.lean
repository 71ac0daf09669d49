/-
# The inode cache and the inodes of the disk

What `iget`, `idup`, `ilock`, `iunlock`, `ialloc`, `iput` and an update of the fields of an
inode do to a well-formed state. The users of the inode layer see a table of nodes: for
each allocated inode its fields and its contents. Every call changes at most one node of
the table.
-/

import Xv6.Fs.Truncate
import Xv6.Fs.Writei

namespace Xv6.Fs

open Function Xv6.Lib

/-- An allocated inode as its users see it. -/
@[ext]
structure Node where
  type : UInt16
  major : UInt16 := 0
  minor : UInt16 := 0
  nlink : UInt16 := 0
  data : List UInt8 := []
  deriving DecidableEq

/-- The node of a disk inode. -/
def Dinode.toNode (disk : Disk) (d : Dinode) : Node :=
  ⟨d.type, d.major, d.minor, d.nlink, content disk d⟩

/-- The allocated inodes of a disk. -/
def Superblock.node (sb : Superblock) (disk : Disk) (i : ℕ) : Option Node :=
  if i < sb.ninodes ∧ (sb.dinode disk i).type ≠ 0 then some ((sb.dinode disk i).toNode disk)
  else none

variable {E : Panic → Prop} {sb : Superblock} {F : Finset ℕ} {s s' : State} {i j logs off n : ℕ}
  {d e : Dinode} {tab : ℕ → Dinode} {disk disk' : Disk} {k l : Fin NINODE} {src : List UInt8}
  {dev : Devsw}

theorem Superblock.node_eq_some {nd : Node} : sb.node disk i = some nd ↔
    i < sb.ninodes ∧ (sb.dinode disk i).type ≠ 0 ∧ (sb.dinode disk i).toNode disk = nd := by
  unfold Superblock.node
  grind

theorem Superblock.node_eq_none : sb.node disk i = none ↔
    (i < sb.ninodes → (sb.dinode disk i).type = 0) := by
  simp [Superblock.node]

/-- The contents of an allocated inode depend on data blocks only. -/
theorem Owned.content_congr (h : Owned sb disk tab) (hi : i < sb.ninodes) (ht : (tab i).type ≠ 0)
    (hholes : NoHoles disk (tab i)) (hdata : ∀ x, sb.IsData x → disk' x = disk x) :
    content disk' (tab i) = content disk (tab i) ∧ NoHoles disk' (tab i) := by
  have hblock : ∀ pos, blockAt disk' (tab i) pos = blockAt disk (tab i) pos := fun pos =>
    blockAt_congr fun hne => hdata _ (h.isData (p := .indirect) hi ht hne)
  have haddr : ∀ bn, addrOf disk' (tab i) bn = addrOf disk (tab i) bn := by
    intro bn
    unfold addrOf
    rw [hblock]
  refine ⟨Fs.content_congr rfl fun p hp => ?_, fun bn hbn => ?_⟩
  · have hne := hholes.addrOf_ne hp
    have hbn := lt_maxfile_of_addrOf hne
    rw [byteAt, haddr, byteAt]
    rw [addrOf_eq hbn] at hne ⊢
    rw [hdata _ (h.isData hi ht hne)]
  · rw [haddr]
    exact hholes bn hbn

namespace Saved

section

variable (h : Saved sb (sb.dinode s.disk) i e s s') (himage : Image sb s.disk)

include h himage

/-- The other files after `iupdate`. -/
theorem content_other (hj : j < sb.ninodes) (ht : (sb.dinode s.disk j).type ≠ 0) :
    content s'.disk (sb.dinode s.disk j) = content s.disk (sb.dinode s.disk j) ∧
      NoHoles s'.disk (sb.dinode s.disk j) :=
  himage.owned.content_congr hj ht (himage.noHoles j hj ht) h.data

theorem image (hi : i < sb.ninodes) (hself : e.type ≠ 0 → NoHoles s'.disk e) : Image sb s'.disk := by
  refine ⟨h.owned, fun j hj ht => ?_⟩
  by_cases hji : j = i
  · subst hji
    rw [h.self hi] at ht ⊢
    exact hself ht
  · rw [h.other hj hji] at ht ⊢
    exact (h.content_other himage hj ht).2

/-- Only the node of the inode has changed. -/
theorem node_eq (hi : i < sb.ninodes) : sb.node s'.disk = update (sb.node s.disk) i
      (if e.type ≠ 0 then some (e.toNode s'.disk) else none) := by
  funext j
  by_cases hji : j = i
  · subst hji
    rw [update_self, Superblock.node, h.self hi]
    simp only [hi, true_and]
  · rw [update_of_ne hji]
    unfold Superblock.node
    by_cases hj : j < sb.ninodes ∧ (sb.dinode s.disk j).type ≠ 0
    · rw [h.other hj.1 hji, Dinode.toNode, Dinode.toNode,
        (h.content_other himage hj.1 hj.2).1]
    · rw [if_neg hj, if_neg]
      rintro ⟨hlt, ht⟩
      rw [h.other hlt hji] at ht
      exact hj ⟨hlt, ht⟩

end

end Saved

/-- An inode that refers to no block may be replaced by another one that does not. -/
theorem Owned.update_bare (h : Owned sb disk tab)
    (hold : (tab i).type = 0 ∨ ∀ pos, blockAt disk (tab i) pos = 0)
    (hnew : e.type = 0 ∨ ∀ pos, blockAt disk e pos = 0) :
    Owned sb disk (update tab i e) := by
  refine h.congr (fun _ _ => Iff.rfl) fun r => ?_
  obtain ⟨j, pos⟩ := r
  by_cases hji : j = i
  · subst hji
    have hnone : refOf sb disk tab (j, pos) = none :=
      refOf_eq_none.mpr fun _ ht => hold.resolve_left ht pos
    rw [hnone]
    refine refOf_eq_none.mpr fun _ ht => ?_
    rw [update_self] at ht ⊢
    exact hnew.resolve_left ht pos
  · refine refOf_congr ?_ fun _ _ => ?_ <;> rw [update_of_ne hji]

/-- All failures are allowed but waiting for a lock or for room in the log, an inode without
type, and the freeing of a free block. -/
def Lax (E : Panic → Prop) : Prop :=
  ∀ e, e ≠ .held → e ≠ .noRoom → e ≠ .noType → e ≠ .freeingFree → E e

theorem Lax.budget (h : Lax E) {blocks : ℕ} : Budget E sb F s blocks logs := by
  refine budget_of_allowed ?_ ?_ ?_ <;> exact h _ Panic.noConfusion Panic.noConfusion
    Panic.noConfusion Panic.noConfusion

@[simp]
theorem icache_setInode_self (ip : Inode) : (s.setInode k ip).icache k = ip :=
  update_self ..

theorem icache_setInode_of_ne (ip : Inode) (h : l ≠ k) :
    (s.setInode k ip).icache l = s.icache l :=
  update_of_ne h ..

/-- `iget` of inode `i` has returned entry `k`, with one more reference. -/
structure Got (i : ℕ) (s : State) (k : Fin NINODE) (s' : State) : Prop where
  eq : s' = s.setInode k { s.icache k with
    inum := i
    ref := (s.icache k).ref + 1
    valid := decide (0 < (s.icache k).ref) && (s.icache k).valid }
  inum_eq : 0 < (s.icache k).ref → (s.icache k).inum = i
  fresh : (s.icache k).ref = 0 → ∀ l, 0 < (s.icache l).ref → (s.icache l).inum ≠ i

/-- `iget` finds the entry of the inode or takes a free one, if there is one. -/
theorem State.iget_ends (hE : E .cacheFull ∨ ∃ l, (s.icache l).ref = 0) :
    Ends E (s.iget i) fun r => Got i s r.1 r.2 := by
  unfold State.iget
  cases hfind : (List.finRange NINODE).find? fun k =>
      0 < (s.icache k).ref ∧ (s.icache k).inum = i with
  | some k =>
    have hfound := List.find?_some hfind
    obtain ⟨hpos, hinum⟩ := of_decide_eq_true hfound
    refine .ok ⟨?_, fun _ => hinum, fun hzero => absurd hzero hpos.ne'⟩
    rw [decide_eq_true hpos, Bool.true_and, ← hinum]
  | none =>
    have hnone : ∀ l, 0 < (s.icache l).ref → (s.icache l).inum ≠ i := by
      grind
    dsimp only
    cases hfree : (List.finRange NINODE).find? fun k => (s.icache k).ref = 0 with
    | none =>
      refine .error (hE.resolve_right ?_)
      rintro ⟨l, hl⟩
      exact List.find?_eq_none.mp hfree l (List.mem_finRange l) (decide_eq_true hl)
    | some k =>
      have hfound := List.find?_some hfree
      have hzero : (s.icache k).ref = 0 := of_decide_eq_true hfound
      refine .ok ⟨?_, fun hpos => absurd hzero (Nat.ne_of_gt hpos), fun _ => hnone⟩
      rw [hzero]
      rfl

namespace WellFormed

/-- The entries of other inodes are not those of inode `i`. -/
theorem ne_of_inum (h : WellFormed sb s) (hk : 0 < (s.icache k).ref) (hl : 0 < (s.icache l).ref)
    (hlk : l ≠ k) : (s.icache l).inum ≠ (s.icache k).inum :=
  fun heq => hlk (h.inum_inj l k hl hk heq)

/-- Only one entry has changed, and the disk has not. -/
theorem setInode (h : WellFormed sb s) (ip : Inode)
    (hinum : 0 < ip.ref → ip.inum < sb.ninodes ∧
      ∀ l ≠ k, 0 < (s.icache l).ref → (s.icache l).inum ≠ ip.inum)
    (hcopy : 0 < ip.ref → ip.valid = true →
      ip.copy = sb.dinode s.disk ip.inum ∧ ip.copy.type ≠ 0) :
    WellFormed sb (s.setInode k ip) := by
  refine h.update h.image h.lh_nodup (fun l hl => icache_setInode_of_ne ip hl) ?_ ?_
    fun _ _ _ _ => rfl
  · rw [icache_setInode_self]
    exact hinum
  · rw [icache_setInode_self]
    exact hcopy

theorem got (h : WellFormed sb s) (hg : Got i s k s') (hi : i < sb.ninodes) :
    WellFormed sb s' := by
  rw [hg.eq]
  refine h.setInode _ (fun _ => ⟨hi, fun l hl hpos hinum => ?_⟩) fun _ hv => ?_
  · by_cases hk : 0 < (s.icache k).ref
    · exact h.ne_of_inum hk hpos hl (hinum.trans (hg.inum_eq hk).symm)
    · exact hg.fresh (by omega) l hpos hinum
  · grind [h.copy_eq, hg.inum_eq, h.type_ne]

/-- A reference to an inode that is in the cache is to the entry it has there. -/
theorem got_entry_eq (h : WellFormed sb s) (hg : Got i s k s') (hl : 0 < (s.icache l).ref)
    (hinum : (s.icache l).inum = i) : k = l := by
  rcases Nat.eq_zero_or_pos (s.icache k).ref with hzero | hpos
  · exact absurd hinum (hg.fresh hzero l hl)
  · exact h.inum_inj k l hpos hl ((hg.inum_eq hpos).trans hinum.symm)

theorem idup (h : WellFormed sb s) (hk : 0 < (s.icache k).ref) : WellFormed sb (s.idup k) :=
  h.setInode _ (fun _ => ⟨h.inum_lt k hk, fun _ hl hpos => h.ne_of_inum hk hpos hl⟩)
    fun _ hv => ⟨h.copy_eq k hk hv, h.type_ne k hk hv⟩

end WellFormed

/-- The copy in hand after `ilock`. -/
theorem WellFormed.load_eq (h : WellFormed sb s) (hk : 0 < (s.icache k).ref) :
    s.load sb k =
      { s.icache k with copy := sb.dinode s.disk (s.icache k).inum, valid := true } := by
  unfold State.load
  split
  · next hv =>
    rw [← h.copy_eq k hk hv, ← hv]
  · rfl

/-- `ilock` has locked the inode in entry `k`. -/
structure Locks (sb : Superblock) (s : State) (k : Fin NINODE) (s' : State) : Prop where
  eq : s' = s.setInode k { s.icache k with
    copy := sb.dinode s.disk (s.icache k).inum, valid := true, locked := true }
  ref_pos : 0 < (s.icache k).ref
  unlocked : (s.icache k).locked = false
  type_ne : (sb.dinode s.disk (s.icache k).inum).type ≠ 0

/-- `ilock` of a reference, if the lock is free and the inode allocated. -/
theorem State.ilock_ends (h : WellFormed sb s) (hE : Lax E)
    (hheld : E .held ∨ (s.icache k).locked = false)
    (htype : E .noType ∨ (sb.dinode s.disk (s.icache k).inum).type ≠ 0) :
    Ends E (s.ilock sb k) fun s' => Locks sb s k s' ∧ WellFormed sb s' := by
  unfold State.ilock
  have hlax : E .ilock :=
    hE _ Panic.noConfusion Panic.noConfusion Panic.noConfusion Panic.noConfusion
  refine .ite (fun _ => .error hlax) fun hpos => .ite (fun hlocked => .error ?_) fun hlocked =>
    .ite (fun hno => .error ?_) fun hno => .ok ?_
  · exact hheld.resolve_right fun hf => Bool.noConfusion (hf.symm.trans hlocked)
  · rw [h.load_eq (by omega)] at hno
    exact htype.resolve_right fun hne => hne hno.2
  · have hpos : 0 < (s.icache k).ref := by omega
    have hne : (sb.dinode s.disk (s.icache k).inum).type ≠ 0 := by
      intro hz
      rw [h.load_eq hpos] at hno
      by_cases hv : (s.icache k).valid = true
      · rw [← h.copy_eq k hpos hv] at hz
        exact h.type_ne k hpos hv hz
      · exact hno ⟨Bool.eq_false_of_not_eq_true hv, hz⟩
    have hlock : Locks sb s k (s.setInode k { s.load sb k with locked := true }) := by
      refine ⟨?_, hpos, Bool.eq_false_of_not_eq_true hlocked, hne⟩
      rw [h.load_eq hpos]
    refine ⟨hlock, ?_⟩
    rw [hlock.eq]
    exact h.setInode _ (fun _ => ⟨h.inum_lt k hpos, fun _ hl hp => h.ne_of_inum hpos hp hl⟩)
      fun _ _ => ⟨rfl, hne⟩

/-- `iunlock` has released the lock of entry `k`. -/
structure Unlocks (s : State) (k : Fin NINODE) (s' : State) : Prop where
  eq : s' = s.setInode k { s.icache k with locked := false }
  ref_pos : 0 < (s.icache k).ref
  locked : (s.icache k).locked = true

theorem State.iunlock_ends (hE : E .iunlock) :
    Ends E (s.iunlock k) fun s' => Unlocks s k s' := by
  unfold State.iunlock
  refine .ite (fun _ => .error hE) fun hok => .ok ⟨rfl, by omega, ?_⟩
  exact Bool.eq_true_of_not_eq_false fun hf => hok (.inl hf)

theorem WellFormed.unlocks (h : WellFormed sb s) (hu : Unlocks s k s') : WellFormed sb s' := by
  rw [hu.eq]
  exact h.setInode _
    (fun _ => ⟨h.inum_lt k hu.ref_pos, fun _ hl hp => h.ne_of_inum hu.ref_pos hp hl⟩)
    fun _ hv => ⟨h.copy_eq k hu.ref_pos hv, h.type_ne k hu.ref_pos hv⟩

/-! ## Changing an inode -/

theorem mem_singleton_iblock : sb.iblock i ∈ ({sb.iblock i} : Finset ℕ) :=
  Finset.mem_singleton_self _

/-- The fields that `iupdate` may change of an inode in use. -/
def SameFile (d e : Dinode) : Prop := e.type = d.type ∧ e.size = d.size ∧ e.addrs = d.addrs

/-- The inode in entry `k` has become `e`, in the cache and on the disk. -/
structure Modified (sb : Superblock) (s : State) (k : Fin NINODE) (e : Dinode) (s' : State) :
    Prop where
  wf : WellFormed sb s'
  icache_eq : s'.icache = update s.icache k { s.icache k with copy := e }
  node_eq : sb.node s'.disk =
    update (sb.node s.disk) (s.icache k).inum (some (e.toNode s.disk))

theorem content_of_addrs (hsize : e.size = d.size) (haddrs : e.addrs = d.addrs) :
    content disk e = content disk d ∧ (NoHoles disk d → NoHoles disk e) := by
  have hblock : ∀ pos, blockAt disk e pos = blockAt disk d pos := by
    intro pos
    have hind : e.indirect = d.indirect := by
      unfold Dinode.indirect
      rw [haddrs]
    simp [blockAt, haddrs, hind]
  have haddr : ∀ bn, addrOf disk e bn = addrOf disk d bn := by
    intro bn
    unfold addrOf
    rw [hblock]
  refine ⟨content_congr hsize fun p _ => ?_, fun h bn hbn => ?_⟩
  · rw [byteAt, haddr, byteAt]
  · rw [haddr]
    rw [hsize] at hbn
    exact h bn hbn

/-- Changing other fields of an inode than type, size and addresses. -/
theorem State.modify_ends {f : Dinode → Dinode} (h : WellFormed sb s) (hE : Lax E)
    (href : 0 < (s.icache k).ref) (hvalid : (s.icache k).valid = true)
    (hf : SameFile (s.icache k).copy (f (s.icache k).copy)) :
    Ends E (s.modify sb k f) fun s' => Modified sb s k (f (s.icache k).copy) s' := by
  obtain ⟨e, he⟩ : ∃ e, f (s.icache k).copy = e := ⟨_, rfl⟩
  have hhand := h.hand href hvalid
  have hcopy := h.copy_eq k href hvalid
  rw [he] at hf ⊢
  have howned : Owned sb s.disk (update (sb.dinode s.disk) (s.icache k).inum e) := by
    refine h.image.owned.congr_tab fun j _ => ?_
    by_cases hj : j = (s.icache k).inum
    · rw [hj, update_self, hf.1, hf.2.2, hcopy]
      exact ⟨Iff.rfl, fun _ => rfl⟩
    · rw [update_of_ne hj]
      exact ⟨Iff.rfl, fun _ => rfl⟩
  unfold State.modify
  dsimp only
  rw [he]
  refine .bind (State.iupdate_ends howned hhand.lt (fun _ _ _ => rfl) mem_singleton_iblock
    (hE.budget : Budget E sb _ _ 0 0)) fun s₁ hs₁ => ?_
  obtain ⟨hsaved, -⟩ := hs₁
  have htype : e.type ≠ 0 := hf.1 ▸ hhand.type_ne
  obtain ⟨hcontent, hholes⟩ := hsaved.content_other h.image hhand.lt (hcopy ▸ hhand.type_ne)
  rw [← hcopy] at hcontent hholes
  have hself := hsaved.self hhand.lt
  obtain ⟨hcontent', hholes'⟩ := @content_of_addrs (s.icache k).copy e s₁.disk hf.2.1 hf.2.2
  have hicache : (s₁.setInode k { s₁.icache k with copy := e }).icache =
      update s.icache k { s.icache k with copy := e } := by
    rw [State.setInode, hsaved.icache_eq]
  refine .pure ⟨h.update (k := k) (hsaved.image h.image hhand.lt fun _ => hholes' hholes)
    (hsaved.lh_nodup h.lh_nodup) ?_ ?_ ?_ ?_, hicache, ?_⟩
  · intro l hl
    rw [hicache, update_of_ne hl]
  · rw [hicache, update_self]
    exact fun _ => ⟨hhand.lt, fun l hl hp => h.ne_of_inum href hp hl⟩
  · rw [hicache, update_self]
    exact fun _ _ => ⟨hself.symm, htype⟩
  · exact fun l hl hp _ => hsaved.other (h.inum_lt l hp) (h.ne_of_inum href hp hl)
  · refine (hsaved.node_eq h.image hhand.lt).trans ?_
    rw [if_pos htype]
    congr 2
    unfold Dinode.toNode
    rw [hcontent', hcontent, (content_of_addrs hf.2.1 hf.2.2).1]

/-- Whether `iput` frees the inode in entry `k`. -/
def Frees (s : State) (k : Fin NINODE) : Prop :=
  (s.icache k).valid = true ∧ (s.icache k).copy.nlink = 0 ∧ (s.icache k).ref = 1
  deriving Decidable

/-- `iput` has dropped a reference of entry `k`, and freed the inode if it was the last and
there are no links. -/
structure Put (sb : Superblock) (s : State) (k : Fin NINODE) (s' : State) : Prop where
  unlocked : (s.icache k).locked = false
  wf : WellFormed sb s'
  others : ∀ l ≠ k, s'.icache l = s.icache l
  ref_eq : (s'.icache k).ref = (s.icache k).ref - 1
  inum_eq : (s'.icache k).inum = (s.icache k).inum
  locked_eq : (s'.icache k).locked = (s.icache k).locked
  kept : ¬ Frees s k → s' = s.setInode k { s.icache k with ref := (s.icache k).ref - 1 }
  node_eq : sb.node s'.disk =
    if Frees s k then update (sb.node s.disk) (s.icache k).inum none else sb.node s.disk

/-- The part of `iput` that frees the inode. -/
theorem State.release_ends (h : WellFormed sb s) (hE : Lax E) (hfrees : Frees s k) :
    Ends E (s.release sb k) fun s' => Image sb s'.disk ∧ s'.lh.Nodup ∧
      s'.icache = update s.icache k
        { s.icache k with copy := { (s.icache k).copy.truncated with type := 0 }, valid := false } ∧
      (∀ j < sb.ninodes, j ≠ (s.icache k).inum → sb.dinode s'.disk j = sb.dinode s.disk j) ∧
      sb.node s'.disk = update (sb.node s.disk) (s.icache k).inum none := by
  obtain ⟨hvalid, hnlink, href⟩ := hfrees
  have hpos : 0 < (s.icache k).ref := by omega
  have hhand := h.hand hpos hvalid
  unfold State.release
  dsimp only
  rw [if_pos ⟨hvalid, hnlink, href⟩]
  refine .bind (State.itrunc_ends hhand mem_singleton_iblock (hE.budget : Budget E sb _ _ 0 0))
    fun r₁ hr₁ => ?_
  obtain ⟨d₁, s₁⟩ := r₁
  obtain ⟨hd₁, hsaved₁, -⟩ := hr₁
  dsimp only at hd₁ hsaved₁ ⊢
  have himage₁ : Image sb s₁.disk := by
    refine hsaved₁.image h.image hhand.lt fun _ bn hbn => ?_
    exact (Nat.not_lt_zero _ hbn).elim
  obtain ⟨e, he⟩ : ∃ e, ({ d₁ with type := 0 } : Dinode) = e := ⟨_, rfl⟩
  have hetype : e.type = 0 := by rw [← he]
  have howned : Owned sb s₁.disk (update (sb.dinode s₁.disk) (s.icache k).inum e) := by
    refine hsaved₁.owned.update_bare (.inr fun pos => ?_) (.inl hetype)
    rw [hsaved₁.self hhand.lt]
    exact blockAt_truncated pos
  rw [he]
  refine .bind (State.iupdate_ends howned hhand.lt (fun _ _ _ => rfl) mem_singleton_iblock
    (hE.budget : Budget E sb _ _ 0 0)) fun s₂ hs₂ => ?_
  obtain ⟨hsaved₂, -⟩ := hs₂
  have hothers : ∀ j < sb.ninodes, j ≠ (s.icache k).inum →
      sb.dinode s₂.disk j = sb.dinode s.disk j := fun j hj hji =>
    (hsaved₂.other hj hji).trans (hsaved₁.other hj hji)
  refine .pure ⟨?_, ?_, ?_, hothers, ?_⟩
  · exact hsaved₂.image himage₁ hhand.lt fun ht => (ht hetype).elim
  · exact hsaved₂.lh_nodup (hsaved₁.lh_nodup h.lh_nodup)
  · rw [State.setInode, hsaved₂.icache_eq, hsaved₁.icache_eq, ← he, hd₁]
  · change sb.node s₂.disk = _
    grind [hsaved₂.node_eq, hhand.lt, hsaved₁.node_eq, h.image, update_idem]

/-- `iput` of a reference, if the lock is free. -/
theorem State.iput_ends (h : WellFormed sb s) (hE : Lax E) (href : 0 < (s.icache k).ref)
    (hheld : E .held ∨ (s.icache k).locked = false) :
    Ends E (s.iput sb k) fun s' => Put sb s k s' := by
  unfold State.iput
  refine .ite (fun hlocked => .error ?_) fun hunlocked => ?_
  · exact hheld.resolve_right fun hf => Bool.noConfusion (hf.symm.trans hlocked)
  have hfree := Bool.eq_false_of_not_eq_true hunlocked
  by_cases hfrees : Frees s k
  · refine .bind (State.release_ends h hE hfrees) fun s₁ hs₁ => ?_
    obtain ⟨himage, hnodup, hicache, hothers, hnode⟩ := hs₁
    have hentries : ∀ l ≠ k, (s₁.setInode k { s₁.icache k with
        ref := (s₁.icache k).ref - 1 }).icache l = s.icache l := by
      intro l hl
      rw [icache_setInode_of_ne _ hl, hicache, update_of_ne hl]
    have hself : s₁.icache k = { s.icache k with
        copy := { (s.icache k).copy.truncated with type := 0 }, valid := false } := by
      rw [hicache, update_self]
    have hrefs := hfrees.2.2
    refine .pure ⟨hfree, h.update (k := k) himage hnodup hentries ?_ ?_ ?_, hentries, ?_, ?_, ?_,
      fun hno => (hno hfrees).elim, ?_⟩
    · rw [icache_setInode_self, hself]
      exact fun hpos => by simp [hrefs] at hpos
    · rw [icache_setInode_self, hself]
      exact fun hpos => by simp [hrefs] at hpos
    · exact fun l hl hp _ => hothers _ (h.inum_lt l hp) (h.ne_of_inum href hp hl)
    · rw [icache_setInode_self, hself]
    · rw [icache_setInode_self, hself]
    · rw [icache_setInode_self, hself]
    · rw [if_pos hfrees]
      exact hnode
  · have hrelease : s.release sb k = .ok s := by
      unfold State.release
      exact if_neg hfrees
    rw [hrelease]
    refine .pure ⟨hfree, h.setInode _ (fun _ => ?_) (fun _ hv => ?_), fun l hl => ?_, ?_, ?_, ?_,
      fun _ => rfl, (if_neg hfrees).symm⟩
    · exact ⟨h.inum_lt k href, fun _ hl hp => h.ne_of_inum href hp hl⟩
    · exact ⟨h.copy_eq k href hv, h.type_ne k href hv⟩
    · exact icache_setInode_of_ne _ hl
    all_goals rw [icache_setInode_self]

/-- The disk inode `ialloc` writes. -/
theorem blockAt_bare (t : UInt16) (pos : Pos) : blockAt disk { type := t } pos = 0 :=
  blockAt_truncated (d := { type := t }) pos

/-- `ialloc` has taken the free inode `i` and returned a reference to it. -/
structure Allocated (sb : Superblock) (s : State) (type : UInt16) (i : ℕ) (k : Fin NINODE)
    (s' : State) : Prop where
  wf : WellFormed sb s'
  lt : i < sb.ninodes
  pos : 0 < i
  was_free : sb.node s.disk i = none
  node_eq : type ≠ 0 → sb.node s'.disk = update (sb.node s.disk) i (some { type := type })
  got : ∃ s₁, s₁.icache = s.icache ∧ Got i s₁ k s'

theorem State.ialloc_ends {type : UInt16} (h : WellFormed sb s) (hE : Lax E) :
    Ends E (s.ialloc sb type) fun r => ∃ i, Allocated sb s type i r.1 r.2 := by
  have hnone : E .noInodes :=
    hE _ Panic.noConfusion Panic.noConfusion Panic.noConfusion Panic.noConfusion
  have hfull : E .cacheFull :=
    hE _ Panic.noConfusion Panic.noConfusion Panic.noConfusion Panic.noConfusion
  unfold State.ialloc
  cases hfind : (List.range' 1 (sb.ninodes - 1)).find? fun i => (sb.dinode s.disk i).type = 0 with
  | none => exact .error hnone
  | some i =>
    have hfound := List.find?_some hfind
    have hfree : (sb.dinode s.disk i).type = 0 := of_decide_eq_true hfound
    have hmem := List.mem_range'_1.mp (List.mem_of_find?_eq_some hfind)
    have hlt : i < sb.ninodes := by omega
    have howned : Owned sb s.disk (update (sb.dinode s.disk) i { type := type }) :=
      h.image.owned.update_bare (.inl hfree) (.inr fun pos => blockAt_bare type pos)
    refine .bind (State.iupdate_ends howned hlt (fun _ _ _ => rfl) mem_singleton_iblock
      (hE.budget : Budget E sb _ _ 0 0)) fun s₁ hs₁ => ?_
    obtain ⟨hsaved, -⟩ := hs₁
    have himage : Image sb s₁.disk := by
      refine hsaved.image h.image hlt fun _ bn hbn => ?_
      exact (Nat.not_lt_zero _ hbn).elim
    -- a valid entry is that of an allocated inode
    have hne : ∀ l, 0 < (s.icache l).ref → (s.icache l).valid = true → (s.icache l).inum ≠ i := by
      intro l hl hv heq
      have htype := h.type_ne l hl hv
      rw [h.copy_eq l hl hv, heq] at htype
      exact htype hfree
    obtain ⟨k⟩ : Nonempty (Fin NINODE) := ⟨⟨0, by decide⟩⟩
    have hwf : WellFormed sb s₁ := by
      refine h.update (k := k) himage (hsaved.lh_nodup h.lh_nodup) ?_ ?_ ?_ ?_
      · exact fun l _ => congrFun hsaved.icache_eq l
      · rw [hsaved.icache_eq]
        exact fun hp => ⟨h.inum_lt k hp, fun l hl hp' => h.ne_of_inum hp hp' hl⟩
      · rw [hsaved.icache_eq]
        intro hp hv
        rw [hsaved.other (h.inum_lt k hp) (hne k hp hv)]
        exact ⟨h.copy_eq k hp hv, h.type_ne k hp hv⟩
      · exact fun l _ hp hv => hsaved.other (h.inum_lt l hp) (hne l hp hv)
    refine (State.iget_ends (.inl hfull)).mono fun r hr =>
      ⟨i, hwf.got hr hlt, hlt, by omega, ?_, fun ht => ?_, s₁, hsaved.icache_eq, hr⟩
    · exact Superblock.node_eq_none.mpr fun _ => hfree
    · rw [hr.eq]
      refine (hsaved.node_eq h.image hlt).trans ?_
      rw [if_pos ht]
      rfl

/-- The node in a valid entry. -/
theorem WellFormed.node_eq (h : WellFormed sb s) (href : 0 < (s.icache k).ref)
    (hvalid : (s.icache k).valid = true) :
    sb.node s.disk (s.icache k).inum = some ((s.icache k).copy.toNode s.disk) := by
  have htype := h.type_ne k href hvalid
  rw [h.copy_eq k href hvalid] at htype ⊢
  exact Superblock.node_eq_some.mpr ⟨h.inum_lt k href, htype, rfl⟩

/-- `writei` changes the data of one node. -/
theorem Written.node_eq (hw : Written sb s k src off s')
    (href : 0 < (s.icache k).ref) (hvalid : (s.icache k).valid = true) :
    sb.node s'.disk = update (sb.node s.disk) (s.icache k).inum
      (some { (s.icache k).copy.toNode s.disk with
        data := splice (content s.disk (s.icache k).copy) off src }) := by
  have hentry := hw.entry
  have href' : 0 < (s'.icache k).ref := by
    rw [hentry]
    exact href
  have hvalid' : (s'.icache k).valid = true := by
    rw [hentry]
    exact hvalid
  funext j
  by_cases hj : j = (s.icache k).inum
  · subst hj
    have hinum : (s'.icache k).inum = (s.icache k).inum := by rw [hentry]
    have hnode := hw.wf.node_eq href' hvalid'
    rw [hinum] at hnode
    have hcopy : (s'.icache k).copy = sb.dinode s'.disk (s.icache k).inum := by rw [hentry]
    rw [hnode, update_self, Dinode.toNode, hw.content_eq, hcopy, hw.scalars]
    rfl
  · rw [update_of_ne hj]
    unfold Superblock.node
    by_cases hlt : j < sb.ninodes
    · obtain ⟨hdinode, hcontent⟩ := hw.other_files j hlt hj
      rw [hdinode]
      by_cases ht : (sb.dinode s.disk j).type = 0
      · rw [if_neg fun hc => hc.2 ht, if_neg fun hc => hc.2 ht]
      · rw [Dinode.toNode, Dinode.toNode, hcontent ht]
    · rw [if_neg fun hc => hlt hc.1, if_neg fun hc => hlt hc.1]

end Xv6.Fs
