/-
# Well-formed states and readi

A state is well formed when the references on the disk own the blocks, no file has a
hole below its size, and the valid entries of the inode cache are the inodes on the
disk, one entry for each. In such a state the contents of a file are a list of bytes,
and `readi` returns a piece of it.
-/

import Xv6.Fs.Write

namespace Xv6.Fs

open Function Xv6.Lib

/-- Every block below the size has a block number. -/
def NoHoles (disk : Disk) (d : Dinode) : Prop :=
  ∀ bn, bn * BSIZE < d.size.toNat → addrOf disk d bn ≠ 0

/-- A well-formed file system on the disk. -/
structure Image (sb : Superblock) (disk : Disk) : Prop where
  owned : Owned sb disk (sb.dinode disk)
  noHoles : ∀ i < sb.ninodes, (sb.dinode disk i).type ≠ 0 → NoHoles disk (sb.dinode disk i)

/-- A well-formed state between operations. -/
structure WellFormed (sb : Superblock) (s : State) : Prop where
  image : Image sb s.disk
  inum_lt : ∀ k, 0 < (s.icache k).ref → (s.icache k).inum < sb.ninodes
  inum_inj : ∀ k l, 0 < (s.icache k).ref → 0 < (s.icache l).ref →
    (s.icache k).inum = (s.icache l).inum → k = l
  copy_eq : ∀ k, 0 < (s.icache k).ref → (s.icache k).valid = true →
    (s.icache k).copy = sb.dinode s.disk (s.icache k).inum
  type_ne : ∀ k, 0 < (s.icache k).ref → (s.icache k).valid = true → (s.icache k).copy.type ≠ 0
  lh_nodup : s.lh.Nodup

/-- The contents of a file. -/
def content (disk : Disk) (d : Dinode) : List UInt8 :=
  (List.range d.size.toNat).map (byteAt disk d)

/-- A list with the bytes from `off` on replaced by `src`, and longer if need be. -/
def splice (old : List UInt8) (off : ℕ) (src : List UInt8) : List UInt8 :=
  old.take off ++ src ++ old.drop (off + src.length)

variable {E : Panic → Prop} {sb : Superblock} {s s' : State} {i j off n : ℕ} {d d' : Dinode}
  {disk disk' : Disk} {k : Fin NINODE} {src : List UInt8} {tab tab' : ℕ → Dinode} {dev : Devsw}

theorem div_mul_lt {p : ℕ} (h : p < n) : p / BSIZE * BSIZE < n :=
  Nat.lt_of_le_of_lt (Nat.div_mul_le_self p BSIZE) h

theorem NoHoles.addrOf_ne (h : NoHoles disk d) {p : ℕ} (hp : p < d.size.toNat) :
    addrOf disk d (p / BSIZE) ≠ 0 := h _ (div_mul_lt hp)

/-- A file without holes is not longer than its block numbers reach. -/
theorem NoHoles.size_le (h : NoHoles disk d) : d.size.toNat ≤ MAXFILE * BSIZE := by
  by_contra hlt
  exact h MAXFILE (Nat.lt_of_not_le hlt) (if_neg (Nat.lt_irrefl _))

theorem length_content : (content disk d).length = d.size.toNat := by
  rw [content, List.length_map, List.length_range]

theorem getElem?_content {p : ℕ} (hp : p < d.size.toNat) :
    (content disk d)[p]? = some (byteAt disk d p) := by
  rw [content, List.getElem?_map, List.getElem?_range hp]
  rfl

/-- Contents are the same if the sizes and the bytes are. -/
theorem content_congr (hsize : d'.size = d.size)
    (hbyte : ∀ p < d.size.toNat, byteAt disk' d' p = byteAt disk d p) :
    content disk' d' = content disk d := by
  unfold content
  rw [hsize]
  exact List.map_congr_left fun p hp => hbyte p (List.mem_range.mp hp)

/-- Ownership depends on types and addresses only. -/
theorem Owned.congr_tab (h : Owned sb disk tab)
    (htab : ∀ j < sb.ninodes, ((tab' j).type = 0 ↔ (tab j).type = 0) ∧
      ((tab j).type ≠ 0 → (tab' j).addrs = (tab j).addrs)) : Owned sb disk tab' := by
  refine h.congr (fun _ _ => Iff.rfl) fun r => ?_
  by_cases hr : r.1 < sb.ninodes
  · refine refOf_congr (htab r.1 hr).1 fun _ ht => ?_
    have haddrs := (htab r.1 hr).2 ht
    have hind : (tab' r.1).indirect = (tab r.1).indirect := by
      unfold Dinode.indirect
      rw [haddrs]
    simp [blockAt, haddrs, hind]
  · unfold refOf
    rw [if_neg fun hc => hr hc.1, if_neg fun hc => hr hc.1]

namespace WellFormed

/-- A valid entry of the inode cache can be taken in hand. -/
theorem hand (h : WellFormed sb s) (href : 0 < (s.icache k).ref)
    (hvalid : (s.icache k).valid = true) :
    Hand sb (sb.dinode s.disk) (s.icache k).inum s (s.icache k).copy := by
  refine ⟨h.inum_lt k href, h.type_ne k href hvalid, ?_, fun _ _ => rfl⟩
  rw [update_eq_self_iff.mpr (h.copy_eq k href hvalid)]
  exact h.image.owned

theorem noHoles (h : WellFormed sb s) (href : 0 < (s.icache k).ref)
    (hvalid : (s.icache k).valid = true) : NoHoles s.disk (s.icache k).copy := by
  grind [h.type_ne, h.copy_eq, h.image.noHoles, h.inum_lt]

/-- Only the entry `k` of the inode cache has changed, and no inode that is valid in
another entry: the state is still well formed if the new disk and the new entry are. -/
theorem update (h : WellFormed sb s) (himage : Image sb s'.disk) (hlh : s'.lh.Nodup)
    (hentries : ∀ l ≠ k, s'.icache l = s.icache l)
    (hinum : 0 < (s'.icache k).ref → (s'.icache k).inum < sb.ninodes ∧
      ∀ l ≠ k, 0 < (s.icache l).ref → (s.icache l).inum ≠ (s'.icache k).inum)
    (hcopy : 0 < (s'.icache k).ref → (s'.icache k).valid = true →
      (s'.icache k).copy = sb.dinode s'.disk (s'.icache k).inum ∧ (s'.icache k).copy.type ≠ 0)
    (hothers : ∀ l ≠ k, 0 < (s.icache l).ref → (s.icache l).valid = true →
      sb.dinode s'.disk (s.icache l).inum = sb.dinode s.disk (s.icache l).inum) :
    WellFormed sb s' := by
  have hcases : ∀ l, 0 < (s'.icache l).ref → (s'.icache l).valid = true →
      (s'.icache l).copy = sb.dinode s'.disk (s'.icache l).inum ∧ (s'.icache l).copy.type ≠ 0 := by
    grind [h.copy_eq, h.type_ne]
  refine ⟨himage, fun l hl => ?_, fun l m hl hm heq => ?_, fun l hl hv => (hcases l hl hv).1,
    fun l hl hv => (hcases l hl hv).2, hlh⟩
  · by_cases hlk : l = k
    · subst hlk
      exact (hinum hl).1
    · rw [hentries l hlk] at hl ⊢
      exact h.inum_lt l hl
  · grind [h.inum_inj]

end WellFormed

/-- `iupdate` has brought the inode `i` on the disk up to date with `e`; the others are
those of `tab`. -/
structure Saved (sb : Superblock) (tab : ℕ → Dinode) (i : ℕ) (e : Dinode) (s s' : State) :
    Prop where
  owned : Owned sb s'.disk (sb.dinode s'.disk)
  dinode_eq : ∀ j < sb.ninodes, sb.dinode s'.disk j = update tab i e j
  data : ∀ x, sb.IsData x → s'.disk x = s.disk x
  icache_eq : s'.icache = s.icache
  lh_subset : ∀ x ∈ s.lh, x ∈ s'.lh
  lh_nodup : s.lh.Nodup → s'.lh.Nodup

namespace Saved

variable {e : Dinode}

theorem self (h : Saved sb tab i e s s') (hi : i < sb.ninodes) : sb.dinode s'.disk i = e := by
  rw [h.dinode_eq i hi, update_self]

theorem other (h : Saved sb tab i e s s') (hj : j < sb.ninodes) (hji : j ≠ i) :
    sb.dinode s'.disk j = tab j := by
  rw [h.dinode_eq j hj, update_of_ne hji]

end Saved

/-- `iupdate` of an inode in hand. -/
theorem State.iupdate_ends {F : Finset ℕ} {e : Dinode} {logs : ℕ}
    (howned : Owned sb s.disk (update tab i e)) (hi : i < sb.ninodes)
    (htab : ∀ j < sb.ninodes, j ≠ i → sb.dinode s.disk j = tab j) (hF : sb.iblock i ∈ F)
    (hbudget : Budget E sb F s 0 logs) :
    Ends E (s.iupdate sb i e) fun s' => Saved sb tab i e s s' ∧ Budget E sb F s' 0 logs := by
  unfold State.iupdate
  refine State.logWrite_ends hbudget ⟨?_, hbudget.record (fun _ => Nat.zero_le _)
    (.inl ⟨le_refl _, .inl hF⟩)⟩
  have hdinode : ∀ j < sb.ninodes, sb.dinode (s.record (sb.iblock i)
      (sb.withDinode s.disk i e)).disk j = update tab i e j := by
    intro j hj
    rw [State.record, Superblock.dinode_withDinode]
    grind
  refine ⟨?_, hdinode, fun x hx => update_of_ne (hx.ne_iblock hi) .., rfl,
    fun x hx => State.mem_record_lh.mpr (.inr hx), State.nodup_record_lh⟩
  refine (howned.write_iblock hi).congr_tab fun j hj => ?_
  rw [hdinode j hj]
  exact ⟨Iff.rfl, fun _ => rfl⟩

namespace State

/-- `bmap` of a block that is there only returns its number. -/
theorem bmap_eq {bn : ℕ} (h : addrOf s.disk d bn ≠ 0) :
    s.bmap sb d bn = .ok (addrOf s.disk d bn, d, s) := by
  have hbn := lt_maxfile_of_addrOf h
  rw [addrOf_eq hbn] at h ⊢
  unfold bmap
  by_cases hdirect : bn < NDIRECT
  · rw [dataPos_direct hdirect] at h ⊢
    have hne : d.addrs (Fin.castSucc ⟨bn, hdirect⟩) ≠ 0 := fun hz => h (congrArg UInt32.toNat hz)
    rw [dif_pos hdirect, addrOrAlloc, if_neg hne]
    rfl
  · have hlt : bn - NDIRECT < NINDIRECT := by
      unfold MAXFILE at hbn
      omega
    rw [dataPos_entry hdirect hlt] at h ⊢
    have hind : d.indirect ≠ 0 := fun hz => h (if_pos hz)
    have hentry : blockAt s.disk d (.entry ⟨bn - NDIRECT, hlt⟩) =
        getEntry (s.disk d.indirect) (bn - NDIRECT) := if_neg hind
    have hne : d.addrs (Fin.last NDIRECT) ≠ 0 := fun hz => hind (congrArg UInt32.toNat hz)
    rw [hentry] at h ⊢
    rw [dif_neg hdirect, if_pos hlt, addrOrAlloc, if_neg hne]
    change (do
      let __x ← s.entryOrAlloc sb d.indirect (bn - NDIRECT)
      pure (__x.1, d, __x.2)) = _
    rw [entryOrAlloc, if_neg h]
    rfl

/-- The loop of `readi` over blocks that are there. -/
theorem readLoop_eq {fuel : ℕ} (hfuel : n ≤ fuel)
    (hthere : ∀ p, off ≤ p → p < off + n → addrOf s.disk d (p / BSIZE) ≠ 0) :
    readLoop sb fuel s d off n =
      .ok ((List.range n).map fun p => byteAt s.disk d (off + p), d, s) := by
  induction fuel generalizing off n with
  | zero =>
    have hnil : n = 0 := Nat.eq_zero_of_le_zero hfuel
    subst hnil
    rfl
  | succ fuel ih =>
    rw [readLoop]
    by_cases hnil : n = 0
    · subst hnil
      rfl
    rw [if_neg hnil, bmap_eq (hthere off (le_refl _) (by omega))]
    obtain ⟨m, hm⟩ : ∃ m, min n (BSIZE - off % BSIZE) = m := ⟨_, rfl⟩
    have hBSIZE : 0 < BSIZE := by decide
    have hmod := Nat.mod_lt off hBSIZE
    have hsplit := Nat.div_add_mod off BSIZE
    have hrest : readLoop sb fuel s d (off + m) (n - m) = .ok
        ((List.range (n - m)).map fun p => byteAt s.disk d (off + m + p), d, s) :=
      ih (by omega) fun p hlo hhi => hthere p (by omega) (by omega)
    -- the bytes of this turn lie in one block
    have hdata : (s.disk (addrOf s.disk d (off / BSIZE))).slice (off % BSIZE) m =
        (List.range m).map fun p => byteAt s.disk d (off + p) := by
      refine List.map_congr_left fun p hp => ?_
      have hp := List.mem_range.mp hp
      have hblock : (off + p) / BSIZE = off / BSIZE := by
        refine Nat.div_eq_of_lt_le ?_ ?_
        · rw [Nat.mul_comm]
          omega
        · rw [Nat.add_mul, Nat.mul_comm]
          omega
      have hoff := Nat.div_add_mod (off + p) BSIZE
      rw [hblock] at hoff
      rw [byteAt, hblock, show (off + p) % BSIZE = off % BSIZE + p by omega]
    have hrange : List.range n = List.range m ++ (List.range (n - m)).map (m + ·) := by
      rw [← List.range_add, Nat.add_sub_of_le (by omega)]
    change (do
      let __x ← readLoop sb fuel s d (off + min n (BSIZE - off % BSIZE))
        (n - min n (BSIZE - off % BSIZE))
      pure ((s.disk (addrOf s.disk d (off / BSIZE))).slice (off % BSIZE)
        (min n (BSIZE - off % BSIZE)) ++ __x.1, __x.2.1, __x.2.2)) = _
    simp [hm, hrest, hdata, hrange, Nat.add_assoc]

theorem setInode_self : s.setInode k (s.icache k) = s := by
  unfold setInode
  rw [update_eq_self]

/-- The sum of two `uint`s has wrapped around when it is below one of them. -/
theorem wraps_iff (hn : n < 2 ^ 32) : (off + n) % 2 ^ 32 < off ↔ 2 ^ 32 ≤ off + n := by
  omega

/-- `readi` of a file without holes returns a piece of the contents and changes nothing. -/
theorem readi_eq (hholes : NoHoles s.disk (s.icache k).copy)
    (htype : (s.icache k).copy.type ≠ T_DEV) (hn : n < 2 ^ 32)
    (hoff : off ≤ (s.icache k).copy.size.toNat) (hfit : off + n < 2 ^ 32) :
    s.readi sb dev k off n =
      .ok (some (((content s.disk (s.icache k).copy).drop off).take n), s) := by
  have hwrap : ¬ (off > (s.icache k).copy.size.toNat ∨ (off + n) % 2 ^ 32 < off) := by
    rw [wraps_iff hn]
    omega
  have hmod : (off + n) % 2 ^ 32 = off + n := Nat.mod_eq_of_lt hfit
  obtain ⟨m, hm⟩ : ∃ m, (if (off + n) % 2 ^ 32 > (s.icache k).copy.size.toNat
    then (s.icache k).copy.size.toNat - off else n) = m := ⟨_, rfl⟩
  have hmin : m = min n ((s.icache k).copy.size.toNat - off) := by
    rw [← hm, hmod]
    split <;> omega
  have hloop : readLoop sb m s (s.icache k).copy off m = .ok
      ((List.range m).map fun p => byteAt s.disk (s.icache k).copy (off + p),
        (s.icache k).copy, s) :=
    readLoop_eq (le_refl m) fun p hlo hhi => hholes.addrOf_ne (by omega)
  have hdata : ((List.range m).map fun p => byteAt s.disk (s.icache k).copy (off + p)) =
      ((content s.disk (s.icache k).copy).drop off).take n := by
    refine List.ext_getElem ?_ fun p hp hp' => ?_
    · simp [length_content, hmin]
    · simp [content]
  unfold readi
  simp only [if_neg htype, if_neg hwrap, hm, hloop, hdata]
  change Except.ok (_, s.setInode k { s.icache k with copy := (s.icache k).copy }) = _
  rw [show ({ s.icache k with copy := (s.icache k).copy } : Inode) = s.icache k from rfl,
    setInode_self]

/-- Otherwise `readi` fails and changes nothing. -/
theorem readi_bad (htype : (s.icache k).copy.type ≠ T_DEV) (hn : n < 2 ^ 32)
    (hbad : ¬ (off ≤ (s.icache k).copy.size.toNat ∧ off + n < 2 ^ 32)) :
    s.readi sb dev k off n = .ok (none, s) := by
  have hwrap : off > (s.icache k).copy.size.toNat ∨ (off + n) % 2 ^ 32 < off := by
    rw [wraps_iff hn]
    omega
  unfold readi
  simp only [if_neg htype, if_pos hwrap]
  rfl

end State

end Xv6.Fs
