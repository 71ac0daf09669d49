/-
# writei

A call of `writei` as a whole: the loop over the blocks and the update of the size. It
leaves a well-formed state in which the contents of the file have a piece replaced and
all other files are as they were.
-/

import Xv6.Fs.File

namespace Xv6.Fs

open Function Xv6.Lib

variable {E : Panic → Prop} {sb : Superblock} {s s' : State} {i j off n : ℕ} {d d' : Dinode}
  {k : Fin NINODE} {src : List UInt8} {tab : ℕ → Dinode} {dev : Devsw}

/-- The blocks every write to inode `i` may log besides data: bitmap, inode, indirect
block. -/
def metaBlocks (sb : Superblock) (i : ℕ) (d : Dinode) : Finset ℕ :=
  insert (sb.iblock i) ((if d.indirect = 0 then ∅ else {d.indirect}) ∪
    (Finset.range (sb.size / BPB + 1)).image (· + sb.bmapstart))

/-- The block after the last one of a write that ends at `last`. -/
def endBlock (last : ℕ) : ℕ := (last + BSIZE - 1) / BSIZE

theorem bblock_mem_metaBlocks {c : ℕ} (hc : c < sb.size) : sb.bblock c ∈ metaBlocks sb i d := by
  refine Finset.mem_insert_of_mem (Finset.mem_union_right _ ?_)
  refine Finset.mem_image.mpr ⟨c / BPB, ?_, rfl⟩
  exact Finset.mem_range.mpr (Nat.lt_succ_of_le (Nat.div_le_div_right hc.le))

theorem iblock_mem_metaBlocks : sb.iblock i ∈ metaBlocks sb i d := Finset.mem_insert_self ..

theorem indirect_mem_metaBlocks (h : d.indirect ≠ 0) : d.indirect ∈ metaBlocks sb i d := by
  refine Finset.mem_insert_of_mem (Finset.mem_union_left _ ?_)
  rw [if_neg h]
  exact Finset.mem_singleton_self _

theorem card_metaBlocks (hi : ℕ) :
    (metaBlocks sb i d).card + indirectNeed d hi ≤ sb.size / BPB + 3 := by
  have himage := Finset.card_image_le (s := Finset.range (sb.size / BPB + 1))
    (f := (· + sb.bmapstart))
  rw [Finset.card_range] at himage
  have hinsert := Finset.card_insert_le (sb.iblock i)
    ((if d.indirect = 0 then ∅ else {d.indirect}) ∪
    (Finset.range (sb.size / BPB + 1)).image (· + sb.bmapstart))
  have hunion := Finset.card_union_le (if d.indirect = 0 then ∅ else {d.indirect})
    ((Finset.range (sb.size / BPB + 1)).image (· + sb.bmapstart))
  unfold metaBlocks indirectNeed one
  grind

theorem le_endBlock_mul (last : ℕ) : last ≤ endBlock last * BSIZE := by
  have hsplit := Nat.div_add_mod (last + BSIZE - 1) BSIZE
  have hmod := Nat.mod_lt (last + BSIZE - 1) (show 0 < BSIZE by decide)
  have hB : 0 < BSIZE := by decide
  unfold endBlock
  rw [Nat.mul_comm]
  omega

theorem endBlock_le {last : ℕ} (h : last ≤ MAXFILE * BSIZE) : endBlock last ≤ MAXFILE := by
  have hB : 0 < BSIZE := by decide
  unfold endBlock
  rw [Nat.div_le_iff_le_mul_add_pred hB, Nat.mul_comm]
  omega

theorem mul_lt_of_lt_endBlock {last bn : ℕ} (h : bn < endBlock last) : bn * BSIZE < last := by
  have hB : 0 < BSIZE := by decide
  unfold endBlock at h
  rw [Nat.lt_iff_add_one_le, Nat.le_div_iff_mul_le hB, Nat.add_mul] at h
  omega

/-- The end of `writei`, with the inode in hand: it is on the disk afterwards, if it was
there or has grown. -/
theorem State.growSize_ends {F : Finset ℕ} (h : Hand sb tab i s d) (hF : sb.iblock i ∈ F)
    (hbudget : Budget E sb F s 0 0) (hoff : off < 2 ^ 32)
    (hsame : ¬ (n > 0 ∧ off > d.size.toNat) → d = tab i) :
    Ends E (s.growSize sb i d off n) fun r =>
      Saved sb tab i r.1 s r.2 ∧ r.1 = { d with size := r.1.size } ∧
        r.1.size.toNat = if n > 0 ∧ off > d.size.toNat then off else d.size.toNat := by
  unfold State.growSize
  refine .ite (fun hgrow => ?_) fun hgrow => ?_
  · obtain ⟨e, he⟩ : ∃ e, ({ d with size := UInt32.ofNat off } : Dinode) = e := ⟨_, rfl⟩
    rw [he]
    have howned : Owned sb s.disk (update tab i e) := by
      refine h.owned.congr_tab fun j _ => ?_
      grind
    refine .bind (State.iupdate_ends howned h.lt (fun j hj _ => h.dinode_eq j hj) hF hbudget)
      fun s' hs' => .pure ⟨hs'.1, ?_, ?_⟩
    · rw [← he]
    · rw [if_pos hgrow, ← he]
      exact UInt32.toNat_ofNat_of_lt' hoff
  · have htab : update tab i d = tab := update_eq_self_iff.mpr (hsame hgrow)
    refine .pure ⟨⟨?_, fun j hj => ?_, fun _ _ => rfl, rfl, fun _ hx => hx, id⟩, rfl,
      (if_neg hgrow).symm⟩
    · refine h.owned.congr_tab fun j hj => ?_
      rw [h.dinode_eq j hj, htab]
      exact ⟨Iff.rfl, fun _ => rfl⟩
    · rw [htab]
      exact h.dinode_eq j hj

/-- If nothing could be filled in, the inode is as before. -/
theorem Frame.eq_of_present {T : Pos → Prop} (h : Frame sb tab i T s d s' d')
    (hT : ∀ pos, T pos → blockAt s.disk d pos ≠ 0) : d' = d := by
  have hblocks : ∀ pos, blockAt s'.disk d' pos = blockAt s.disk d pos := fun pos =>
    h.blocks pos (Classical.em (T pos) |>.symm.imp id (hT pos))
  have haddrs : d'.addrs = d.addrs := by
    funext a
    have := hblocks (Pos.ofAddr a)
    rw [blockAt_ofAddr, blockAt_ofAddr] at this
    exact UInt32.toNat_inj.mp this
  rw [h.scalars, haddrs]

/-- A write within the size finds all its block numbers. -/
theorem NoHoles.fillsIn_ne (h : NoHoles s.disk d) (hlast : off ≤ d.size.toNat) {lo : ℕ} {pos : Pos}
    (hpos : FillsIn lo (endBlock off) pos) : blockAt s.disk d pos ≠ 0 := by
  obtain ⟨bn, -, hlt, hfills⟩ := hpos
  have hne := h bn (Nat.lt_of_lt_of_le (mul_lt_of_lt_endBlock hlt) hlast)
  have hbn := lt_maxfile_of_addrOf hne
  rw [addrOf_eq hbn] at hne
  rcases hfills with rfl | ⟨hle, rfl⟩
  · exact hne
  · rw [dataPos_entry (Nat.not_lt.mpr hle) (by unfold MAXFILE at hbn; omega)] at hne
    exact fun hz => hne (if_pos hz)

/-- Writes that spare the data area are not seen in the contents. -/
theorem Wrote.congr_data {T : Pos → Prop} {lo hi : ℕ} {f : ℕ → UInt8} {s'' : State}
    (h : Wrote sb tab i T lo hi f s d s' d') (hhand : Hand sb tab i s' d')
    (hhand₀ : Hand sb tab i s d) (hdata : ∀ x, sb.IsData x → s''.disk x = s'.disk x)
    (hicache : s''.icache = s'.icache) (hlh : ∀ x ∈ s'.lh, x ∈ s''.lh)
    (hnodup : s'.lh.Nodup → s''.lh.Nodup) : Wrote sb tab i T lo hi f s d s'' d' := by
  have hblocks : ∀ pos, blockAt s''.disk d' pos = blockAt s'.disk d' pos := fun pos =>
    blockAt_congr fun hne => hdata _ (hhand.isData (p := .indirect) hne)
  have haddr : ∀ bn, addrOf s''.disk d' bn = addrOf s'.disk d' bn := by
    intro bn
    unfold addrOf
    rw [hblocks]
  have hbyte : ∀ p, addrOf s'.disk d' (p / BSIZE) ≠ 0 →
      byteAt s''.disk d' p = byteAt s'.disk d' p := by
    intro p hne
    have hbn := lt_maxfile_of_addrOf hne
    rw [byteAt, haddr, byteAt, hdata]
    rw [addrOf_eq hbn] at hne ⊢
    exact hhand.isData hne
  refine ⟨⟨h.scalars, fun pos hpos => ?_, fun j hj hji ht pos hne => ?_, hicache.trans h.icache_eq,
    fun x hx => hlh x (h.lh_subset x hx), fun hs => hnodup (h.lh_nodup hs)⟩, fun p hlo hhi => ?_,
    fun p hp hne => ?_⟩
  · rw [hblocks]
    exact h.blocks pos hpos
  · rw [hdata _ (hhand₀.isData_other hj hji ht hne)]
    exact h.others j hj hji ht pos hne
  · obtain ⟨hne, hf⟩ := h.inside p hlo hhi
    rw [haddr, hbyte p hne]
    exact ⟨hne, hf⟩
  · rw [hbyte p, h.outside p hp hne]
    rw [h.addrOf_eq hne]
    exact hne

/-- The file `i` after a write to it that ended at `off + src.length`. -/
theorem content_of_wrote {T : Pos → Prop}
    (h : Wrote sb tab i T off (off + src.length) (fun p => src.getD (p - off) 0) s d s' d')
    (hholes : NoHoles s.disk d) (hoff : off ≤ d.size.toNat) {e : Dinode}
    (he : e = { d' with size := e.size })
    (hsize : e.size.toNat = max d.size.toNat (off + src.length)) :
    content s'.disk e = splice (content s.disk d) off src ∧ NoHoles s'.disk e := by
  have haddr : ∀ bn, addrOf s'.disk e bn = addrOf s'.disk d' bn := fun bn => by rw [he]; rfl
  have hbyte : ∀ p, byteAt s'.disk e p = byteAt s'.disk d' p := fun p => by
    rw [byteAt, haddr, byteAt]
  have hlen : (content s.disk d).length = d.size.toNat := length_content
  refine ⟨?_, fun bn hbn => ?_⟩
  · refine List.ext_getElem? fun p => ?_
    by_cases hp : p < e.size.toNat
    · rw [getElem?_content hp, hbyte, splice, List.append_assoc]
      by_cases hbefore : p < off
      · have hold : p < d.size.toNat := by omega
        rw [List.getElem?_append_left (by rw [List.length_take]; omega),
          List.getElem?_take_of_lt hbefore, getElem?_content hold,
          h.outside p (.inl hbefore) (hholes.addrOf_ne hold)]
      · have htake : (List.take off (content s.disk d)).length = off := by
          rw [List.length_take]
          omega
        rw [List.getElem?_append_right (by omega), htake]
        by_cases hinside : p < off + src.length
        · rw [List.getElem?_append_left (by omega), (h.inside p (by omega) hinside).2,
            List.getD_eq_getElem?_getD, List.getElem?_eq_getElem (by omega)]
          rfl
        · have hold : p < d.size.toNat := by omega
          rw [List.getElem?_append_right (by omega), List.getElem?_drop,
            show off + src.length + (p - off - src.length) = p by omega, getElem?_content hold,
            h.outside p (.inr (by omega)) (hholes.addrOf_ne hold)]
    · have hsplice : (splice (content s.disk d) off src).length ≤ p := by
        simp only [splice, List.length_append, List.length_take, List.length_drop, hlen]
        omega
      rw [List.getElem?_eq_none (by rw [length_content]; omega), List.getElem?_eq_none hsplice]
  · rw [haddr]
    by_cases hold : bn * BSIZE < d.size.toNat
    · rw [h.addrOf_eq (hholes bn hold)]
      exact hholes bn hold
    · have hin := (h.inside (bn * BSIZE) (by omega) (by omega)).1
      rwa [Nat.mul_div_cancel _ (by decide)] at hin

/-- The other files after a write. -/
theorem content_other_of_wrote {T : Pos → Prop} {lo hi : ℕ} {f : ℕ → UInt8}
    (h : Wrote sb tab i T lo hi f s d s' d') (hj : j < sb.ninodes) (hji : j ≠ i)
    (ht : (tab j).type ≠ 0) (hholes : NoHoles s.disk (tab j)) :
    content s'.disk (tab j) = content s.disk (tab j) ∧ NoHoles s'.disk (tab j) := by
  have haddr : ∀ bn, addrOf s'.disk (tab j) bn = addrOf s.disk (tab j) bn := by
    intro bn
    unfold addrOf
    rw [h.blockAt_other hj hji ht]
  refine ⟨content_congr rfl fun p hp => ?_, fun bn hbn => ?_⟩
  · have hne := hholes.addrOf_ne hp
    have hbn := lt_maxfile_of_addrOf hne
    rw [byteAt, haddr, byteAt]
    rw [addrOf_eq hbn] at hne ⊢
    rw [h.others j hj hji ht _ hne]
  · rw [haddr]
    exact hholes bn hbn

/-- What `writei` of `src` at `off` to the inode in entry `k` has done from `s` to `s'`. -/
structure Written (sb : Superblock) (s : State) (k : Fin NINODE) (src : List UInt8) (off : ℕ)
    (s' : State) : Prop where
  wf : WellFormed sb s'
  others : ∀ l ≠ k, s'.icache l = s.icache l
  entry : s'.icache k = { s.icache k with copy := sb.dinode s'.disk (s.icache k).inum }
  scalars : sb.dinode s'.disk (s.icache k).inum = { (s.icache k).copy with
    size := (sb.dinode s'.disk (s.icache k).inum).size
    addrs := (sb.dinode s'.disk (s.icache k).inum).addrs }
  content_eq : content s'.disk (s'.icache k).copy =
    splice (content s.disk (s.icache k).copy) off src
  other_files : ∀ j < sb.ninodes, j ≠ (s.icache k).inum →
    sb.dinode s'.disk j = sb.dinode s.disk j ∧
    ((sb.dinode s.disk j).type ≠ 0 →
      content s'.disk (sb.dinode s.disk j) = content s.disk (sb.dinode s.disk j))
  places : ∀ pos, ¬ (src ≠ [] ∧ FillsIn (off / BSIZE) (endBlock (off + src.length)) pos) ∨
      blockAt s.disk (s.icache k).copy pos ≠ 0 →
    blockAt s'.disk (s'.icache k).copy pos = blockAt s.disk (s.icache k).copy pos
  other_places : ∀ j < sb.ninodes, j ≠ (s.icache k).inum → (sb.dinode s.disk j).type ≠ 0 →
    ∀ pos, blockAt s'.disk (sb.dinode s.disk j) pos = blockAt s.disk (sb.dinode s.disk j) pos

/-- `writei` with good arguments, within the budget, writes the file and nothing else. -/
theorem State.writei_ends (h : WellFormed sb s) (href : 0 < (s.icache k).ref)
    (hvalid : (s.icache k).valid = true) (hdev : (s.icache k).copy.type ≠ T_DEV)
    (hoff : off ≤ (s.icache k).copy.size.toNat) (hmax : off + src.length ≤ MAXFILE * BSIZE)
    (hbudget : Budget E sb (metaBlocks sb (s.icache k).inum (s.icache k).copy) s
      (missing s.disk (s.icache k).copy
          (firstBlock off src.length (endBlock (off + src.length))) (endBlock (off + src.length)) +
        indirectNeed (s.icache k).copy (endBlock (off + src.length)))
      (endBlock (off + src.length) - firstBlock off src.length (endBlock (off + src.length)) +
        indirectNeed (s.icache k).copy (endBlock (off + src.length)))) :
    Ends E (s.writei sb dev k src off) fun r =>
      r.1 = some src.length ∧ Written sb s k src off r.2 := by
  have hmax32 : off + src.length < 2 ^ 32 := Nat.lt_of_le_of_lt hmax (by decide)
  have hmod : (off + src.length) % 2 ^ 32 = off + src.length := Nat.mod_eq_of_lt hmax32
  obtain ⟨hi, hhi⟩ : ∃ hi, endBlock (off + src.length) = hi := ⟨_, rfl⟩
  have hhand := h.hand href hvalid
  have hholes := h.noHoles href hvalid
  unfold State.writei
  dsimp only
  rw [if_neg hdev, hmod, if_neg (by omega), if_neg (by omega)]
  have hzero : Budget E sb (metaBlocks sb (s.icache k).inum (s.icache k).copy) s _ _ :=
    hbudget.mono (Nat.le_of_eq (congrArg (· + _) (Nat.zero_add _)))
      (Nat.le_of_eq (congrArg (· + _) (Nat.zero_add _)))
  have hloop := State.writeLoop_ends (f := fun p => src.getD (p - off) 0) hhand (le_refl _)
    (le_endBlock_mul _) (endBlock_le hmax) (.inr fun hne => .inl (indirect_mem_metaBlocks hne))
    (fun _ _ _ => rfl) hzero
  refine .bind hloop fun r₁ hr₁ => ?_
  obtain ⟨d₁, s₁⟩ := r₁
  obtain ⟨hhand₁, hwrote, hbudget₁⟩ := hr₁
  dsimp only at hhand₁ hwrote hbudget₁ ⊢
  have hsize₁ : d₁.size = (s.icache k).copy.size := by rw [hwrote.scalars]
  have hsame : ¬ (src.length > 0 ∧ off + src.length > d₁.size.toNat) →
      d₁ = sb.dinode s.disk (s.icache k).inum := by
    intro hno
    rw [← h.copy_eq k href hvalid]
    refine hwrote.toFrame.eq_of_present fun pos hpos => hholes.fillsIn_ne ?_ hpos.2
    rw [hsize₁] at hno
    omega
  rw [hwrote.icache_eq]
  refine .bind (State.growSize_ends hhand₁ iblock_mem_metaBlocks hbudget₁ hmax32 hsame)
    fun r₂ hr₂ => ?_
  obtain ⟨d₂, s₂⟩ := r₂
  obtain ⟨hsaved, hd₂, hsize₂⟩ := hr₂
  dsimp only at hsaved hd₂ hsize₂ ⊢
  have hicache : s₂.icache = s.icache := hsaved.icache_eq.trans hwrote.icache_eq
  have hwrote₂ := hwrote.congr_data hhand₁ hhand hsaved.data hsaved.icache_eq hsaved.lh_subset
    hsaved.lh_nodup
  have hsize : d₂.size.toNat = max (s.icache k).copy.size.toNat (off + src.length) := by
    rw [hsize₂, hsize₁]
    split <;> omega
  obtain ⟨hcontent, hholes₂⟩ := content_of_wrote hwrote₂ hholes hoff hd₂ hsize
  have htype₂ : d₂.type ≠ 0 := by
    rw [hd₂]
    exact hhand₁.type_ne
  have hself := hsaved.self hhand.lt
  have hfiles : ∀ j < sb.ninodes, j ≠ (s.icache k).inum → (sb.dinode s.disk j).type ≠ 0 →
      content s₂.disk (sb.dinode s.disk j) = content s.disk (sb.dinode s.disk j) ∧
        NoHoles s₂.disk (sb.dinode s.disk j) := fun j hj hji ht =>
    content_other_of_wrote hwrote₂ hj hji ht (h.image.noHoles j hj ht)
  have himage : Image sb s₂.disk := by
    refine ⟨hsaved.owned, fun j hj ht => ?_⟩
    by_cases hji : j = (s.icache k).inum
    · rw [hji, hself]
      exact hholes₂
    · rw [hsaved.other hj hji] at ht ⊢
      exact (hfiles j hj hji ht).2
  have hentry : (s₂.setInode k { s₂.icache k with copy := d₂ }).icache k =
      { s.icache k with copy := d₂ } := by
    rw [hicache]
    exact update_self ..
  have hentries : ∀ l ≠ k, (s₂.setInode k { s₂.icache k with copy := d₂ }).icache l =
      s.icache l := by
    intro l hl
    rw [← hicache]
    exact update_of_ne hl ..
  refine .pure ⟨rfl, ?_, hentries, ?_, ?_, ?_, fun j hj hji => ⟨hsaved.other hj hji, fun ht => ?_⟩,
    fun pos hpos => ?_, fun j hj hji ht pos => hwrote₂.blockAt_other hj hji ht pos⟩
  · refine h.update himage (hwrote₂.lh_nodup h.lh_nodup) hentries ?_ ?_ ?_
    · grind [hhand.lt, h.inum_inj]
    · rw [hentry]
      exact fun _ _ => ⟨hself.symm, htype₂⟩
    · exact fun l hl hpos _ => hsaved.other (h.inum_lt l hpos) fun heq =>
        hl (h.inum_inj l k hpos href heq)
  · rw [hentry]
    exact congrArg (fun c => { s.icache k with copy := c }) hself.symm
  · change sb.dinode s₂.disk (s.icache k).inum = { (s.icache k).copy with
      size := (sb.dinode s₂.disk (s.icache k).inum).size
      addrs := (sb.dinode s₂.disk (s.icache k).inum).addrs }
    rw [hself, hd₂, hwrote.scalars]
  · rw [hentry]
    exact hcontent
  · exact (hfiles j hj hji ht).1
  · rw [hentry, ← hwrote₂.blocks pos hpos, hd₂]
    cases pos <;> rfl

/-- `writei` with bad arguments fails and changes nothing. -/
theorem State.writei_bad (hdev : (s.icache k).copy.type ≠ T_DEV) (hn : src.length < 2 ^ 32)
    (hbad : ¬ (off ≤ (s.icache k).copy.size.toNat ∧ off + src.length < 2 ^ 32 ∧
      off + src.length ≤ MAXFILE * BSIZE)) :
    s.writei sb dev k src off = .ok (none, s) := by
  unfold State.writei
  dsimp only
  rw [if_neg hdev]
  by_cases hwrap : off > (s.icache k).copy.size.toNat ∨ (off + src.length) % 2 ^ 32 < off
  · rw [if_pos hwrap]
    rfl
  · rw [if_neg hwrap]
    rw [wraps_iff hn] at hwrap
    rw [if_pos]
    · rfl
    · rw [Nat.mod_eq_of_lt (by omega)]
      omega

end Xv6.Fs
