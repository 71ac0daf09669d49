/-
# Reading and writing the contents of an inode

The loop of `writei` goes block by block. One turn fills in the missing block numbers of
its block and overwrites part of the block; the bytes written so far and the bytes not
touched are known after each turn, and the turns compose. `readi` finds all its blocks,
so it only looks.
-/

import Xv6.Fs.Alloc
import Mathlib.Algebra.BigOperators.Intervals
import Mathlib.Algebra.Order.BigOperators.Group.Finset
import Mathlib.Data.List.GetD

namespace Xv6.Fs

open Function Xv6.Lib

/-- Byte `p` of the contents. -/
def byteAt (disk : Disk) (d : Dinode) (p : ℕ) : UInt8 :=
  disk (addrOf disk d (p / BSIZE)) (p % BSIZE)

/-- The places a write to the blocks from `lo` to `hi` may fill. -/
def FillsIn (lo hi : ℕ) (pos : Pos) : Prop := ∃ bn, lo ≤ bn ∧ bn < hi ∧ Fills bn pos

/-- From `s, d` to `s', d'` the bytes from `lo` to `hi` were made those of `f`. -/
structure Wrote (sb : Superblock) (tab : ℕ → Dinode) (i : ℕ) (T : Pos → Prop) (lo hi : ℕ)
    (f : ℕ → UInt8) (s : State) (d : Dinode) (s' : State) (d' : Dinode) : Prop
    extends Frame sb tab i T s d s' d' where
  inside : ∀ p, lo ≤ p → p < hi → addrOf s'.disk d' (p / BSIZE) ≠ 0 ∧ byteAt s'.disk d' p = f p
  outside : ∀ p, p < lo ∨ hi ≤ p → addrOf s.disk d (p / BSIZE) ≠ 0 →
    byteAt s'.disk d' p = byteAt s.disk d p

variable {E : Panic → Prop} {sb : Superblock} {F : Finset ℕ} {s s' s'' : State}
  {blocks logs b x i bn lo mid hi off : ℕ} {v : Bytes} {tab : ℕ → Dinode} {d d' d'' : Dinode}
  {disk : Disk} {T T' : Pos → Prop} {f : ℕ → UInt8} {src : List UInt8}

theorem lt_maxfile_of_addrOf (h : addrOf disk d bn ≠ 0) : bn < MAXFILE := by
  by_contra hn
  exact h (if_neg hn)

/-- Block numbers that are there stay. -/
theorem Frame.addrOf_eq (h : Frame sb tab i T s d s' d') (hne : addrOf s.disk d bn ≠ 0) :
    addrOf s'.disk d' bn = addrOf s.disk d bn := by
  grind [lt_maxfile_of_addrOf, Fs.addrOf_eq, h.blocks]

namespace Wrote

theorem refl : Wrote sb tab i T lo lo f s d s d :=
  ⟨.refl, fun _ hle hlt => absurd hlt (Nat.not_lt.mpr hle), fun _ _ _ => rfl⟩

theorem mono (h : Wrote sb tab i T lo hi f s d s' d') (hT : ∀ pos, T pos → T' pos) :
    Wrote sb tab i T' lo hi f s d s' d' := ⟨h.toFrame.mono hT, h.inside, h.outside⟩

/-- Two writes one after the other. -/
theorem trans (h : Wrote sb tab i T lo mid f s d s' d')
    (h' : Wrote sb tab i T mid hi f s' d' s'' d'')
    (hle : lo ≤ mid) (hle' : mid ≤ hi) : Wrote sb tab i T lo hi f s d s'' d'' := by
  refine ⟨h.toFrame.trans h'.toFrame, fun p hlo hhi => ?_, fun p hp hne => ?_⟩
  · by_cases hp : p < mid
    · obtain ⟨hne, hbyte⟩ := h.inside p hlo hp
      refine ⟨?_, (h'.outside p (.inl hp) hne).trans hbyte⟩
      rw [h'.addrOf_eq hne]
      exact hne
    · exact h'.inside p (Nat.le_of_not_lt hp) hhi
  · have hne' : addrOf s'.disk d' (p / BSIZE) ≠ 0 := by
      rw [h.addrOf_eq hne]
      exact hne
    rw [h'.outside p (by omega) hne', h.outside p (by omega) hne]

end Wrote

/-- Overwriting a block of the inode in hand keeps ownership. -/
theorem Hand.write_data (h : Hand sb tab i s d) (hbn : bn < MAXFILE)
    (hne : addrOf s.disk d bn ≠ 0) : Hand sb tab i (s.record (addrOf s.disk d bn) v) d := by
  rw [Fs.addrOf_eq hbn] at hne ⊢
  have hdata := h.isData hne
  refine ⟨h.lt, h.type_ne, ?_, fun j hj => ?_⟩
  · refine h.owned.write_data (p := dataPos bn) h.lt h.type_self (dataPos_ne_indirect bn) ?_ hne
    rw [Hand.self_eq]
  · rw [State.record, Superblock.dinode_update_of_ne (hdata.ne_iblock hj)]
    exact h.dinode_eq j hj

/-- The block numbers are not among the data that is overwritten. -/
theorem Hand.blockAt_write_data (h : Hand sb tab i s d) (hbn : bn < MAXFILE)
    (hne : addrOf s.disk d bn ≠ 0) (pos : Pos) :
    blockAt (s.record (addrOf s.disk d bn) v).disk d pos = blockAt s.disk d pos := by
  rw [Fs.addrOf_eq hbn] at hne ⊢
  refine blockAt_congr fun hind => update_of_ne (fun heq => ?_) ..
  exact dataPos_ne_indirect bn (h.pos_eq (q := .indirect) hne heq.symm)

/-- `bmap` of the block of `off`, then `m` bytes copied to it. -/
theorem wrote_of_blit {m : ℕ} (hkept : Kept sb tab i T s d s' d') (h : Hand sb tab i s' d')
    (hbn : off / BSIZE < MAXFILE) (hne : addrOf s'.disk d' (off / BSIZE) ≠ 0)
    (hm : m ≤ BSIZE - off % BSIZE) (hlen : m ≤ src.length)
    (hf : ∀ p, off ≤ p → p < off + m → f p = src.getD (p - off) 0) :
    Wrote sb tab i T off (off + m) f s d
      (s'.record (addrOf s'.disk d' (off / BSIZE))
        ((s'.disk (addrOf s'.disk d' (off / BSIZE))).blit (off % BSIZE) (src.take m))) d' := by
  obtain ⟨addr, haddr⟩ : ∃ addr, addrOf s'.disk d' (off / BSIZE) = addr := ⟨_, rfl⟩
  obtain ⟨data, hdata⟩ :
      ∃ data, (s'.disk addr).blit (off % BSIZE) (src.take m) = data := ⟨_, rfl⟩
  have hblocks := h.blockAt_write_data (v := data) hbn hne
  rw [haddr] at hne hblocks ⊢
  rw [hdata]
  have hframe : ∀ y, y ≠ addr → (s'.record addr data).disk y = s'.disk y := fun y hy =>
    update_of_ne hy ..
  have hself : (s'.record addr data).disk addr = data := update_self ..
  have haddrOf : ∀ n, addrOf (s'.record addr data).disk d' n = addrOf s'.disk d' n := by
    intro n
    unfold addrOf
    rw [hblocks]
  have hlen' : (src.take m).length = m := by rw [List.length_take, Nat.min_eq_left hlen]
  have hBSIZE : 0 < BSIZE := by decide
  have hsplit := Nat.div_add_mod off BSIZE
  have hmod := Nat.mod_lt off hBSIZE
  refine ⟨⟨hkept.scalars, fun pos hpos => ?_, fun j hj hji ht pos hne' => ?_, hkept.icache_eq,
    fun x hx => State.mem_record_lh.mpr (.inr (hkept.lh_subset x hx)),
    fun hs => State.nodup_record_lh (hkept.lh_nodup hs)⟩, ?_, ?_⟩
  · rw [hblocks]
    exact hkept.blocks pos hpos
  · have heq := hkept.blockAt_other hj hji ht pos
    rw [hframe, hkept.others j hj hji ht pos hne']
    rw [← heq, ← haddr, addrOf_eq hbn]
    exact h.ne_other hj hji ht (heq ▸ hne')
  · intro p hlo hhi
    -- the byte is in the block of `off`
    have hblock : p / BSIZE = off / BSIZE := by
      refine Nat.div_eq_of_lt_le ?_ ?_
      · rw [Nat.mul_comm]
        omega
      · rw [Nat.add_mul, Nat.mul_comm]
        omega
    have hp := Nat.div_add_mod p BSIZE
    rw [hblock] at hp
    refine ⟨?_, ?_⟩
    · rw [haddrOf, hblock, haddr]
      exact hne
    · rw [byteAt, haddrOf, hblock, haddr, hself, ← hdata,
        Bytes.blit_of_in (by omega) (by omega), hf p hlo hhi, show p % BSIZE - off % BSIZE = p - off
        by omega]
      grind
  · intro p hp hne'
    have hkeep := hkept.toFrame.addrOf_eq hne'
    have hpmax := lt_maxfile_of_addrOf hne'
    have hown : s'.disk (addrOf s.disk d (p / BSIZE)) = s.disk (addrOf s.disk d (p / BSIZE)) := by
      rw [addrOf_eq hpmax] at hne' ⊢
      exact hkept.own _ (dataPos_ne_indirect _) hne'
    by_cases hblock : p / BSIZE = off / BSIZE
    · have haddr' : addrOf s.disk d (p / BSIZE) = addr := by rw [← hkeep, hblock, haddr]
      have hsplit' := Nat.div_add_mod p BSIZE
      rw [hblock] at hsplit'
      rw [haddr'] at hown
      rw [byteAt, haddrOf, hkeep, haddr', hself, ← hdata, Bytes.blit_of_out (by omega), byteAt,
        haddr', hown]
    · have hother : addrOf s.disk d (p / BSIZE) ≠ addr := by
        rw [← hkeep, ← haddr, addrOf_eq hpmax, addrOf_eq hbn]
        intro heq
        rw [← hkeep, addrOf_eq hpmax] at hne'
        exact hblock (dataPos_inj hpmax hbn (h.pos_eq hne' heq))
      rw [byteAt, haddrOf, hkeep, hframe _ hother, byteAt, hown]

/-- The number of blocks from `lo` to `hi` that have no block number yet. -/
def missing (disk : Disk) (d : Dinode) (lo hi : ℕ) : ℕ :=
  ∑ bn ∈ Finset.Ico lo hi, one (addrOf disk d bn = 0)

/-- One, if a write up to block `hi` needs a new indirect block. -/
def indirectNeed (d : Dinode) (hi : ℕ) : ℕ := one (NDIRECT < hi ∧ d.indirect = 0)

/-- The first block of a write of `n` bytes at `off`; with nothing to write, none below
`hi`. -/
def firstBlock (off n hi : ℕ) : ℕ := if n = 0 then hi else off / BSIZE

theorem missing_succ (h : lo < hi) :
    missing disk d lo hi = one (addrOf disk d lo = 0) + missing disk d (lo + 1) hi :=
  Finset.sum_eq_sum_Ico_succ_bot h _

theorem missing_mono (h : lo ≤ mid) : missing disk d mid hi ≤ missing disk d lo hi :=
  Finset.sum_le_sum_of_subset (Finset.Ico_subset_Ico_left h)

theorem missing_congr {disk' : Disk} (h : ∀ bn, lo ≤ bn → bn < hi →
    addrOf disk' d' bn = addrOf disk d bn) : missing disk' d' lo hi = missing disk d lo hi := by
  refine Finset.sum_congr rfl fun bn hbn => ?_
  obtain ⟨hlo, hhi⟩ := Finset.mem_Ico.mp hbn
  rw [h bn hlo hhi]

theorem one_le_one (c : Prop) [Decidable c] : one c ≤ 1 := by
  unfold one
  split <;> omega

/-- What `bmap` of block `bn` costs for the indirect block is what the rest need not pay. -/
theorem indirectNeed_split (hlt : bn < hi) (hentry : NDIRECT ≤ bn → d'.indirect ≠ 0)
    (hdirect : bn < NDIRECT → d'.indirect = d.indirect) :
    indirectNeed d hi = indirectCost d bn + indirectNeed d' hi := by
  unfold indirectNeed indirectCost one
  grind

theorem indirectCost_le (hlt : bn < hi) : indirectCost d bn ≤ indirectNeed d hi := by
  unfold indirectNeed indirectCost one
  split
  · next hc => rw [if_pos ⟨Nat.lt_of_le_of_lt hc.1 hlt, hc.2⟩]
  · exact Nat.zero_le _

/-- After a turn the write goes on in the next block, or it is done. -/
theorem lt_firstBlock {n m : ℕ} (hm : m = min n (BSIZE - off % BSIZE)) (hlt : off / BSIZE < hi) :
    off / BSIZE + 1 ≤ firstBlock (off + m) (n - m) hi := by
  unfold firstBlock
  split
  · exact hlt
  · next hne =>
    have hBSIZE : 0 < BSIZE := by decide
    have hmod := Nat.mod_lt off hBSIZE
    have hsplit := Nat.div_add_mod off BSIZE
    rw [Nat.le_div_iff_mul_le hBSIZE, Nat.add_mul, Nat.mul_comm]
    omega

namespace State

/-- The loop of `writei` on an inode in hand. -/
theorem writeLoop_ends {fuel : ℕ} (h : Hand sb tab i s d) (hfuel : src.length ≤ fuel)
    (hend : off + src.length ≤ hi * BSIZE) (hmax : hi ≤ MAXFILE) (hlogged : IndirectLogged E F s d)
    (hf : ∀ p, off ≤ p → p < off + src.length → f p = src.getD (p - off) 0)
    (hbudget : Budget E sb F s
      (blocks + missing s.disk d (firstBlock off src.length hi) hi + indirectNeed d hi)
      (logs + (hi - firstBlock off src.length hi) + indirectNeed d hi)) :
    Ends E (writeLoop sb fuel s d off src) fun r =>
      Hand sb tab i r.2 r.1 ∧
      Wrote sb tab i (fun pos => src ≠ [] ∧ FillsIn (off / BSIZE) hi pos) off (off + src.length) f
        s d r.2 r.1 ∧
      Budget E sb F r.2 blocks logs := by
  induction fuel generalizing s d off src with
  | zero =>
    have hnil : src.length = 0 := Nat.eq_zero_of_le_zero hfuel
    rw [writeLoop, hnil]
    exact .pure ⟨h, .refl, hbudget.mono (by omega) (by omega)⟩
  | succ fuel ih =>
    rw [writeLoop]
    refine .ite (fun hnil => ?_) fun hne => ?_
    · rw [hnil]
      exact .pure ⟨h, .refl, hbudget.mono (by omega) (by omega)⟩
    have hsrc : src ≠ [] := fun hnil => hne (List.length_eq_zero_iff.mpr hnil)
    have hBSIZE : 0 < BSIZE := by decide
    have hsplit := Nat.div_add_mod off BSIZE
    have hmod := Nat.mod_lt off hBSIZE
    have hlt : off / BSIZE < hi := by
      rw [Nat.div_lt_iff_lt_mul hBSIZE]
      omega
    have hbn : off / BSIZE < MAXFILE := Nat.lt_of_lt_of_le hlt hmax
    rw [firstBlock, if_neg hne, missing_succ hlt] at hbudget
    obtain ⟨m, hm⟩ : ∃ m, min src.length (BSIZE - off % BSIZE) = m := ⟨_, rfl⟩
    have hcost := indirectCost_le (d := d) hlt
    obtain ⟨rest, hrest⟩ : ∃ rest, indirectNeed d hi = indirectCost d (off / BSIZE) + rest :=
      ⟨_, (Nat.add_sub_of_le hcost).symm⟩
    -- the budget of this turn, and what is left after it
    have hturn : Budget E sb F s
        (blocks + missing s.disk d (off / BSIZE + 1) hi + rest +
          one (addrOf s.disk d (off / BSIZE) = 0) + indirectCost d (off / BSIZE))
        (logs + (hi - (off / BSIZE + 1)) + rest + 1 + indirectCost d (off / BSIZE)) :=
      hbudget.mono (by omega) (by omega)
    refine .bind (bmap_ends h hbn hlogged hturn) fun r hr => ?_
    obtain ⟨addr, d₁, s₁⟩ := r
    obtain ⟨⟨hhand₁, hkept⟩, ⟨haddr, haddrne⟩, hlogged₁, ⟨hentry, hdirect⟩, hcase⟩ := hr
    dsimp only at haddr haddrne hentry hdirect hcase ⊢
    have hneed : indirectNeed d₁ hi = rest := by
      have := indirectNeed_split hlt hentry hdirect
      omega
    subst haddr
    have hdata : sb.IsData (addrOf s₁.disk d₁ (off / BSIZE)) := by
      rw [addrOf_eq hbn] at haddrne ⊢
      exact hhand₁.isData haddrne
    have hfree : ∀ n data, n ≤ (freeBlocks sb s₁.disk).card → n ≤ (freeBlocks sb
        (update s₁.disk (addrOf s₁.disk d₁ (off / BSIZE)) data)).card := by
      intro n data hle
      rwa [freeBlocks_update fun c hc => hdata.ne_bblock hc]
    have hbudget₁ : Budget E sb F s₁ 0 0 := by
      rcases hcase with ⟨-, hb⟩ | hb <;> exact hb.mono (Nat.zero_le _) (Nat.zero_le _)
    rw [hm]
    refine .bind (logWrite_ends hbudget₁ rfl) fun s₂ hs₂ => ?_
    have hbudget₂ : Budget E sb F s₂ (blocks + missing s.disk d (off / BSIZE + 1) hi + rest)
        (logs + (hi - (off / BSIZE + 1)) + rest) := by
      rw [← hs₂]
      rcases hcase with ⟨hin, hb⟩ | hb
      · exact hb.record (hfree _ _) (.inl ⟨le_refl _, .inr hin⟩)
      · exact hb.record (hfree _ _) (.inr (le_refl _))
    have hwrote : Wrote sb tab i (Fills (off / BSIZE)) off (off + m) f s d s₂ d₁ := by
      rw [← hs₂]
      exact wrote_of_blit hkept hhand₁ hbn haddrne (by omega) (by omega)
        fun p hlo hhi => hf p hlo (by omega)
    have hhand₂ : Hand sb tab i s₂ d₁ := by
      rw [← hs₂]
      exact hhand₁.write_data hbn haddrne
    have hlogged₂ : IndirectLogged E F s₂ d₁ := by
      refine hlogged₁.imp id fun hl hne' => (hl hne').imp id fun hin => ?_
      rw [← hs₂]
      exact mem_record_lh.mpr (.inr hin)
    have hsame : ∀ n, off / BSIZE + 1 ≤ n → n < hi →
        addrOf s₂.disk d₁ n = addrOf s.disk d n := by
      intro n hlo hhi
      have hn := Nat.lt_of_lt_of_le hhi hmax
      rw [addrOf_eq hn, addrOf_eq hn]
      refine hwrote.blocks _ (.inl ?_)
      rintro (heq | ⟨-, heq⟩)
      · have := dataPos_inj hn hbn heq
        omega
      · exact dataPos_ne_indirect n heq
    have hfirst := lt_firstBlock hm.symm hlt
    have hlen : (src.drop m).length = src.length - m := List.length_drop
    have hmiss : missing s₂.disk d₁ (firstBlock (off + m) (src.length - m) hi) hi ≤
        missing s.disk d (off / BSIZE + 1) hi := by
      rw [← missing_congr hsame]
      exact missing_mono hfirst
    refine (ih hhand₂ (by omega) (by omega) hlogged₂ (fun p hlo hhi => ?_) ?_).mono
      fun r hr => ⟨hr.1, ?_, hr.2.2⟩
    · rw [hf p (by omega) (by omega), List.getD_eq_getElem?_getD, List.getD_eq_getElem?_getD,
        List.getElem?_drop]
      congr 2
      omega
    · rw [hlen, hneed]
      exact hbudget₂.mono (by omega) (by omega)
    · have hwrote' := hr.2.1
      rw [hlen, show off + m + (src.length - m) = off + src.length by omega] at hwrote'
      refine (hwrote.mono ?_).trans (hwrote'.mono ?_) (by omega) (by omega)
      · exact fun pos hpos => ⟨hsrc, _, le_refl _, hlt, hpos⟩
      · rintro pos ⟨-, n, hlo, hhi, hpos⟩
        refine ⟨hsrc, n, Nat.le_trans (Nat.div_le_div_right ?_) hlo, hhi, hpos⟩
        omega

end State

end Xv6.Fs
