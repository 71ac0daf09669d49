/-
# Freeing the blocks of an inode

`itrunc` gives back the blocks an inode refers to one by one, and only then forgets the
references. In between the references that still count are fewer than those on the
disk, so the loop is specified over references of any kind: those freed so far are
taken away. A block that is referred to is in use, and no two references share one,
hence no block is freed that is free.
-/

import Xv6.Fs.File

namespace Xv6.Fs

open Function Xv6.Lib

variable {E : Panic → Prop} {sb : Superblock} {F : Finset ℕ} {s s' s'' : State}
  {b i j logs : ℕ} {d : Dinode} {tab : ℕ → Dinode} {disk disk' : Disk}

/-- The references `ref` own the blocks of the disk. -/
abbrev OwnedBy (sb : Superblock) (disk : Disk) {R : Type} (ref : R → Option ℕ) : Prop :=
  Owns sb.IsMeta sb.IsData (fun b => sb.inUse disk b = true) ref

/-- Some references taken away. -/
def without {R : Type} [DecidableEq R] (ref : R → Option ℕ) (rs : List R) (r : R) : Option ℕ :=
  if r ∈ rs then none else ref r

/-- From `s` to `s'` only the bitmap was written. -/
structure Bitmap (sb : Superblock) (s s' : State) : Prop where
  disk_eq : ∀ x, (∀ c < sb.size, x ≠ sb.bblock c) → s'.disk x = s.disk x
  icache_eq : s'.icache = s.icache
  lh_subset : ∀ x ∈ s.lh, x ∈ s'.lh
  lh_nodup : s.lh.Nodup → s'.lh.Nodup

namespace Bitmap

theorem refl : Bitmap sb s s := ⟨fun _ _ => rfl, rfl, fun _ hx => hx, id⟩

theorem trans (h : Bitmap sb s s') (h' : Bitmap sb s' s'') : Bitmap sb s s'' :=
  ⟨fun x hx => (h'.disk_eq x hx).trans (h.disk_eq x hx), h'.icache_eq.trans h.icache_eq,
    fun x hx => h'.lh_subset x (h.lh_subset x hx), fun hs => h'.lh_nodup (h.lh_nodup hs)⟩

theorem data (h : Bitmap sb s s') {x : ℕ} (hx : sb.IsData x) : s'.disk x = s.disk x :=
  h.disk_eq x fun _ hc => hx.ne_bblock hc

theorem dinode (h : Bitmap sb s s') (hj : j < sb.ninodes) :
    sb.dinode s'.disk j = sb.dinode s.disk j := by
  unfold Superblock.dinode
  rw [h.disk_eq _ fun _ _ => Superblock.iblock_ne_bblock hj]

end Bitmap

section

variable {R : Type} [DecidableEq R] {ref : R → Option ℕ} {r : R} {rs : List R}

/-- `bfree` of a block that is referred to. -/
theorem State.bfree_ends (h : OwnedBy sb s.disk ref) (hr : ref r = some b)
    (hbudget : Budget E sb F s 0 logs) :
    Ends E (s.bfree sb b) fun s' =>
      OwnedBy sb s'.disk (update ref r none) ∧ Bitmap sb s s' ∧
        Budget E sb F s' 0 logs := by
  have hdata := h.shared_of_ref r b hr
  have hlt : b < sb.size := hdata.2
  unfold State.bfree
  rw [if_pos (h.used_of_ref hr)]
  refine State.logWrite_ends hbudget ⟨owns_unmarked h hr, ⟨fun x hx => ?_, rfl,
    fun x hx => State.mem_record_lh.mpr (.inr hx), State.nodup_record_lh⟩, hbudget.trans,
    .inr (Nat.zero_le _), ?_⟩
  · exact update_of_ne (hx b hlt) ..
  · by_cases hE : E .tooBig
    · exact .inl hE
    · have hmap := (hbudget.log.resolve_left hE).2.1 b hlt
      exact (hbudget.record (v := sb.unmarked s.disk b) (fun _ => Nat.zero_le _)
        (.inl ⟨le_refl _, .inl hmap⟩)).log

theorem State.freeAll_cons (rest : List ℕ) :
    freeAll sb (b :: rest) s = (if b = 0 then pure s else s.bfree sb b) >>= freeAll sb rest := by
  rw [freeAll]
  split <;> rfl

/-- Freeing the blocks of some references takes these away. -/
theorem State.freeAll_ends (h : OwnedBy sb s.disk ref) (hrs : rs.Nodup)
    (hbudget : Budget E sb F s 0 logs) :
    Ends E (freeAll sb (rs.map fun r => (ref r).getD 0) s) fun s' =>
      OwnedBy sb s'.disk (without ref rs) ∧ Bitmap sb s s' ∧ Budget E sb F s' 0 logs := by
  induction rs generalizing s ref with
  | nil =>
    refine .pure ⟨?_, .refl, hbudget⟩
    exact h.congr (fun _ _ => Iff.rfl) fun r => if_neg List.not_mem_nil
  | cons r rest ih =>
    obtain ⟨hr, hrest⟩ := List.nodup_cons.mp hrs
    -- the references of the rest are not touched by this turn
    have hlater : (rest.map fun q => (ref q).getD 0) =
        rest.map fun q => (update ref r none q).getD 0 := by
      grind [List.map_congr_left]
    have hwithout : ∀ q, without ref (r :: rest) q =
        without (update ref r none) rest q := by
      intro q
      unfold without
      grind
    rw [List.map_cons, State.freeAll_cons, hlater]
    have hfirst : Ends E (if (ref r).getD 0 = 0 then pure s else s.bfree sb ((ref r).getD 0))
        fun s' => OwnedBy sb s'.disk (update ref r none) ∧ Bitmap sb s s' ∧
          Budget E sb F s' 0 logs := by
      cases hb : ref r with
      | none =>
        refine .pure ⟨h.congr (fun _ _ => Iff.rfl) fun q => ?_, .refl, hbudget⟩
        rw [update_eq_self_iff.mpr hb.symm]
      | some b =>
        rw [Option.getD_some, if_neg (h.shared_of_ref r b hb).pos.ne']
        exact State.bfree_ends h hb hbudget
    refine .bind hfirst fun s₁ hs₁ => ?_
    obtain ⟨hown₁, hmap₁, hbudget₁⟩ := hs₁
    refine (ih hown₁ hrest hbudget₁).mono fun s₂ hs₂ => ?_
    exact ⟨hs₂.1.congr (fun _ _ => Iff.rfl) hwithout, hmap₁.trans hs₂.2.1, hs₂.2.2⟩

end

/-- The inode without its contents. -/
def Dinode.truncated (d : Dinode) : Dinode := { d with size := 0, addrs := fun _ => 0 }

theorem Dinode.indirect_clearDirects : d.clearDirects.indirect = d.indirect := by
  unfold Dinode.indirect Dinode.clearDirects
  simp

theorem Dinode.clearDirects_eq (h : d.indirect = 0) :
    d.clearDirects = { d with addrs := fun _ => 0 } := by
  have haddrs : d.clearDirects.addrs = fun _ => 0 := by
    funext a
    induction a using Fin.lastCases with
    | last => exact UInt32.toNat_inj.mp (Dinode.indirect_clearDirects.trans h)
    | cast a => exact if_pos a.isLt
  rw [← haddrs]
  rfl

theorem Dinode.setAddr_clearDirects :
    d.clearDirects.setAddr (Fin.last NDIRECT) 0 = { d with addrs := fun _ => 0 } := by
  have haddrs : (d.clearDirects.setAddr (Fin.last NDIRECT) 0).addrs = fun _ => 0 := by
    funext a
    induction a using Fin.lastCases with
    | last => exact UInt32.toNat_inj.mp (toNat_setAddr_self (by decide))
    | cast a =>
      rw [setAddr_of_ne (Fin.castSucc_lt_last a).ne]
      exact if_pos a.isLt
  rw [← haddrs]
  rfl

theorem blockAt_truncated (pos : Pos) : blockAt disk d.truncated pos = 0 := by
  cases pos with
  | direct a => rfl
  | indirect => rfl
  | entry l =>
    have hzero : d.truncated.indirect = 0 := rfl
    simp only [blockAt, hzero, if_true]

/-- The places of an inode, in the order in which `itrunc` goes through them. -/
def directRefs (i : ℕ) : List Ref := (List.finRange NDIRECT).map fun a => (i, .direct a)

def entryRefs (i : ℕ) : List Ref := (List.finRange NINDIRECT).map fun l => (i, .entry l)

theorem nodup_directRefs : (directRefs i).Nodup :=
  (List.nodup_finRange _).map fun _ _ h => Pos.direct.inj (Prod.mk.inj h).2

theorem nodup_entryRefs : (entryRefs i).Nodup :=
  (List.nodup_finRange _).map fun _ _ h => Pos.entry.inj (Prod.mk.inj h).2

theorem mem_directRefs {r : Ref} : r ∈ directRefs i ↔ ∃ a, r = (i, .direct a) := by
  simp [directRefs, eq_comm]

theorem mem_entryRefs {r : Ref} : r ∈ entryRefs i ↔ ∃ l, r = (i, .entry l) := by
  simp [entryRefs, eq_comm]

namespace State

/-- The direct part of `itrunc`. -/
theorem freeDirects_ends (h : Hand sb tab i s d) (hbudget : Budget E sb F s 0 logs) :
    Ends E (freeAll sb d.directs s) fun s' =>
      OwnedBy sb s'.disk (without (refOf sb s.disk (update tab i d)) (directRefs i)) ∧
        Bitmap sb s s' ∧ Budget E sb F s' 0 logs := by
  have hdirects : d.directs = (directRefs i).map fun r =>
      (refOf sb s.disk (update tab i d) r).getD 0 := by
    unfold Dinode.directs directRefs
    rw [List.ofFn_eq_map, List.map_map]
    refine List.map_congr_left fun a _ => ?_
    have hget : (refOf sb s.disk (update tab i d) (i, .direct a)).getD 0 =
        blockAt s.disk (update tab i d i) (.direct a) := getD_refOf h.lt h.type_self
    rw [Hand.self_eq] at hget
    exact hget.symm
  rw [hdirects]
  exact freeAll_ends h.owned nodup_directRefs hbudget

/-- The indirect part of `itrunc`, after the direct part has gone from `s₀` to `s`: of inode
`i` no reference is left. -/
theorem freeIndirect_ends {s₀ : State} (h : Hand sb tab i s₀ d)
    (hown : OwnedBy sb s.disk
      (without (refOf sb s₀.disk (update tab i d)) (directRefs i)))
    (hmap : Bitmap sb s₀ s) (hbudget : Budget E sb F s 0 logs) :
    Ends E (s.freeIndirect sb d.clearDirects) fun r =>
      r.1 = { d with addrs := fun _ => 0 } ∧
      OwnedBy sb r.2.disk (fun q =>
        if q.1 = i then none else refOf sb s₀.disk (update tab i d) q) ∧
      Bitmap sb s r.2 ∧ Budget E sb F r.2 0 logs := by
  obtain ⟨ref, href⟩ : ∃ ref, refOf sb s₀.disk (update tab i d) = ref := ⟨_, rfl⟩
  have hnone : ∀ pos, blockAt s₀.disk d pos = 0 → ref (i, pos) = none := by
    intro pos hpos
    rw [← href]
    refine refOf_eq_none.mpr fun _ _ => ?_
    rw [Hand.self_eq]
    exact hpos
  have hother : ∀ q : Ref, q.1 ≠ i → q ∉ directRefs i ∧ q ∉ entryRefs i := by
    refine fun q hq => ⟨fun hmem => ?_, fun hmem => ?_⟩
    · obtain ⟨a, rfl⟩ := mem_directRefs.mp hmem
      exact hq rfl
    · obtain ⟨l, rfl⟩ := mem_entryRefs.mp hmem
      exact hq rfl
  rw [href] at hown ⊢
  unfold freeIndirect
  rw [Dinode.indirect_clearDirects]
  refine .ite (fun hzero => ?_) fun hne => ?_
  · refine .pure ⟨Dinode.clearDirects_eq hzero, hown.congr (fun _ _ => Iff.rfl) fun q => ?_, .refl,
      hbudget⟩
    obtain ⟨j, pos⟩ := q
    by_cases hj : j = i
    · subst hj
      rw [if_pos rfl, without]
      cases pos with
      | direct a => rw [if_pos (mem_directRefs.mpr ⟨a, rfl⟩)]
      | indirect => rw [hnone .indirect hzero, ite_self]
      | entry l => rw [hnone (.entry l) (if_pos hzero), ite_self]
    · rw [if_neg hj, without, if_neg (hother _ hj).1]
  · have hdata : sb.IsData d.indirect := h.isData (p := .indirect) hne
    have hentries : (List.range NINDIRECT).map (getEntry (s.disk d.indirect)) =
        (entryRefs i).map fun q => (without ref (directRefs i) q).getD 0 := by
      unfold entryRefs
      rw [← List.map_coe_finRange_eq_range, List.map_map, List.map_map]
      refine List.map_congr_left fun l _ => ?_
      have hnot : (i, Pos.entry l) ∉ directRefs i := by
        rw [mem_directRefs]
        rintro ⟨a, ha⟩
        cases ha
      have hget : (refOf sb s₀.disk (update tab i d) (i, .entry l)).getD 0 =
          blockAt s₀.disk (update tab i d i) (.entry l) := getD_refOf h.lt h.type_self
      rw [Hand.self_eq, href] at hget
      change getEntry (s.disk d.indirect) l = (without ref (directRefs i) (i, .entry l)).getD 0
      rw [without, if_neg hnot, hget, hmap.data hdata]
      exact (if_neg hne).symm
    dsimp only
    rw [hentries]
    refine .bind (freeAll_ends hown nodup_entryRefs hbudget) fun s₁ hs₁ => ?_
    obtain ⟨hown₁, hmap₁, hbudget₁⟩ := hs₁
    have hindirect : without (without ref (directRefs i)) (entryRefs i) (i, .indirect) =
        some d.indirect := by
      have hnot : (i, Pos.indirect) ∉ directRefs i ∧ (i, Pos.indirect) ∉ entryRefs i := by
        simp [mem_directRefs, mem_entryRefs]
      rw [without, if_neg hnot.2, without, if_neg hnot.1, ← href]
      refine refOf_eq_some.mpr ⟨h.lt, h.type_self, hne, ?_⟩
      rw [Hand.self_eq]
      rfl
    refine .bind (bfree_ends hown₁ hindirect hbudget₁) fun s₂ hs₂ => ?_
    obtain ⟨hown₂, hmap₂, hbudget₂⟩ := hs₂
    refine .pure ⟨Dinode.setAddr_clearDirects, hown₂.congr (fun _ _ => Iff.rfl) fun q => ?_,
      hmap₁.trans hmap₂, hbudget₂⟩
    obtain ⟨j, pos⟩ := q
    by_cases hj : j = i
    · subst hj
      rw [if_pos rfl]
      cases pos with
      | direct a =>
        rw [update_of_ne (by simp), without, without,
          if_pos (mem_directRefs.mpr ⟨a, rfl⟩), ite_self]
      | indirect => rw [update_self]
      | entry l =>
        rw [update_of_ne (by simp), without, if_pos (mem_entryRefs.mpr ⟨l, rfl⟩)]
    · rw [if_neg hj, update_of_ne fun heq => hj (Prod.mk.inj heq).1, without,
        if_neg (hother _ hj).2, without, if_neg (hother _ hj).1]

/-- `itrunc` of an inode in hand frees its blocks and clears it, on the disk as well. -/
theorem itrunc_ends (h : Hand sb tab i s d) (hF : sb.iblock i ∈ F)
    (hbudget : Budget E sb F s 0 logs) :
    Ends E (s.itrunc sb i d) fun r =>
      r.1 = d.truncated ∧ Saved sb tab i d.truncated s r.2 ∧ Budget E sb F r.2 0 logs := by
  unfold itrunc
  refine .bind (freeDirects_ends h hbudget) fun s₁ hs₁ => ?_
  obtain ⟨hown₁, hmap₁, hbudget₁⟩ := hs₁
  refine .bind (freeIndirect_ends h hown₁ hmap₁ hbudget₁) fun r₂ hr₂ => ?_
  obtain ⟨d₂, s₂⟩ := r₂
  obtain ⟨hd₂, hown₂, hmap₂, hbudget₂⟩ := hr₂
  have htrunc : ({ d₂ with size := 0 } : Dinode) = d.truncated := by
    rw [show d₂ = { d with addrs := fun _ => 0 } from hd₂]
    rfl
  have hmap := hmap₁.trans hmap₂
  dsimp only
  rw [htrunc]
  have howned : Owned sb s₂.disk (update tab i d.truncated) := by
    refine hown₂.congr (fun _ _ => Iff.rfl) fun q => ?_
    obtain ⟨j, pos⟩ := q
    by_cases hj : j = i
    · subst hj
      rw [if_pos rfl]
      refine refOf_eq_none.mpr fun _ _ => ?_
      rw [update_self]
      exact blockAt_truncated pos
    · rw [if_neg hj]
      refine refOf_congr ?_ fun hlt ht => ?_
      · rw [update_of_ne hj, update_of_ne hj]
      · rw [update_of_ne hj] at ht ⊢
        rw [update_of_ne hj]
        exact blockAt_congr fun hne => hmap.data (h.isData_other (p := .indirect) hlt hj ht hne)
  have hdinode : ∀ j < sb.ninodes, j ≠ i → sb.dinode s₂.disk j = tab j := fun j hj _ =>
    (hmap.dinode hj).trans (h.dinode_eq j hj)
  refine .bind (iupdate_ends howned h.lt hdinode hF hbudget₂) fun s₃ hs₃ => ?_
  obtain ⟨hsaved, hbudget₃⟩ := hs₃
  refine .pure ⟨rfl, ⟨hsaved.owned, hsaved.dinode_eq, fun x hx => ?_, ?_, ?_, ?_⟩, hbudget₃⟩
  · exact (hsaved.data x hx).trans (hmap.data hx)
  · exact hsaved.icache_eq.trans hmap.icache_eq
  · exact fun x hx => hsaved.lh_subset x (hmap.lh_subset x hx)
  · exact fun hs => hsaved.lh_nodup (hmap.lh_nodup hs)

end State

end Xv6.Fs
