/-
# Allocating a block

The loop of `malloc` goes once around the free list. A block that is big enough is
taken out of the list, or gives its upper end away; if there is none the heap grows,
and then the second round finds one.
-/

import Xv6.Umalloc.Free

namespace Xv6.Umalloc

open Function Xv6.Lib

variable {base : ℕ} {h : Heap} {fs : List ℕ} {mem mem' : Mem} {a b c n x : ℕ}
  {pre post l : List ℕ}

namespace Inv

/-- Two different blocks do not overlap. -/
theorem disjoint_of_ne (hinv : Inv base h fs) (ha : a ∈ fs ++ h.live) (hb : b ∈ fs ++ h.live)
    (hne : a ≠ b) : ∀ x, Within x (h.mem.block a) → ¬ Within x (h.mem.block b) := by
  have hsymm : Std.Symm fun a b =>
      ∀ x, Within x (h.mem.block a) → ¬ Within x (h.mem.block b) := by
    constructor
    intro a b hdisjoint x hx hx'
    exact hdisjoint x hx' hx
  exact hinv.disjoint.forall ha hb hne

/-- There is no header inside a block. -/
theorem not_mem_inside (hinv : Inv base h fs) (hb : b ∈ fs ++ h.live) (hlt : b < x)
    (hend : x < b + HEADER * (h.mem b).size) : x ∉ base :: (fs ++ h.live) := by
  intro hx
  rcases List.mem_cons.mp hx with rfl | hx
  · have := hinv.above_base hb
    omega
  · exact hinv.disjoint_of_ne hb hx hlt.ne x ⟨hlt.le, hend⟩ (hinv.within_self hx)

/-- Headers elsewhere do not matter. -/
theorem congr (hinv : Inv base h fs) (heq : ∀ b ∈ base :: (fs ++ h.live), mem' b = h.mem b) :
    Inv base { h with mem := mem' } fs := by
  have hblocks : ∀ b ∈ fs ++ h.live, mem' b = h.mem b :=
    fun b hb => heq b (List.mem_cons_of_mem base hb)
  have hseg : mem'.Segment base (base :: fs) := by
    apply hinv.segment.congr
    intro b hb
    apply heq b
    rw [← List.cons_append]
    exact List.mem_append_left h.live hb
  constructor
  · exact hseg.linked
  · exact hseg.sorted
  · show (mem' base).size = 0
    rw [heq base List.mem_cons_self]
    exact hinv.base_size
  · intro b hb
    show 0 < (mem' b).size
    rw [hblocks b hb]
    exact hinv.pos b hb
  · grind [Mem.map_block_congr, hinv.tiles]
  · exact hinv.apart
  · exact hinv.above

/-- The whole free block `b` is taken. -/
theorem take_all (hinv : Inv base h fs) (hsplit : base :: fs = pre ++ a :: b :: post)
    (hself : mem' a = { h.mem a with ptr := (h.mem b).ptr })
    (hother : ∀ c, c ≠ a → mem' c = h.mem c) :
    ∃ fs', Inv base { h with mem := mem', live := b :: h.live } fs' ∧ a ∈ base :: fs' := by
  obtain ⟨fs', hfs'⟩ := exists_tail hsplit post
  have hperm : fs.Perm (b :: fs') := by
    apply (List.perm_cons base).mp
    grind [List.perm_middle]
  have hblocks : (fs' ++ b :: h.live).Perm (fs ++ h.live) := by
    apply List.perm_middle.trans
    exact hperm.symm.append_right h.live
  have hseg := hinv.segment
  rw [hsplit] at hseg
  obtain ⟨hbefore, hsorted⟩ := List.pairwise_cons.mp (hseg.drop).sorted
  have hne : ∀ c ∈ post, c ≠ a := by
    intro c hc
    have hac : a + HEADER * (h.mem a).size < c := hbefore c (List.mem_cons_of_mem b hc)
    omega
  have hsize : ∀ c, (mem' c).size = (h.mem c).size := by
    intro c
    by_cases hc : c = a
    · rw [hc, hself]
    · rw [hother c hc]
  have hsegment : mem'.Segment base (base :: fs') := by
    rw [hfs']
    apply hseg.replace
    · have hpost : h.mem.Segment base post := by
        have hseg' := hseg
        rw [List.append_cons, List.append_cons] at hseg'
        exact hseg'.drop
      apply (hpost.congr fun c hc => hother c (hne c hc)).cons
      · show (mem' a).ptr = _
        rw [hself]
        have hseg' := hseg
        rw [List.append_cons] at hseg'
        exact hseg'.next_eq
      · intro c hc
        rw [Mem.Before, hsize]
        exact hbefore c (List.mem_cons_of_mem b hc)
    · intro c hc
      apply hother
      have hca : c + HEADER * (h.mem c).size < a :=
        (List.pairwise_append.mp hseg.sorted).2.2 c hc a List.mem_cons_self
      omega
  refine ⟨fs', ⟨hsegment.linked, hsegment.sorted, ?_, ?_, ?_, hinv.apart, hinv.above⟩,
    mem_of_split hfs'⟩
  · show (mem' base).size = 0
    rw [hsize]
    exact hinv.base_size
  · intro c hc
    show 0 < (mem' c).size
    rw [hsize]
    exact hinv.pos c (hblocks.mem_iff.mp hc)
  · intro x
    show covers ((fs' ++ b :: h.live).map mem'.block) x = _
    have hblock : mem'.block = h.mem.block := by
      funext c
      rw [Mem.block, Mem.block, hsize]
    rw [hblock, covers_perm (hblocks.map _)]
    exact hinv.tiles x

/-- The free block `b` gives its upper `n` units away. -/
theorem take_end (hinv : Inv base h fs) (hb : b ∈ fs) (hpos : 0 < n) (hlt : n < (h.mem b).size)
    {p : ℕ} (hp : b + HEADER * ((h.mem b).size - n) = p) (hfresh : p ∉ base :: (fs ++ h.live))
    (hmem : ∀ c, c ≠ p → c ≠ b → mem' c = h.mem c)
    (hmemb : mem' b = { h.mem b with size := (h.mem b).size - n }) (hmemp : (mem' p).size = n) :
    Inv base { h with mem := mem', live := p :: h.live } fs := by
  have hbmem : b ∈ fs ++ h.live := List.mem_append_left h.live hb
  have hpne : ∀ c ∈ base :: (fs ++ h.live), c ≠ p := by
    rintro c hc rfl
    exact hfresh hc
  have hbase : base ≠ b := by
    have hbefore := (List.pairwise_cons.mp hinv.sorted).1 b hb
    rw [Mem.Before] at hbefore
    omega
  have hseg : mem'.Segment base (base :: fs) := by
    have hring : ∀ c ∈ base :: fs, c ≠ p := by
      grind
    apply hinv.segment.shrink
    · intro c hc
      by_cases hcb : c = b
      · rw [hcb, hmemb]
      · rw [hmem c (hring c hc) hcb]
    · grind
  -- All blocks but the two parts stay.
  have hperm := List.perm_cons_erase hbmem
  have hrest : ∀ c ∈ (fs ++ h.live).erase b, c ∈ fs ++ h.live ∧ mem' c = h.mem c := by
    intro c hc
    obtain ⟨hcb, hcmem⟩ := hinv.nodup.mem_erase_iff.mp hc
    exact ⟨hcmem, hmem c (hpne c (List.mem_cons_of_mem base hcmem)) hcb⟩
  have hblocks : (fs ++ p :: h.live).Perm (p :: b :: (fs ++ h.live).erase b) :=
    List.perm_middle.trans (hperm.cons p)
  constructor
  · exact hseg.linked
  · exact hseg.sorted
  · grind [hinv.base_size]
  · intro c hc
    show 0 < (mem' c).size
    rcases List.mem_cons.mp (hblocks.mem_iff.mp hc) with rfl | hc
    · rw [hmemp]
      exact hpos
    · rcases List.mem_cons.mp hc with rfl | hc
      · rw [hmemb]
        exact Nat.sub_pos_of_lt hlt
      · rw [(hrest c hc).2]
        exact hinv.pos c (hrest c hc).1
  · intro x
    show covers ((fs ++ p :: h.live).map mem'.block) x = _
    have hcut : covers [h.mem.block b] x = covers [mem'.block b] x + covers [mem'.block p] x := by
      rw [Mem.block, Mem.block, Mem.block, hmemb, hmemp, ← hp, ← covers_join, ← Nat.mul_add,
        Nat.sub_add_cancel hlt.le]
    rw [← hinv.tiles, covers_perm (hblocks.map _), covers_perm (hperm.map h.mem.block),
      List.map_cons, List.map_cons, List.map_cons, covers_cons, covers_cons (mem'.block b),
      covers_cons (h.mem.block b), hcut, Mem.map_block_congr fun c hc => (hrest c hc).2]
    omega
  · exact hinv.apart
  · exact hinv.above

end Inv

/-- The heap has given the block `c` of `n` units away. -/
structure Given (h h' : Heap) (n c : ℕ) : Prop where
  live : h'.live = c :: h.live
  size : (h'.mem c).size = n
  keeps : ∀ b ∈ h.live, h'.mem b = h.mem b

namespace Ready

theorem take_all (hready : Ready base h fs) (hsplit : base :: fs = pre ++ a :: b :: post)
    (hn : (h.mem b).size = n) :
    ∃ fs' c, Ready base (h.take n a b).1 fs' ∧ (h.take n a b).2 = c + HEADER ∧
      Given h (h.take n a b).1 n c := by
  rw [Heap.take, if_pos hn]
  have hother : ∀ c, c ≠ a →
      update h.mem a { h.mem a with ptr := (h.mem b).ptr } c = h.mem c :=
    fun c hc => update_of_ne hc ..
  have hsorted := hready.sorted
  rw [hsplit, List.pairwise_append, List.pairwise_cons] at hsorted
  have hab : a + HEADER * (h.mem a).size < b := hsorted.2.1.1 b List.mem_cons_self
  obtain ⟨fs', hinv, hmem⟩ := hready.toInv.take_all hsplit (update_self ..) hother
  refine ⟨fs', b, ⟨{ hinv with }, a, hmem, rfl⟩, rfl, rfl, ?_, ?_⟩
  · show (update h.mem a _ b).size = n
    rw [hother b (by omega)]
    exact hn
  · intro c hc
    apply hother
    rintro rfl
    exact hready.not_mem_ring hc (mem_of_split hsplit)

theorem take_end (hready : Ready base h fs) (ha : a ∈ base :: fs) (hb : b ∈ fs) (hpos : 0 < n)
    (hlt : n < (h.mem b).size) :
    ∃ fs' c, Ready base (h.take n a b).1 fs' ∧ (h.take n a b).2 = c + HEADER ∧
      Given h (h.take n a b).1 n c := by
  rw [Heap.take, if_neg hlt.ne']
  obtain ⟨p, hp⟩ : ∃ p, b + HEADER * ((h.mem b).size - n) = p := ⟨_, rfl⟩
  have hpb : b ≠ p := by
    have hH : HEADER = 8 := rfl
    rw [hH] at hp
    omega
  have hfresh : p ∉ base :: (fs ++ h.live) := by
    have hH : HEADER = 8 := rfl
    rw [hH] at hp
    apply hready.not_mem_inside (List.mem_append_left h.live hb)
    · omega
    · rw [hH]
      omega
  have hother : ∀ c, c ≠ p → c ≠ b →
      update (update h.mem b { h.mem b with size := (h.mem b).size - n }) p
        { update h.mem b { h.mem b with size := (h.mem b).size - n } p with size := n } c =
      h.mem c := by
    intro c hcp hcb
    rw [update_of_ne hcp, update_of_ne hcb]
  have hsize : (update (update h.mem b { h.mem b with
      size := (h.mem b).size - n }) p
        { update h.mem b { h.mem b with size := (h.mem b).size - n } p with
          size := n } p).size = n := by
    rw [update_self]
  have hinv := hready.toInv.take_end hb hpos hlt hp hfresh hother
    (by rw [update_of_ne hpb, update_self]) hsize
  subst hp
  refine ⟨fs, _, ⟨{ hinv with }, a, ha, rfl⟩, rfl, rfl, hsize, ?_⟩
  intro c hc
  have hcmem : c ∈ fs ++ h.live := List.mem_append_right fs hc
  apply hother
  · rintro rfl
    exact hfresh (List.mem_cons_of_mem base hcmem)
  · rintro rfl
    exact hready.not_mem_ring hc (List.mem_cons_of_mem base hb)

/-- `b` is big enough and comes after `a` in the free list. -/
theorem take (hready : Ready base h fs) (ha : a ∈ base :: fs) (hnext : h.mem.next a = b)
    (hpos : 0 < n) (hle : n ≤ (h.mem b).size) :
    ∃ fs' c, Ready base (h.take n a b).1 fs' ∧ (h.take n a b).2 = c + HEADER ∧
      Given h (h.take n a b).1 n c := by
  have hbase : b ≠ base := by
    rintro rfl
    have := hready.base_size
    omega
  obtain ⟨pre, post, hsplit⟩ := List.append_of_mem ha
  rw [hready.next_eq hsplit] at hnext
  cases post with
  | nil => exact absurd hnext.symm hbase
  | cons b' post =>
    have hbb : b' = b := hnext
    subst hbb
    by_cases hall : (h.mem b').size = n
    · exact hready.take_all hsplit hall
    · apply hready.take_end ha _ hpos (by omega)
      grind

end Ready

variable {answer : Option ℕ} {f p prevp fuel fuel' : ℕ}

namespace Heap

theorem mallocLoop_take (hn : n ≤ (h.mem p).size) :
    h.mallocLoop n (fuel + 1) answer prevp p = some (h.take n prevp p) := if_pos hn

theorem mallocLoop_next (hn : ¬ n ≤ (h.mem p).size) (hf : some p ≠ h.freep) :
    h.mallocLoop n (fuel + 1) answer prevp p =
      h.mallocLoop n fuel answer p (h.mem.next p) := by
  rw [mallocLoop, if_neg hn, if_neg hf]
  rfl

/-- The heap has grown and the loop goes on with its second round. -/
theorem mallocLoop_grow {h' : Heap} (hn : ¬ n ≤ (h.mem p).size) (hf : some p = h.freep)
    (hcore : h.morecore fuel n answer = some (some h')) (hf' : h'.freep = some f) :
    h.mallocLoop n (fuel + 1) answer prevp p = h'.mallocLoop n fuel none f (h'.mem.next f) := by
  rw [mallocLoop, if_neg hn, if_pos hf, hcore]
  show (h'.freep.bind fun p => h'.mallocLoop n fuel none p (h'.mem p).ptr) = _
  rw [hf']
  rfl

theorem mallocLoop_fail (hn : ¬ n ≤ (h.mem p).size) (hf : some p = h.freep) :
    h.mallocLoop n (fuel + 1) none prevp p = some (h, 0) := by
  rw [mallocLoop, if_neg hn, if_pos hf]
  rfl

theorem morecore_mono {r : Option Heap} (hcore : h.morecore fuel n answer = some r)
    (hle : fuel ≤ fuel') : h.morecore fuel' n answer = some r := by
  cases answer with
  | none => exact hcore
  | some hp =>
    obtain ⟨h', hfree, hr⟩ := Option.map_eq_some_iff.mp hcore
    exact Option.map_eq_some_iff.mpr ⟨h', free_mono hfree hle, hr⟩

/-- More fuel does not change how the loop ends. -/
theorem mallocLoop_mono {r : Heap × ℕ} (hloop : h.mallocLoop n fuel answer prevp p = some r)
    (hle : fuel ≤ fuel') : h.mallocLoop n fuel' answer prevp p = some r := by
  induction fuel generalizing fuel' h answer prevp p with
  | zero => exact absurd hloop nofun
  | succ fuel ih =>
    obtain ⟨fuel', rfl⟩ := Nat.exists_eq_add_of_le' (Nat.le_trans (Nat.le_add_left 1 fuel) hle)
    have hle' := Nat.le_of_succ_le_succ hle
    by_cases hn : n ≤ (h.mem p).size
    · rw [mallocLoop_take hn] at hloop ⊢
      exact hloop
    · by_cases hf : some p = h.freep
      · rw [mallocLoop, if_neg hn, if_pos hf] at hloop ⊢
        obtain ⟨r', hcore, hrest⟩ := Option.bind_eq_some_iff.mp hloop
        apply Option.bind_eq_some_iff.mpr
        refine ⟨r', morecore_mono hcore hle', ?_⟩
        cases r' with
        | none => exact hrest
        | some h' =>
          obtain ⟨f, hf', hagain⟩ := Option.bind_eq_some_iff.mp hrest
          exact Option.bind_eq_some_iff.mpr ⟨f, hf', ih hagain hle'⟩
      · rw [mallocLoop_next hn hf] at hloop ⊢
        exact ih hloop hle'

/-- The round from `prevp` to `f` ends at the first block that is big enough, or at `f`. -/
theorem mallocLoop_round (hlinked : Linked h.mem.next (prevp :: l ++ [f])) (hf : h.freep = some f)
    (hl : f ∉ l) (answer : Option ℕ) :
    (∃ a ∈ prevp :: l, ∃ b, h.mem.next a = b ∧ n ≤ (h.mem b).size ∧ ∀ fuel,
      h.mallocLoop n (fuel + l.length + 1) answer prevp (h.mem.next prevp) =
        some (h.take n a b)) ∨
    ((∀ b ∈ l ++ [f], ¬ n ≤ (h.mem b).size) ∧ ∃ a, ∀ fuel,
      h.mallocLoop n (fuel + l.length + 1) answer prevp (h.mem.next prevp) =
        h.mallocLoop n (fuel + 1) answer a f) := by
  induction l generalizing prevp with
  | nil =>
    have hnext : h.mem.next prevp = f := (List.isChain_cons.mp hlinked).1 f rfl
    rw [hnext]
    by_cases hn : n ≤ (h.mem f).size
    · exact .inl ⟨prevp, List.mem_cons_self, f, hnext, hn, fun fuel => mallocLoop_take hn⟩
    · refine .inr ⟨?_, prevp, fun fuel => rfl⟩
      intro b hb
      rw [List.mem_singleton.mp hb]
      exact hn
  | cons q l ih =>
    obtain ⟨hhead, htail⟩ := List.isChain_cons.mp hlinked
    have hnext : h.mem.next prevp = q := hhead q rfl
    rw [hnext]
    by_cases hn : n ≤ (h.mem q).size
    · exact .inl ⟨prevp, List.mem_cons_self, q, hnext, hn, fun fuel => mallocLoop_take hn⟩
    · have hq : some q ≠ h.freep := by
        rw [hf]
        intro heq
        exact hl (Option.some.inj heq ▸ List.mem_cons_self)
      have hstep : ∀ fuel, h.mallocLoop n (fuel + (q :: l).length + 1) answer prevp q =
          h.mallocLoop n (fuel + l.length + 1) answer q (h.mem.next q) :=
        fun fuel => mallocLoop_next hn hq
      rcases ih htail (fun hmem => hl (List.mem_cons_of_mem q hmem)) with
        ⟨a, ha, b, hab, hnb, hloop⟩ | ⟨hnone, a, hloop⟩
      · grind
      · refine .inr ⟨?_, a, ?_⟩
        · grind
        · intro fuel
          rw [hstep, hloop]

end Heap

namespace Ready

/-- One round over the whole free list. -/
theorem round (hready : Ready base h fs) (n : ℕ) (answer : Option ℕ) :
    ∃ f len, h.freep = some f ∧
      ((∃ a ∈ base :: fs, ∃ b, h.mem.next a = b ∧ n ≤ (h.mem b).size ∧ ∀ fuel,
        h.mallocLoop n (fuel + len + 1) answer f (h.mem.next f) = some (h.take n a b)) ∨
      ((∀ b ∈ base :: fs, ¬ n ≤ (h.mem b).size) ∧ ∃ a, ∀ fuel,
        h.mallocLoop n (fuel + len + 1) answer f (h.mem.next f) =
          h.mallocLoop n (fuel + 1) answer a f)) := by
  obtain ⟨f, hmem, hf⟩ := hready.freep
  obtain ⟨qs, hring, hperm⟩ := hready.ring.exists_rotate hmem
  have hnodup : (base :: fs).Nodup := by
    apply hready.sorted.imp
    intro a b hbefore
    rw [Mem.Before] at hbefore
    omega
  have hfqs := (List.nodup_cons.mp (hperm.nodup_iff.mpr hnodup)).1
  refine ⟨f, qs.length, hf, ?_⟩
  rcases Heap.mallocLoop_round hring hf hfqs answer with ⟨a, ha, hfound⟩ | ⟨hnone, harrive⟩
  · exact .inl ⟨a, hperm.mem_iff.mp ha, hfound⟩
  · refine .inr ⟨?_, harrive⟩
    grind

/-- `morecore` adds a free block that is big enough. -/
theorem morecore {hp : ℕ} (hready : Ready base h fs) (hn : n < 2 ^ 29)
    (hfresh : h.Fresh base hp) :
    ∃ h' fs', (∀ fuel, (base :: fs).length ≤ fuel →
        h.morecore fuel n (some hp) = some (some h')) ∧
      Ready base h' fs' ∧ h'.live = h.live ∧ (∀ b ∈ h.live, h'.mem b = h.mem b) ∧
      ∃ c ∈ fs', n ≤ (h'.mem c).size := by
  have hunits : n ≤ Heap.coreUnits n ∧ 0 < Heap.coreUnits n ∧
      Heap.coreUnits n * HEADER < 2 ^ 32 := by
    rw [show HEADER = 8 from rfl, Heap.coreUnits]
    split <;> omega
  have hextend : Ready base (h.extend (Heap.coreUnits n) hp) fs :=
    ⟨hready.extend hfresh hunits.2.1 hunits.2.2, hready.freep⟩
  obtain ⟨h', fs', hfree, hready', hlive, -, hkeeps, c, hc, hle⟩ :=
    hextend.free List.mem_cons_self
  have hlive' : h'.live = h.live := hlive.trans (List.erase_cons_head ..)
  rw [Heap.mem_extend_self] at hle
  refine ⟨h', fs', ?_, hready', hlive', ?_, c, hc, hunits.1.trans hle⟩
  · intro fuel hfuel
    rw [Heap.morecore, hfree fuel hfuel]
    rfl
  · intro b hb
    rw [hkeeps b (hlive' ▸ hb), hready.mem_extend hfresh (List.mem_append_right fs hb)]

/-- `malloc` gives a block away, or `sbrk` fails and the heap stays as it is. -/
theorem mallocLoop (hready : Ready base h fs) (hpos : 0 < n) (hn : n < 2 ^ 29)
    (hanswer : ∀ hp ∈ answer, h.Fresh base hp) :
    ∃ f h' ap N, h.freep = some f ∧
      (∀ fuel, N ≤ fuel → h.mallocLoop n fuel answer f (h.mem.next f) = some (h', ap)) ∧
      (h' = h ∧ ap = 0 ∨ ∃ fs' c, Ready base h' fs' ∧ ap = c + HEADER ∧ Given h h' n c) := by
  obtain ⟨f, len, hf, hround⟩ := hready.round n answer
  rcases hround with ⟨a, ha, b, hab, hnb, hloop⟩ | ⟨hnone, a, hloop⟩
  · obtain ⟨fs', c, hready', hap, hgiven⟩ := hready.take ha hab hpos hnb
    refine ⟨f, _, _, len + 1, hf, ?_, .inr ⟨fs', c, hready', hap, hgiven⟩⟩
    intro fuel hfuel
    obtain ⟨fuel, rfl⟩ := Nat.exists_eq_add_of_le' hfuel
    exact hloop fuel
  · have hfn : ¬ n ≤ (h.mem f).size := by
      grind [hready.freep]
    cases answer with
    | none =>
      refine ⟨f, h, 0, len + 1, hf, ?_, .inl ⟨rfl, rfl⟩⟩
      grind [Nat.exists_eq_add_of_le', Heap.mallocLoop_fail]
    | some hp =>
      obtain ⟨h₁, fs₁, hcore, hready₁, hlive, hkeeps, c, hc, hle⟩ :=
        hready.morecore hn (hanswer hp rfl)
      obtain ⟨f₁, len₁, hf₁, hround₁⟩ := hready₁.round n none
      rcases hround₁ with ⟨a₁, ha₁, b₁, hab₁, hnb₁, hloop₁⟩ | ⟨hnone₁, -⟩
      · obtain ⟨fs', d, hready', hap, hgiven⟩ := hready₁.take ha₁ hab₁ hpos hnb₁
        refine ⟨f, _, _, (base :: fs).length + len₁ + 1 + len + 1, hf, ?_,
          .inr ⟨fs', d, hready', hap, ?_, hgiven.size, ?_⟩⟩
        · intro fuel hfuel
          obtain ⟨fuel, rfl⟩ := Nat.exists_eq_add_of_le' hfuel
          rw [← Nat.add_assoc, ← Nat.add_assoc, hloop, ← Nat.add_assoc, ← Nat.add_assoc,
            Heap.mallocLoop_grow hfn hf.symm (hcore _ (by omega)) hf₁]
          exact hloop₁ (fuel + (base :: fs).length)
        · rw [hgiven.live, hlive]
        · intro b hb
          rw [hgiven.keeps b (hlive ▸ hb), hkeeps b hb]
      · exact absurd hle (hnone₁ c (List.mem_cons_of_mem base hc))

end Ready

end Xv6.Umalloc
