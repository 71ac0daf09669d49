/-
# Freeing a block

`free` joins a block first to the free block above it and then to the one below it.
Both are one operation: put a node in front of a stretch of the free list, and merge
it with the first node of the stretch if the two touch.
-/

import Xv6.Umalloc.Blocks

namespace Xv6.Umalloc

open Function Xv6.Lib

variable {base : ℕ} {h : Heap} {fs : List ℕ} {mem mem' : Mem} {a b bp p q last : ℕ}
  {pre post post' l : List ℕ}

namespace Mem

theorem map_block_congr (heq : ∀ b ∈ l, mem' b = mem b) : l.map mem'.block = l.map mem.block := by
  apply List.map_congr_left
  intro b hb
  rw [block, block, heq b hb]

/-- Nodes in increasing order without blocks that touch, linked one to the next and the
last one to `last`. -/
structure Segment (mem : Mem) (last : ℕ) (l : List ℕ) : Prop where
  linked : Linked mem.next (l ++ [last])
  sorted : l.Pairwise mem.Before

namespace Segment

/-- Blocks may become smaller. -/
theorem shrink (hseg : mem.Segment last l) (hnext : ∀ b ∈ l, (mem' b).ptr = (mem b).ptr)
    (hsize : ∀ b ∈ l, (mem' b).size ≤ (mem b).size) : mem'.Segment last l where
  linked := hseg.linked.congr hnext
  sorted := by
    apply hseg.sorted.imp_of_mem
    intro a b ha _ hbefore
    have hle := Nat.mul_le_mul_left HEADER (hsize a ha)
    exact Nat.lt_of_le_of_lt (Nat.add_le_add_left hle a) hbefore

theorem congr (hseg : mem.Segment last l) (heq : ∀ b ∈ l, mem' b = mem b) :
    mem'.Segment last l :=
  hseg.shrink (fun b hb => congrArg Header.ptr (heq b hb))
    (fun b hb => (congrArg Header.size (heq b hb)).le)

theorem cons (hseg : mem.Segment last l) (hnext : mem.next a = l.headD last)
    (hbefore : ∀ b ∈ l, mem.Before a b) : mem.Segment last (a :: l) where
  linked := by
    apply List.isChain_cons.mpr
    refine ⟨?_, hseg.linked⟩
    intro b hb
    cases l with
    | nil => exact hnext.trans (Option.some.inj hb)
    | cons c l => exact hnext.trans (Option.some.inj hb)
  sorted := List.pairwise_cons.mpr ⟨hbefore, hseg.sorted⟩

theorem drop (hseg : mem.Segment last (pre ++ l)) : mem.Segment last l where
  linked := by
    have hlinked := hseg.linked
    rw [List.append_assoc] at hlinked
    exact hlinked.right_of_append
  sorted := (List.pairwise_append.mp hseg.sorted).2.1

theorem next_eq (hseg : mem.Segment last (pre ++ p :: post)) : mem.next p = post.headD last :=
  hseg.linked.next_eq

/-- What follows a node may be replaced if the nodes before it stay as they are. -/
theorem replace (hseg : mem.Segment last (pre ++ p :: post))
    (hseg' : mem'.Segment last (p :: post')) (heq : ∀ b ∈ pre, mem' b = mem b) :
    mem'.Segment last (pre ++ p :: post') where
  linked := by
    have hlinked := hseg.linked
    have hlinked' := hseg'.linked
    rw [List.append_assoc, List.cons_append, linked_split] at hlinked ⊢
    refine ⟨hlinked.1.congr ?_, hlinked'⟩
    intro b hb
    exact congrArg Header.ptr (heq b hb)
  sorted := by
    obtain ⟨hpre, -, hcross⟩ := List.pairwise_append.mp hseg.sorted
    have hpost := (List.pairwise_cons.mp hseg'.sorted).1
    apply List.pairwise_append.mpr
    refine ⟨?_, hseg'.sorted, ?_⟩
    · apply hpre.imp_of_mem
      intro a b ha _ hbefore
      rw [Before, heq a ha]
      exact hbefore
    · intro a ha b hb
      have hap : a + HEADER * (mem a).size < p := hcross a ha p List.mem_cons_self
      rw [Before, heq a ha]
      rcases List.mem_cons.mp hb with rfl | hb
      · exact hap
      · have hpb : p + HEADER * (mem' p).size < b := hpost b hb
        omega

end Segment

/-- Let the node point to `q`, or swallow it if it starts where the node ends. -/
def join (mem : Mem) (a q : ℕ) : Mem :=
  if a + HEADER * (mem a).size = q then
    update mem a { ptr := (mem q).ptr, size := (mem a).size + (mem q).size }
  else update mem a { mem a with ptr := q }

theorem joinUpper_eq (mem : Mem) (bp p : ℕ) : mem.joinUpper bp p = mem.join bp (mem.next p) := rfl

theorem joinLower_eq (mem : Mem) (bp p : ℕ) : mem.joinLower bp p = mem.join p bp := rfl

theorem join_of_ne (hne : b ≠ a) : mem.join a q b = mem b := by
  rw [join]
  split
  · exact update_of_ne hne _ _
  · exact update_of_ne hne _ _

theorem join_apart (hapart : a + HEADER * (mem a).size ≠ q) :
    mem.join a q a = { mem a with ptr := q } := by
  rw [join, if_neg hapart, update_self]

theorem join_touch (htouch : a + HEADER * (mem a).size = q) :
    mem.join a q a = { ptr := (mem q).ptr, size := (mem a).size + (mem q).size } := by
  rw [join, if_pos htouch, update_self]

theorem le_join (mem : Mem) (a q b : ℕ) : (mem b).size ≤ (mem.join a q b).size := by
  grind [join_touch, join_apart, join_of_ne]

/-- The free list after a node has been put in front of a stretch of it. -/
structure Joined (mem mem' : Mem) (last a : ℕ) (l l' : List ℕ) : Prop where
  segment : mem'.Segment last (a :: l')
  subset : l' ⊆ l
  covers_eq : ∀ x, covers ((a :: l').map mem'.block) x = covers ((a :: l).map mem.block) x
  /-- Every block lies in one that is at least as big. -/
  larger : ∀ b ∈ a :: l, ∃ c ∈ a :: l', (mem b).size ≤ (mem' c).size

/-- The first node of the stretch touches. -/
theorem Segment.join_touch (hseg : mem.Segment last (q :: l)) (hlt : ∀ b ∈ l, b ≠ a)
    (htouch : a + HEADER * (mem a).size = q) : Joined mem (mem.join a q) last a (q :: l) l := by
  have hself := Mem.join_touch htouch
  have hother : ∀ b ∈ l, mem.join a q b = mem b := fun b hb => join_of_ne (hlt b hb)
  have htail : mem.Segment last l := (show mem.Segment last ([q] ++ l) from hseg).drop
  have hnext : mem.next q = l.headD last := (show mem.Segment last ([] ++ q :: l) from hseg).next_eq
  have hq : ∀ b ∈ l, mem.Before q b := (List.pairwise_cons.mp hseg.sorted).1
  constructor
  · apply (htail.congr hother).cons
    · show (mem.join a q a).ptr = _
      rw [hself]
      exact hnext
    · intro b hb
      have hqb : q + HEADER * (mem q).size < b := hq b hb
      show a + HEADER * (mem.join a q a).size < b
      grind [Nat.mul_add]
  · exact List.subset_cons_self q l
  · intro x
    have hblock : (mem.join a q).block a =
        (a, HEADER * (mem a).size + HEADER * (mem q).size) := by
      rw [block, hself, Nat.mul_add]
    rw [List.map_cons, map_block_congr hother, hblock, List.map_cons, List.map_cons, covers_cons,
      covers_cons (mem.block a), covers_cons (mem.block q), covers_join, htouch, Nat.add_assoc]
    rfl
  · grind

/-- The stretch starts behind the end of the node. -/
theorem Segment.join_apart (hseg : mem.Segment last l)
    (hend : ∀ b ∈ l, a + HEADER * (mem a).size < b)
    (hapart : a + HEADER * (mem a).size ≠ l.headD last) :
    Joined mem (mem.join a (l.headD last)) last a l l := by
  have hself := Mem.join_apart hapart
  have hother : ∀ b ∈ l, mem.join a (l.headD last) b = mem b := by
    intro b hb
    apply join_of_ne
    have := hend b hb
    omega
  have hblock : (mem.join a (l.headD last)).block a = mem.block a := by
    rw [block, hself, block]
  constructor
  · apply (hseg.congr hother).cons
    · show (mem.join a (l.headD last) a).ptr = _
      rw [hself]
    · intro b hb
      rw [Before, hself]
      exact hend b hb
  · exact List.Subset.refl l
  · intro x
    rw [List.map_cons, map_block_congr hother, hblock, List.map_cons]
  · grind

/-- A node can be put in front of a stretch that lies above it. -/
theorem Segment.join (hseg : mem.Segment last l) (hend : ∀ b ∈ l, a + HEADER * (mem a).size ≤ b)
    (hlt : ∀ b ∈ l, a < b) (hwrap : l = [] → last < a) :
    ∃ l', Joined mem (mem.join a (l.headD last)) last a l l' := by
  cases l with
  | nil =>
    refine ⟨[], hseg.join_apart (fun b hb => absurd hb List.not_mem_nil) ?_⟩
    have := hwrap rfl
    show a + HEADER * (mem a).size ≠ last
    omega
  | cons q l =>
    by_cases htouch : a + HEADER * (mem a).size = q
    · refine ⟨l, hseg.join_touch ?_ htouch⟩
      exact fun b hb => (hlt b (List.mem_cons_of_mem q hb)).ne'
    · refine ⟨q :: l, hseg.join_apart ?_ htouch⟩
      intro b hb
      have hq := hend q List.mem_cons_self
      rcases List.mem_cons.mp hb with rfl | hb
      · omega
      · have hqb : q + HEADER * (mem q).size < b := (List.pairwise_cons.mp hseg.sorted).1 b hb
        omega

/-- What `free` does to the headers once it has found the place of the block. -/
def insert (mem : Mem) (bp p : ℕ) : Mem := (mem.joinUpper bp p).joinLower bp p

theorem le_insert (mem : Mem) (bp p b : ℕ) : (mem b).size ≤ (mem.insert bp p b).size :=
  (le_join ..).trans (le_join ..)

theorem insert_of_ne (hbp : b ≠ bp) (hp : b ≠ p) : mem.insert bp p b = mem b := by
  rw [insert, joinLower_eq, join_of_ne hp, joinUpper_eq, join_of_ne hbp]

/-- A block is put between a node and what follows it. -/
theorem Segment.insert (hseg : mem.Segment last (p :: post))
    (hend : p + HEADER * (mem p).size ≤ bp) (hlt : p < bp)
    (hpost : ∀ b ∈ post, bp + HEADER * (mem bp).size ≤ b) (hpost' : ∀ b ∈ post, bp < b)
    (hlast : last < bp) :
    ∃ l, Joined mem (mem.insert bp p) last p (bp :: post) l := by
  have htail : mem.Segment last post := (show mem.Segment last ([p] ++ post) from hseg).drop
  have hnext : mem.next p = post.headD last :=
    (show mem.Segment last ([] ++ p :: post) from hseg).next_eq
  obtain ⟨l, hupper⟩ := htail.join hpost hpost' (fun _ => hlast)
  rw [← hnext, ← joinUpper_eq] at hupper
  have hp : mem.joinUpper bp p p = mem p := join_of_ne hlt.ne
  have habove : ∀ b ∈ bp :: l, bp ≤ b := by
    grind [hupper.subset]
  obtain ⟨l', hlower⟩ := hupper.segment.join (a := p)
    (fun b hb => by
      rw [hp]
      exact hend.trans (habove b hb))
    (fun b hb => hlt.trans_le (habove b hb)) nofun
  change Joined _ (mem.insert bp p) last p (bp :: l) l' at hlower
  refine ⟨l', hlower.segment, ?_, ?_, ?_⟩
  · exact List.Subset.trans hlower.subset (List.cons_subset_cons bp hupper.subset)
  · intro x
    rw [hlower.covers_eq, List.map_cons, covers_cons, hupper.covers_eq, List.map_cons (l := _ :: _),
      covers_cons (mem.block p), block, block, hp]
  · grind [hlower.larger, List.mem_cons_self, hupper.larger]

end Mem

theorem Heap.mem_extend_self (h : Heap) (nu hp : ℕ) :
    (h.extend nu hp).mem hp = { h.mem hp with size := nu } := update_self ..

theorem exists_tail (hsplit : base :: fs = pre ++ p :: post) (l : List ℕ) :
    ∃ fs', base :: fs' = pre ++ p :: l := by
  cases pre with
  | nil => exact ⟨l, by rw [(List.cons.inj hsplit).1]; rfl⟩
  | cons c pre => exact ⟨pre ++ p :: l, by rw [(List.cons.inj hsplit).1]; rfl⟩

theorem covers_perm {ivs ivs' : List (ℕ × ℕ)} (hperm : ivs.Perm ivs') (x : ℕ) :
    covers ivs x = covers ivs' x := hperm.countP_eq _

/-- `base` has no memory of its own. -/
theorem covers_base (hsize : (mem base).size = 0) (l : List ℕ) (x : ℕ) :
    covers ((base :: l).map mem.block) x = covers (l.map mem.block) x := by
  rw [List.map_cons, covers_cons, Mem.block, hsize]
  show covers [(base, 0)] x + _ = _
  rw [covers_empty, Nat.zero_add]

namespace Inv

theorem segment (hinv : Inv base h fs) : h.mem.Segment base (base :: fs) :=
  ⟨hinv.ring, hinv.sorted⟩

theorem base_lt (hinv : Inv base h fs) (hb : bp ∈ h.live) : base < bp :=
  Nat.lt_of_lt_of_le (Nat.lt_add_of_pos_right (by decide))
    (hinv.above_base (List.mem_append_right fs hb))

theorem not_mem_ring (hinv : Inv base h fs) (hb : b ∈ h.live) : b ∉ base :: fs := by
  intro hmem
  rcases List.mem_cons.mp hmem with rfl | hmem
  · exact (hinv.base_lt hb).ne rfl
  · exact (List.nodup_append.mp hinv.nodup).2.2 b hmem b hb rfl

/-- Nodes behind the place of a block are free blocks. -/
theorem mem_of_place (hinv : Inv base h fs) (hb : bp ∈ h.live)
    (hsplit : base :: fs = pre ++ p :: post) (hpost : ∀ b ∈ post, bp < b) : ∀ b ∈ post, b ∈ fs := by
  intro b hmem
  have hring : b ∈ base :: fs := by
    rw [hsplit]
    exact List.mem_append_right pre (List.mem_cons_of_mem p hmem)
  have hlt := hpost b hmem
  have hbase := hinv.base_lt hb
  exact (List.mem_cons.mp hring).resolve_left (by omega)

/-- `base` is never joined to another node: its block is empty and no block starts there. -/
theorem base_size_insert (hinv : Inv base h fs) (hb : bp ∈ h.live) :
    (h.mem.insert bp p base).size = 0 := by
  have hne := (hinv.base_lt hb).ne
  by_cases hp : base = p
  · subst hp
    rw [Mem.insert, Mem.joinLower_eq, Mem.join_apart, Mem.joinUpper_eq, Mem.join_of_ne hne]
    · exact hinv.base_size
    · rw [Mem.joinUpper_eq, Mem.join_of_ne hne, hinv.base_size]
      exact hne
  · rw [Mem.insert_of_ne hne hp]
    exact hinv.base_size

/-- The free list after the block has been put into its place. -/
structure Inserted (base : ℕ) (mem mem' : Mem) (bp : ℕ) (fs fs' : List ℕ) : Prop where
  segment : mem'.Segment base (base :: fs')
  subset : ∀ b ∈ fs', b ∈ bp :: fs
  covers_eq : ∀ x, covers (fs'.map mem'.block) x = covers ((bp :: fs).map mem.block) x
  larger : ∃ c ∈ fs', (mem bp).size ≤ (mem' c).size

theorem inserted (hinv : Inv base h fs) (hb : bp ∈ h.live)
    (hsplit : base :: fs = pre ++ p :: post) (hlt : p < bp) (hpost : ∀ b ∈ post, bp < b) :
    ∃ fs', Inserted base h.mem (h.mem.insert bp p) bp fs fs' ∧ p ∈ base :: fs' := by
  have hseg := hinv.segment
  rw [hsplit] at hseg
  have hfs := hinv.mem_of_place hb hsplit hpost
  obtain ⟨l, hjoined⟩ := hseg.drop.insert (hinv.end_le_live (mem_of_split hsplit) hb hlt) hlt
    (fun b hmem => hinv.live_end_le (hfs b hmem) hb (hpost b hmem)) hpost (hinv.base_lt hb)
  have hpre : ∀ b ∈ pre, h.mem.insert bp p b = h.mem b := by
    intro b hmem
    have hbefore : b + HEADER * (h.mem b).size < p :=
      (List.pairwise_append.mp hseg.sorted).2.2 b hmem p List.mem_cons_self
    exact Mem.insert_of_ne (by omega) (by omega)
  obtain ⟨fs', hfs'⟩ := exists_tail hsplit l
  have hsegment := hseg.replace hjoined.segment hpre
  rw [← hfs'] at hsegment
  have hne : ∀ b ∈ fs', b ≠ base := by
    intro b hmem
    have hbefore := (List.pairwise_cons.mp hsegment.sorted).1 b hmem
    rw [Mem.Before] at hbefore
    omega
  refine ⟨fs', ⟨hsegment, ?_, ?_, ?_⟩, mem_of_split hfs'⟩
  · grind [hjoined.subset]
  · intro x
    have hperm : (pre ++ p :: bp :: post).Perm (base :: bp :: fs) := by
      grind [List.perm_middle]
    rw [← covers_base (hinv.base_size_insert hb), hfs', List.map_append, covers_append,
      hjoined.covers_eq, Mem.map_block_congr hpre, ← covers_append, ← List.map_append,
      covers_perm (hperm.map h.mem.block), covers_base hinv.base_size]
  · obtain ⟨c, hc, hle⟩ := hjoined.larger bp (List.mem_cons_of_mem p List.mem_cons_self)
    refine ⟨c, ?_, hle⟩
    have hmem : c ∈ base :: fs' := by
      rw [hfs']
      exact List.mem_append_right pre hc
    apply (List.mem_cons.mp hmem).resolve_left
    rintro rfl
    have hpos := hinv.pos bp (List.mem_append_right fs hb)
    rw [hinv.base_size_insert hb] at hle
    omega

/-- The block `bp` leaves the blocks in use and enters the free list behind `p`. -/
theorem insert (hinv : Inv base h fs) (hb : bp ∈ h.live)
    (hsplit : base :: fs = pre ++ p :: post) (hlt : p < bp) (hpost : ∀ b ∈ post, bp < b) :
    ∃ fs', Inv base { h with mem := h.mem.insert bp p, freep := some p, live := h.live.erase bp }
        fs' ∧ p ∈ base :: fs' ∧ (∀ b ∈ h.live.erase bp, h.mem.insert bp p b = h.mem b) ∧
      ∃ c ∈ fs', (h.mem bp).size ≤ (h.mem.insert bp p c).size := by
  obtain ⟨fs', hnew, hp⟩ := hinv.inserted hb hsplit hlt hpost
  have hlive : ∀ b ∈ h.live.erase bp, b ∈ h.live ∧ h.mem.insert bp p b = h.mem b := by
    intro b hmem
    obtain ⟨hne, hmem⟩ := (List.nodup_append.mp hinv.nodup).2.1.mem_erase_iff.mp hmem
    refine ⟨hmem, Mem.insert_of_ne hne ?_⟩
    rintro rfl
    exact hinv.not_mem_ring hmem (mem_of_split hsplit)
  refine ⟨fs', ⟨hnew.segment.linked, hnew.segment.sorted, hinv.base_size_insert hb, ?_, ?_,
    hinv.apart, hinv.above⟩, hp, fun b hmem => (hlive b hmem).2, hnew.larger⟩
  · intro b hmem
    show 0 < (h.mem.insert bp p b).size
    rcases List.mem_append.mp hmem with hmem | hmem
    · apply Nat.lt_of_lt_of_le _ (Mem.le_insert ..)
      rcases List.mem_cons.mp (hnew.subset b hmem) with rfl | hmem
      · exact hinv.pos b (List.mem_append_right fs hb)
      · exact hinv.pos b (List.mem_append_left h.live hmem)
    · rw [(hlive b hmem).2]
      exact hinv.pos b (List.mem_append_right fs (hlive b hmem).1)
  · intro x
    show covers ((fs' ++ h.live.erase bp).map (h.mem.insert bp p).block) x = covers h.regions x
    have hperm : (bp :: fs ++ h.live.erase bp).Perm (fs ++ h.live) := by
      apply List.perm_middle.symm.trans
      exact (List.perm_cons_erase hb).symm.append_left fs
    rw [List.map_append, covers_append, hnew.covers_eq,
      Mem.map_block_congr fun b hmem => (hlive b hmem).2, ← covers_append, ← List.map_append,
      covers_perm (hperm.map h.mem.block)]
    exact hinv.tiles x

/-- A block lies below the end of some region. -/
theorem lt_region (hinv : Inv base h fs) (hb : b ∈ fs ++ h.live) :
    ∃ r ∈ h.regions, b < r.1 + r.2 := by
  have hpos := covers_pos (List.mem_map_of_mem hb) (hinv.within_self hb)
  rw [hinv.tiles] at hpos
  obtain ⟨r, hr, -, hlt⟩ := exists_of_covers_pos hpos
  exact ⟨r, hr, hlt⟩

theorem mem_extend {nu hp : ℕ} (hinv : Inv base h fs) (hfresh : h.Fresh base hp)
    (hb : b ∈ fs ++ h.live) : (h.extend nu hp).mem b = h.mem b := by
  obtain ⟨r, hr, hend⟩ := hinv.lt_region hb
  exact update_of_ne (hend.trans_le (hfresh.2 r hr)).ne _ _

/-- A fresh region becomes a block. -/
theorem extend {nu hp : ℕ} (hinv : Inv base h fs) (hfresh : h.Fresh base hp) (hpos : 0 < nu)
    (hlt : nu * HEADER < 2 ^ 32) : Inv base (h.extend nu hp) fs := by
  have hbase : base < hp := Nat.lt_of_lt_of_le (Nat.lt_add_of_pos_right (by decide)) hfresh.1
  have hself := Heap.mem_extend_self h nu hp
  have hother : ∀ b ∈ fs ++ h.live, (h.extend nu hp).mem b = h.mem b :=
    fun b hb => hinv.mem_extend hfresh hb
  have hbaseEq : (h.extend nu hp).mem base = h.mem base := update_of_ne hbase.ne _ _
  have hregions : (h.extend nu hp).regions = (hp, HEADER * nu) :: h.regions := by
    show (hp, nu * HEADER % 2 ^ 32) :: h.regions = _
    rw [Nat.mod_eq_of_lt hlt, Nat.mul_comm]
  have hseg : (h.extend nu hp).mem.Segment base (base :: fs) := by
    apply hinv.segment.congr
    grind
  have hperm : (fs ++ hp :: h.live).Perm (hp :: (fs ++ h.live)) := List.perm_middle
  constructor
  · exact hseg.linked
  · exact hseg.sorted
  · rw [hbaseEq]
    exact hinv.base_size
  · intro b hb
    rcases List.mem_cons.mp (hperm.mem_iff.mp hb) with rfl | hb
    · rw [hself]
      exact hpos
    · rw [hother b hb]
      exact hinv.pos b hb
  · intro x
    rw [hregions, covers_cons, ← hinv.tiles]
    show covers ((fs ++ hp :: h.live).map (h.extend nu hp).mem.block) x = _
    rw [covers_perm (hperm.map _), List.map_cons, covers_cons, Mem.map_block_congr hother,
      Mem.block, hself]
  · intro x
    rw [hregions, covers_cons, covers_singleton]
    have hold := hinv.apart x
    split
    · rename_i hx
      have hnone : covers h.regions x = 0 := by
        by_contra hne
        obtain ⟨r, hr, -, hend⟩ := exists_of_covers_pos (Nat.pos_of_ne_zero hne)
        exact absurd (hend.trans_le (hfresh.2 r hr)) hx.1.not_gt
      omega
    · omega
  · intro r hr
    rw [hregions] at hr
    rcases List.mem_cons.mp hr with rfl | hr
    · exact hfresh.1
    · exact hinv.above r hr

end Inv

/-- The heap between two calls, once `base` is linked. -/
structure Ready (base : ℕ) (h : Heap) (fs : List ℕ) : Prop extends Inv base h fs where
  freep : ∃ f ∈ base :: fs, h.freep = some f

/-- `free` of a block in use ends, whatever else the free list looks like. -/
theorem Ready.free (hready : Ready base h fs) (hb : bp ∈ h.live) :
    ∃ h' fs', (∀ fuel, (base :: fs).length ≤ fuel → h.free fuel (bp + HEADER) = some h') ∧
      Ready base h' fs' ∧ h'.live = h.live.erase bp ∧ h'.regions = h.regions ∧
      (∀ b ∈ h'.live, h'.mem b = h.mem b) ∧ ∃ c ∈ fs', (h.mem bp).size ≤ (h'.mem c).size := by
  obtain ⟨f, hf, hfreep⟩ := hready.freep
  obtain ⟨p, hp, hfits, hseek⟩ := hready.ring.seek hf (hready.exists_fits hb)
  obtain ⟨pre, post, hsplit⟩ := List.append_of_mem hp
  obtain ⟨hlt, hpost⟩ := (hready.fits_iff hsplit hb).mp hfits
  obtain ⟨fs', hinv, hmem, hkeeps, hlarger⟩ := hready.insert hb hsplit hlt hpost
  refine ⟨_, fs', ?_, ⟨hinv, p, hmem, rfl⟩, rfl, rfl, hkeeps, hlarger⟩
  intro fuel hfuel
  rw [Heap.free, hfreep, Nat.add_sub_cancel]
  show (seek _ h.mem.next fuel f).bind _ = _
  rw [hseek fuel hfuel]
  rfl

/-- More fuel does not change how `free` ends. -/
theorem Heap.free_mono {fuel fuel' ap : ℕ} {h' : Heap} (hfree : h.free fuel ap = some h')
    (hle : fuel ≤ fuel') : h.free fuel' ap = some h' := by
  rw [Heap.free] at hfree ⊢
  obtain ⟨f, hfreep, hrest⟩ := Option.bind_eq_some_iff.mp hfree
  obtain ⟨p, hseek, hdone⟩ := Option.bind_eq_some_iff.mp hrest
  grind [seek_mono]

end Xv6.Umalloc
