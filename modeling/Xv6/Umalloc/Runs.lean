/-
# A program with a heap

Every sequence of calls of `malloc` and `free`, with the program's stores between
them, keeps the free list sorted and coalesced, and the blocks tile the memory that
`sbrk` has given. All calls end.
-/

import Xv6.Umalloc.Malloc

namespace Xv6.Umalloc

open Xv6.Lib

variable {base : ℕ} {h : Heap} {fs : List ℕ} {a b : ℕ} {answer : Option ℕ}

/-- The heap before the first call of `malloc`, or between two calls. -/
def Sound (base : ℕ) (h : Heap) : Prop := h = {} ∨ ∃ fs, Ready base h fs

theorem mem_start (base : ℕ) : (Heap.start base {}).mem base = ⟨base, 0⟩ := Function.update_self ..

theorem ready_start (base : ℕ) : Ready base (Heap.start base {}) [] where
  ring := List.isChain_pair.mpr (by rw [Mem.next, mem_start])
  sorted := List.pairwise_singleton ..
  base_size := by rw [mem_start]
  pos := nofun
  tiles := fun _ => rfl
  apart := fun _ => Nat.zero_le 1
  above := nofun
  freep := ⟨base, List.mem_cons_self, rfl⟩

namespace Sound

variable {nbytes : ℕ}

/-- The first call of `malloc` makes the heap ready. -/
theorem start (hsound : Sound base h) :
    (∃ fs, Ready base (h.start base) fs) ∧ (h.start base).live = h.live ∧
      (h.start base).regions = h.regions ∧ ∀ b ∈ h.live, (h.start base).mem b = h.mem b := by
  rcases hsound with rfl | ⟨fs, hready⟩
  · exact ⟨⟨[], ready_start base⟩, rfl, rfl, nofun⟩
  · obtain ⟨f, -, hf⟩ := hready.freep
    have hstart : h.start base = h := by rw [Heap.start, hf]
    rw [hstart]
    exact ⟨⟨fs, hready⟩, rfl, rfl, fun _ _ => rfl⟩

theorem malloc (hsound : Sound base h) (hn : nbytes ≤ 2 ^ 30)
    (hanswer : ∀ hp ∈ answer, h.Fresh base hp) :
    ∃ h' ap N, (∀ fuel, N ≤ fuel → h.malloc base fuel nbytes answer = some (h', ap)) ∧
      (∃ fs', Ready base h' fs') ∧
      (ap = 0 ∨ ∃ c, ap = c + HEADER ∧ Given h h' (Heap.nunits nbytes) c) := by
  obtain ⟨⟨fs, hready⟩, hlive, hregions, hmem⟩ := hsound.start
  have hunits : 0 < Heap.nunits nbytes ∧ Heap.nunits nbytes < 2 ^ 29 := by
    rw [Heap.nunits, show HEADER = 8 from rfl]
    omega
  have hfresh : ∀ hp ∈ answer, (h.start base).Fresh base hp := by
    intro hp hmem
    rw [Heap.Fresh, hregions]
    exact hanswer hp hmem
  obtain ⟨f, h', ap, N, hf, hloop, hdone⟩ := hready.mallocLoop hunits.1 hunits.2 hfresh
  refine ⟨h', ap, N, ?_, ?_, ?_⟩
  · intro fuel hfuel
    rw [Heap.malloc]
    show (h.start base).freep.bind _ = _
    rw [hf]
    exact hloop fuel hfuel
  · grind
  · rcases hdone with ⟨-, hap⟩ | ⟨-, c, -, hap, hgiven⟩
    · exact .inl hap
    · refine .inr ⟨c, hap, ?_, hgiven.size, ?_⟩
      · rw [hgiven.live, hlive]
      · intro b hb
        rw [hgiven.keeps b (hlive ▸ hb), hmem b hb]

theorem free (hsound : Sound base h) (hb : b ∈ h.live) :
    ∃ h' N, (∀ fuel, N ≤ fuel → h.free fuel (b + HEADER) = some h') ∧
      (∃ fs', Ready base h' fs') ∧ h'.live = h.live.erase b ∧
      ∀ c ∈ h'.live, h'.mem c = h.mem c := by
  rcases hsound with rfl | ⟨fs, hready⟩
  · exact absurd hb nofun
  · obtain ⟨h', fs', hfree, hready', hlive, -, hkeeps, -⟩ := hready.free hb
    exact ⟨h', _, hfree, ⟨fs', hready'⟩, hlive, hkeeps⟩

theorem store (hsound : Sound base h) (hb : b ∈ h.live) {x : Header} (hle : b + HEADER ≤ a)
    (hlt : a < b + HEADER * (h.mem b).size) :
    Sound base { h with mem := Function.update h.mem a x } := by
  rcases hsound with rfl | ⟨fs, hready⟩
  · exact absurd hb nofun
  · have hba : b < a := Nat.lt_of_lt_of_le (Nat.lt_add_of_pos_right (by decide)) hle
    have hfresh := hready.not_mem_inside (List.mem_append_right fs hb) hba hlt
    refine .inr ⟨fs, hready.congr ?_, hready.freep⟩
    intro c hc
    apply Function.update_of_ne
    rintro rfl
    exact hfresh hc

end Sound

/-- More fuel does not change how `malloc` ends. -/
theorem Heap.malloc_mono {fuel fuel' nbytes : ℕ} {r : Heap × ℕ}
    (hmalloc : h.malloc base fuel nbytes answer = some r) (hle : fuel ≤ fuel') :
    h.malloc base fuel' nbytes answer = some r := by
  obtain ⟨f, hf, hloop⟩ := Option.bind_eq_some_iff.mp hmalloc
  exact Option.bind_eq_some_iff.mpr ⟨f, hf, mallocLoop_mono hloop hle⟩

/-- Every call keeps the heap sound, whenever its loops end. -/
theorem Sound.next (hsound : Sound base h) (l : Label) (enabled : (system base).Enabled h l) :
    Sound base ((system base).next h l) := by
  obtain ⟨hallowed, hdone⟩ := enabled
  obtain ⟨h', hperform⟩ := Option.isSome_iff_exists.mp hdone
  have hnext : (system base).next h l = h' := by
    show (h.perform base l).getD h = h'
    rw [hperform]
    rfl
  rw [hnext]
  cases l with
  | malloc fuel nbytes answer =>
    obtain ⟨h₁, ap, N, hmalloc, hready, -⟩ := hsound.malloc hallowed.1 hallowed.2
    obtain ⟨r, hr, rfl⟩ := Option.map_eq_some_iff.mp hperform
    have hsame := Heap.malloc_mono hr (Nat.le_max_left fuel N)
    rw [hmalloc _ (Nat.le_max_right fuel N)] at hsame
    rw [← Option.some.inj hsame]
    exact .inr hready
  | free fuel ap =>
    obtain ⟨b, hb, rfl⟩ := hallowed
    obtain ⟨h₁, N, hfree, hready, -⟩ := hsound.free hb
    have hsame := Heap.free_mono hperform (Nat.le_max_left fuel N)
    rw [hfree _ (Nat.le_max_right fuel N)] at hsame
    rw [← Option.some.inj hsame]
    exact .inr hready
  | store a x =>
    obtain ⟨b, hb, hle, hlt⟩ := hallowed
    rw [← Option.some.inj hperform]
    exact hsound.store hb hle hlt

theorem sound_of_reachable (hreach : (system base).Reachable h) : Sound base h :=
  hreach.invariant (fun _ hinit => .inl hinit) (fun _ l hsound => hsound.next l)

/-- Blocks are aligned if all regions are: each starts where its region or another block
ends. -/
theorem Inv.aligned (hinv : Inv base h fs) (hregions : ∀ r ∈ h.regions, HEADER ∣ r.1)
    (hb : b ∈ fs ++ h.live) : HEADER ∣ b := by
  induction b using Nat.strong_induction_on with
  | h b ih =>
    have hpos := covers_pos (List.mem_map_of_mem hb) (hinv.within_self hb)
    rw [hinv.tiles] at hpos
    obtain ⟨r, hr, hle, hlt⟩ := exists_of_covers_pos hpos
    rcases hle.eq_or_lt with heq | hlt'
    · rw [← heq]
      exact hregions r hr
    · have hbefore : 0 < covers h.regions (b - 1) := covers_pos hr ⟨by omega, by omega⟩
      rw [← hinv.tiles] at hbefore
      obtain ⟨iv, hiv, hc⟩ := exists_of_covers_pos hbefore
      obtain ⟨c, hcmem, rfl⟩ := List.mem_map.mp hiv
      have hcle : c ≤ b - 1 := hc.1
      have hcend : b - 1 < c + HEADER * (h.mem c).size := hc.2
      have hend : c + HEADER * (h.mem c).size ≤ b := by
        apply end_le_of_disjoint (hinv.disjoint_of_ne hcmem hb (by omega)) (by
          show c ≤ b
          omega)
        have hbpos := hinv.pos b hb
        show 0 < 8 * (h.mem b).size
        omega
      have hbc : b = c + HEADER * (h.mem c).size := by omega
      rw [hbc]
      exact Nat.dvd_add (ih c (by omega) hcmem) (Nat.dvd_mul_right ..)

/-- The free list from `freep` and the blocks of the heap; `fs` are the free blocks. -/
structure Heap.Coalesced (base : ℕ) (h : Heap) (fs : List ℕ) : Prop where
  /-- From `base` along `fs` and back. -/
  circular : Circular h.mem.next base fs
  freep : ∃ f ∈ base :: fs, h.freep = some f
  /-- Addresses increase, and no block ends where a later one starts. -/
  increasing : (base :: fs).Pairwise fun a b => a + HEADER * (h.mem a).size < b
  disjoint : (fs ++ h.live).Pairwise fun a b =>
    ∀ x, Within x (h.mem.block a) → ¬ Within x (h.mem.block b)
  tiles : ∀ x, (∃ b ∈ fs ++ h.live, Within x (h.mem.block b)) ↔ ∃ r ∈ h.regions, Within x r

theorem Ready.coalesced (hready : Ready base h fs) : h.Coalesced base fs where
  circular := hready.ring
  freep := hready.freep
  increasing := hready.sorted
  disjoint := hready.disjoint
  tiles := by
    intro x
    have hcovered : ∀ ivs : List (ℕ × ℕ), (∃ iv ∈ ivs, Within x iv) ↔ 0 < covers ivs x :=
      fun ivs => ⟨fun ⟨_, hiv, hx⟩ => covers_pos hiv hx, exists_of_covers_pos⟩
    rw [hcovered, ← hready.tiles x, ← hcovered]
    grind

/-- In every reachable heap the free list is sorted and coalesced and the blocks tile the
memory; `free` ends; and `malloc` ends with the null pointer or a new block that is big
enough, overlaps no other block in use, and is aligned if the regions of `sbrk` are. Blocks
in use keep their headers. -/
theorem malloc_free_coalesced (base : ℕ) (h : Heap) (hreach : (system base).Reachable h) :
    (h = {} ∨ ∃ fs, h.Coalesced base fs) ∧
    (∀ b ∈ h.live, ∃ h' N, (∀ fuel, N ≤ fuel → h.free fuel (b + HEADER) = some h') ∧
      h'.live = h.live.erase b ∧ ∀ c ∈ h'.live, h'.mem c = h.mem c) ∧
    ∀ nbytes answer, nbytes ≤ 2 ^ 30 → (∀ hp ∈ answer, h.Fresh base hp) →
      ∃ h' ap N, (∀ fuel, N ≤ fuel → h.malloc base fuel nbytes answer = some (h', ap)) ∧
        (ap = 0 ∨ ∃ b, ap = b + HEADER ∧ h'.live = b :: h.live ∧
          nbytes ≤ HEADER * (h'.mem b).size - HEADER ∧
          (∀ c ∈ h.live, h'.mem c = h.mem c ∧
            ∀ x, Within x (h'.mem.block b) → ¬ Within x (h'.mem.block c)) ∧
          ((∀ r ∈ h'.regions, 8 ∣ r.1) → 8 ∣ ap)) := by
  have hsound := sound_of_reachable hreach
  refine ⟨?_, ?_, ?_⟩
  · rcases hsound with hempty | ⟨fs, hready⟩
    · exact .inl hempty
    · exact .inr ⟨fs, hready.coalesced⟩
  · intro b hb
    obtain ⟨h', N, hfree, -, hlive, hkeeps⟩ := hsound.free hb
    exact ⟨h', N, hfree, hlive, hkeeps⟩
  · intro nbytes answer hn hanswer
    obtain ⟨h', ap, N, hmalloc, ⟨fs, hready⟩, hgot⟩ := hsound.malloc hn hanswer
    refine ⟨h', ap, N, hmalloc, ?_⟩
    rcases hgot with hnull | ⟨b, hap, hgiven⟩
    · exact .inl hnull
    · have hb : b ∈ fs ++ h'.live := by
        rw [hgiven.live]
        exact List.mem_append_right fs List.mem_cons_self
      refine .inr ⟨b, hap, hgiven.live, ?_, ?_, ?_⟩
      · rw [hgiven.size, Heap.nunits, show HEADER = 8 from rfl]
        omega
      · intro c hc
        have hdisjoint := (List.pairwise_append.mp hready.disjoint).2.1
        rw [hgiven.live, List.pairwise_cons] at hdisjoint
        exact ⟨hgiven.keeps c hc, hdisjoint.1 c hc⟩
      · intro hregions
        rw [hap]
        exact Nat.dvd_add (hready.aligned hregions hb) (Nat.dvd_refl 8)

/-- Three of four blocks are freed, the middle one last: it makes one block with its two
neighbours. -/
theorem malloc_free_coalesced_three : ∃ h, (system 0).Reachable h ∧ h.live = [32336] ∧
    (h.mem 32448).size = 3 * Heap.nunits 100 ∧ ∃ fs, h.Coalesced 0 fs := by
  obtain ⟨h, hreach, hlive, hsize⟩ := Machine.exists_reachable_of_exec (system 0)
    [.malloc 5 100 (some 16), .malloc 5 100 none, .malloc 5 100 none, .malloc 5 100 none,
      .free 5 (32672 + HEADER), .free 5 (32448 + HEADER), .free 5 (32560 + HEADER)] (s := {})
    (P := fun h => h.live = [32336] ∧ (h.mem 32448).size = 3 * Heap.nunits 100) rfl
    (by decide +kernel)
  refine ⟨h, hreach, hlive, hsize, ?_⟩
  rcases (malloc_free_coalesced 0 h hreach).1 with rfl | hcoalesced
  · cases hlive
  · exact hcoalesced

/-- A region from `sbrk` that does not start at a multiple of 8 gives a pointer that is not
aligned either. -/
theorem malloc_misaligned : Heap.Fresh 0 {} 12 ∧
    ∃ ap, (Heap.malloc 0 5 {} 1 (some 12)).map Prod.snd = some ap ∧ ¬ 8 ∣ ap :=
  ⟨by decide, 32772, by decide +kernel, by decide⟩

end Xv6.Umalloc
