/-
# Blocks of the heap

The free list is a ring from `base` upwards in which every block ends before the next
one starts, so there are no two free blocks that touch. The free blocks and the
blocks in use tile the regions that `sbrk` has given. `free` finds the place of a
block in the ring and joins it to its neighbours where they touch.
-/

import Mathlib.Data.List.TakeWhile
import Xv6.Lib.Tiling
import Xv6.Umalloc.Heap

namespace Xv6.Umalloc

open Xv6.Lib

/-- The memory of a block. -/
def Mem.block (mem : Mem) (b : ℕ) : ℕ × ℕ := (b, HEADER * (mem b).size)

/-- The block ends before the other one starts. -/
def Mem.Before (mem : Mem) (a b : ℕ) : Prop := a + HEADER * (mem a).size < b

/-- The successor in the free list. -/
def Mem.next (mem : Mem) (p : ℕ) : ℕ := (mem p).ptr

/-- The heap with the free blocks `fs`. -/
structure Inv (base : ℕ) (h : Heap) (fs : List ℕ) : Prop where
  ring : Circular h.mem.next base fs
  sorted : (base :: fs).Pairwise h.mem.Before
  base_size : (h.mem base).size = 0
  pos : ∀ b ∈ fs ++ h.live, 0 < (h.mem b).size
  tiles : ∀ x, covers ((fs ++ h.live).map h.mem.block) x = covers h.regions x
  apart : ∀ x, covers h.regions x ≤ 1
  above : ∀ r ∈ h.regions, base + HEADER ≤ r.1

variable {base : ℕ} {h : Heap} {fs : List ℕ} {mem mem' : Mem} {a b bp p x : ℕ}
  {pre post l : List ℕ}

theorem mem_of_split (hsplit : base :: fs = pre ++ p :: post) : p ∈ base :: fs := by
  rw [hsplit]
  exact List.mem_append_right pre List.mem_cons_self

namespace Inv

section

variable (hinv : Inv base h fs)

include hinv

/-- No two blocks overlap. -/
theorem disjoint : (fs ++ h.live).Pairwise fun a b =>
    ∀ x, Within x (h.mem.block a) → ¬ Within x (h.mem.block b) := by
  have hpair := disjoint_of_covers fun x => (hinv.tiles x).trans_le (hinv.apart x)
  exact List.pairwise_map.mp hpair

theorem within_self (hb : b ∈ fs ++ h.live) : Within b (h.mem.block b) := by
  have hpos := hinv.pos b hb
  refine ⟨Nat.le_refl b, ?_⟩
  show b < b + 8 * (h.mem b).size
  omega

theorem nodup : (fs ++ h.live).Nodup := by
  apply hinv.disjoint.imp_of_mem
  rintro a b ha - hdisjoint rfl
  exact hdisjoint a (hinv.within_self ha) (hinv.within_self ha)

/-- Blocks lie above `base`. -/
theorem above_base (hb : b ∈ fs ++ h.live) : base + HEADER ≤ b := by
  have hpos := covers_pos (List.mem_map_of_mem hb) (hinv.within_self hb)
  rw [hinv.tiles] at hpos
  obtain ⟨r, hr, hle, -⟩ := exists_of_covers_pos hpos
  exact (hinv.above r hr).trans hle

theorem base_le (hp : p ∈ base :: fs) : base ≤ p := by
  rcases List.mem_cons.mp hp with rfl | hp
  · exact Nat.le_refl p
  · exact (Nat.le_add_right ..).trans (hinv.above_base (List.mem_append_left h.live hp))

/-- A block in use and a free block do not overlap. -/
theorem free_live (ha : a ∈ fs) (hb : b ∈ h.live) :
    ∀ x, Within x (h.mem.block a) → ¬ Within x (h.mem.block b) :=
  (List.pairwise_append.mp hinv.disjoint).2.2 a ha b hb

/-- A block in use above a node of the free list lies behind it. -/
theorem end_le_live (ha : a ∈ base :: fs) (hb : b ∈ h.live) (hlt : a < b) :
    a + HEADER * (h.mem a).size ≤ b := by
  rcases List.mem_cons.mp ha with rfl | ha
  · rw [hinv.base_size]
    omega
  · have hpos := hinv.pos b (List.mem_append_right fs hb)
    apply end_le_of_disjoint (hinv.free_live ha hb) hlt.le
    show 0 < 8 * (h.mem b).size
    omega

/-- A block in use below a free block lies before it. -/
theorem live_end_le (ha : a ∈ fs) (hb : b ∈ h.live) (hlt : b < a) :
    b + HEADER * (h.mem b).size ≤ a := by
  have hpos := hinv.pos a (List.mem_append_left h.live ha)
  apply end_le_of_disjoint (fun x hx hx' => hinv.free_live ha hb x hx' hx) hlt.le
  show 0 < 8 * (h.mem a).size
  omega

/-- The successor of a node. -/
theorem next_eq (hsplit : base :: fs = pre ++ p :: post) : h.mem.next p = post.headD base := by
  have hring := hinv.ring
  rw [Circular, hsplit] at hring
  exact hring.next_eq

/-- The place of a block in use is after the last node below it. -/
theorem fits_iff (hsplit : base :: fs = pre ++ p :: post) (hb : bp ∈ h.live) :
    h.mem.fits bp p = true ↔ p < bp ∧ ∀ b ∈ post, bp < b := by
  have hnext : (h.mem p).ptr = post.headD base := hinv.next_eq hsplit
  have hbase := hinv.above_base (List.mem_append_right fs hb)
  have hsorted := hinv.sorted
  have hle := hinv.base_le (mem_of_split hsplit)
  rw [hsplit, List.pairwise_append] at hsorted
  obtain ⟨hfirst, hrest⟩ := List.pairwise_cons.mp hsorted.2.1
  rw [Mem.fits, decide_eq_true_iff, hnext]
  cases post with
  | nil =>
    grind
  | cons q post =>
    show p < bp ∧ bp < q ∨ q ≤ p ∧ (p < bp ∨ bp < q) ↔ _
    have hq : p + HEADER * (h.mem p).size < q := hfirst q List.mem_cons_self
    constructor
    · intro hfit
      refine ⟨by omega, ?_⟩
      intro b hb
      rcases List.mem_cons.mp hb with rfl | hb
      · omega
      · have : q + HEADER * (h.mem q).size < b := (List.pairwise_cons.mp hrest).1 b hb
        omega
    · rintro ⟨hlt, hpost⟩
      have := hpost q List.mem_cons_self
      omega

/-- Every block in use has a place in the ring. -/
theorem exists_fits (hb : bp ∈ h.live) : ∃ p ∈ base :: fs, h.mem.fits bp p = true := by
  have hbase := hinv.above_base (List.mem_append_right fs hb)
  have hsplit : fs.takeWhile (· < bp) ++ fs.dropWhile (· < bp) = fs :=
    List.takeWhile_append_dropWhile
  obtain ⟨pre, p, hlast⟩ : ∃ pre p, base :: fs.takeWhile (· < bp) = pre ++ [p] :=
    ⟨_, _, (List.dropLast_append_getLast (List.cons_ne_nil _ _)).symm⟩
  have hring : base :: fs = pre ++ p :: fs.dropWhile (· < bp) := by
    grind
  refine ⟨p, mem_of_split hring, ?_⟩
  rw [hinv.fits_iff hring hb]
  constructor
  · have hp : p ∈ base :: fs.takeWhile (· < bp) := by
      rw [hlast]
      exact List.mem_append_right pre (List.mem_singleton_self p)
    rcases List.mem_cons.mp hp with rfl | hp
    · exact Nat.lt_of_lt_of_le (Nat.lt_add_of_pos_right (by decide)) hbase
    · have htest := List.mem_takeWhile_imp hp
      exact of_decide_eq_true htest
  · have hsorted := hinv.sorted
    rw [hring, List.pairwise_append] at hsorted
    have hupper := (List.pairwise_cons.mp hsorted.2.1).2
    have hfree : ∀ b ∈ fs.dropWhile (· < bp), b ≠ bp := by
      grind [hinv.nodup]
    cases hdrop : fs.dropWhile (· < bp) with
    | nil => exact nofun
    | cons c rest =>
      rw [hdrop] at hupper hfree
      have hc : ¬ c < bp := by
        have hhead := List.head?_dropWhile_not (fun b => decide (b < bp)) fs
        rw [hdrop] at hhead
        simpa using hhead
      have hcne := hfree c List.mem_cons_self
      intro b hb'
      rcases List.mem_cons.mp hb' with rfl | hb'
      · omega
      · have : c + HEADER * (h.mem c).size < b := (List.pairwise_cons.mp hupper).1 b hb'
        omega

end

end Inv

end Xv6.Umalloc
