/-
# Circular linked lists

A ring is a node, the nodes that follow it, and back to the first: each node's
successor is the next one. A walk along the ring from any of its nodes meets all of
them, so a search for a node that passes a test ends if there is one.
-/

import Mathlib.Data.List.Chain

namespace Xv6.Lib

universe u

variable {α : Type u}

/-- Each node's successor is the next one. -/
def Linked (next : α → α) (l : List α) : Prop := l.IsChain fun x y => next x = y

/-- The ring of `b` and the nodes `qs` after it. -/
def Circular (next : α → α) (b : α) (qs : List α) : Prop := Linked next (b :: qs ++ [b])

/-- Walk until a node passes the test. -/
def seek (stop : α → Bool) (next : α → α) : ℕ → α → Option α
  | 0, _ => none
  | fuel + 1, p => if stop p then some p else seek stop next fuel (next p)

variable {next next' : α → α} {b p : α} {qs pre post l : List α}

theorem linked_split : Linked next (pre ++ p :: post) ↔
    Linked next (pre ++ [p]) ∧ Linked next (p :: post) := List.isChain_split

/-- The successor of a node is the next one. -/
theorem Linked.next_eq (h : Linked next (pre ++ p :: post ++ [b])) : next p = post.headD b := by
  rw [List.append_assoc, List.cons_append, linked_split] at h
  cases post with
  | nil => exact (List.isChain_cons.mp h.2).1 b rfl
  | cons q post => exact (List.isChain_cons.mp h.2).1 q rfl

/-- The successor of the last node does not matter. -/
theorem Linked.congr (h : Linked next (l ++ [p])) (heq : ∀ x ∈ l, next' x = next x) :
    Linked next' (l ++ [p]) := by
  induction l with
  | nil => exact List.isChain_singleton p
  | cons x l ih =>
    obtain ⟨hx, hl⟩ := List.isChain_cons.mp h
    apply List.isChain_cons.mpr
    constructor
    · intro y hy
      exact (heq x List.mem_cons_self).trans (hx y hy)
    · exact ih hl fun y hy => heq y (List.mem_cons_of_mem x hy)

/-- A ring can be entered at any node. -/
theorem Circular.rotate (h : Circular next b (pre ++ p :: post)) :
    Circular next p (post ++ b :: pre) := by
  have hsplit : b :: (pre ++ p :: post) ++ [b] = (b :: pre) ++ p :: (post ++ [b]) := by simp
  have hrotated : p :: (post ++ b :: pre) ++ [p] = (p :: post) ++ b :: (pre ++ [p]) := by simp
  rw [Circular, hsplit, linked_split] at h
  rw [Circular, hrotated, linked_split]
  exact ⟨h.2, h.1⟩

theorem seek_mono {stop : α → Bool} {fuel fuel' : ℕ} {x : α}
    (h : seek stop next fuel p = some x) (hle : fuel ≤ fuel') :
    seek stop next fuel' p = some x := by
  induction fuel generalizing fuel' p with
  | zero => exact absurd h nofun
  | succ fuel ih =>
    obtain ⟨fuel', rfl⟩ := Nat.exists_eq_add_of_le' (Nat.le_trans (Nat.le_add_left 1 fuel) hle)
    rw [seek] at h ⊢
    grind

/-- A walk along a list finds a node that passes the test. -/
theorem Linked.seek {stop : α → Bool} (h : Linked next (p :: l))
    (hstop : ∃ x ∈ p :: l, stop x = true) :
    ∃ x ∈ p :: l, stop x = true ∧
      ∀ fuel, (p :: l).length ≤ fuel → seek stop next fuel p = some x := by
  induction l generalizing p with
  | nil =>
    obtain ⟨x, hx, hpass⟩ := hstop
    rw [List.mem_singleton.mp hx] at hpass
    refine ⟨p, List.mem_cons_self, hpass, ?_⟩
    intro fuel hfuel
    obtain ⟨fuel, rfl⟩ := Nat.exists_eq_add_of_le' hfuel
    exact if_pos hpass
  | cons q l ih =>
    by_cases hpass : stop p = true
    · refine ⟨p, List.mem_cons_self, hpass, ?_⟩
      intro fuel hfuel
      obtain ⟨fuel, rfl⟩ := Nat.exists_eq_add_of_le' hfuel
      exact if_pos hpass
    · obtain ⟨hnext, hl⟩ := List.isChain_cons.mp h
      obtain ⟨x, hx, hxpass, hseek⟩ := ih hl (by
        obtain ⟨x, hx, hxpass⟩ := hstop
        rcases List.mem_cons.mp hx with rfl | hx
        · exact absurd hxpass hpass
        · exact ⟨x, hx, hxpass⟩)
      refine ⟨x, List.mem_cons_of_mem p hx, hxpass, ?_⟩
      intro fuel hfuel
      obtain ⟨fuel, rfl⟩ := Nat.exists_eq_add_of_le' (Nat.le_trans (Nat.le_add_left 1 _) hfuel)
      rw [Lib.seek, if_neg hpass, hnext q rfl]
      exact hseek fuel (Nat.le_of_succ_le_succ hfuel)

/-- A ring from one of its nodes. -/
theorem Circular.exists_rotate (h : Circular next b qs) (hp : p ∈ b :: qs) :
    ∃ qs', Circular next p qs' ∧ (p :: qs').Perm (b :: qs) := by
  rcases List.mem_cons.mp hp with rfl | hp
  · exact ⟨qs, h, .refl _⟩
  · obtain ⟨pre, post, rfl⟩ := List.append_of_mem hp
    grind [h.rotate, List.perm_append_comm]

/-- A search along a ring ends at a node that passes the test. -/
theorem Circular.seek {stop : α → Bool} (h : Circular next b qs) {start : α}
    (hstart : start ∈ b :: qs)
    (hstop : ∃ x ∈ b :: qs, stop x = true) :
    ∃ x ∈ b :: qs, stop x = true ∧
      ∀ fuel, (b :: qs).length ≤ fuel → seek stop next fuel start = some x := by
  obtain ⟨qs', hring, hperm⟩ := h.exists_rotate hstart
  have hlinked : Linked next (start :: qs') := hring.left_of_append
  obtain ⟨x, hx, hpass, hseek⟩ := hlinked.seek (by
    obtain ⟨x, hx, hpass⟩ := hstop
    exact ⟨x, hperm.mem_iff.mpr hx, hpass⟩)
  refine ⟨x, hperm.mem_iff.mp hx, hpass, ?_⟩
  rw [← hperm.length_eq]
  exact hseek

end Xv6.Lib
