/-
# Tilings of memory by intervals

An interval is an address and a length. `covers` counts the intervals that contain an
address, so two lists of intervals cover the same memory, equally often, if their
counts agree; and intervals are disjoint if no address is counted twice. Cutting an
interval in two, and joining two that touch, changes no count.
-/

import Mathlib.Data.List.Count

namespace Xv6.Lib

/-- The address is in the interval. -/
def Within (x : ℕ) (iv : ℕ × ℕ) : Prop := iv.1 ≤ x ∧ x < iv.1 + iv.2
  deriving Decidable

/-- How many of the intervals contain the address. -/
def covers (ivs : List (ℕ × ℕ)) (x : ℕ) : ℕ := ivs.countP fun iv => Within x iv

variable {ivs ivs' : List (ℕ × ℕ)} {iv iv' : ℕ × ℕ} {x : ℕ}

theorem covers_append (ivs ivs' : List (ℕ × ℕ)) (x : ℕ) :
    covers (ivs ++ ivs') x = covers ivs x + covers ivs' x := List.countP_append

theorem covers_cons (iv : ℕ × ℕ) (ivs : List (ℕ × ℕ)) (x : ℕ) :
    covers (iv :: ivs) x = covers [iv] x + covers ivs x := covers_append [iv] ivs x

theorem covers_singleton (iv : ℕ × ℕ) (x : ℕ) : covers [iv] x = if Within x iv then 1 else 0 := by
  rw [covers, List.countP_singleton]
  simp

theorem covers_pos (hiv : iv ∈ ivs) (hx : Within x iv) : 0 < covers ivs x :=
  List.countP_pos_iff.mpr ⟨iv, hiv, by simpa using hx⟩

theorem exists_of_covers_pos (h : 0 < covers ivs x) : ∃ iv ∈ ivs, Within x iv := by
  obtain ⟨iv, hiv, hx⟩ := List.countP_pos_iff.mp h
  exact ⟨iv, hiv, by simpa using hx⟩

/-- Two intervals that touch cover what their union covers. -/
theorem covers_join (a m n x : ℕ) :
    covers [(a, m + n)] x = covers [(a, m)] x + covers [(a + m, n)] x := by
  simp only [covers_singleton, Within]
  grind

/-- An interval of length 0 covers nothing. -/
theorem covers_empty (a x : ℕ) : covers [(a, 0)] x = 0 := by
  rw [covers_singleton, if_neg]
  rintro ⟨hle, hlt⟩
  exact absurd hle (Nat.not_le_of_lt hlt)

/-- If no address is counted twice the intervals are disjoint. -/
theorem disjoint_of_covers (h : ∀ x, covers ivs x ≤ 1) :
    ivs.Pairwise fun iv iv' => ∀ x, Within x iv → ¬ Within x iv' := by
  induction ivs with
  | nil => exact .nil
  | cons iv ivs ih =>
    constructor
    · intro iv' hiv' x hx hx'
      have hone := h x
      grind [covers_pos, covers_cons, covers_singleton]
    · apply ih
      intro x
      have hone := h x
      rw [covers_cons] at hone
      omega

/-- Of two disjoint intervals one comes after the other. -/
theorem end_le_of_disjoint (h : ∀ x, Within x iv → ¬ Within x iv') (hle : iv.1 ≤ iv'.1)
    (hpos : 0 < iv'.2) : iv.1 + iv.2 ≤ iv'.1 := by
  by_contra hlt
  exact h iv'.1 ⟨hle, by omega⟩ ⟨Nat.le_refl _, by omega⟩

end Xv6.Lib
