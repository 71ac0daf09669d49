/-
# Scans of a table

The first kind is a loop that skips what is no candidate, and otherwise replaces the
candidate it holds when the one at hand is strictly better. It ends with a
candidate of least key, or with none when there is no candidate at all.

The second kind takes entries out of the list it runs over and advances its index all
the same, so that it does not look at the entry behind one it has taken. It takes all
that it looks for exactly if no two neighbours are of that kind.
-/

import Mathlib.Data.List.Chain
import Mathlib.Data.List.Induction
import Mathlib.Order.Lattice

namespace Xv6.Lib

universe u v

variable {α : Type u} {κ : Type v} [LinearOrder κ]

/-- A turn of a scan for a candidate of least key. -/
structure IsScan (f : Option α → α → Option α) (ok : α → Prop) (key : α → κ) : Prop where
  skip : ∀ best x, ¬ ok x → f best x = best
  first : ∀ x, ok x → f none x = some x
  better : ∀ y x, ok x → key x < key y → f (some y) x = some x
  keep : ∀ y x, ok x → key y ≤ key x → f (some y) x = some y

/-- What a scan of `l` is to find. -/
def IsBest (ok : α → Prop) (key : α → κ) (l : List α) : Option α → Prop
  | none => ∀ x ∈ l, ¬ ok x
  | some y => ok y ∧ ∀ x ∈ l, ok x → key y ≤ key x

variable {f : Option α → α → Option α} {ok : α → Prop} {key : α → κ} {l : List α}
  {best : Option α}

theorem IsScan.step (h : IsScan f ok key) (hbest : IsBest ok key l best) (x : α) :
    IsBest ok key (l ++ [x]) (f best x) := by
  have hmem : ∀ z, z ∈ l ++ [x] → z ∈ l ∨ z = x := by
    intro z hz
    rw [List.mem_append, List.mem_singleton] at hz
    exact hz
  by_cases hx : ok x
  · cases best with
    | none =>
      rw [h.first x hx]
      refine ⟨hx, fun z hz hok => ?_⟩
      rcases hmem z hz with hold | rfl
      · exact absurd hok (hbest z hold)
      · exact le_refl _
    | some y =>
      obtain ⟨hy, hleast⟩ := hbest
      rcases lt_or_ge (key x) (key y) with hlt | hge
      · rw [h.better y x hx hlt]
        refine ⟨hx, fun z hz hok => ?_⟩
        grind
      · rw [h.keep y x hx hge]
        refine ⟨hy, fun z hz hok => ?_⟩
        rcases hmem z hz with hold | rfl
        · exact hleast z hold hok
        · exact hge
  · rw [h.skip best x hx]
    cases best with
    | none =>
      intro z hz
      rcases hmem z hz with hold | rfl
      · exact hbest z hold
      · exact hx
    | some y =>
      refine ⟨hbest.1, fun z hz hok => ?_⟩
      rcases hmem z hz with hold | rfl
      · exact hbest.2 z hold hok
      · exact absurd hok hx

/-- The whole scan. -/
theorem IsScan.foldl (h : IsScan f ok key) (l : List α) : IsBest ok key l (l.foldl f none) := by
  induction l using List.reverseRecOn with
  | nil => exact nofun
  | append_singleton l x ih =>
    rw [List.foldl_append]
    exact h.step ih x

/-- What a deleting scan takes. -/
def takenBy (due : α → Bool) : List α → List α
  | [] => []
  | [x] => if due x then [x] else []
  | x :: y :: rest => if due x then x :: takenBy due rest else takenBy due (y :: rest)

/-- What a deleting scan leaves, the entry behind one it has taken without a look. -/
def leftBy (due : α → Bool) : List α → List α
  | [] => []
  | [x] => if due x then [] else [x]
  | x :: y :: rest => if due x then y :: leftBy due rest else x :: leftBy due (y :: rest)

section Deleting

variable {due : α → Bool} {x y : α} {rest : List α}

theorem takenBy_skip (h : due x = false) : takenBy due (x :: rest) = takenBy due rest := by
  cases rest with
  | nil => simp [takenBy, h]
  | cons y rest => simp [takenBy, h]

theorem leftBy_skip (h : due x = false) : leftBy due (x :: rest) = x :: leftBy due rest := by
  cases rest with
  | nil => simp [leftBy, h]
  | cons y rest => simp [leftBy, h]

theorem takenBy_take (h : due x = true) :
    takenBy due (x :: y :: rest) = x :: takenBy due rest := by
  simp [takenBy, h]

theorem leftBy_take (h : due x = true) : leftBy due (x :: y :: rest) = y :: leftBy due rest := by
  simp [leftBy, h]

/-- Every entry is taken or left. -/
theorem takenBy_append_leftBy_perm (due : α → Bool) (l : List α) :
    (takenBy due l ++ leftBy due l).Perm l := by
  induction l using takenBy.induct due with
  | case1 => exact .refl _
  | case2 x hx => simp [takenBy, leftBy, hx]
  | case3 x hx => simp [takenBy, leftBy, hx]
  | case4 x y rest hx ih =>
    rw [takenBy_take hx, leftBy_take hx, List.cons_append]
    exact (List.perm_middle.trans (ih.cons y)).cons x
  | case5 x y rest hx ih =>
    have hskip := Bool.eq_false_of_not_eq_true hx
    rw [takenBy_skip hskip, leftBy_skip hskip]
    exact List.perm_middle.trans (ih.cons x)

/-- Without neighbours that are both due, all that is due is taken. -/
theorem takenBy_eq_filter {l : List α}
    (h : l.IsChain fun x y => ¬ (due x = true ∧ due y = true)) :
    takenBy due l = l.filter due ∧ leftBy due l = l.filter fun x => !due x := by
  induction l using takenBy.induct due with
  | case1 => exact ⟨rfl, rfl⟩
  | case2 x hx => simp [takenBy, leftBy, hx]
  | case3 x hx => simp [takenBy, leftBy, hx]
  | case4 x y rest hx ih =>
    obtain ⟨hpair, htail⟩ := List.isChain_cons_cons.mp h
    have hy : due y = false := by simpa [hx] using hpair
    obtain ⟨htaken, hleft⟩ := ih htail.tail
    rw [takenBy_take hx, leftBy_take hx, htaken, hleft]
    simp [hx, hy]
  | case5 x y rest hx ih =>
    obtain ⟨htaken, hleft⟩ := ih h.tail
    have hx : due x = false := Bool.eq_false_of_not_eq_true hx
    rw [takenBy_skip hx, leftBy_skip hx, htaken, hleft]
    exact ⟨(List.filter_cons_of_neg (by simp [hx])).symm,
      (List.filter_cons_of_pos (by simp [hx])).symm⟩

/-- Of two neighbours that are both due one is left. -/
theorem isChain_of_leftBy {l : List α} (h : ∀ x ∈ leftBy due l, due x = false) :
    l.IsChain fun x y => ¬ (due x = true ∧ due y = true) := by
  induction l using takenBy.induct due with
  | case1 => exact .nil
  | case2 x hx => exact .singleton x
  | case3 x hx => exact .singleton x
  | case4 x y rest hx ih =>
    rw [leftBy_take hx] at h
    have hy : due y = false := h y List.mem_cons_self
    have hrest := ih fun z hz => h z (List.mem_cons_of_mem y hz)
    refine List.isChain_cons_cons.mpr ⟨by simp [hy], ?_⟩
    cases rest with
    | nil => exact .singleton y
    | cons z rest => exact List.isChain_cons_cons.mpr ⟨by simp [hy], hrest⟩
  | case5 x y rest hx ih =>
    have hx : due x = false := Bool.eq_false_of_not_eq_true hx
    rw [leftBy_skip hx] at h
    exact List.isChain_cons_cons.mpr
      ⟨by simp [hx], ih fun z hz => h z (List.mem_cons_of_mem x hz)⟩

end Deleting

end Xv6.Lib
