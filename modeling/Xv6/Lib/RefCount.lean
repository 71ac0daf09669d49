/-
# Counting references

A table of slots, each of which is empty or refers to something. The number of slots that
refer to `a` is an integer here, so that a reference a program has taken but not yet put
into a slot, or put into a slot but not yet counted, is a difference of one.
-/

import Mathlib.Algebra.BigOperators.Pi
import Mathlib.Algebra.BigOperators.Ring.Finset
import Mathlib.Algebra.Order.BigOperators.Group.Finset
import Mathlib.Algebra.Order.Ring.Int
import Mathlib.Data.Fintype.BigOperators
import Mathlib.Tactic.Abel

namespace Xv6.Lib

/-- A sum over a table in which one place has changed. -/
theorem sum_update {ι α M : Type*} [Fintype ι] [DecidableEq ι] [AddCommGroup M] (g : α → M)
    (f : ι → α) (a : ι) (v : α) :
    ∑ x, g (Function.update f a v x) = ∑ x, g (f x) - g (f a) + g v := by
  have hnew := Finset.add_sum_erase Finset.univ (fun x => g (Function.update f a v x))
    (Finset.mem_univ a)
  have hold := Finset.add_sum_erase Finset.univ (fun x => g (f x)) (Finset.mem_univ a)
  grind [Finset.sum_congr]

variable {ι α : Type*} [Fintype ι] [DecidableEq α]

/-- What a slot contributes to the number of references to `a`. -/
def slotRef (o : Option α) (a : α) : ℤ := if o = some a then 1 else 0

@[simp]
theorem slotRef_none (a : α) : slotRef none a = 0 := if_neg nofun

theorem slotRef_some (b a : α) : slotRef (some b) a = if b = a then 1 else 0 := by
  simp only [slotRef, Option.some.injEq]

/-- The number of slots that refer to `a`. -/
def refs (slot : ι → Option α) (a : α) : ℤ := ∑ i, slotRef (slot i) a

theorem refs_eq_card (slot : ι → Option α) (a : α) :
    refs slot a = (Finset.univ.filter fun i => slot i = some a).card := by
  simp only [refs, slotRef, Finset.sum_boole]

theorem refs_update [DecidableEq ι] (slot : ι → Option α) (i : ι) (v : Option α) (a : α) :
    refs (Function.update slot i v) a = refs slot a - slotRef (slot i) a + slotRef v a :=
  sum_update (slotRef · a) slot i v

theorem refs_eq_zero {slot : ι → Option α} (h : ∀ i, slot i = none) (a : α) : refs slot a = 0 := by
  apply Finset.sum_eq_zero
  intro i _
  rw [h i, slotRef_none]

/-- What is counted is in the table. -/
theorem exists_of_refs_ne_zero {slot : ι → Option α} {a : α} (h : refs slot a ≠ 0) :
    ∃ i, slot i = some a := by
  obtain ⟨i, -, hi⟩ := Finset.exists_ne_zero_of_sum_ne_zero h
  refine ⟨i, ?_⟩
  by_contra hne
  exact hi (if_neg hne)

/-- A reference in the table counts. -/
theorem one_le_refs {slot : ι → Option α} {i : ι} {a : α} (h : slot i = some a) :
    1 ≤ refs slot a := by
  have hnonneg : ∀ j ∈ Finset.univ, 0 ≤ slotRef (slot j) a := by
    intro j _
    rw [slotRef]
    split <;> decide
  have hsingle := Finset.single_le_sum hnonneg (Finset.mem_univ i)
  rw [h, slotRef_some, if_pos rfl] at hsingle
  exact hsingle

end Xv6.Lib
