/-
# Ownership of resources by references

Resources are taken from a pool and held by references. Some resources are reserved
and never handed out. Ownership says that a resource is in use exactly when it is
reserved or some reference holds it, and that no two references hold the same one. It
is kept when a free resource is given to an empty reference and when a reference
gives its resource back.
-/

import Mathlib.Logic.Function.Basic
import Mathlib.Data.List.Basic

namespace Xv6.Lib

open Function

universe u v

variable {R : Type u} {B : Type v}

/-- `used` is what the references `ref` hold of the resources `shared`, and the
resources `reserved`. -/
structure Owns (reserved shared used : B → Prop) (ref : R → Option B) : Prop where
  apart : ∀ b, shared b → ¬ reserved b
  used_iff : ∀ b, reserved b ∨ shared b → (used b ↔ reserved b ∨ ∃ r, ref r = some b)
  shared_of_ref : ∀ r b, ref r = some b → shared b
  inj : ∀ r r' b, ref r = some b → ref r' = some b → r = r'

namespace Owns

variable {reserved shared used used' : B → Prop} {ref ref' : R → Option B} {r : R} {b : B}

section

variable (h : Owns reserved shared used ref)

include h

theorem used_of_ref (hr : ref r = some b) : used b :=
  (h.used_iff b (.inr (h.shared_of_ref r b hr))).mpr (.inr ⟨r, hr⟩)

/-- A resource that is not in use is not reserved and nobody holds it. -/
theorem free_of_not_used (hb : reserved b ∨ shared b) (hfree : ¬ used b) :
    shared b ∧ ∀ r, ref r ≠ some b := by
  grind [h.used_iff]

theorem congr (hused : ∀ b, shared b ∨ reserved b → (used' b ↔ used b))
    (href : ∀ r, ref' r = ref r) : Owns reserved shared used' ref' := by
  have href' : ref' = ref := funext href
  subst href'
  exact ⟨h.apart, fun b hb => (hused b hb.symm).trans (h.used_iff b hb), h.shared_of_ref, h.inj⟩

/-- A free resource is given to an empty reference. -/
theorem take [DecidableEq R] (hb : shared b) (hfree : ¬ used b) (hr : ref r = none)
    (hused : ∀ x, shared x ∨ reserved x → (used' x ↔ x = b ∨ used x)) :
    Owns reserved shared used' (update ref r (some b)) := by
  have hnobody := (h.free_of_not_used (.inr hb) hfree).2
  have hheld : ∀ r' x, update ref r (some b) r' = some x →
      r' = r ∧ x = b ∨ r' ≠ r ∧ ref r' = some x := by
    grind
  refine ⟨h.apart, fun x hx => ?_, fun r' x hx => ?_, fun r₁ r₂ x h₁ h₂ => ?_⟩
  · rw [hused x hx.symm, h.used_iff x hx]
    constructor
    · rintro (rfl | hres | ⟨r', hr'⟩)
      · exact .inr ⟨r, update_self ..⟩
      · exact .inl hres
      · grind
    · grind
  · grind [h.shared_of_ref]
  · grind [h.inj]

/-- A reference gives its resource back. -/
theorem drop [DecidableEq R] (hr : ref r = some b)
    (hused : ∀ x, shared x ∨ reserved x → (used' x ↔ x ≠ b ∧ used x)) :
    Owns reserved shared used' (update ref r none) := by
  have hheld : ∀ r' x, update ref r none r' = some x → r' ≠ r ∧ ref r' = some x := by
    grind
  refine ⟨h.apart, fun x hx => ?_, fun r' x hx => ?_, fun r₁ r₂ x h₁ h₂ => ?_⟩
  · rw [hused x hx.symm, h.used_iff x hx]
    grind [h.apart, h.shared_of_ref, h.inj]
  · exact h.shared_of_ref r' x (hheld r' x hx).2
  · exact h.inj r₁ r₂ x (hheld r₁ x h₁).2 (hheld r₂ x h₂).2

/-- In a state of ownership "held by someone" and "held by exactly one" are the same. -/
theorem used_iff_existsUnique (hb : reserved b ∨ shared b) :
    used b ↔ reserved b ∨ ∃! r, ref r = some b := by
  rw [h.used_iff b hb]
  refine or_congr_right ⟨fun ⟨r, hr⟩ => ⟨r, hr, fun r' hr' => h.inj r' r b hr' hr⟩, ?_⟩
  rintro ⟨r, hr, -⟩
  exact ⟨r, hr⟩

end

end Owns

end Xv6.Lib
