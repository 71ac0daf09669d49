/-
# Outcomes of programs that may fail

A pre- and postcondition rule for programs in `Except`: the result has a property, or
the failure is one of those allowed. With no failure allowed the program returns; with
all but one allowed that one does not happen. The rules follow the structure of the
program, so a specification proved once can be read either way.
-/

import Mathlib.Logic.Basic

namespace Xv6.Lib

universe u v w

variable {ε : Type u} {α : Type v} {β : Type v}

theorem ok_bind (a : α) (f : α → Except ε β) : (Except.ok a >>= f) = f a := rfl

/-- The program returns a result with property `P`, or fails in a way `E` allows. -/
def Ends (E : ε → Prop) (x : Except ε α) (P : α → Prop) : Prop :=
  match x with
  | .ok a => P a
  | .error e => E e

namespace Ends

variable {E : ε → Prop} {x : Except ε α} {P Q : α → Prop} {R : β → Prop} {a : α} {e : ε}

theorem pure (h : P a) : Ends E (pure a : Except ε α) P := h

theorem ok (h : P a) : Ends E (.ok a) P := h

theorem error (h : E e) : Ends E (.error e : Except ε α) P := h

theorem mono (h : Ends E x P) (hPQ : ∀ a, P a → Q a) : Ends E x Q := by
  cases x with
  | ok a => exact hPQ a h
  | error e => exact h

/-- The rule for a sequence: what the first part ends with is what the second starts
from. -/
theorem bind {f : α → Except ε β} (h : Ends E x P) (hf : ∀ a, P a → Ends E (f a) R) :
    Ends E (x >>= f) R := by
  cases x with
  | ok a => exact hf a h
  | error e => exact h

theorem ite {c : Prop} [Decidable c] {y : Except ε α} (ht : c → Ends E x P)
    (he : ¬ c → Ends E y P) : Ends E (if c then x else y) P := by
  by_cases hc : c
  · rw [if_pos hc]
    exact ht hc
  · rw [if_neg hc]
    exact he hc

/-- Two specifications at once; the first one says which failures there are. -/
theorem and {F : ε → Prop} (h : Ends E x P) (h' : Ends F x Q) : Ends E x fun a => P a ∧ Q a := by
  cases x with
  | ok a => exact ⟨h, h'⟩
  | error e => exact h

/-- Nothing is asked of the outcome. -/
theorem of_forall (hE : ∀ e, E e) (hP : ∀ a, P a) : Ends E x P := by
  cases x with
  | ok a => exact hP a
  | error e => exact hE e

theorem of_ok (h : Ends E x P) (hx : x = .ok a) : P a := by
  subst hx
  exact h

theorem of_error (h : Ends E x P) (hx : x = .error e) : E e := by
  subst hx
  exact h

theorem exists_ok (h : Ends E x P) (hE : ∀ e, ¬ E e) : ∃ a, x = .ok a ∧ P a := by
  cases x with
  | ok a => exact ⟨a, rfl, h⟩
  | error e => exact absurd h (hE e)

/-- With no failure allowed the program returns. -/
theorem returns (h : Ends (fun _ : ε => False) x P) : ∃ a, x = .ok a ∧ P a :=
  h.exists_ok fun _ => id

end Ends

/-- Whether the program returns. -/
def completes (x : Except ε α) : Bool :=
  match x with
  | .ok _ => true
  | .error _ => false

/-- Whether the program fails with `e`. -/
def fails [DecidableEq ε] (x : Except ε α) (e : ε) : Bool :=
  match x with
  | .ok _ => false
  | .error e' => e' = e

theorem eq_error_of_fails [DecidableEq ε] {x : Except ε α} {e : ε} (h : fails x e = true) :
    x = .error e := by
  cases x with
  | ok a => cases h
  | error e' => rw [of_decide_eq_true h]

theorem exists_of_completes {x : Except ε α} (h : completes x = true) : ∃ a, x = .ok a := by
  cases x with
  | ok a => exact ⟨a, rfl⟩
  | error e => cases h

end Xv6.Lib
