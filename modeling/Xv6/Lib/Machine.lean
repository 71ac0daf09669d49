/-
# Labelled machines and their runs

A machine is a state type, a set of starting states, and a deterministic update
for every label, guarded by an enabling condition. Every choice the environment
makes (which processor moves, whether an allocation succeeds) is part of the
label, so a run is determined by its start and its list of labels.

The rules below are the only inductions over runs in the development: an
invariant is proved for one step and lifted here. `restrict` cuts a machine down
to the steps that meet a condition, which is how a statement about "every run
whose steps all satisfy C" is made.
-/

import Mathlib.Algebra.Order.Ring.Nat
import Mathlib.Logic.Basic
import Mathlib.Data.List.Basic

namespace Xv6.Lib

universe u v

/-- A guarded, label-deterministic transition system. -/
structure Machine (σ : Type u) (ℓ : Type v) where
  /-- The states a run may start from. -/
  Init : σ → Prop
  /-- Whether a label may be taken in a state. -/
  Enabled : σ → ℓ → Prop
  /-- The state after taking an enabled label. -/
  next : σ → ℓ → σ

namespace Machine

variable {σ : Type u} {ℓ : Type v} (M : Machine σ ℓ)

/-- Taking the labels in order leads from one state to another. -/
inductive Run : σ → List ℓ → σ → Prop
  | refl (s : σ) : Run s [] s
  | snoc {s t : σ} {labels : List ℓ} (l : ℓ) (prior : Run s labels t)
      (enabled : M.Enabled t l) : Run s (labels ++ [l]) (M.next t l)

/-- A state some run from a starting state ends in. -/
def Reachable (t : σ) : Prop := ∃ s labels, M.Init s ∧ M.Run s labels t

/-- The same machine with only those steps that satisfy `C`. -/
def restrict (C : σ → ℓ → Prop) : Machine σ ℓ where
  Init := M.Init
  Enabled s l := M.Enabled s l ∧ C s l
  next := M.next

instance (C : σ → ℓ → Prop) [∀ s l, Decidable (M.Enabled s l)] [∀ s l, Decidable (C s l)]
    (s : σ) (l : ℓ) : Decidable ((M.restrict C).Enabled s l) :=
  inferInstanceAs (Decidable (M.Enabled s l ∧ C s l))

variable {M}

theorem Reachable.init {s : σ} (h : M.Init s) : M.Reachable s :=
  ⟨s, [], h, .refl s⟩

theorem Reachable.step {s : σ} {l : ℓ} (h : M.Reachable s) (enabled : M.Enabled s l) :
    M.Reachable (M.next s l) := by
  obtain ⟨start, labels, hinit, hrun⟩ := h
  exact ⟨start, labels ++ [l], hinit, hrun.snoc l enabled⟩

/-- An inductive invariant holds at the end of every run. -/
theorem Run.invariant {I : σ → Prop} {s t : σ} {labels : List ℓ} (h : M.Run s labels t)
    (start : I s) (step : ∀ s l, I s → M.Enabled s l → I (M.next s l)) : I t := by
  induction h with
  | refl => exact start
  | snoc l _ enabled ih => exact step _ l ih enabled

/-- What no label of a run changes is the same at its end. -/
theorem Run.unchanged {α : Type*} {f : σ → α} {s t : σ} {labels : List ℓ}
    (h : M.Run s labels t)
    (step : ∀ u l, l ∈ labels → M.Enabled u l → f (M.next u l) = f u) : f t = f s := by
  induction h with
  | refl => rfl
  | snoc l _ enabled ih =>
    rw [step _ l (by simp) enabled]
    exact ih fun u k hk => step u k (by simp [hk])

/-- Runs lead from reachable states to reachable states. -/
theorem Reachable.run {s t : σ} {labels : List ℓ} (h : M.Reachable s) (hrun : M.Run s labels t) :
    M.Reachable t :=
  hrun.invariant h fun _ _ hs enabled => hs.step enabled

/-- An inductive invariant holds in every reachable state. -/
theorem Reachable.invariant {I : σ → Prop} {t : σ} (h : M.Reachable t)
    (init : ∀ s, M.Init s → I s)
    (step : ∀ s l, I s → M.Enabled s l → I (M.next s l)) : I t := by
  obtain ⟨start, labels, hinit, hrun⟩ := h
  exact hrun.invariant (init start hinit) step

/-- Induction over reachable states whose step may use that the source state is
itself reachable, so that earlier invariants are at hand. -/
theorem Reachable.invariant_of_reachable {I : σ → Prop} {t : σ} (h : M.Reachable t)
    (init : ∀ s, M.Init s → I s)
    (step : ∀ s l, M.Reachable s → I s → M.Enabled s l → I (M.next s l)) : I t := by
  have both : M.Reachable t ∧ I t :=
    h.invariant (I := fun s => M.Reachable s ∧ I s)
      (fun s hs => ⟨.init hs, init s hs⟩)
      (fun s l hs enabled => ⟨hs.1.step enabled, step s l hs.1 hs.2 enabled⟩)
  exact both.2

/-- An invariant that is only promised while a counter stays below a bound. The
counter never decreases, so the bound at the end of a run covers the whole run. -/
theorem Reachable.invariant_below {I : σ → Prop} {t : σ} (h : M.Reachable t)
    (count : σ → ℕ) (bound : ℕ)
    (mono : ∀ s l, M.Enabled s l → count s ≤ count (M.next s l))
    (init : ∀ s, M.Init s → I s)
    (step : ∀ s l, I s → M.Enabled s l → count (M.next s l) < bound → I (M.next s l))
    (below : count t < bound) : I t := by
  obtain ⟨start, labels, hinit, hrun⟩ := h
  induction hrun with
  | refl => exact init _ hinit
  | snoc l _ enabled ih =>
    exact step _ l (ih (Nat.lt_of_le_of_lt (mono _ l enabled) below)) enabled below

/-- Runs of the restricted machine are runs of the machine. -/
theorem Run.of_restrict {C : σ → ℓ → Prop} {s t : σ} {labels : List ℓ}
    (h : (M.restrict C).Run s labels t) : M.Run s labels t := by
  induction h with
  | refl => exact .refl s
  | snoc l _ enabled ih => exact ih.snoc l enabled.1

variable (M) in
/-- The values `f` gives to the steps of a run, in order. -/
def log {α : Type*} (f : σ → ℓ → Option α) : σ → List ℓ → List α
  | _, [] => []
  | s, l :: rest => (f s l).toList ++ log f (M.next s l) rest

theorem log_restrict {α : Type*} (C : σ → ℓ → Prop) (f : σ → ℓ → Option α) (s : σ)
    (labels : List ℓ) : (M.restrict C).log f s labels = M.log f s labels := by
  induction labels generalizing s with
  | nil => rfl
  | cons l rest ih => exact congrArg ((f s l).toList ++ ·) (ih (M.next s l))

theorem Run.eq_foldl {s t : σ} {labels : List ℓ} (h : M.Run s labels t) :
    t = labels.foldl M.next s := by
  induction h with
  | refl => rfl
  | snoc l _ _ ih => rw [List.foldl_append, ← ih]; rfl

theorem log_append {α : Type*} (f : σ → ℓ → Option α) (s : σ) (labels later : List ℓ) :
    M.log f s (labels ++ later) = M.log f s labels ++ M.log f (labels.foldl M.next s) later := by
  induction labels generalizing s with
  | nil => rfl
  | cons l rest ih => rw [List.cons_append, log, ih, log, List.append_assoc, List.foldl_cons]

theorem Run.log_snoc {α : Type*} {f : σ → ℓ → Option α} {s t : σ} {labels : List ℓ}
    (h : M.Run s labels t) (l : ℓ) :
    M.log f s (labels ++ [l]) = M.log f s labels ++ (f t l).toList := by
  rw [log_append, ← h.eq_foldl, log, log, List.append_nil]

/-- An invariant that relates the state to what has happened so far. -/
theorem Run.invariant_log {α : Type*} {f : σ → ℓ → Option α} {I : σ → List α → Prop} {s t : σ}
    {labels : List ℓ} (h : M.Run s labels t) (start : I s [])
    (step : ∀ u es l, I u es → M.Enabled u l → I (M.next u l) (es ++ (f u l).toList)) :
    I t (M.log f s labels) := by
  induction h with
  | refl => exact start
  | snoc l prior enabled ih =>
    rw [prior.log_snoc l]
    exact step _ _ l ih enabled

variable (M) in
/-- Execute a list of labels, failing at the first one that is not enabled. -/
def exec [∀ s l, Decidable (M.Enabled s l)] : List ℓ → σ → Option σ
  | [], s => some s
  | l :: rest, s => if M.Enabled s l then exec rest (M.next s l) else none

/-- A label in front of a run. -/
theorem Run.cons {s t : σ} {labels : List ℓ} {l : ℓ} (enabled : M.Enabled s l)
    (h : M.Run (M.next s l) labels t) : M.Run s (l :: labels) t := by
  induction h with
  | refl => exact (Run.refl s).snoc l enabled
  | snoc k _ later ih => exact ih.snoc k later

/-- Executing a list of labels successfully is a run. -/
theorem run_of_exec [∀ s l, Decidable (M.Enabled s l)] {labels : List ℓ} {s t : σ}
    (h : M.exec labels s = some t) : M.Run s labels t := by
  induction labels generalizing s with
  | nil =>
    simp only [exec, Option.some.injEq] at h
    subst h
    exact .refl s
  | cons l rest ih =>
    rw [exec] at h
    split at h
    · next enabled => exact .cons enabled (ih h)
    · cases h

/-- A decidable property of the state some labels lead to is found by running them. -/
theorem exists_run_of_exec (M : Machine σ ℓ) [∀ s l, Decidable (M.Enabled s l)]
    (labels : List ℓ) {s : σ} {P : σ → Prop} [DecidablePred P]
    (h : (M.exec labels s).any (fun t => decide (P t)) = true) : ∃ t, M.Run s labels t ∧ P t := by
  grind [Option.any_eq_true, run_of_exec]

theorem exists_reachable_of_exec (M : Machine σ ℓ) [∀ s l, Decidable (M.Enabled s l)]
    (labels : List ℓ) {s : σ} {P : σ → Prop} [DecidablePred P] (init : M.Init s)
    (h : (M.exec labels s).any (fun t => decide (P t)) = true) : ∃ t, M.Reachable t ∧ P t := by
  obtain ⟨t, hrun, hP⟩ := exists_run_of_exec M labels h
  exact ⟨t, ⟨s, labels, init, hrun⟩, hP⟩

end Machine

end Xv6.Lib
