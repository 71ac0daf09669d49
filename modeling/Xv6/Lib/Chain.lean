/-
# Singly linked lists in a table of pointers

`next` gives for every node the node behind it. `Chain next head l` says that
following the pointers from `head` visits exactly the nodes of `l`. The walks are
bounded by fuel, since the pointers alone do not show that they end; a chain
shows it, and then any fuel that covers its length gives the same result.
-/

import Mathlib.Data.List.Basic
import Mathlib.Logic.Function.Basic

namespace Xv6.Lib

open Function

universe u

variable {α : Type u}

/-- Following `next` from `head` visits the nodes of `l` and ends. -/
inductive Chain (next : α → Option α) : Option α → List α → Prop
  | nil : Chain next none []
  | cons {a : α} {l : List α} (h : Chain next (next a) l) : Chain next (some a) (a :: l)

namespace Chain

/-- The nodes visited from `head` on. -/
def toList (next : α → Option α) : ℕ → Option α → List α
  | 0, _ => []
  | _ + 1, none => []
  | fuel + 1, some a => a :: toList next fuel (next a)

/-- The last node reached from `a`. -/
def last (next : α → Option α) : ℕ → α → α
  | 0, a => a
  | fuel + 1, a =>
    match next a with
    | none => a
    | some b => last next fuel b

variable {next : α → Option α} {head : Option α} {l : List α} {a b : α} {fuel : ℕ}

theorem toList_eq (h : Chain next head l) (hfuel : l.length ≤ fuel) :
    toList next fuel head = l := by
  induction h generalizing fuel with
  | nil => cases fuel <;> rfl
  | cons _ ih =>
    cases fuel with
    | zero => exact absurd hfuel (Nat.not_succ_le_zero _)
    | succ fuel =>
      rw [toList, ih]
      exact Nat.le_of_succ_le_succ hfuel

/-- Pointers of nodes outside the chain do not matter. -/
theorem congr {later : α → Option α} (h : Chain next head l) (heq : ∀ a ∈ l, later a = next a) :
    Chain later head l := by
  induction h with
  | nil => exact .nil
  | @cons a l _ ih =>
    apply Chain.cons
    rw [heq a (List.mem_cons_self ..)]
    exact ih fun b hb => heq b (List.mem_cons_of_mem a hb)

theorem last_mem (h : Chain next (some a) l) (hfuel : l.length ≤ fuel) :
    last next fuel a ∈ l := by
  induction l generalizing a fuel with
  | nil => cases h
  | cons x rest ih =>
    cases h with
    | cons hrest =>
      cases fuel with
      | zero => exact absurd hfuel (Nat.not_succ_le_zero _)
      | succ fuel =>
        rw [last]
        grind

variable [DecidableEq α]

/-- A node that is in no chain is linked behind the last node. -/
theorem append (h : Chain next (some a) l) (hend : next b = none) (hb : b ∉ l)
    (hnodup : l.Nodup) (hfuel : l.length ≤ fuel) :
    Chain (update next (last next fuel a) (some b)) (some a) (l ++ [b]) := by
  induction l generalizing a fuel with
  | nil => cases h
  | cons x rest ih =>
    cases h with
    | cons hrest =>
      cases fuel with
      | zero => exact absurd hfuel (Nat.not_succ_le_zero _)
      | succ fuel =>
        have hxb : x ≠ b := fun hx => hb (hx ▸ List.mem_cons_self ..)
        rw [last]
        cases hnext : next x with
        | none =>
          rw [hnext] at hrest
          cases hrest
          apply Chain.cons
          rw [update_self]
          apply Chain.cons
          rw [update_of_ne hxb.symm, hend]
          exact .nil
        | some y =>
          rw [hnext] at hrest
          have hshort := Nat.le_of_succ_le_succ hfuel
          have hnot : x ≠ last next fuel y := by
            grind [last_mem]
          apply Chain.cons
          rw [update_of_ne hnot, hnext]
          exact ih hrest (fun hmem => hb (List.mem_cons_of_mem x hmem))
            (List.nodup_cons.mp hnodup).2 hshort

end Chain

end Xv6.Lib
