/-
# What places hold

Places that hold one thing each or are empty, and the list of what some of them hold. To
fill an empty place adds one thing to the list, up to order.
-/

import Mathlib.Data.List.Perm.Basic
import Mathlib.Logic.Function.Basic

namespace Xv6.Lib

variable {ι α : Type*} [DecidableEq ι] {f : ι → Option α} {l : List ι} {i : ι} {a : α}

theorem filterMap_update_of_notMem {o : Option α} (h : i ∉ l) :
    l.filterMap (Function.update f i o) = l.filterMap f := by
  apply List.filterMap_congr
  intro j hj
  exact Function.update_of_ne (ne_of_mem_of_not_mem hj h) _ _

/-- An empty place is filled. -/
theorem filterMap_update_of_none (hl : l.Nodup) (hi : i ∈ l) (h : f i = none) :
    (l.filterMap (Function.update f i (some a))).Perm (a :: l.filterMap f) := by
  obtain ⟨l₁, l₂, rfl⟩ := List.append_of_mem hi
  grind [filterMap_update_of_notMem, List.perm_middle]

omit [DecidableEq ι] in
/-- If no thing is in two places then the place of a thing is known. -/
theorem eq_of_nodup_filterMap {j : ι} (hl : (l.filterMap f).Nodup) (hi : i ∈ l) (hj : j ∈ l)
    (hfi : f i = some a) (hfj : f j = some a) : i = j := by
  induction l with
  | nil => cases hi
  | cons x rest ih =>
    grind

end Xv6.Lib
