/-
# Queues kept in an array with a last index

A queue is an array together with the index of its last element, `-1` when it is
empty. Elements are appended behind the last index and removed by shifting the
tail down one place, one cell at a time. `contents` is the list the pair stands
for; every operation is characterised by what it does to that list.

The field `peak` is not part of the data structure. It records the largest index
any append has written, so that a bound on it is a bound on every write.
-/

import Mathlib.Data.List.Basic
import Mathlib.Data.List.Range
import Mathlib.Data.List.Nodup
import Mathlib.Logic.Function.Basic
import Mathlib.Order.Basic
import Mathlib.Tactic.Common

namespace Xv6.Lib

universe u

/-- An array and the index of the last element in use. -/
structure ArrayQueue (α : Type u) where
  arr : ℕ → α
  last : ℤ
  peak : ℤ

namespace ArrayQueue

variable {α : Type u} (q : ArrayQueue α)

/-- Number of elements in use. -/
def size : ℕ := (q.last + 1).toNat

/-- The queue as a list, head first. -/
def contents : List α := (List.range q.size).map q.arr

/-- Write behind the last element and advance the last index. -/
def append (x : α) : ArrayQueue α where
  arr := Function.update q.arr q.size x
  last := q.last + 1
  peak := max q.peak (q.last + 1)

/-- The first index in use whose element satisfies the test. -/
def search (test : α → Bool) : Option ℕ :=
  (List.range q.size).find? fun i => test (q.arr i)

/-- Copy the next cell down, for `count` cells starting at `start`. -/
def shiftDown (arr : ℕ → α) (start : ℕ) : ℕ → ℕ → α
  | 0 => arr
  | count + 1 => shiftDown (Function.update arr start (arr (start + 1))) (start + 1) count

/-- Close the gap at `ind` by shifting the later elements down. -/
def removeAt (ind : ℕ) : ArrayQueue α where
  arr := shiftDown q.arr ind (q.last - ind).toNat
  last := q.last - 1
  peak := q.peak

@[simp]
theorem append_last (x : α) : (q.append x).last = q.last + 1 := rfl

@[simp]
theorem append_peak (x : α) : (q.append x).peak = max q.peak (q.last + 1) := rfl

@[simp]
theorem removeAt_last (ind : ℕ) : (q.removeAt ind).last = q.last - 1 := rfl

@[simp]
theorem removeAt_peak (ind : ℕ) : (q.removeAt ind).peak = q.peak := rfl

@[simp]
theorem length_contents : q.contents.length = q.size := by
  simp [contents]

theorem getElem?_contents (i : ℕ) :
    q.contents[i]? = if i < q.size then some (q.arr i) else none := by
  by_cases hi : i < q.size
  · simp [contents, hi]
  · simp [contents, hi]

theorem last_eq_size (h : -1 ≤ q.last) : q.last = (q.size : ℤ) - 1 := by
  unfold size
  omega

theorem mem_contents {x : α} : x ∈ q.contents ↔ ∃ i < q.size, q.arr i = x := by
  simp [contents]

/-- Appending adds the element at the end of the list. -/
theorem contents_append (h : -1 ≤ q.last) (x : α) :
    (q.append x).contents = q.contents ++ [x] := by
  have hsize : (q.append x).size = q.size + 1 := by
    simp only [size, append]
    omega
  simp only [contents, hsize, List.range_succ, List.map_append, List.map_cons, List.map_nil]
  congr 1
  · apply List.map_congr_left
    intro i hi
    have hne : i ≠ q.size := (List.mem_range.mp hi).ne
    simp [append, hne]
  · simp [append]

/-- A shift copies each cell of its range from the one above and leaves the rest. -/
theorem shiftDown_apply (arr : ℕ → α) (start count j : ℕ) :
    shiftDown arr start count j =
      if start ≤ j ∧ j < start + count then arr (j + 1) else arr j := by
  induction count generalizing arr start with
  | zero =>
    simp [shiftDown]
  | succ count ih =>
    rw [shiftDown, ih]
    grind

/-- Closing a gap moves the cells above it down and leaves the ones below. -/
theorem removeAt_arr (ind i : ℕ) (h : i < (q.removeAt ind).size) :
    (q.removeAt ind).arr i = if i < ind then q.arr i else q.arr (i + 1) := by
  have hi : (i : ℤ) < q.last := by
    simp only [size, removeAt_last] at h
    omega
  simp only [removeAt, shiftDown_apply]
  grind

/-- Closing a gap erases the element at that index from the list. -/
theorem contents_removeAt (ind : ℕ) (h : (ind : ℤ) ≤ q.last) :
    (q.removeAt ind).contents = q.contents.eraseIdx ind := by
  have hsize : q.size = (q.removeAt ind).size + 1 := by
    simp only [size, removeAt_last]
    omega
  have hind : ind ≤ (q.removeAt ind).size := by
    simp only [size, removeAt_last]
    omega
  apply List.ext_getElem?
  intro i
  simp only [List.getElem?_eraseIdx, getElem?_contents, hsize]
  grind [q.removeAt_arr]

/-- The search loop finds the first matching position of the list. -/
theorem search_eq_some {test : α → Bool} {ind : ℕ} (h : q.search test = some ind) :
    ind < q.size ∧ test (q.arr ind) = true := by
  have hmem := List.mem_of_find?_eq_some h
  exact ⟨List.mem_range.mp hmem, List.find?_some (p := fun i => test (q.arr i)) h⟩

theorem search_eq_none {test : α → Bool} :
    q.search test = none ↔ ∀ x ∈ q.contents, test x = false := by
  simp [search, List.find?_eq_none, contents]

theorem search_isSome (test : α → Bool) :
    (∃ ind, q.search test = some ind) ↔ ∃ x ∈ q.contents, test x = true := by
  constructor
  · rintro ⟨ind, hind⟩
    obtain ⟨hlt, htest⟩ := q.search_eq_some hind
    exact ⟨q.arr ind, q.mem_contents.mpr ⟨ind, hlt, rfl⟩, htest⟩
  · rintro ⟨x, hx, htest⟩
    cases hsearch : q.search test with
    | none =>
      rw [q.search_eq_none] at hsearch
      rw [hsearch x hx] at htest
      cases htest
    | some ind => exact ⟨ind, rfl⟩

end ArrayQueue

end Xv6.Lib
