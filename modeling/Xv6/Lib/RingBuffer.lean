/-
# Ring buffers with wrapping counters

An array of `n` cells, a counter of the elements ever written and a counter of the
elements ever read. The counters are 32 bits wide and never reset, so they wrap;
a cell is found by reducing a counter modulo `n`. The buffer is a queue as long
as `n` divides `2 ^ 32`, because then the wrap does not disturb the cells.

`contents` is the queue a ring stands for. The laws below say what a write and a
read do to it, and that the tests for "empty" and "full" are right.
-/

import Mathlib.Data.List.Basic
import Mathlib.Data.Nat.ModEq
import Mathlib.Logic.Function.Basic

namespace Xv6.Lib

open Function

universe u

/-- The cells and the two counters. -/
structure RingBuffer (α : Type u) where
  data : ℕ → α
  nread : UInt32
  nwrite : UInt32

namespace RingBuffer

variable {α : Type u} (n : ℕ)

/-- The number of elements written and not yet read. -/
def size (r : RingBuffer α) : ℕ := (r.nwrite - r.nread).toNat

/-- No element is waiting. -/
def Empty (r : RingBuffer α) : Prop := r.nread = r.nwrite
  deriving Decidable

/-- There is no cell for another element. -/
def Full (r : RingBuffer α) : Prop := r.nwrite = r.nread + UInt32.ofNat n
  deriving Decidable

/-- Write one element. -/
def push (r : RingBuffer α) (x : α) : RingBuffer α :=
  { r with
    data := update r.data (r.nwrite.toNat % n) x
    nwrite := r.nwrite + 1 }

/-- The element a read returns. -/
def front (r : RingBuffer α) : α := r.data (r.nread.toNat % n)

/-- Drop the element a read has returned. -/
def pop (r : RingBuffer α) : RingBuffer α := { r with nread := r.nread + 1 }

/-- Take the last element written back. -/
def unpush (r : RingBuffer α) : RingBuffer α := { r with nwrite := r.nwrite - 1 }

/-- The waiting elements, oldest first. -/
def contents (r : RingBuffer α) : List α :=
  (List.range r.size).map fun k => r.data ((r.nread.toNat + k) % n)

/-- Write elements until the list ends or the ring is full; also the part written. -/
def fill : RingBuffer α → List α → RingBuffer α × List α
  | r, [] => (r, [])
  | r, x :: rest =>
    if r.Full n then (r, [])
    else
      let filled := fill (r.push n x) rest
      (filled.1, x :: filled.2)

/-- Read up to `k` elements, stopping when the ring is empty. -/
def drain : RingBuffer α → ℕ → RingBuffer α × List α
  | r, 0 => (r, [])
  | r, k + 1 =>
    if r.Empty then (r, [])
    else
      let drained := drain r.pop k
      (drained.1, r.front n :: drained.2)

variable {n} {r : RingBuffer α}

theorem size_lt (r : RingBuffer α) : r.size < 2 ^ 32 := UInt32.toNat_lt _

/-- The writes are ahead of the reads by the size, up to the wrap. -/
theorem toNat_nwrite (r : RingBuffer α) : r.nwrite.toNat = (r.nread.toNat + r.size) % 2 ^ 32 := by
  have hr := r.nread.toNat_lt
  have hw := r.nwrite.toNat_lt
  rw [size, UInt32.toNat_sub]
  omega

theorem size_eq_zero : r.size = 0 ↔ r.Empty := by
  have hr := r.nread.toNat_lt
  have hw := r.toNat_nwrite
  have hlt := r.size_lt
  rw [Empty, ← UInt32.toNat_inj]
  omega

theorem size_eq_of_full (hn : n < 2 ^ 32) : r.Full n ↔ r.size = n := by
  have hr := r.nread.toNat_lt
  have hw := r.toNat_nwrite
  have hlt := r.size_lt
  rw [Full, ← UInt32.toNat_inj, UInt32.toNat_add, UInt32.toNat_ofNat']
  omega

theorem size_push (hlt : r.size + 1 < 2 ^ 32) (x : α) : (r.push n x).size = r.size + 1 := by
  have hr := r.nread.toNat_lt
  have hw := r.nwrite.toNat_lt
  rw [size, UInt32.toNat_sub] at hlt ⊢
  simp only [push, UInt32.toNat_add, UInt32.toNat_one]
  rw [size, UInt32.toNat_sub]
  omega

theorem size_pop (h : ¬ r.Empty) : r.pop.size + 1 = r.size := by
  have hpos : r.size ≠ 0 := fun hzero => h (size_eq_zero.mp hzero)
  have hr := r.nread.toNat_lt
  have hw := r.nwrite.toNat_lt
  rw [size, UInt32.toNat_sub] at hpos ⊢
  simp only [pop, UInt32.toNat_add, UInt32.toNat_one]
  rw [size, UInt32.toNat_sub]
  omega

theorem size_unpush (h : ¬ r.Empty) : r.unpush.size + 1 = r.size := by
  have hpos : r.size ≠ 0 := fun hzero => h (size_eq_zero.mp hzero)
  have hr := r.nread.toNat_lt
  have hw := r.nwrite.toNat_lt
  rw [size, UInt32.toNat_sub] at hpos ⊢
  simp only [unpush, UInt32.toNat_sub, UInt32.toNat_one]
  rw [size, UInt32.toNat_sub]
  omega

theorem length_contents (r : RingBuffer α) : (r.contents n).length = r.size := by
  rw [contents, List.length_map, List.length_range]

/-- The cell of the next write is `size` cells after the cell of the next read. -/
theorem write_cell (hdvd : n ∣ 2 ^ 32) (r : RingBuffer α) :
    r.nwrite.toNat % n = (r.nread.toNat + r.size) % n := by
  rw [r.toNat_nwrite, Nat.mod_mod_of_dvd _ hdvd]

/-- A write does not touch the waiting elements. -/
theorem write_cell_ne (hdvd : n ∣ 2 ^ 32) (hroom : r.size < n) {k : ℕ} (hk : k < r.size) :
    (r.nread.toNat + k) % n ≠ r.nwrite.toNat % n := by
  rw [write_cell hdvd]
  intro h
  have hmod : k ≡ r.size [MOD n] := Nat.ModEq.add_left_cancel' r.nread.toNat h
  rw [Nat.ModEq, Nat.mod_eq_of_lt (hk.trans hroom), Nat.mod_eq_of_lt hroom] at hmod
  omega

theorem contents_push (hdvd : n ∣ 2 ^ 32) (hroom : r.size < n) (hlt : n < 2 ^ 32) (x : α) :
    (r.push n x).contents n = r.contents n ++ [x] := by
  rw [contents, size_push (by omega), List.range_succ, List.map_append, List.map_singleton]
  congr 1
  · apply List.map_congr_left
    intro k hk
    exact update_of_ne (write_cell_ne hdvd hroom (List.mem_range.mp hk)) ..
  · show [update r.data (r.nwrite.toNat % n) x ((r.nread.toNat + r.size) % n)] = [x]
    rw [← write_cell hdvd, update_self]

theorem contents_pop (hdvd : n ∣ 2 ^ 32) (h : ¬ r.Empty) :
    r.contents n = r.front n :: r.pop.contents n := by
  rw [contents, contents, ← size_pop h, List.range_succ_eq_map, List.map_cons, List.map_map]
  congr 1
  apply List.map_congr_left
  intro k _
  show r.data ((r.nread.toNat + (k + 1)) % n) = r.data (((r.nread + 1).toNat + k) % n)
  congr 1
  rw [UInt32.toNat_add, UInt32.toNat_one]
  show (r.nread.toNat + (k + 1)) ≡ ((r.nread.toNat + 1) % 2 ^ 32 + k) [MOD n]
  have hwrap : r.nread.toNat + 1 ≡ (r.nread.toNat + 1) % 2 ^ 32 [MOD n] :=
    (Nat.mod_modEq _ _).symm.of_dvd hdvd
  have := hwrap.add_right k
  rwa [Nat.add_assoc, Nat.add_comm 1 k] at this

theorem contents_unpush (hdvd : n ∣ 2 ^ 32) (h : ¬ r.Empty) :
    r.contents n = r.unpush.contents n ++ [r.data ((r.nwrite - 1).toNat % n)] := by
  rw [contents, ← size_unpush h, List.range_succ, List.map_append, List.map_singleton]
  show _ = _ ++ [r.unpush.data (r.unpush.nwrite.toNat % n)]
  rw [write_cell hdvd]
  rfl

/-- What a writing loop does: it appends a part of the list, all of it unless the
ring is full afterwards. -/
structure Filled (n : ℕ) (r : RingBuffer α) (xs : List α) (filled : RingBuffer α × List α) :
    Prop where
  contents : filled.1.contents n = r.contents n ++ filled.2
  part : filled.2 <+: xs
  size_le : filled.1.size ≤ n
  stops : filled.2 = xs ∨ filled.1.Full n

theorem filled_fill (hdvd : n ∣ 2 ^ 32) (hlt : n < 2 ^ 32) (hle : r.size ≤ n) (xs : List α) :
    Filled n r xs (r.fill n xs) := by
  induction xs generalizing r with
  | nil =>
    rw [fill]
    exact ⟨(List.append_nil _).symm, ⟨[], rfl⟩, hle, Or.inl rfl⟩
  | cons x rest ih =>
    rw [fill]
    split
    · next hfull => exact ⟨(List.append_nil _).symm, ⟨_, rfl⟩, hle, Or.inr hfull⟩
    · next hfull =>
      have hroom : r.size < n := by
        apply lt_of_le_of_ne hle
        exact fun hsize => hfull ((size_eq_of_full hlt).mpr hsize)
      have hpush := ih (r := r.push n x) (by rw [size_push (by omega)]; exact hroom)
      constructor
      · rw [hpush.contents, contents_push hdvd hroom hlt, List.append_assoc]
        rfl
      · grind [hpush.part]
      · exact hpush.size_le
      · exact hpush.stops.imp (congrArg (x :: ·)) id

/-- Nothing is written to a full ring. -/
theorem fill_of_full (h : r.Full n) (xs : List α) : r.fill n xs = (r, []) := by
  cases xs with
  | nil => rfl
  | cons x rest => rw [fill, if_pos h]

/-- Everything is written if there is room for it. -/
theorem Filled.all {xs : List α} {filled : RingBuffer α × List α} (h : Filled n r xs filled)
    (hlt : n < 2 ^ 32) (hroom : r.size + xs.length ≤ n) : filled.2 = xs := by
  rcases h.stops with hall | hfull
  · exact hall
  · have hlength := congrArg List.length h.contents
    rw [List.length_append, length_contents, length_contents,
      (size_eq_of_full hlt).mp hfull] at hlength
    obtain ⟨later, rfl⟩ := h.part
    rw [List.length_append] at hroom
    rw [List.eq_nil_of_length_eq_zero (l := later) (by omega), List.append_nil]

/-- What a reading loop does: it takes a front part, as much as asked for unless
the ring is empty afterwards. -/
structure Drained (n : ℕ) (r : RingBuffer α) (k : ℕ) (drained : RingBuffer α × List α) : Prop where
  contents : r.contents n = drained.2 ++ drained.1.contents n
  length_le : drained.2.length ≤ k
  stops : drained.2.length = k ∨ drained.1.Empty

theorem drained_drain (hdvd : n ∣ 2 ^ 32) (r : RingBuffer α) (k : ℕ) :
    Drained n r k (r.drain n k) := by
  induction k generalizing r with
  | zero =>
    rw [drain]
    exact ⟨rfl, le_refl 0, Or.inl rfl⟩
  | succ k ih =>
    rw [drain]
    split
    · next hempty => exact ⟨rfl, Nat.zero_le _, Or.inr hempty⟩
    · next hempty =>
      have hpop := ih r.pop
      constructor
      · rw [contents_pop hdvd hempty, hpop.contents]
        rfl
      · exact Nat.succ_le_succ hpop.length_le
      · exact hpop.stops.imp (congrArg (· + 1)) id

end RingBuffer

end Xv6.Lib
