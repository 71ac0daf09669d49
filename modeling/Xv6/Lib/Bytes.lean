/-
# Byte-addressed memory

A piece of memory is a function from addresses to bytes; a block of a disk is one
of which only the first addresses are used. C code reads and writes it through
pointers to integers, which on the machine at hand are little-endian. The lemmas
say that a write is read back and that writes to disjoint ranges do not meet.
-/

import Mathlib.Data.Nat.Basic
import Mathlib.Algebra.Order.Ring.Nat
import Mathlib.Data.List.GetD

namespace Xv6.Lib

/-- Bytes by address. -/
abbrev Bytes := ℕ → UInt8

namespace Bytes

/-- The unsigned integer in the `n` bytes from `off` on. -/
def getLE (m : Bytes) (off : ℕ) : ℕ → ℕ
  | 0 => 0
  | n + 1 => (m off).toNat + 256 * getLE m (off + 1) n

/-- Store the low `n` bytes of `v` from `off` on. -/
def setLE (m : Bytes) (off n v : ℕ) : Bytes :=
  fun i => if off ≤ i ∧ i < off + n then UInt8.ofNat (v / 256 ^ (i - off)) else m i

variable {m m' : Bytes} {off off' n n' v : ℕ}

theorem setLE_of_out {i : ℕ} (h : i < off ∨ off + n ≤ i) : setLE m off n v i = m i := by
  unfold setLE
  rw [if_neg (by omega)]

theorem getLE_lt (m : Bytes) (off n : ℕ) : getLE m off n < 256 ^ n := by
  induction n generalizing off with
  | zero => simp [getLE]
  | succ n ih =>
    have hbyte := (m off).toNat_lt
    have hrest := ih (off + 1)
    rw [getLE, pow_succ]
    omega

/-- Reading depends on the bytes in the range only. -/
theorem getLE_congr (h : ∀ i, off ≤ i → i < off + n → m i = m' i) :
    getLE m off n = getLE m' off n := by
  induction n generalizing off with
  | zero => rfl
  | succ n ih =>
    rw [getLE, getLE, h off (le_refl _) (by omega)]
    rw [ih fun i hle hlt => h i (by omega) (by omega)]

theorem getLE_of_digits (h : ∀ k < n, (m (off + k)).toNat = v / 256 ^ k % 256) :
    getLE m off n = v % 256 ^ n := by
  induction n generalizing off v with
  | zero => simp [getLE, Nat.mod_one]
  | succ n ih =>
    have hfirst : (m off).toNat = v % 256 := by simpa using h 0 (by omega)
    have hrest : getLE m (off + 1) n = v / 256 % 256 ^ n := by
      grind [Nat.div_div_eq_div_mul]
    rw [getLE, hfirst, hrest, pow_succ', Nat.mod_mul]

/-- A value that fits is read back. -/
theorem getLE_setLE (m : Bytes) (off n v : ℕ) (h : v < 256 ^ n) :
    getLE (setLE m off n v) off n = v := by
  rw [getLE_of_digits (v := v), Nat.mod_eq_of_lt h]
  intro k hk
  unfold setLE
  rw [if_pos (by omega), Nat.add_sub_cancel_left]
  simp

/-- Writes elsewhere are not seen. -/
theorem getLE_setLE_of_disjoint (h : off + n ≤ off' ∨ off' + n' ≤ off) :
    getLE (setLE m off' n' v) off n = getLE m off n := by
  refine getLE_congr fun i hle hlt => setLE_of_out ?_
  omega

/-- Store the words of a list one after the other from `off` on. -/
def setWords (m : Bytes) (off : ℕ) : List ℕ → Bytes
  | [] => m
  | w :: rest => setWords (m.setLE off 4 w) (off + 4) rest

theorem setWords_of_out {i : ℕ} (ws : List ℕ) (h : i < off ∨ off + 4 * ws.length ≤ i) :
    setWords m off ws i = m i := by
  induction ws generalizing m off with
  | nil => rfl
  | cons w rest ih =>
    rw [List.length_cons] at h
    rw [setWords, ih (by omega), setLE_of_out (by omega)]

theorem getLE_setWords_of_disjoint (ws : List ℕ)
    (h : off + n ≤ off' ∨ off' + 4 * ws.length ≤ off) :
    (setWords m off' ws).getLE off n = m.getLE off n := by
  refine getLE_congr fun i hle hlt => setWords_of_out ws ?_
  omega

/-- Every word of the list is read back. -/
theorem getLE_setWords {ws : List ℕ} {k w : ℕ} (hfit : ∀ w ∈ ws, w < 2 ^ 32)
    (hk : ws[k]? = some w) : (setWords m off ws).getLE (off + 4 * k) 4 = w := by
  induction ws generalizing m off k with
  | nil => cases hk
  | cons v rest ih =>
    rw [setWords]
    cases k with
    | zero =>
      cases hk
      rw [getLE_setWords_of_disjoint rest (.inl (by omega))]
      exact getLE_setLE _ _ _ _ (hfit _ (by simp))
    | succ k =>
      rw [show off + 4 * (k + 1) = off + 4 + 4 * k by omega]
      exact ih (fun w hw => hfit w (by simp [hw])) hk

/-- `memmove` of `data` to `off`. -/
def blit (m : Bytes) (off : ℕ) (data : List UInt8) : Bytes :=
  fun i => if off ≤ i ∧ i < off + data.length then data.getD (i - off) 0 else m i

/-- The `n` bytes from `off` on. -/
def slice (m : Bytes) (off n : ℕ) : List UInt8 := (List.range n).map fun i => m (off + i)

theorem blit_of_out {data : List UInt8} {i : ℕ} (h : i < off ∨ off + data.length ≤ i) :
    m.blit off data i = m i := by
  unfold blit
  rw [if_neg (by omega)]

theorem blit_of_in {data : List UInt8} {i : ℕ} (hle : off ≤ i) (hlt : i < off + data.length) :
    m.blit off data i = data.getD (i - off) 0 := by
  unfold blit
  rw [if_pos ⟨hle, hlt⟩]

/-- The bytes of `data` are there from `off` on. -/
def Holds (m : Bytes) (off : ℕ) (data : List UInt8) : Prop :=
  ∀ i < data.length, m (off + i) = data.getD i 0

theorem holds_blit (m : Bytes) (off : ℕ) (data : List UInt8) :
    (m.blit off data).Holds off data := by
  intro i hi
  rw [blit_of_in (Nat.le_add_right _ _) (by omega), Nat.add_sub_cancel_left]

theorem Holds.congr {data : List UInt8} (h : m.Holds off data)
    (heq : ∀ i, off ≤ i → i < off + data.length → m' i = m i) : m'.Holds off data := by
  intro i hi
  rw [heq (off + i) (Nat.le_add_right _ _) (by omega), h i hi]

theorem holds_append {data data' : List UInt8} :
    m.Holds off (data ++ data') ↔ m.Holds off data ∧ m.Holds (off + data.length) data' := by
  constructor
  · intro h
    constructor
    · intro i hi
      rw [h i (by rw [List.length_append]; omega), List.getD_append _ _ _ _ hi]
    · intro i hi
      rw [Nat.add_assoc, h (data.length + i) (by rw [List.length_append]; omega),
        List.getD_append_right _ _ _ _ (Nat.le_add_right _ _), Nat.add_sub_cancel_left]
  · intro ⟨h, h'⟩ i hi
    rw [List.length_append] at hi
    by_cases hlt : i < data.length
    · rw [List.getD_append _ _ _ _ hlt, h i hlt]
    · have hsub := h' (i - data.length) (by omega)
      grind

end Bytes

end Xv6.Lib
