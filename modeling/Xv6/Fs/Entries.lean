/-
# The entries of a directory

The contents of a directory as a list of entries, and what writing an entry does to the
list. Two names are the same to `namecmp` if `strncpy` stores the same characters for them.
-/

import Mathlib.Data.List.Basic
import Xv6.Fs.Dir
import Xv6.Fs.File

namespace Xv6.Fs

open Xv6.Lib

variable {data : List UInt8} {j : ℕ}

theorem length_strncpy (t : List UInt8) (n : ℕ) : (strncpy t n).length = n := by
  induction n generalizing t with
  | zero => rfl
  | succ n ih =>
    unfold strncpy
    split
    · exact List.length_replicate
    · rw [List.length_cons, ih]

theorem strncpy_strncpy (t : List UInt8) (n : ℕ) : strncpy (strncpy t n) n = strncpy t n := by
  induction n generalizing t with
  | zero => rfl
  | succ n ih =>
    by_cases hend : t.headD 0 = 0
    · simp only [strncpy, if_pos hend, List.replicate_succ, List.headD_cons, if_true]
    · simp only [strncpy, if_neg hend, List.headD_cons, List.tail_cons, ih]

theorem toNat_sub_eq_zero {a b : UInt8} : ((a.toNat : ℤ) - b.toNat = 0) ↔ a = b := by
  rw [sub_eq_zero, Int.ofNat_inj, UInt8.toNat_inj]

/-- `strncmp` compares what `strncpy` copies. -/
theorem strncmp_eq_zero_iff (s t : List UInt8) (n : ℕ) :
    strncmp s t n = 0 ↔ strncpy s n = strncpy t n := by
  induction n generalizing s t with
  | zero => exact ⟨fun _ => rfl, fun _ => rfl⟩
  | succ n ih =>
    unfold strncmp strncpy
    grind [toNat_sub_eq_zero]

theorem namecmp_eq_zero_iff (s t : List UInt8) :
    namecmp s t = 0 ↔ strncpy s DIRSIZ = strncpy t DIRSIZ := strncmp_eq_zero_iff s t DIRSIZ

theorem namecmp_self (s : List UInt8) : namecmp s s = 0 := (namecmp_eq_zero_iff s s).mpr rfl

theorem namecmp_trans {s t u : List UInt8} (h : namecmp s u = 0) (h' : namecmp t u = 0) :
    namecmp s t = 0 := by
  rw [namecmp_eq_zero_iff] at *
  exact h.trans h'.symm

theorem namecmp_strncpy (s t : List UInt8) :
    namecmp (strncpy s DIRSIZ) t = 0 ↔ namecmp s t = 0 := by
  rw [namecmp_eq_zero_iff, namecmp_eq_zero_iff, strncpy_strncpy]

/-- What is read back of an entry that was written. -/
def Dirent.stored (de : Dirent) : Dirent := ⟨de.inum % 2 ^ 16, strncpy de.name DIRSIZ⟩

theorem Dirent.length_toBytes (de : Dirent) : de.toBytes.length = DIRENT := by
  unfold Dirent.toBytes
  rw [List.length_cons, List.length_cons, length_strncpy]
  rfl

theorem Dirent.ofBytes_toBytes (de : Dirent) : Dirent.ofBytes de.toBytes = de.stored := by
  unfold Dirent.ofBytes Dirent.toBytes Dirent.stored
  have hsum : de.inum % 256 % 2 ^ 8 + 256 * (de.inum / 256 % 256 % 2 ^ 8) = de.inum % 2 ^ 16 := by
    omega
  grind [UInt8.toNat_ofNat']

/-- The entry with index `j`. -/
def entry (data : List UInt8) (j : ℕ) : Dirent :=
  Dirent.ofBytes ((data.drop (DIRENT * j)).take DIRENT)

/-- The entries of a directory with these contents. -/
def entries (data : List UInt8) : List Dirent :=
  (List.range (data.length / DIRENT)).map (entry data)

theorem length_entries : (entries data).length = data.length / DIRENT := by
  rw [entries, List.length_map, List.length_range]

theorem getElem_entries (h : j < (entries data).length) : (entries data)[j] = entry data j := by
  simp only [entries, List.getElem_map, List.getElem_range]

/-- The entry a loop is at, and those it has still to see. -/
theorem drop_entries (h : j < (entries data).length) :
    (entries data).drop j = entry data j :: (entries data).drop (j + 1) := by
  rw [List.drop_eq_getElem_cons h, getElem_entries]

theorem entries_append {a b : List UInt8} {m : ℕ} (ha : a.length = DIRENT * m) :
    entries (a ++ b) = entries a ++ entries b := by
  have hpos : 0 < DIRENT := by decide
  have hdiv : a.length / DIRENT = m := by rw [ha, Nat.mul_div_cancel_left _ hpos]
  have hsum : (a ++ b).length / DIRENT = m + b.length / DIRENT := by
    rw [List.length_append, ha, Nat.add_comm, Nat.add_mul_div_left _ _ hpos, Nat.add_comm]
  unfold entries
  rw [hsum, hdiv, List.range_add, List.map_append, List.map_map]
  congr 1
  · refine List.map_congr_left fun i hi => ?_
    have hlast : DIRENT * (i + 1) ≤ DIRENT * m := Nat.mul_le_mul_left _ (List.mem_range.mp hi)
    rw [Nat.mul_succ] at hlast
    unfold entry
    grind
  · simp [ha, Nat.mul_add, entry, List.drop_append, List.drop_eq_nil_of_le]

theorem entries_single {src : List UInt8} (h : src.length = DIRENT) :
    entries src = [Dirent.ofBytes src] := by
  unfold entries entry
  rw [h, Nat.div_self (by decide)]
  grind

theorem entries_nil : entries [] = [] := rfl

/-- A list with the element at index `a` replaced, or one more element behind the last. -/
def putAt {α : Type} (l : List α) (a : ℕ) (v : α) : List α := l.take a ++ v :: l.drop (a + 1)

/-- An entry written over another one or behind the last. -/
theorem entries_splice {src : List UInt8} {m : ℕ} (hdata : DIRENT * m ≤ data.length)
    (hj : j < m ∨ j = m ∧ data.length = DIRENT * m) (hsrc : src.length = DIRENT) :
    entries (splice data (DIRENT * j) src) = putAt (entries data) j (Dirent.ofBytes src) := by
  have hjm : j ≤ m := by omega
  have hlen : ∀ i ≤ m, (data.take (DIRENT * i)).length = DIRENT * i := by
    intro i hi
    have hle : DIRENT * i ≤ DIRENT * m := Nat.mul_le_mul_left _ hi
    rw [List.length_take]
    omega
  have hsplit : ∀ i ≤ m, (entries data).take i = entries (data.take (DIRENT * i)) ∧
      (entries data).drop i = entries (data.drop (DIRENT * i)) := by
    intro i hi
    have hcount : (entries (data.take (DIRENT * i))).length = i := by
      rw [length_entries, hlen i hi, Nat.mul_div_cancel_left _ (by decide)]
    grind [entries_append, List.take_append_drop]
  unfold splice putAt
  rw [List.append_assoc, entries_append (hlen j hjm), entries_append (m := 1) (by omega),
    entries_single hsrc, (hsplit j hjm).1, hsrc, List.singleton_append]
  congr 2
  rcases hj with hlt | ⟨rfl, hend⟩
  · rw [(hsplit (j + 1) hlt).2, Nat.mul_succ]
  · have hnone : (entries data).length ≤ j + 1 := by
      rw [length_entries, hend, Nat.mul_div_cancel_left _ (by decide)]
      exact Nat.le_succ j
    rw [List.drop_eq_nil_of_le (by omega), List.drop_eq_nil_of_le hnone, entries_nil]

section PutAt

variable {α β : Type} {l : List α} {a b : ℕ} {v : α}

theorem map_putAt (f : α → β) : (putAt l a v).map f = putAt (l.map f) a (f v) := by
  unfold putAt
  rw [List.map_append, List.map_cons, List.map_take, List.map_drop]

theorem length_putAt (ha : a ≤ l.length) : (putAt l a v).length = max l.length (a + 1) := by
  unfold putAt
  rw [List.length_append, List.length_cons, List.length_take, List.length_drop]
  omega

theorem mem_putAt {x : α} (h : x ∈ putAt l a v) : x = v ∨ x ∈ l := by
  rcases List.mem_append.mp h with hfront | hback
  · exact .inr (List.mem_of_mem_take hfront)
  · exact (List.mem_cons.mp hback).imp_right List.mem_of_mem_drop

theorem getElem?_putAt_of_lt (hb : b < a) (ha : a ≤ l.length) : (putAt l a v)[b]? = l[b]? := by
  unfold putAt
  rw [List.getElem?_append_left (by rw [List.length_take]; omega), List.getElem?_take_of_lt hb]

theorem drop_putAt (hb : b ≤ a) (ha : a ≤ l.length) :
    (putAt l a v).drop b = putAt (l.drop b) (a - b) v := by
  unfold putAt
  grind [List.drop_drop]

/-- What a new element does to the number of elements of a kind. -/
theorem count_putAt [BEq α] [LawfulBEq α] (x : α) :
    (putAt l a v).count x + (if l[a]? == some x then 1 else 0) =
      l.count x + if v == x then 1 else 0 := by
  have hwhole : l.count x = (l.take a).count x + (l.drop a).count x := by
    rw [← List.count_append, List.take_append_drop]
  unfold putAt
  rw [List.count_append, List.count_cons, hwhole]
  by_cases ha : a < l.length
  · rw [List.drop_eq_getElem_cons ha, List.count_cons, List.getElem?_eq_getElem ha,
      Option.some_beq_some]
    omega
  · rw [List.getElem?_eq_none (Nat.le_of_not_lt ha), List.drop_eq_nil_of_le (Nat.le_of_not_lt ha),
      List.drop_eq_nil_of_le (by omega), Option.none_beq_some]
    simp only [List.count_nil, Bool.false_eq_true, if_false]
    omega

end PutAt

/-- The first entry in use with a name, and its offset. -/
def lookupIn (name : List UInt8) : List Dirent → ℕ → Option (ℕ × ℕ)
  | [], _ => none
  | e :: rest, off =>
    if e.inum ≠ 0 ∧ namecmp name e.name = 0 then some (e.inum, off)
    else lookupIn name rest (off + DIRENT)

/-- What a name in a directory with these contents stands for. -/
def lookup (data name : List UInt8) : Option (ℕ × ℕ) := lookupIn name (entries data) 0

theorem lookupIn_eq_some {name : List UInt8} {es : List Dirent} {off i o : ℕ}
    (h : lookupIn name es off = some (i, o)) :
    ∃ j e, es[j]? = some e ∧ o = off + DIRENT * j ∧ e.inum = i ∧ i ≠ 0 ∧
      namecmp name e.name = 0 := by
  induction es generalizing off with
  | nil => cases h
  | cons e rest ih =>
    unfold lookupIn at h
    split at h
    · next hmatch =>
      obtain ⟨rfl, rfl⟩ := Prod.mk.inj (Option.some.inj h)
      exact ⟨0, e, rfl, rfl, rfl, hmatch.1, hmatch.2⟩
    · obtain ⟨j, e', hget, ho, hrest⟩ := ih h
      refine ⟨j + 1, e', hget, ?_, hrest⟩
      rw [ho, Nat.mul_succ]
      omega

theorem lookupIn_eq_none {name : List UInt8} {es : List Dirent} {off : ℕ} :
    lookupIn name es off = none ↔ ∀ e ∈ es, e.inum ≠ 0 → namecmp name e.name ≠ 0 := by
  induction es generalizing off with
  | nil => exact ⟨fun _ e he => absurd he List.not_mem_nil, fun _ => rfl⟩
  | cons e rest ih =>
    unfold lookupIn
    grind

/-- The parts of a path between slashes that are not empty, cut to fourteen characters. -/
def components (path : List UInt8) : List (List UInt8) :=
  ((path.splitOn slash).filter (· ≠ [])).map (List.take DIRSIZ)

theorem components_append (a b : List UInt8) :
    components (a ++ slash :: b) = components a ++ components b := by
  simp [components, List.splitOn_append_cons_self]

theorem components_dropWhile (path : List UInt8) :
    components (path.dropWhile (· = slash)) = components path := by
  induction path with
  | nil => rfl
  | cons c path ih =>
    by_cases hc : c = slash
    · rw [List.dropWhile_cons_of_pos (by simpa using hc), ih, hc]
      exact (components_append [] path).symm
    · rw [List.dropWhile_cons_of_neg (by simpa using hc)]

theorem components_word (word path : List UInt8) (hne : word ≠ []) (hword : slash ∉ word) :
    components (word ++ path) =
      (word ++ path.takeWhile (· ≠ slash)).take DIRSIZ ::
        components (path.dropWhile (· ≠ slash)) := by
  induction path generalizing word with
  | nil => simp [components, List.splitOn_eq_singleton hword, hne]
  | cons c path ih =>
    by_cases hc : c = slash
    · have hone : components word = [word.take DIRSIZ] := by
        simp [components, List.splitOn_eq_singleton hword, hne]
      have hrest := components_append [] path
      simp_all [components_append]
      rfl
    · have hnext := ih (word ++ [c]) (by simp) (by simp [hword, Ne.symm hc])
      simpa [hc] using hnext

theorem components_of_skipelem (path : List UInt8) :
    match skipelem path with
    | none => components path = []
    | some (name, rest) => components path = name :: components rest := by
  rw [← components_dropWhile]
  obtain ⟨hnil, hnone⟩ | ⟨c, word, hc, hpath, hsome⟩ := skipelem_cases path
  · rw [hnone, hnil]
    rfl
  · rw [hsome, hpath]
    dsimp only
    rw [components_dropWhile]
    exact components_word [c] word (by simp) (by simpa using hc.symm)

theorem elementsLoop_eq {fuel : ℕ} {path : List UInt8} {names : List (List UInt8)}
    (h : elementsLoop fuel path = some names) : names = components path := by
  induction fuel generalizing path names with
  | zero => cases h
  | succ fuel ih =>
    unfold elementsLoop at h
    have hparts := components_of_skipelem path
    cases hnext : skipelem path with
    | none =>
      rw [hnext] at h hparts
      rw [hparts, ← Option.some.inj h]
    | some p =>
      rw [hnext] at h hparts
      obtain ⟨names', hnames, rfl⟩ := Option.map_eq_some_iff.mp h
      rw [hparts, ih hnames]

/-- Calling `skipelem` again and again ends for every path, and gives its components. -/
theorem elements_eq_components (path : List UInt8) : elements path = components path :=
  elementsLoop_eq (Option.some_get _).symm

end Xv6.Fs
