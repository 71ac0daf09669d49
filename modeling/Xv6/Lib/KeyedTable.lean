/-
# Tables of cells in order of use

A table has a fixed number of cells, and no two of them hold the same key. The cells stand
in a list, the one used last in front. A cell is found by its key, changed in place, moved
to the front, or taken for another key; for that the list is searched from the back for a
cell that is free.
-/

import Mathlib.Data.List.Nodup
import Mathlib.Data.List.Perm.Subperm

namespace Xv6.Lib

universe u v

variable {α : Type u} {ι : Type v} [DecidableEq ι]

/-- Overwrite the last free cell. -/
def replaceLast (free : α → Bool) (new : α) : List α → Option (List α)
  | [] => none
  | a :: rest =>
    match replaceLast free new rest with
    | some rest => some (a :: rest)
    | none => if free a then some (new :: rest) else none

section ReplaceLast

variable {free : α → Bool} {new : α} {l l' : List α}

/-- The cell that is overwritten, and where it was. -/
theorem replaceLast_eq_some (h : replaceLast free new l = some l') :
    ∃ before a after, l = before ++ a :: after ∧ free a = true ∧
      l' = before ++ new :: after := by
  induction l generalizing l' with
  | nil => cases h
  | cons x rest ih =>
    rw [replaceLast] at h
    split at h
    · next rest' hrest =>
      obtain ⟨before, a, after, rfl, hfree, rfl⟩ := ih hrest
      cases h
      exact ⟨x :: before, a, after, rfl, hfree, rfl⟩
    · split at h
      · next hx =>
        cases h
        exact ⟨[], x, rest, rfl, hx, rfl⟩
      · cases h

end ReplaceLast

/-- Cells of which no two hold the same key. -/
structure KeyedTable (key : α → Option ι) (n : ℕ) where
  /-- The cells, the one used last first. -/
  cells : List α
  unique : (cells.filterMap key).Nodup
  length_eq : cells.length = n

namespace KeyedTable

variable {key : α → Option ι} {n : ℕ} {t t' : KeyedTable key n} {a : α} {b x : ι}

/-- The cell that holds a key. -/
def lookup (t : KeyedTable key n) (b : ι) : Option α := t.cells.find? fun a => key a = some b

theorem key_of_lookup (h : t.lookup b = some a) : key a = some b := by
  simpa using List.find?_some h

theorem mem_of_lookup (h : t.lookup b = some a) : a ∈ t.cells := List.mem_of_find?_eq_some h

theorem lookup_eq_none : t.lookup b = none ↔ ∀ a ∈ t.cells, key a ≠ some b := by
  simp [lookup]

omit [DecidableEq ι] in
/-- Two cells with the same key are the same. -/
theorem eq_of_key {l : List α} (h : (l.filterMap key).Nodup) {a c : α} (ha : a ∈ l) (hc : c ∈ l)
    (hka : key a = some b) (hkc : key c = some b) : a = c := by
  induction l with
  | nil => cases ha
  | cons d rest ih =>
    have hrest : (rest.filterMap key).Nodup :=
      h.sublist ((List.sublist_cons_self d rest).filterMap key)
    have hmem : ∀ e ∈ rest, key e = some b → b ∈ rest.filterMap key :=
      fun e he hke => List.mem_filterMap.mpr ⟨e, he, hke⟩
    have hhead : key d = some b → b ∉ rest.filterMap key := by
      intro hd
      rw [List.filterMap_cons_some hd, List.nodup_cons] at h
      exact h.1
    rcases List.mem_cons.mp ha with rfl | ha'
    · rcases List.mem_cons.mp hc with rfl | hc'
      · rfl
      · exact absurd (hmem c hc' hkc) (hhead hka)
    · rcases List.mem_cons.mp hc with rfl | hc'
      · exact absurd (hmem a ha' hka) (hhead hkc)
      · exact ih hrest ha' hc'

/-- What is found by its key is the cell with that key. -/
theorem lookup_eq_some : t.lookup b = some a ↔ a ∈ t.cells ∧ key a = some b := by
  refine ⟨fun h => ⟨mem_of_lookup h, key_of_lookup h⟩, fun ⟨hmem, hkey⟩ => ?_⟩
  cases hfound : t.lookup b with
  | none => exact absurd hkey (lookup_eq_none.mp hfound a hmem)
  | some c =>
    rw [eq_of_key t.unique (mem_of_lookup hfound) hmem (key_of_lookup hfound) hkey]

/-- Keys that are all in the table are at most as many as its cells. -/
theorem length_le_of_lookup {keys : List ι} (hnodup : keys.Nodup)
    (h : ∀ b ∈ keys, t.lookup b ≠ none) : keys.length ≤ n := by
  have hsub : keys ⊆ t.cells.filterMap key := by
    intro b hb
    obtain ⟨a, ha⟩ := Option.ne_none_iff_exists'.mp (h b hb)
    exact List.mem_filterMap.mpr ⟨a, mem_of_lookup ha, key_of_lookup ha⟩
  calc keys.length ≤ (t.cells.filterMap key).length := (hnodup.subperm hsub).length_le
    _ ≤ t.cells.length := List.length_filterMap_le ..
    _ = n := t.length_eq

/-- Change the cell that holds a key. -/
def modify (t : KeyedTable key n) (b : ι) (f : α → α) (hf : ∀ a, key (f a) = key a) :
    KeyedTable key n where
  cells := t.cells.map fun a => if key a = some b then f a else a
  unique := by
    rw [List.filterMap_map]
    have hkey : (key ∘ fun a => if key a = some b then f a else a) = key := by
      funext a
      rw [Function.comp_apply]
      split
      · exact hf a
      · rfl
    rw [hkey]
    exact t.unique
  length_eq := by rw [List.length_map, t.length_eq]

theorem mem_modify {f : α → α} {hf : ∀ a, key (f a) = key a} :
    a ∈ (t.modify b f hf).cells ↔ ∃ c ∈ t.cells, (if key c = some b then f c else c) = a :=
  List.mem_map

theorem lookup_modify_self {f : α → α} {hf : ∀ a, key (f a) = key a} :
    (t.modify b f hf).lookup b = (t.lookup b).map f := by
  cases h : t.lookup b with
  | none =>
    rw [Option.map_none, lookup_eq_none]
    intro a ha
    obtain ⟨c, hc, rfl⟩ := mem_modify.mp ha
    have hne := lookup_eq_none.mp h c hc
    rwa [if_neg hne]
  | some a =>
    rw [Option.map_some, lookup_eq_some]
    obtain ⟨hmem, hkey⟩ := lookup_eq_some.mp h
    exact ⟨mem_modify.mpr ⟨a, hmem, if_pos hkey⟩, (hf a).trans hkey⟩

theorem lookup_modify_of_ne {f : α → α} {hf : ∀ a, key (f a) = key a} (hx : x ≠ b) :
    (t.modify b f hf).lookup x = t.lookup x := by
  have hother : ∀ c, key c = some x → ¬ key c = some b := by
    intro c hc hcb
    exact hx (Option.some.inj (hc.symm.trans hcb))
  cases h : t.lookup x with
  | none =>
    rw [lookup_eq_none]
    intro a ha
    obtain ⟨c, hc, rfl⟩ := mem_modify.mp ha
    have hne := lookup_eq_none.mp h c hc
    split
    · rwa [hf]
    · exact hne
  | some a =>
    rw [lookup_eq_some]
    obtain ⟨hmem, hkey⟩ := lookup_eq_some.mp h
    exact ⟨mem_modify.mpr ⟨a, hmem, if_neg (hother a hkey)⟩, hkey⟩

/-- Move the cell that holds a key to the front. -/
def toFront (t : KeyedTable key n) (b : ι) : KeyedTable key n where
  cells := (t.cells.filter fun a => key a = some b) ++ t.cells.filter fun a => !(key a = some b)
  unique := by
    have hperm := List.filter_append_perm (fun a => decide (key a = some b)) t.cells
    exact ((hperm.filterMap key).nodup_iff).mpr t.unique
  length_eq := by
    have hperm := List.filter_append_perm (fun a => decide (key a = some b)) t.cells
    exact hperm.length_eq.trans t.length_eq

theorem mem_toFront : a ∈ (t.toFront b).cells ↔ a ∈ t.cells :=
  (List.filter_append_perm (fun a => decide (key a = some b)) t.cells).mem_iff

theorem lookup_toFront : (t.toFront b).lookup x = t.lookup x := by
  cases h : t.lookup x with
  | none =>
    rw [lookup_eq_none] at h ⊢
    exact fun a ha => h a (mem_toFront.mp ha)
  | some a =>
    rw [lookup_eq_some] at h ⊢
    exact ⟨mem_toFront.mpr h.1, h.2⟩

/-- Take the last free cell for a key that the table does not hold. -/
def recycle (t : KeyedTable key n) (free : α → Bool) (new : α)
    (hnew : ∀ b, key new = some b → t.lookup b = none) : Option (KeyedTable key n) :=
  match h : replaceLast free new t.cells with
  | none => none
  | some cells =>
    some
      { cells
        unique := by
          obtain ⟨before, a, after, hcells, -, rfl⟩ := replaceLast_eq_some h
          have hsub : (before ++ after).Sublist t.cells := by
            rw [hcells]
            exact (List.Sublist.refl before).append (List.sublist_cons_self a after)
          have hrest : ((before ++ after).filterMap key).Nodup :=
            t.unique.sublist (hsub.filterMap key)
          rw [(List.perm_middle.filterMap key).nodup_iff]
          cases hkey : key new with
          | none =>
            rw [List.filterMap_cons_none hkey]
            exact hrest
          | some b =>
            rw [List.filterMap_cons_some hkey, List.nodup_cons]
            refine ⟨fun hmem => ?_, hrest⟩
            obtain ⟨c, hc, hkc⟩ := List.mem_filterMap.mp hmem
            exact lookup_eq_none.mp (hnew b hkey) c (hsub.subset hc) hkc
        length_eq := by
          obtain ⟨before, a, after, hcells, -, rfl⟩ := replaceLast_eq_some h
          rw [← t.length_eq, hcells, List.length_append, List.length_append, List.length_cons,
            List.length_cons] }

variable {free : α → Bool} {new : α} {hnew : ∀ b, key new = some b → t.lookup b = none}

theorem cells_of_recycle (h : t.recycle free new hnew = some t') :
    ∃ before a after, t.cells = before ++ a :: after ∧ free a = true ∧
      t'.cells = before ++ new :: after := by
  rw [recycle] at h
  split at h
  · cases h
  · next cells hcells =>
    cases h
    exact replaceLast_eq_some hcells

/-- A cell is still there, is the new one, or was free. -/
theorem lookup_recycle (h : t.recycle free new hnew = some t') (hb : key new = some b) :
    t'.lookup b = some new ∧ ∀ x, x ≠ b → t'.lookup x = t.lookup x ∨
      ∃ a, t.lookup x = some a ∧ free a = true ∧ t'.lookup x = none := by
  obtain ⟨before, a, after, hcells, hfree, hcells'⟩ := cells_of_recycle h
  have hmem : ∀ c, c ∈ t'.cells ↔ c = new ∨ c ∈ before ++ after := by
    intro c
    rw [hcells', List.perm_middle.mem_iff, List.mem_cons]
  have hmem' : ∀ c, c ∈ t.cells ↔ c = a ∨ c ∈ before ++ after := by
    intro c
    rw [hcells, List.perm_middle.mem_iff, List.mem_cons]
  refine ⟨lookup_eq_some.mpr ⟨(hmem new).mpr (.inl rfl), hb⟩, fun x hx => ?_⟩
  have hnewx : key new ≠ some x := by
    rw [hb]
    exact fun h => hx (Option.some.inj h).symm
  cases hfound : t.lookup x with
  | none =>
    refine .inl (lookup_eq_none.mpr fun c hc => ?_)
    rcases (hmem c).mp hc with rfl | hold
    · exact hnewx
    · exact lookup_eq_none.mp hfound c ((hmem' c).mpr (.inr hold))
  | some c =>
    obtain ⟨hc, hkey⟩ := lookup_eq_some.mp hfound
    by_cases hstay : c ∈ before ++ after
    · exact .inl (lookup_eq_some.mpr ⟨(hmem c).mpr (.inr hstay), hkey⟩)
    · obtain rfl : c = a := ((hmem' c).mp hc).resolve_right hstay
      refine .inr ⟨c, rfl, hfree, lookup_eq_none.mpr fun d hd hkd => ?_⟩
      rcases (hmem d).mp hd with rfl | hold
      · exact hnewx hkd
      · have heq := eq_of_key t.unique ((hmem' d).mpr (.inr hold)) hc hkd hkey
        exact hstay (heq ▸ hold)

end KeyedTable

end Xv6.Lib
