/-
# Where the pages are

The pages of a directory as a list: its own page, its tables, and the pages of the user.
A directory is sound with a free list if no page is in two places of them and `kfree`
would take every one. What a function does to the list is said up to order, so that a
function that moves pages keeps the directory sound.
-/

import Xv6.Lib.Places
import Xv6.Mmu.Dealloc

namespace Xv6.Mmu

open Function Xv6.Lib Xv6.Files
open Xv6.Vm (PGSIZE NPDENTRIES NPTENTRIES KERNBASE pages)

variable {k : Kernel} {d d' : Pgdir} {m m' : Mem} {u v n i : ℕ} {a pa : Page}

/-- The number of pages of the user's half of the address space. -/
def USERPAGES : ℕ := KERNBASE / PGSIZE

theorem userpages_lt_npages : USERPAGES < NPAGES := by decide

namespace Pgdir

/-- The pages of the tables. -/
def tables (d : Pgdir) : List Page := (List.range NPDENTRIES).filterMap d.pde

/-- All pages of a directory that `freevm` frees. -/
def owned (d : Pgdir) : List Page := d.frames 0 USERPAGES ++ d.tables ++ [d.page]

/-- What the user sees at a page: its flags and its contents. -/
def space (d : Pgdir) (m : Mem) (v : ℕ) : Option (Flags × Bytes) :=
  (d.lookup v).map fun x => (x.flags, m.data x.addr)

/-- The pages of the user that are present are those below `PGROUNDUP(sz)`. -/
def Exact (d : Pgdir) (sz : ℕ) : Prop := ∀ v < USERPAGES, (d.lookup v).isSome ↔ v < pages sz

theorem Exact.lookup_none {sz : ℕ} (h : d.Exact sz) (hv : v < USERPAGES) (hle : pages sz ≤ v) :
    d.lookup v = none := by
  rw [← Option.not_isSome_iff_eq_none, h v hv]
  exact Nat.not_lt.mpr hle

theorem frames_eq : d.frames v n = (List.range' v n).filterMap fun u => (d.lookup u).map Pte.addr :=
  List.map_filterMap

theorem mem_frames : a ∈ d.frames v n ↔ ∃ u x, v ≤ u ∧ u < v + n ∧ d.lookup u = some x ∧
    x.addr = a := by
  rw [frames, List.mem_map]
  grind

theorem mem_owned_of_lookup {x : Pte} (hv : v < USERPAGES) (h : d.lookup v = some x) :
    x.addr ∈ d.owned := by
  have hmem : x.addr ∈ d.frames 0 USERPAGES :=
    mem_frames.mpr ⟨v, x, Nat.zero_le v, by rwa [Nat.zero_add], h, rfl⟩
  exact List.mem_append_left _ (List.mem_append_left _ hmem)

/-- A page is mapped at one place. -/
theorem lookup_inj {x y : Pte} (hnodup : d.owned.Nodup) (hu : u < USERPAGES) (hv : v < USERPAGES)
    (hx : d.lookup u = some x) (hy : d.lookup v = some y) (heq : x.addr = y.addr) : u = v := by
  have hframes : (d.frames 0 USERPAGES).Nodup :=
    (List.nodup_append.mp (List.nodup_append.mp hnodup).1).1
  rw [frames_eq] at hframes
  apply eq_of_nodup_filterMap (a := y.addr) hframes
  · rw [List.mem_range'_1, Nat.zero_add]
    exact ⟨Nat.zero_le u, hu⟩
  · rw [List.mem_range'_1, Nat.zero_add]
    exact ⟨Nat.zero_le v, hv⟩
  · rw [hx, Option.map_some, heq]
  · rw [hy, Option.map_some]

theorem frames_append (d : Pgdir) (v j n : ℕ) :
    d.frames v (j + n) = d.frames v j ++ d.frames (v + j) n := by
  rw [frames, ← List.range'_append_1, List.filterMap_append, List.map_append, frames, frames]

theorem frames_of_none (h : ∀ u, v ≤ u → u < v + n → d.lookup u = none) : d.frames v n = [] := by
  rw [frames, List.map_eq_nil_iff, List.filterMap_eq_nil_iff]
  intro u hu
  obtain ⟨hle, hlt⟩ := List.mem_range'_1.mp hu
  exact h u hle hlt

theorem frames_congr_range (h : ∀ u, v ≤ u → u < v + n → d'.lookup u = d.lookup u) :
    d'.frames v n = d.frames v n := by
  rw [frames, frames, List.filterMap_congr]
  intro u hu
  obtain ⟨hle, hlt⟩ := List.mem_range'_1.mp hu
  exact h u hle hlt

theorem lookup_empty (a : Page) (v : ℕ) : (empty a).lookup v = none := rfl

theorem tables_empty (a : Page) : (empty a).tables = [] :=
  List.filterMap_eq_nil_iff.mpr fun _ _ => rfl

theorem owned_empty (a : Page) : (empty a).owned = [a] := by
  rw [owned, tables_empty, frames_of_none fun v _ _ => lookup_empty a v]
  rfl

/-- The directory with a new empty table. -/
def attach (d : Pgdir) (i : ℕ) (a : Page) : Pgdir :=
  { d with
    pde := update d.pde i (some a)
    pte := fun v => if v / NPTENTRIES = i then {} else d.pte v }

theorem entry_attach_self (h : v / NPTENTRIES = i) : (d.attach i a).entry v = some {} := by
  rw [attach, entry]
  dsimp only
  rw [h, update_self, Option.map_some, if_pos rfl]

theorem entry_attach_of_ne (h : v / NPTENTRIES ≠ i) : (d.attach i a).entry v = d.entry v := by
  rw [attach, entry]
  dsimp only
  rw [update_of_ne h, if_neg h, entry]

theorem not_has_default : ¬ ({} : Pte).Has PTE_P := by decide

theorem lookup_attach (hnone : d.pde i = none) (u : ℕ) : (d.attach i a).lookup u = d.lookup u := by
  by_cases h : u / NPTENTRIES = i
  · rw [lookup_of_absent (entry_attach_self h) not_has_default, lookup_of_entry_none]
    rw [entry, h, hnone, Option.map_none]
  · rw [lookup, entry_attach_of_ne h, lookup]

theorem owned_attach (hi : i < NPDENTRIES) (hnone : d.pde i = none) :
    (d.attach i a).owned.Perm (a :: d.owned) := by
  have htables : (d.attach i a).tables.Perm (a :: d.tables) :=
    filterMap_update_of_none List.nodup_range (List.mem_range.mpr hi) hnone
  rw [owned, owned, frames_congr_range fun u _ _ => lookup_attach hnone u]
  apply ((htables.append_left _).append_right _).trans
  apply (List.perm_middle.append_right _).trans
  rfl

/-- `walkpgdir` finds the table, or makes it, or there is no free page. -/
theorem walkAlloc_mul (hv : v < NPAGES) : d.walkAlloc (v * PGSIZE) m =
    if (d.pde (v / NPTENTRIES)).isSome then some (d, m)
    else m.kalloc.map fun r => (d.attach (v / NPTENTRIES) r.1, r.2) := by
  rw [walkAlloc, pdx_mul hv]
  cases d.pde (v / NPTENTRIES) with
  | some a => rfl
  | none => rfl

theorem has_or (perm : Flags) : (⟨pa, perm ||| PTE_P⟩ : Pte).Has PTE_P := by
  rw [Pte.Has]
  dsimp only
  intro h
  have hbit := congrArg (BitVec.getLsbD · 0) h
  simp [PTE_P] at hbit

theorem lookup_setPte_self {x y : Pte} (hv : v < NPAGES) (hentry : d.entry v = some y)
    (hx : x.Has PTE_P) : (d.setPte (v * PGSIZE) x).lookup v = some x := by
  apply lookup_of_present _ hx
  rw [entry_setPte hv, if_pos rfl, hentry, Option.map_some]

theorem owned_setPte_user {x y : Pte} (hv : v < USERPAGES) (hentry : d.entry v = some y)
    (hnone : d.lookup v = none) (hx : x.Has PTE_P) :
    (d.setPte (v * PGSIZE) x).owned.Perm (x.addr :: d.owned) := by
  have hlt : v < NPAGES := hv.trans userpages_lt_npages
  have hfun : (fun u => ((d.setPte (v * PGSIZE) x).lookup u).map Pte.addr) =
      update (fun u => (d.lookup u).map Pte.addr) v (some x.addr) := by
    grind [lookup_setPte_self, lookup_setPte_of_ne]
  have hframes : ((d.setPte (v * PGSIZE) x).frames 0 USERPAGES).Perm
      (x.addr :: d.frames 0 USERPAGES) := by
    simp [frames_eq, hfun, filterMap_update_of_none, List.nodup_range', hv, hnone]
  exact (hframes.append_right _).append_right _

theorem owned_setPte_kernel {x : Pte} (hv : USERPAGES ≤ v) (hlt : v < NPAGES) :
    (d.setPte (v * PGSIZE) x).owned = d.owned := by
  rw [owned, owned, frames_congr_range (d := d)]
  · rfl
  · intro u _ hu
    exact lookup_setPte_of_ne hlt (by omega)

theorem lookup_clear (d : Pgdir) (v n u : ℕ) :
    (d.clear v n).lookup u = if v ≤ u ∧ u < v + n then none else d.lookup u := by
  have hentry : (d.clear v n).entry u =
      if v ≤ u ∧ u < v + n ∧ (d.lookup u).isSome then (d.entry u).map fun _ => {}
      else d.entry u := by
    rw [entry, clear, entry]
    dsimp only
    split
    · rw [Option.map_map]
      rfl
    · rfl
  cases h : d.lookup u with
  | none =>
    rw [lookup, hentry, if_neg, ite_self]
    · exact h
    · intro hc
      rw [h] at hc
      cases hc.2.2
  | some x =>
    obtain ⟨hx, -⟩ := entry_of_lookup h
    rw [h, hx] at hentry
    by_cases hu : v ≤ u ∧ u < v + n
    · grind [lookup_of_absent, not_has_default]
    · rw [if_neg fun hc => hu ⟨hc.1, hc.2.1⟩] at hentry
      rw [if_neg hu, ← h, lookup, lookup, hentry, hx]

/-- The pages of the cleared entries are no longer owned. -/
theorem owned_clear (h : v + n ≤ USERPAGES) :
    d.owned.Perm (d.frames v n ++ (d.clear v n).owned) := by
  obtain ⟨j, hj⟩ : ∃ j, USERPAGES = v + (n + j) := ⟨USERPAGES - v - n, by omega⟩
  have hmid : (d.clear v n).frames (0 + v) n = [] := frames_of_none fun u hle hlt => by
    rw [lookup_clear, if_pos ⟨by omega, by omega⟩]
  have hlow : (d.clear v n).frames 0 v = d.frames 0 v := frames_congr_range fun u hle hlt => by
    rw [lookup_clear, if_neg (by omega)]
  have hhigh : (d.clear v n).frames (0 + v + n) j = d.frames (0 + v + n) j :=
    frames_congr_range fun u hle hlt => by rw [lookup_clear, if_neg (by omega)]
  rw [owned, owned, hj, frames_append, frames_append, frames_append (d.clear v n),
    frames_append (d.clear v n), hmid, hlow, hhigh, List.nil_append, Nat.zero_add]
  simp only [← List.append_assoc]
  exact ((List.perm_append_comm.append_right _).append_right _).append_right _

end Pgdir

/-- No page is in two places, and `kfree` takes every page. -/
structure Sound (k : Kernel) (d : Pgdir) (m : Mem) : Prop where
  nodup : (d.owned ++ m.free).Nodup
  valid : ∀ a ∈ d.owned ++ m.free, k.Valid a

namespace Sound

theorem of_perm (h : Sound k d m) (hperm : (d'.owned ++ m'.free).Perm (d.owned ++ m.free)) :
    Sound k d' m' :=
  ⟨hperm.nodup_iff.mpr h.nodup, fun a ha => h.valid a (hperm.mem_iff.mp ha)⟩

theorem valid_of_owned (h : Sound k d m) (ha : a ∈ d.owned) : k.Valid a :=
  h.valid a (List.mem_append_left _ ha)

theorem valid_of_free (h : Sound k d m) (ha : a ∈ m.free) : k.Valid a :=
  h.valid a (List.mem_append_right _ ha)

theorem notMem_free (h : Sound k d m) (ha : a ∈ d.owned) : a ∉ m.free :=
  fun hfree => (List.nodup_append.mp h.nodup).2.2 a ha a hfree rfl

end Sound

namespace Pgdir

/-- The loop of `freevm` frees the tables. -/
theorem freeTables_spec {l : List ℕ} (h : ∀ a ∈ l.filterMap d.pde, k.Valid a) :
    d.freeTables k l m = .ok (m.putAll (l.filterMap d.pde)) := by
  induction l generalizing m with
  | nil => rfl
  | cons i rest ih =>
    rw [freeTables]
    cases hi : d.pde i with
    | none =>
      rw [List.filterMap_cons_none hi] at h ⊢
      exact ih h
    | some a =>
      rw [List.filterMap_cons_some hi] at h ⊢
      dsimp only
      rw [kfree_of_valid (h a List.mem_cons_self)]
      exact ih fun b hb => h b (List.mem_cons_of_mem _ hb)

theorem dropped_kernbase : d.dropped KERNBASE 0 = d.frames 0 USERPAGES := rfl

/-- `freevm` frees every page of the directory. -/
theorem freevm_spec (h : ∀ a ∈ d.owned, k.Valid a) : d.freevm k m = .ok (m.putAll d.owned) := by
  have hframes : ∀ a ∈ d.dropped KERNBASE 0, k.Valid a := fun a ha =>
    h a (List.mem_append_left _ (List.mem_append_left _ ha))
  have htables : ∀ a ∈ d.tables, k.Valid a := fun a ha =>
    h a (List.mem_append_left _ (List.mem_append_right _ ha))
  have hpage : k.Valid d.page := h _ (List.mem_append_right _ List.mem_cons_self)
  obtain ⟨d', hdealloc, hpde, hpage'⟩ : ∃ d', d.deallocuvm k KERNBASE 0 m =
      .ok (0, d', m.putAll (d.frames 0 USERPAGES)) ∧ d'.pde = d.pde ∧ d'.page = d.page := by
    rw [deallocuvm_spec (by decide) (Nat.le_refl _), if_pos hframes, dropped_kernbase]
    exact ⟨_, rfl, rfl, rfl⟩
  have hfree : ∀ m, d'.freeTables k (List.range NPDENTRIES) m = .ok (m.putAll d.tables) := by
    intro m
    rw [freeTables_spec, hpde, tables]
    rw [hpde]
    exact htables
  simp [freevm, hdealloc, ok_bind, hfree, hpage', kfree_of_valid, hpage, owned, Mem.putAll]

end Pgdir

end Xv6.Mmu
