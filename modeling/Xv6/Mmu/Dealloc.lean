/-
# Unmapping pages

The loop of `deallocuvm` goes to the next page table where there is none. It does what a
loop over all pages of the range does: the entries of the range that are present are
cleared, and their pages are freed in increasing order.
-/

import Xv6.Mmu.Tables

namespace Xv6.Mmu

open Function Xv6.Lib Xv6.Files
open Xv6.Vm (PGSIZE NPDENTRIES NPTENTRIES KERNBASE pages)

variable {k : Kernel} {d : Pgdir} {m : Mem} {v n fuel oldsz newsz : ℕ}

/-- The number of page entries of a directory. -/
def NPAGES : ℕ := NPDENTRIES * NPTENTRIES

theorem pdx_mul (hv : v < NPAGES) : PDX (v * PGSIZE) = v / NPTENTRIES := by
  change v < 1024 * 1024 at hv
  show v * 4096 / 2 ^ 22 % 1024 = v / 1024
  omega

theorem pageOf_mul (hv : v < NPAGES) : pageOf (v * PGSIZE) = v := by
  rw [pageOf, pdx_mul hv]
  show v / 1024 * 1024 + v * 4096 / 2 ^ 12 % 1024 = v
  omega

theorem next_mul (hv : v + 1 < NPAGES) : (v * PGSIZE + PGSIZE) % 2 ^ 32 = (v + 1) * PGSIZE := by
  change v + 1 < 1024 * 1024 at hv
  show (v * 4096 + 4096) % 2 ^ 32 = (v + 1) * 4096
  omega

/-- The loop of `deallocuvm` goes on with the first page of the next table. -/
theorem skip_mul (hv : v < KERNBASE / PGSIZE) :
    ((PGADDR (PDX (v * PGSIZE) + 1) + (2 ^ 32 - PGSIZE)) % 2 ^ 32 + PGSIZE) % 2 ^ 32 =
      (v / NPTENTRIES + 1) * NPTENTRIES * PGSIZE := by
  change v < 524288 at hv
  rw [pdx_mul (Nat.lt_trans hv (by decide))]
  show (((v / 1024 + 1) * 2 ^ 22 % 2 ^ 32 + (2 ^ 32 - 4096)) % 2 ^ 32 + 4096) % 2 ^ 32 =
    (v / 1024 + 1) * 1024 * 4096
  omega

theorem Kernel.Valid.ne_zero {a : Page} (h : k.Valid a) : a ≠ 0 := by
  rintro rfl
  have hlink := k.link_lt
  have hdata := k.data_le
  have hend := h.1
  rw [KERNLINK] at hlink
  omega

namespace Pgdir

/-- The entry of a page, if its table is there. -/
def entry (d : Pgdir) (v : ℕ) : Option Pte := (d.pde (v / NPTENTRIES)).map fun _ => d.pte v

/-- The entry of a page that is present. -/
def lookup (d : Pgdir) (v : ℕ) : Option Pte := (d.entry v).filter fun x => x.Has PTE_P

theorem walk_mul (hv : v < NPAGES) : d.walk (v * PGSIZE) = d.entry v := by
  rw [walk, pdx_mul hv, pageOf_mul hv, entry]

theorem lookup_of_entry_none (h : d.entry v = none) : d.lookup v = none := by
  rw [lookup, h, Option.filter_none]

theorem lookup_of_present {x : Pte} (h : d.entry v = some x) (hx : x.Has PTE_P) :
    d.lookup v = some x := by
  rw [lookup, h, Option.filter_some, if_pos (decide_eq_true hx)]

theorem lookup_of_absent {x : Pte} (h : d.entry v = some x) (hx : ¬ x.Has PTE_P) :
    d.lookup v = none := by
  rw [lookup, h, Option.filter_some, if_neg]
  rw [decide_eq_true_iff]
  exact hx

/-- The pages that `n` entries from `v` on map. -/
def frames (d : Pgdir) (v n : ℕ) : List Page :=
  ((List.range' v n).filterMap d.lookup).map Pte.addr

theorem frames_succ_of_none (h : d.lookup v = none) : d.frames v (n + 1) = d.frames (v + 1) n := by
  rw [frames, List.range'_succ, List.filterMap_cons_none h, frames]

theorem frames_succ_of_some {x : Pte} (h : d.lookup v = some x) :
    d.frames v (n + 1) = x.addr :: d.frames (v + 1) n := by
  rw [frames, List.range'_succ, List.filterMap_cons_some h, List.map_cons, frames]

/-- Clear those of the `n` entries from `v` on that are present. -/
def clear (d : Pgdir) (v n : ℕ) : Pgdir :=
  { d with pte := fun u => if v ≤ u ∧ u < v + n ∧ (d.lookup u).isSome then {} else d.pte u }

end Pgdir

/-- `kfree` of a page that passes its check. -/
def Mem.put (m : Mem) (a : Page) : Mem := { m.setPage a (fun _ => 1) with free := a :: m.free }

/-- `kfree` of several pages. -/
def Mem.putAll (m : Mem) (l : List Page) : Mem := l.foldl Mem.put m

namespace Pgdir

variable (k) in
/-- A loop over all of the `n` pages from `a` on. -/
def plainLoop : ℕ → ℕ → Pgdir → Mem → Except Stop (Pgdir × Mem)
  | 0, _, d, m => .ok (d, m)
  | n + 1, a, d, m =>
    match d.walk a with
    | none => plainLoop n (a + PGSIZE) d m
    | some x =>
      if x.Has PTE_P then
        if x.addr = 0 then .error .kfree
        else do
          let m ← kfree k x.addr m
          plainLoop n (a + PGSIZE) (d.setPte a {}) m
      else plainLoop n (a + PGSIZE) d m

theorem plainLoop_absent (hv : v < NPAGES) (h : d.entry v = none) :
    plainLoop k (n + 1) (v * PGSIZE) d m = plainLoop k n ((v + 1) * PGSIZE) d m := by
  rw [plainLoop, walk_mul hv, h, Nat.succ_mul]

/-- Where there are no tables the loop does nothing. -/
theorem plainLoop_skip {j : ℕ} (hv : v + j ≤ NPAGES)
    (h : ∀ u, v ≤ u → u < v + j → d.entry u = none) :
    plainLoop k (j + n) (v * PGSIZE) d m = plainLoop k n ((v + j) * PGSIZE) d m := by
  induction j generalizing v with
  | zero => rw [Nat.zero_add, Nat.add_zero]
  | succ j ih =>
    grind [plainLoop_absent]

/-- A table that is not there is passed over. -/
theorem plainLoop_table {p : ℕ} (hp : p ≤ KERNBASE / PGSIZE) (hv : v < p)
    (h : d.entry v = none) :
    plainLoop k (p - v) (v * PGSIZE) d m =
      plainLoop k (p - (v / NPTENTRIES + 1) * NPTENTRIES)
        ((v / NPTENTRIES + 1) * NPTENTRIES * PGSIZE) d m := by
  change p ≤ 524288 at hp
  have hall : NPAGES = 1048576 := rfl
  have hsize : NPTENTRIES = 1024 := rfl
  rw [hsize]
  have hnone : ∀ u, u / 1024 = v / 1024 → d.entry u = none := by
    intro u hu
    rw [entry, Option.map_eq_none_iff, hsize] at h ⊢
    rw [hu]
    exact h
  by_cases hend : (v / 1024 + 1) * 1024 ≤ p
  · have hj : p - v = ((v / 1024 + 1) * 1024 - v) + (p - (v / 1024 + 1) * 1024) := by omega
    rw [hj, plainLoop_skip (by omega) (fun u _ hlt => hnone u (by omega))]
    congr 2
    omega
  · have hzero : p - (v / 1024 + 1) * 1024 = 0 := by omega
    rw [hzero, ← Nat.add_zero (p - v),
      plainLoop_skip (by omega) (fun u _ hlt => hnone u (by omega)), plainLoop, plainLoop]

/-- A page that a size has. -/
theorem lt_pages {sz : ℕ} : v * PGSIZE < sz ↔ v < pages sz := Vm.Pgdir.lt_pages

theorem pages_le {sz : ℕ} (hsz : sz ≤ KERNBASE) : pages sz ≤ KERNBASE / PGSIZE := by
  change sz ≤ 2147483648 at hsz
  show (sz + 4096 - 1) / 4096 ≤ 524288
  omega

/-- The loop of `deallocuvm` does what the plain loop does. -/
theorem deallocLoop_eq (hold : oldsz ≤ KERNBASE) (hfuel : pages oldsz - v < fuel) :
    deallocLoop k oldsz fuel (v * PGSIZE) d m =
      plainLoop k (pages oldsz - v) (v * PGSIZE) d m := by
  have htop : pages oldsz ≤ 524288 := pages_le hold
  have hall : NPAGES = 1048576 := rfl
  induction fuel generalizing v d m with
  | zero => exact absurd hfuel (Nat.not_lt_zero _)
  | succ fuel ih =>
    by_cases hlt : v < pages oldsz
    · have hnext : (v * PGSIZE + PGSIZE) % 2 ^ 32 = (v + 1) * PGSIZE := next_mul (by omega)
      obtain ⟨n, hn⟩ : ∃ n, pages oldsz - v = n + 1 := ⟨pages oldsz - v - 1, by omega⟩
      have hn' : pages oldsz - (v + 1) = n := by omega
      have ih' : ∀ d m, deallocLoop k oldsz fuel ((v + 1) * PGSIZE) d m =
          plainLoop k n ((v + 1) * PGSIZE) d m := by
        intro d m
        rw [ih (by omega), hn']
      rw [deallocLoop, if_pos (lt_pages.mpr hlt), walk_mul (by omega)]
      cases hentry : d.entry v with
      | none =>
        dsimp only
        rw [plainLoop_table (pages_le hold) hlt hentry, skip_mul (hlt.trans_le (pages_le hold))]
        apply ih
        have hsize : NPTENTRIES = 1024 := rfl
        rw [hsize]
        omega
      | some x =>
        rw [hn, plainLoop, walk_mul (by omega), hentry]
        grind
    · rw [deallocLoop, if_neg (fun h => hlt (lt_pages.mp h)),
        show pages oldsz - v = 0 by omega, plainLoop]

theorem entry_setPte {u : ℕ} {x : Pte} (hv : v < NPAGES) :
    (d.setPte (v * PGSIZE) x).entry u =
      if u = v then (d.entry v).map fun _ => x else d.entry u := by
  rw [setPte, pageOf_mul hv, entry, entry]
  dsimp only
  split
  case isTrue h => rw [h, update_self, Option.map_map]; rfl
  case isFalse h => rw [update_of_ne h, entry]

theorem lookup_setPte_of_ne {u : ℕ} {x : Pte} (hv : v < NPAGES) (h : u ≠ v) :
    (d.setPte (v * PGSIZE) x).lookup u = d.lookup u := by
  rw [lookup, entry_setPte hv, if_neg h, lookup]

theorem frames_congr {d' : Pgdir} (h : ∀ u, v ≤ u → d'.lookup u = d.lookup u) :
    d'.frames v n = d.frames v n := by
  rw [frames, frames, List.filterMap_congr fun u hu => h u (List.mem_range'_1.mp hu).1]

theorem clear_zero : d.clear v 0 = d := by
  refine Pgdir.ext rfl rfl (funext fun u => ?_)
  exact if_neg fun h => Nat.not_lt.mpr h.1 h.2.1

theorem clear_succ_of_none (h : d.lookup v = none) : d.clear (v + 1) n = d.clear v (n + 1) := by
  refine Pgdir.ext rfl rfl (funext fun u => ?_)
  rw [clear, clear]
  grind

theorem clear_succ_of_some {x : Pte} (hv : v < NPAGES) (h : d.lookup v = some x) :
    (d.setPte (v * PGSIZE) {}).clear (v + 1) n = d.clear v (n + 1) := by
  refine Pgdir.ext rfl rfl (funext fun u => ?_)
  rw [clear, clear]
  dsimp only
  by_cases hu : u = v
  · rw [hu, if_neg (fun hc => Nat.not_succ_le_self v hc.1), if_pos ⟨Nat.le_refl v, by omega, by
      rw [h, Option.isSome_some]⟩, setPte, pageOf_mul hv]
    exact update_self ..
  · rw [lookup_setPte_of_ne hv hu, setPte, pageOf_mul hv]
    grind

end Pgdir

theorem kfree_of_valid {a : Page} (h : k.Valid a) : kfree k a m = .ok (m.put a) := if_pos h

theorem kfree_of_not_valid {a : Page} (h : ¬ k.Valid a) : kfree k a m = .error .kfree := if_neg h

namespace Pgdir

/-- The loop goes on after an entry that is not present. -/
theorem plainLoop_of_none (hv : v < NPAGES) (h : d.lookup v = none) :
    plainLoop k (n + 1) (v * PGSIZE) d m = plainLoop k n ((v + 1) * PGSIZE) d m := by
  cases hentry : d.entry v with
  | none => exact plainLoop_absent hv hentry
  | some x =>
    have hx : ¬ x.Has PTE_P := by
      intro hx
      rw [lookup_of_present hentry hx] at h
      cases h
    rw [plainLoop, walk_mul hv, hentry]
    dsimp only
    rw [if_neg hx, ← Nat.succ_mul]

theorem entry_of_lookup {x : Pte} (h : d.lookup v = some x) : d.entry v = some x ∧ x.Has PTE_P := by
  rw [lookup, Option.filter_eq_some_iff] at h
  exact ⟨h.1, of_decide_eq_true h.2⟩

/-- The loop at an entry that is present. -/
theorem plainLoop_of_some {x : Pte} (hv : v < NPAGES) (h : d.lookup v = some x) :
    plainLoop k (n + 1) (v * PGSIZE) d m =
      if k.Valid x.addr then
        plainLoop k n ((v + 1) * PGSIZE) (d.setPte (v * PGSIZE) {}) (m.put x.addr)
      else .error .kfree := by
  obtain ⟨hentry, hx⟩ := entry_of_lookup h
  rw [plainLoop, walk_mul hv, hentry]
  dsimp only
  rw [if_pos hx, ← Nat.succ_mul]
  by_cases hvalid : k.Valid x.addr
  · rw [if_neg hvalid.ne_zero, if_pos hvalid, kfree_of_valid hvalid]
    rfl
  · rw [if_neg hvalid, kfree_of_not_valid hvalid]
    exact ite_self _

/-- What the plain loop does: it clears the entries that are present and frees their pages, if
`kfree` accepts all of them. -/
theorem plainLoop_spec (hv : v + n ≤ NPAGES) :
    plainLoop k n (v * PGSIZE) d m =
      if ∀ a ∈ d.frames v n, k.Valid a then .ok (d.clear v n, m.putAll (d.frames v n))
      else .error .kfree := by
  induction n generalizing v d m with
  | zero =>
    rw [plainLoop, clear_zero]
    exact (if_pos fun a ha => absurd ha List.not_mem_nil).symm
  | succ n ih =>
    cases h : d.lookup v with
    | none =>
      rw [plainLoop_of_none (by omega) h, ih (by omega), frames_succ_of_none h,
        clear_succ_of_none h]
    | some x =>
      rw [plainLoop_of_some (by omega) h, ih (by omega), frames_succ_of_some h,
        clear_succ_of_some (by omega) h, frames_congr (d := d)]
      · by_cases hvalid : k.Valid x.addr
        · rw [if_pos hvalid]
          simp only [List.forall_mem_cons, hvalid, true_and]
          rfl
        · simp [hvalid]
      · intro u hu
        exact lookup_setPte_of_ne (by omega) (by omega)

theorem pgRoundUp_eq (h : newsz < KERNBASE) : pgRoundUp newsz = pages newsz * PGSIZE := by
  change newsz < 2147483648 at h
  show (newsz + 4096 - 1) % 2 ^ 32 / 4096 * 4096 = (newsz + 4096 - 1) / 4096 * 4096
  omega

theorem pages_mono (h : newsz ≤ oldsz) : pages newsz ≤ pages oldsz :=
  Nat.div_le_div_right (Nat.sub_le_sub_right (Nat.add_le_add_right h _) _)

theorem pages_le_succ : pages oldsz ≤ oldsz / PGSIZE + 1 := by
  show (oldsz + 4096 - 1) / 4096 ≤ oldsz / 4096 + 1
  omega

/-- The pages of the entries that `deallocuvm` visits. -/
def dropped (d : Pgdir) (oldsz newsz : ℕ) : List Page :=
  d.frames (pages newsz) (pages oldsz - pages newsz)

theorem deallocuvm_eq_plain (hnew : newsz < oldsz) (hold : oldsz ≤ KERNBASE) :
    d.deallocuvm k oldsz newsz m =
      (plainLoop k (pages oldsz - pages newsz) (pgRoundUp newsz) d m).map fun r => (newsz, r) := by
  have hfuel : pages oldsz - pages newsz < oldsz / PGSIZE + 2 :=
    Nat.lt_succ_of_le ((Nat.sub_le ..).trans pages_le_succ)
  rw [deallocuvm, if_neg (Nat.not_le.mpr hnew), pgRoundUp_eq (hnew.trans_le hold),
    deallocLoop_eq hold hfuel]
  cases plainLoop k (pages oldsz - pages newsz) (pages newsz * PGSIZE) d m with
  | error e => rfl
  | ok r => rfl

/-- What `deallocuvm` does. -/
theorem deallocuvm_spec (hnew : newsz < oldsz) (hold : oldsz ≤ KERNBASE) :
    d.deallocuvm k oldsz newsz m =
      if ∀ a ∈ d.dropped oldsz newsz, k.Valid a then
        .ok (newsz, d.clear (pages newsz) (pages oldsz - pages newsz),
          m.putAll (d.dropped oldsz newsz))
      else .error .kfree := by
  have htop : pages oldsz ≤ 524288 := pages_le hold
  have hle : pages newsz ≤ pages oldsz := pages_mono hnew.le
  have hall : NPAGES = 1048576 := rfl
  rw [deallocuvm_eq_plain hnew hold, pgRoundUp_eq (hnew.trans_le hold),
    plainLoop_spec (by omega), dropped]
  split
  · rfl
  · rfl

end Pgdir

namespace Mem

theorem putAll_free (l : List Page) : (m.putAll l).free = l.reverse ++ m.free := by
  induction l generalizing m with
  | nil => rfl
  | cons a l ih =>
    show ((m.put a).putAll l).free = _
    rw [ih, List.reverse_cons, List.append_assoc]
    rfl

theorem putAll_loaded (l : List Page) : (m.putAll l).loaded = m.loaded := by
  induction l generalizing m with
  | nil => rfl
  | cons a l ih => exact ih

theorem putAll_data_of_notMem {l : List Page} {x : Page} (h : x ∉ l) :
    (m.putAll l).data x = m.data x := by
  induction l generalizing m with
  | nil => rfl
  | cons a l ih =>
    rw [List.mem_cons, not_or] at h
    show ((m.put a).putAll l).data x = _
    rw [ih h.2]
    exact update_of_ne h.1 _ _

end Mem

namespace Pgdir

/-- For every directory `deallocuvm` ends as the loop over all pages does, whichever tables are
there: it clears the entries of the range that are present and frees the page of each once, or
`kfree` refuses one of these pages. -/
theorem deallocuvm_skips_tables (k : Kernel) (d : Pgdir) (m : Mem) (oldsz newsz : ℕ)
    (hnew : newsz < oldsz) (hold : oldsz ≤ KERNBASE) :
    d.deallocuvm k oldsz newsz m =
        (plainLoop k (pages oldsz - pages newsz) (pgRoundUp newsz) d m).map
          (fun r => (newsz, r)) ∧
      ((∀ a ∈ d.dropped oldsz newsz, k.Valid a) →
        ∃ d' m', d.deallocuvm k oldsz newsz m = .ok (newsz, d', m') ∧
          d'.page = d.page ∧ d'.pde = d.pde ∧
          (∀ v, d'.pte v =
            if pages newsz ≤ v ∧ v < pages oldsz ∧ (d.lookup v).isSome then {} else d.pte v) ∧
          m'.free = (d.dropped oldsz newsz).reverse ++ m.free ∧
          ∀ x, x ∉ d.dropped oldsz newsz → m'.data x = m.data x) ∧
      ((∃ a ∈ d.dropped oldsz newsz, ¬ k.Valid a) →
        d.deallocuvm k oldsz newsz m = .error .kfree) := by
  have hrange : pages newsz + (pages oldsz - pages newsz) = pages oldsz :=
    Nat.add_sub_of_le (pages_mono hnew.le)
  apply And.intro (deallocuvm_eq_plain hnew hold)
  apply And.intro
  · intro hvalid
    refine ⟨d.clear (pages newsz) (pages oldsz - pages newsz), m.putAll (d.dropped oldsz newsz), ?_,
      rfl, rfl, ?_, Mem.putAll_free _, fun x => Mem.putAll_data_of_notMem⟩
    · rw [deallocuvm_spec hnew hold, if_pos hvalid]
    · intro v
      rw [clear, hrange]
  · rintro ⟨a, ha, hvalid⟩
    rw [deallocuvm_spec hnew hold, if_neg]
    intro hall
    exact hvalid (hall a ha)

end Pgdir

/-- A kernel of the usual size. -/
def Kernel.sample : Kernel where
  data := 0x80108000
  kend := 0x801154a8
  data_aligned := rfl
  link_lt := by decide
  data_le := by decide
  kend_lt := by decide

/-- A directory that has its second table only, with one entry. -/
def Pgdir.gap : Pgdir where
  page := 0x1000
  pde := fun i => if i = 1 then some 0x1001 else none
  pte := fun v => if v = 1024 then ⟨0x1002, PTE_P ||| PTE_W ||| PTE_U⟩ else {}

theorem deallocuvm_skips_gap :
    ∃ d' m', Pgdir.gap.deallocuvm Kernel.sample 0x401000 0 { free := [] } = .ok (0, d', m') ∧
      d'.pte 1024 = {} ∧ m'.free = [0x1002] := by
  have hdropped : Pgdir.gap.dropped 0x401000 0 = [0x1002] := by decide +kernel
  obtain ⟨d', m', hret, -, -, hpte, hfree, -⟩ :=
    (Pgdir.deallocuvm_skips_tables Kernel.sample Pgdir.gap { free := [] } 0x401000 0 (by decide)
      (by decide)).2.1 (by rw [hdropped]; decide)
  refine ⟨d', m', hret, ?_, ?_⟩
  · rw [hpte, if_pos (by decide)]
  · rw [hfree, hdropped]
    rfl

end Xv6.Mmu
