/-
# Mapping pages

`mappages` of pages that are not mapped. It takes free pages for the tables that are missing
and for nothing else, and fails if there are not enough of them; that it finds a page mapped
already cannot be.
-/

import Xv6.Mmu.Owned

namespace Xv6.Mmu

open Function Xv6.Lib Xv6.Files
open Xv6.Vm (PGSIZE NPDENTRIES NPTENTRIES KERNBASE pages)

variable {k : Kernel} {d d' d'' : Pgdir} {m m' m'' : Mem} {u v n i : ℕ} {a pa : Page} {x : Pte}
  {perm : Flags}

/-- Whether a directory has a table. -/
def Pgdir.has (d : Pgdir) (i : ℕ) : Bool := (d.pde i).isSome

/-- One more page is mapped, in a table that was there or in a new one. -/
structure Mapped (v : ℕ) (x : Pte) (d : Pgdir) (m : Mem) (d' : Pgdir) (m' : Mem) : Prop where
  page : d'.page = d.page
  pde : ∀ i a, d.pde i = some a → d'.pde i = some a
  has : d'.has = update d.has (v / NPTENTRIES) true
  lookup_self : d'.lookup v = some x
  lookup_of_ne : ∀ u, u ≠ v → d'.lookup u = d.lookup u
  data : m'.data = m.data
  loaded : m'.loaded = m.loaded
  free : ∀ a ∈ m'.free, a ∈ m.free
  length : m.free.length = m'.free.length + if d.has (v / NPTENTRIES) then 0 else 1
  perm_user : v < USERPAGES → (d'.owned ++ m'.free).Perm (x.addr :: (d.owned ++ m.free))
  perm_kernel : USERPAGES ≤ v → (d'.owned ++ m'.free).Perm (d.owned ++ m.free)

theorem Mapped.of_table {y : Pte} (hv : v < NPAGES) (hentry : d.entry v = some y)
    (hnone : d.lookup v = none) (hx : x.Has PTE_P) :
    Mapped v x d m (d.setPte (v * PGSIZE) x) m := by
  have hhas : d.has (v / NPTENTRIES) = true := by
    obtain ⟨a, ha, -⟩ := Option.map_eq_some_iff.mp hentry
    rw [Pgdir.has, ha, Option.isSome_some]
  constructor
  case page => rfl
  case pde => exact fun i a h => h
  case has =>
    rw [← hhas, update_eq_self]
    rfl
  case lookup_self => exact Pgdir.lookup_setPte_self hv hentry hx
  case lookup_of_ne => exact fun u hu => Pgdir.lookup_setPte_of_ne hv hu
  case data => rfl
  case loaded => rfl
  case free => exact fun a ha => ha
  case length => rw [if_pos hhas, Nat.add_zero]
  case perm_user =>
    intro huser
    exact (Pgdir.owned_setPte_user huser hentry hnone hx).append_right _
  case perm_kernel =>
    intro hkernel
    rw [Pgdir.owned_setPte_kernel hkernel hv]

theorem Mapped.of_attach {rest : List Page} (hv : v < NPAGES)
    (hnone : d.pde (v / NPTENTRIES) = none) (hfree : m.free = a :: rest) (hx : x.Has PTE_P) :
    Mapped v x d m ((d.attach (v / NPTENTRIES) a).setPte (v * PGSIZE) x)
      { m with free := rest } := by
  have hentry : (d.attach (v / NPTENTRIES) a).entry v = some {} := Pgdir.entry_attach_self rfl
  have hempty : (d.attach (v / NPTENTRIES) a).lookup v = none :=
    Pgdir.lookup_of_absent hentry Pgdir.not_has_default
  have hlookup : ∀ u, (d.attach (v / NPTENTRIES) a).lookup u = d.lookup u :=
    Pgdir.lookup_attach hnone
  have hi : v / NPTENTRIES < NPDENTRIES := Nat.div_lt_of_lt_mul hv
  have hattach : ((d.attach (v / NPTENTRIES) a).owned ++ rest).Perm (d.owned ++ m.free) := by
    rw [hfree]
    exact ((Pgdir.owned_attach hi hnone).append_right _).trans List.perm_middle.symm
  have htable := Mapped.of_table (m := { m with free := rest }) hv hentry hempty hx
  constructor
  case page => rfl
  case pde =>
    intro i b hb
    have hne : i ≠ v / NPTENTRIES := by
      intro heq
      rw [heq, hnone] at hb
      cases hb
    exact (update_of_ne hne _ _).trans hb
  case has =>
    funext i
    show ((update d.pde (v / NPTENTRIES) (some a)) i).isSome = _
    by_cases h : i = v / NPTENTRIES
    · rw [h, update_self, update_self, Option.isSome_some]
    · rw [update_of_ne h, update_of_ne h, Pgdir.has]
  case lookup_self => exact htable.lookup_self
  case lookup_of_ne => exact fun u hu => (htable.lookup_of_ne u hu).trans (hlookup u)
  case data => rfl
  case loaded => rfl
  case free =>
    intro b hb
    rw [hfree]
    exact List.mem_cons_of_mem _ hb
  case length =>
    have hno : d.has (v / NPTENTRIES) = false := by rw [Pgdir.has, hnone, Option.isSome_none]
    rw [hno, hfree, if_neg Bool.false_ne_true, List.length_cons]
  case perm_user =>
    intro huser
    exact (htable.perm_user huser).trans (hattach.cons _)
  case perm_kernel => exact fun hkernel => (htable.perm_kernel hkernel).trans hattach

namespace Pgdir

/-- A turn of the loop of `mappages` at a page that is not mapped: there is no page for a
table, or the page is mapped and the loop goes on. -/
theorem mapLoop_succ (pa : Page) (perm : Flags) (hv : v < NPAGES) (hnone : d.lookup v = none) :
    (d.has (v / NPTENTRIES) = false ∧ m.free = [] ∧
        mapLoop perm (n + 1) (v * PGSIZE) pa d m = .ok (false, d, m)) ∨
      ∃ d' m', Mapped v ⟨pa, perm ||| PTE_P⟩ d m d' m' ∧
        mapLoop perm (n + 1) (v * PGSIZE) pa d m =
          mapLoop perm n ((v * PGSIZE + PGSIZE) % 2 ^ 32) (pa + 1) d' m' := by
  rw [mapLoop, walkAlloc_mul hv]
  cases hpde : d.pde (v / NPTENTRIES) with
  | some b =>
    have hentry : d.entry v = some (d.pte v) := by rw [entry, hpde, Option.map_some]
    grind [lookup_of_present, Mapped.of_table, has_or, pageOf_mul]
  | none =>
    dsimp only [Option.isSome_none]
    rw [if_neg Bool.false_ne_true, Mem.kalloc]
    cases hfree : m.free with
    | nil =>
      left
      refine ⟨?_, rfl, rfl⟩
      rw [has, hpde, Option.isSome_none]
    | cons a rest =>
      right
      refine ⟨_, _, Mapped.of_attach hv hpde hfree (has_or perm), ?_⟩
      dsimp only [Option.map_some]
      rw [pageOf_mul hv, if_neg]
      rw [attach]
      dsimp only
      rw [if_pos rfl]
      exact not_has_default

/-- `mappages` of whole pages. -/
theorem mappages_pages (pa : Page) (perm : Flags) (hn : 0 < n) (hv : v + n ≤ NPAGES) :
    d.mappages (v * PGSIZE) (n * PGSIZE) pa perm m = mapLoop perm n (v * PGSIZE) pa d m := by
  change v + n ≤ 1048576 at hv
  have hdown : pgRoundDown (v * PGSIZE) = v * PGSIZE := by
    show v * 4096 / 4096 * 4096 = v * 4096
    omega
  have hlast : pgRoundDown ((v * PGSIZE + n * PGSIZE + (2 ^ 32 - 1)) % 2 ^ 32) =
      (v + n - 1) * PGSIZE := by
    show (v * 4096 + n * 4096 + (2 ^ 32 - 1)) % 2 ^ 32 / 4096 * 4096 = (v + n - 1) * 4096
    omega
  have hturns : ((v + n - 1) * PGSIZE + 2 ^ 32 - v * PGSIZE) % 2 ^ 32 / PGSIZE + 1 = n := by
    show ((v + n - 1) * 4096 + 2 ^ 32 - v * 4096) % 2 ^ 32 / 4096 + 1 = n
    omega
  rw [mappages, hdown, hlast, hturns]

/-- `mappages` of a page of the user that is not mapped. -/
theorem mappages_cases (pa : Page) (perm : Flags) (hv : v < USERPAGES)
    (hnone : d.lookup v = none) :
    (d.has (v / NPTENTRIES) = false ∧ m.free = [] ∧
        d.mappages (v * PGSIZE) PGSIZE pa perm m = .ok (false, d, m)) ∨
      ∃ d' m', Mapped v ⟨pa, perm ||| PTE_P⟩ d m d' m' ∧
        d.mappages (v * PGSIZE) PGSIZE pa perm m = .ok (true, d', m') := by
  have hlt : v < NPAGES := hv.trans userpages_lt_npages
  have hone := mappages_pages (d := d) (m := m) pa perm Nat.one_pos hlt
  rw [Nat.one_mul] at hone
  rw [hone]
  exact mapLoop_succ (n := 0) pa perm hlt hnone

end Pgdir

/-- The tables that are there when `n` pages from `v` on have been mapped. -/
def withTables (has : ℕ → Bool) : ℕ → ℕ → ℕ → Bool
  | 0, _ => has
  | n + 1, v => withTables (update has (v / NPTENTRIES) true) n (v + 1)

/-- The number of tables that are missing to map `n` pages from `v` on. -/
def newTables (has : ℕ → Bool) : ℕ → ℕ → ℕ
  | 0, _ => 0
  | n + 1, v =>
    (if has (v / NPTENTRIES) then 0 else 1) +
      newTables (update has (v / NPTENTRIES) true) n (v + 1)

end Xv6.Mmu
