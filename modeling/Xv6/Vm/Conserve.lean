/-
# Page tables keep their pages

What every function of `vm.c` does to the pages: a page that it takes from the free list is
on the free list again when it returns, or in the directory it has filled. `freevm` gives
back the directory, its tables and the pages of the user, all of them.
-/

import Mathlib.Algebra.BigOperators.Fin
import Xv6.Vm.Paging

namespace Xv6.Vm

open Function Xv6.Lib Xv6.Files

/-- The entries of a directory for the lower half of the address space. -/
def USERPDX : ℕ := KERNBASE / PGSIZE / NPTENTRIES

/-- Where a page can be in the tables of a directory. -/
inductive PgPlace
  | dir
  | table (i : Fin NPDENTRIES)
  | user (i : Fin USERPDX) (j : Fin NPTENTRIES)
  deriving DecidableEq

/-- The three kinds of places. -/
def PgPlace.equiv : PgPlace ≃ Unit ⊕ Fin NPDENTRIES ⊕ Fin USERPDX × Fin NPTENTRIES where
  toFun
    | .dir => .inl ()
    | .table i => .inr (.inl i)
    | .user i j => .inr (.inr (i, j))
  invFun
    | .inl () => .dir
    | .inr (.inl i) => .table i
    | .inr (.inr (i, j)) => .user i j
  left_inv := by rintro (_ | _ | _) <;> rfl
  right_inv := by rintro (_ | _ | _) <;> rfl

instance : Fintype PgPlace := .ofEquiv _ PgPlace.equiv.symm

theorem refs_pgPlace (slot : PgPlace → Option Page) (x : Page) :
    refs slot x = slotRef (slot .dir) x + (∑ i, slotRef (slot (.table i)) x +
      ∑ ij : Fin USERPDX × Fin NPTENTRIES, slotRef (slot (.user ij.1 ij.2)) x) := by
  rw [refs, ← PgPlace.equiv.symm.sum_comp, Fintype.sum_sum_type, Fintype.sum_sum_type,
    Fintype.sum_unique]
  rfl

/-- A user's entry in the directory. -/
def userPde (i : Fin USERPDX) : Fin NPDENTRIES := Fin.castLE (by decide) i

namespace Pgdir

/-- The page at a place. -/
def slot (d : Pgdir) : PgPlace → Option Page
  | .dir => some d.page
  | .table i => (d.pde i).map Table.page
  | .user i j => (d.pde (userPde i)).bind fun t => t.pte j

/-- The pages of a directory and those of a free list, counted together. -/
def held (d : Pgdir) (free : Free) (x : Page) : ℤ := refs d.slot x + free.count x

variable {d d' : Pgdir} {free free' : Free} {x a pa : Page} {v n oldsz newsz : ℕ}

theorem count_cons (a : Page) (free : Free) (x : Page) :
    ((a :: free).count x : ℤ) = slotRef (some a) x + free.count x := by
  grind [slotRef_some]

/-- A page put into an empty place. -/
theorem held_of_slot {pl : PgPlace} {o : Option Page}
    (h : d'.slot = update d.slot pl o) :
    d'.held free x = d.held free x - slotRef (d.slot pl) x + slotRef o x := by
  rw [held, held, h, refs_update]
  omega

/-- A virtual address of the user, in pages. -/
def IsUser (v : ℕ) : Prop := v * PGSIZE < KERNBASE

theorem IsUser.pdx_lt (h : IsUser v) : (PDX v).val < USERPDX := by
  have hlt : v * PGSIZE < KERNBASE := h
  have hbase : KERNBASE = USERPDX * NPTENTRIES * PGSIZE := by decide
  have hv : v < USERPDX * NPTENTRIES := by
    rw [hbase] at hlt
    exact Nat.lt_of_mul_lt_mul_right hlt
  have hdiv : v / NPTENTRIES < USERPDX := Nat.div_lt_of_lt_mul (by rwa [Nat.mul_comm])
  exact Nat.lt_of_le_of_lt (Nat.mod_le _ _) hdiv

/-- The place of a user's page. -/
def userPlace (v : ℕ) (h : IsUser v) : PgPlace := .user ⟨PDX v, h.pdx_lt⟩ (PTX v)

theorem slot_userPlace (h : IsUser v) : d.slot (userPlace v h) = (d.entry v).bind id := by
  show (d.pde (PDX v)).bind _ = _
  rw [entry]
  cases d.pde (PDX v) <;> rfl

theorem slot_setPte_user (h : IsUser v) {e : Option Page} (hentry : d.entry v = some e)
    (o : Option Page) : (d.setPte v o).slot = update d.slot (userPlace v h) o := by
  obtain ⟨t, ht, -⟩ := Option.map_eq_some_iff.mp hentry
  rw [setPte, ht]
  funext pl
  cases pl with
  | dir => rfl
  | table i =>
    rw [update_of_ne (by exact nofun), slot, slot]
    grind
  | user i j =>
    rw [slot]
    dsimp only
    by_cases hi : userPde i = PDX v
    · have hval : i.val = (PDX v).val := congrArg Fin.val hi
      have hi' : i = ⟨PDX v, h.pdx_lt⟩ := Fin.ext hval
      rw [hi, update_self, Option.bind_some]
      dsimp only
      by_cases hj : j = PTX v
      · rw [hj, hi', update_self]
        simp [userPlace]
      · simp [userPlace, hj, slot, hi, ht]
    · have hne : PgPlace.user i j ≠ userPlace v h := by
        rintro heq
        cases heq
        exact hi rfl
      rw [update_of_ne hi, update_of_ne hne]
      rfl

/-- The kernel's entries are not counted. -/
theorem slot_setPte_kernel (h : USERPDX ≤ (PDX v).val) (o : Option Page) :
    (d.setPte v o).slot = d.slot := by
  rw [setPte]
  cases ht : d.pde (PDX v) with
  | none => rfl
  | some t =>
    funext pl
    cases pl with
    | dir => rfl
    | table i =>
      rw [slot, slot]
      grind
    | user i j =>
      have hi : userPde i ≠ PDX v := by
        intro heq
        have hval : i.val = (PDX v).val := congrArg Fin.val heq
        have hlt := i.isLt
        omega
      rw [slot, slot]
      dsimp only
      rw [update_of_ne hi]

/-- A new table is empty. -/
theorem slot_newTable (h : d.pde (PDX v) = none) (a : Page) :
    { d with pde := update d.pde (PDX v) (some ⟨a, fun _ => none⟩) }.slot =
      update d.slot (.table (PDX v)) (some a) := by
  funext pl
  cases pl with
  | dir => rfl
  | table i =>
    rw [slot]
    dsimp only
    by_cases hi : i = PDX v
    · rw [hi, update_self, update_self]
      rfl
    · have hne : PgPlace.table i ≠ .table (PDX v) := fun heq => hi (PgPlace.table.inj heq)
      rw [update_of_ne hi, update_of_ne hne]
      rfl
  | user i j =>
    rw [update_of_ne (by exact nofun), slot, slot]
    grind

/-- `walkpgdir` makes a table of a free page, or does nothing. -/
theorem walkpgdir_held (d : Pgdir) (v : ℕ) (free : Free) (x : Page) :
    (d.walkpgdir v free).2.1.held (d.walkpgdir v free).2.2 x = d.held free x ∧
      ((d.walkpgdir v free).1 = true → ∃ e, (d.walkpgdir v free).2.1.entry v = some e) := by
  rw [walkpgdir]
  cases hpde : d.pde (PDX v) with
  | some t =>
    refine ⟨rfl, fun _ => ⟨t.pte (PTX v), ?_⟩⟩
    dsimp only
    rw [entry, hpde]
    rfl
  | none =>
    cases free with
    | nil => exact ⟨rfl, nofun⟩
    | cons a rest =>
      refine ⟨?_, fun _ => ⟨none, ?_⟩⟩
      · dsimp only [kalloc]
        rw [held_of_slot (slot_newTable hpde a), slot, hpde, held, held, count_cons,
          Option.map_none, slotRef_none]
        omega
      · simp [kalloc, entry]

/-- Mapping one page: what is in the directory besides is only a new table. -/
theorem mapLoop_user (h : IsUser v) : Ends (fun _ => True) (mapLoop 1 v pa d free) fun r =>
    ∀ x, r.2.1.held r.2.2 x = d.held free x + if r.1 then slotRef (some pa) x else 0 := by
  rw [mapLoop]
  have hwalk := walkpgdir_held d v free
  generalize d.walkpgdir v free = r at hwalk ⊢
  obtain ⟨ok, d₁, free₁⟩ := r
  dsimp only at hwalk ⊢
  cases ok with
  | false =>
    refine .ok fun x => ?_
    rw [(hwalk x).1]
    exact (add_zero _).symm
  | true =>
    obtain ⟨e, he⟩ := (hwalk 0).2 rfl
    dsimp only
    rw [he]
    cases e with
    | some pa' => exact .error trivial
    | none =>
      refine .ok fun x => ?_
      have hslot := slot_userPlace (d := d₁) h
      grind [slotRef_none, held_of_slot, slot_setPte_user]

/-- Mapping pages of the kernel. -/
theorem mapLoop_kernel (h : ∀ k < n, USERPDX ≤ (PDX (v + k)).val) :
    Ends (fun _ => True) (mapLoop n v pa d free) fun r =>
      ∀ x, r.2.1.held r.2.2 x = d.held free x := by
  induction n generalizing v pa d free with
  | zero => exact .ok fun _ => rfl
  | succ n ih =>
    rw [mapLoop]
    have hwalk := walkpgdir_held d v free
    generalize d.walkpgdir v free = r at hwalk ⊢
    obtain ⟨ok, d₁, free₁⟩ := r
    dsimp only at hwalk ⊢
    have hkernel : USERPDX ≤ (PDX v).val := h 0 (Nat.succ_pos n)
    have hrest : ∀ k < n, USERPDX ≤ (PDX (v + 1 + k)).val := by
      grind
    have hset : ∀ x, (d₁.setPte v (some pa)).held free₁ x = d.held free x := by
      intro x
      rw [← (hwalk x).1, held, held, slot_setPte_kernel hkernel]
    cases ok with
    | false => exact .ok fun x => (hwalk x).1
    | true =>
      dsimp only
      split
      · exact .error trivial
      · apply (ih hrest).mono
        intro r hr x
        rw [hr x, hset x]

/-- `mappages` of one page of the user. -/
theorem mappages_user (h : IsUser v) :
    Ends (fun _ => True) (d.mappages (v * PGSIZE) PGSIZE pa free) fun r =>
      ∀ x, r.2.1.held r.2.2 x = d.held free x + if r.1 then slotRef (some pa) x else 0 := by
  have hlt : v * PGSIZE < KERNBASE := h
  have hsize : PGSIZE = 4096 := rfl
  have hbase : KERNBASE = 524288 * 4096 := rfl
  have hfirst : v * PGSIZE / PGSIZE = v := Nat.mul_div_cancel _ (by decide)
  have hlast : (v * PGSIZE + PGSIZE - 1) % 2 ^ 32 / PGSIZE = v := by
    rw [hsize] at hlt ⊢
    rw [hbase] at hlt
    omega
  rw [mappages, hfirst, hlast, Nat.sub_self]
  exact mapLoop_user h

theorem pdx_kernel (hlo : KERNBASE ≤ v * PGSIZE) (hhi : v * PGSIZE < 2 ^ 32) :
    USERPDX ≤ (PDX v).val := by
  have hsize : PGSIZE = 4096 := rfl
  have hbase : KERNBASE = 2147483648 := rfl
  have huser : USERPDX = 512 := by decide
  rw [hbase, hsize] at hlo
  rw [hsize] at hhi
  rw [huser]
  show 512 ≤ v / 1024 % 1024
  omega

theorem mappages_kernel (k : Kmap) :
    Ends (fun _ => True) (d.mappages k.virt k.size k.phys_start free) fun r =>
      ∀ x, r.2.1.held r.2.2 x = d.held free x := by
  rw [mappages]
  apply mapLoop_kernel
  intro j hj
  have hsize : PGSIZE = 4096 := rfl
  have hbase : KERNBASE = 2147483648 := rfl
  have hkernel := k.in_kernel
  have hpos := k.size_pos
  have hrange := k.in_range
  rw [hbase] at hkernel
  rw [hsize] at hj ⊢
  apply pdx_kernel
  · rw [hbase, hsize]
    omega
  · rw [hsize]
    omega

/-! ## Unmapping -/

/-- No page of the user is mapped from `v` on below `oldsz`. -/
def Unmapped (d : Pgdir) (v oldsz : ℕ) : Prop :=
  ∀ u, v ≤ u → u * PGSIZE < oldsz → ∀ pa, d.entry u ≠ some (some pa)

theorem lt_pages {sz : ℕ} : v * PGSIZE < sz ↔ v < pages sz := by
  have hsize : PGSIZE = 4096 := rfl
  rw [pages, hsize]
  omega

/-- A directory in which some entries have been cleared. -/
def Fewer (d d' : Pgdir) : Prop :=
  d'.page = d.page ∧ ∀ u pa, d'.entry u = some (some pa) → d.entry u = some (some pa)

theorem Fewer.refl (d : Pgdir) : Fewer d d := ⟨rfl, fun _ _ h => h⟩

theorem Fewer.trans {d'' : Pgdir} (h : Fewer d d') (h' : Fewer d' d'') : Fewer d d'' :=
  ⟨h'.1.trans h.1, fun u pa hu => h.2 u pa (h'.2 u pa hu)⟩

theorem entry_setPte_of_ne {u : ℕ} {o : Option Page} (h : PDX u ≠ PDX v ∨ PTX u ≠ PTX v) :
    (d.setPte v o).entry u = d.entry u := by
  rw [setPte]
  cases ht : d.pde (PDX v) with
  | none => rfl
  | some t =>
    rw [entry, entry]
    grind

theorem entry_setPte_self {e o : Option Page} (hentry : d.entry v = some e) {u : ℕ}
    (hd : PDX u = PDX v) (ht : PTX u = PTX v) : (d.setPte v o).entry u = some o := by
  obtain ⟨t, htable, -⟩ := Option.map_eq_some_iff.mp hentry
  simp [setPte, htable, entry, hd, ht]

theorem fewer_setPte_none {e : Option Page} (hentry : d.entry v = some e) :
    Fewer d (d.setPte v none) := by
  constructor
  · rw [setPte]
    split <;> rfl
  · grind [entry_setPte_self, entry_setPte_of_ne]

/-- What the loop of `deallocuvm` has done. -/
structure Dealloced (oldsz fuel v : ℕ) (d : Pgdir) (free : Free) (r : Pgdir × Free) : Prop where
  held_eq : ∀ x, r.1.held r.2 x = d.held free x
  fewer : Fewer d r.1
  unmapped : pages oldsz ≤ v + fuel → Unmapped r.1 v oldsz

theorem deallocLoop_ends (hold : oldsz ≤ KERNBASE) (fuel v : ℕ) (d : Pgdir) (free : Free) :
    Ends (fun _ => True) (deallocLoop oldsz fuel v d free) (Dealloced oldsz fuel v d free) := by
  induction fuel generalizing v d free with
  | zero =>
    refine .ok ⟨fun _ => rfl, .refl d, fun hfuel u hu hlt => ?_⟩
    rw [lt_pages] at hlt
    omega
  | succ fuel ih =>
    rw [deallocLoop]
    apply Ends.ite
    · intro hv
      have huser : IsUser v := Nat.lt_of_lt_of_le hv hold
      cases hentry : d.entry v with
      | none =>
        -- the whole table is missing
        apply (ih ((v / NPTENTRIES + 1) * NPTENTRIES) d free).mono
        intro r hr
        have hn : NPTENTRIES = 1024 := rfl
        refine ⟨hr.held_eq, hr.fewer, fun hfuel u hu hlt pa hpa => ?_⟩
        by_cases hnext : (v / NPTENTRIES + 1) * NPTENTRIES ≤ u
        · refine hr.unmapped ?_ u hnext hlt pa hpa
          rw [hn]
          omega
        · have hpdx : PDX u = PDX v := by
            apply Fin.ext
            show u / NPTENTRIES % NPDENTRIES = v / NPTENTRIES % NPDENTRIES
            rw [hn] at hnext ⊢
            rw [show u / 1024 = v / 1024 by omega]
          have hold := hr.fewer.2 u pa hpa
          rw [entry, hpdx, Option.map_eq_none_iff.mp hentry] at hold
          cases hold
      | some e =>
        cases e with
        | none =>
          apply (ih (v + 1) d free).mono
          intro r hr
          refine ⟨hr.held_eq, hr.fewer, fun hfuel u hu hlt pa hpa => ?_⟩
          by_cases huv : u = v
          · have hold := hr.fewer.2 u pa hpa
            rw [huv, hentry] at hold
            cases hold
          · exact hr.unmapped (by omega) u (by omega) hlt pa hpa
        | some pa =>
          apply Ends.ite
          · exact fun _ => .error trivial
          · intro _
            apply (ih (v + 1) (d.setPte v none) (Vm.kfree pa free)).mono
            intro r hr
            refine ⟨fun x => ?_, (fewer_setPte_none hentry).trans hr.fewer,
              fun hfuel u hu hlt pa' hpa => ?_⟩
            · rw [hr.held_eq x, held_of_slot (slot_setPte_user huser hentry none),
                slot_userPlace, hentry, held, held, Vm.kfree, count_cons, slotRef_none]
              show refs d.slot x + _ - slotRef (some pa) x + 0 = _
              omega
            · by_cases huv : u = v
              · have hold := hr.fewer.2 u pa' hpa
                rw [huv, entry_setPte_self hentry rfl rfl] at hold
                cases hold
              · exact hr.unmapped (by omega) u (by omega) hlt pa' hpa
    · intro hv
      refine .ok ⟨fun _ => rfl, .refl d, fun _ u hu hlt => ?_⟩
      have hle : v * PGSIZE ≤ u * PGSIZE := Nat.mul_le_mul_right _ hu
      omega

/-- `deallocuvm` of pages of the user. -/
theorem deallocuvm_ends (hold : oldsz ≤ KERNBASE) :
    Ends (fun _ => True) (d.deallocuvm oldsz newsz free) fun r =>
      (∀ x, r.2.1.held r.2.2 x = d.held free x) ∧ r.1 ≤ oldsz ∧ r.2.1.page = d.page ∧
        (newsz < oldsz → Unmapped r.2.1 (pages newsz) oldsz) := by
  rw [deallocuvm]
  apply Ends.ite
  · intro hge
    exact .ok ⟨fun _ => rfl, le_refl _, rfl, fun hlt => absurd hlt (Nat.not_lt.mpr hge)⟩
  · intro hlt
    apply (deallocLoop_ends hold _ _ d free).bind
    intro r hr
    exact .pure ⟨hr.held_eq, (Nat.lt_of_not_le hlt).le, hr.fewer.1,
      fun _ => hr.unmapped (Nat.le_add_left _ _)⟩

theorem count_freeTable (d : Pgdir) (i : Fin NPDENTRIES) (free : Free) (x : Page) :
    ((d.freeTable free i).count x : ℤ) = free.count x + slotRef (d.slot (.table i)) x := by
  rw [freeTable, slot]
  cases d.pde i with
  | none => exact (add_zero _).symm
  | some t => exact (count_cons t.page free x).trans (add_comm _ _)

theorem count_freeTables (d : Pgdir) (l : List (Fin NPDENTRIES)) (free : Free) (x : Page) :
    ((l.foldl d.freeTable free).count x : ℤ) =
      free.count x + (l.map fun i => slotRef (d.slot (.table i)) x).sum := by
  induction l generalizing free with
  | nil => exact (add_zero _).symm
  | cons i rest ih =>
    rw [List.foldl_cons, ih, count_freeTable, List.map_cons, List.sum_cons, add_assoc]

/-- A directory without pages of the user. -/
theorem refs_of_unmapped (h : Unmapped d 0 KERNBASE) (x : Page) :
    refs d.slot x = slotRef (some d.page) x + ∑ i, slotRef (d.slot (.table i)) x := by
  have huser : ∀ ij : Fin USERPDX × Fin NPTENTRIES, slotRef (d.slot (.user ij.1 ij.2)) x = 0 := by
    rintro ⟨i, j⟩
    have hi : i.val < 512 := i.isLt
    have hj : j.val < 1024 := j.isLt
    have hpdx : PDX (i * NPTENTRIES + j) = userPde i := by
      apply Fin.ext
      show (i.val * 1024 + j.val) / 1024 % 1024 = i.val
      omega
    have hptx : PTX (i * NPTENTRIES + j) = j := by
      apply Fin.ext
      show (i.val * 1024 + j.val) % 1024 = j.val
      omega
    have hlt : (i * NPTENTRIES + j : ℕ) * PGSIZE < KERNBASE := by
      show (i.val * 1024 + j.val) * 4096 < 2147483648
      omega
    have hentry := h (i * NPTENTRIES + j) (Nat.zero_le _) hlt
    rw [entry, hpdx, hptx] at hentry
    rw [slot]
    cases hpde : d.pde (userPde i) with
    | none => exact slotRef_none x
    | some t =>
      rw [hpde] at hentry
      rw [Option.bind_some]
      cases hpte : t.pte j with
      | none => exact slotRef_none x
      | some pa => exact absurd (congrArg some hpte) (hentry pa)
  rw [refs_pgPlace, Finset.sum_eq_zero fun ij _ => huser ij, add_zero]
  rfl

/-- `freevm` puts all pages of a directory on the free list. -/
theorem freevm_ends : Ends (fun _ => True) (d.freevm free) fun free' =>
    ∀ x, (free'.count x : ℤ) = d.held free x := by
  rw [freevm]
  apply (deallocuvm_ends (le_refl _)).bind
  rintro ⟨sz, d₁, free₁⟩ ⟨hheld, -, hpage, hunmapped⟩
  refine .pure fun x => ?_
  have hempty : Unmapped d₁ 0 KERNBASE := hunmapped (by decide)
  rw [← hheld x, held, refs_of_unmapped hempty, Vm.kfree, count_cons, count_freeTables,
    Fin.sum_univ_def]
  dsimp only
  omega

theorem held_cons (a : Page) : d.held (a :: free) x = d.held free x + slotRef (some a) x := by
  rw [held, held, count_cons]
  omega

theorem allocLoop_ends (hnew : newsz < KERNBASE) (hn : v + n ≤ pages newsz) :
    Ends (fun _ => True) (allocLoop oldsz newsz n v d free) fun r =>
      (∀ x, r.2.1.held r.2.2 x = d.held free x) ∧ r.1 ≤ newsz := by
  induction n generalizing v d free with
  | zero => exact .ok ⟨fun _ => rfl, le_refl _⟩
  | succ n ih =>
    have hlt : v * PGSIZE < newsz := lt_pages.mpr (by omega)
    have huser : IsUser v := Nat.lt_trans hlt hnew
    rw [allocLoop]
    cases free with
    | nil =>
      apply (deallocuvm_ends hnew.le).bind
      intro r hr
      exact .pure ⟨hr.1, Nat.zero_le _⟩
    | cons mem rest =>
      apply (mappages_user huser).bind
      rintro ⟨ok, d₁, free₁⟩ hmap
      cases ok with
      | true =>
        grind [held_cons]
      | false =>
        apply (deallocuvm_ends hnew.le).bind
        rintro ⟨sz, d₂, free₂⟩ hr
        refine .pure ⟨fun x => ?_, Nat.zero_le _⟩
        have hfail := hmap x
        have hback := hr.1 x
        simp [hfail, hback, Vm.kfree, held_cons]

theorem allocuvm_ends (hold : oldsz ≤ KERNBASE) :
    Ends (fun _ => True) (d.allocuvm oldsz newsz free) fun r =>
      (∀ x, r.2.1.held r.2.2 x = d.held free x) ∧ r.1 ≤ KERNBASE := by
  rw [allocuvm]
  apply Ends.ite
  · exact fun _ => .ok ⟨fun _ => rfl, Nat.zero_le _⟩
  · intro hnew
    apply Ends.ite
    · exact fun _ => .ok ⟨fun _ => rfl, hold⟩
    · intro hge
      have hlt : newsz < KERNBASE := Nat.lt_of_not_le hnew
      have hmono : pages oldsz ≤ pages newsz := Nat.div_le_div_right (by omega)
      apply (allocLoop_ends hlt (by omega)).mono
      rintro r ⟨hheld, hsize⟩
      exact ⟨hheld, hsize.trans hlt.le⟩

end Pgdir

/-- The pages of a directory, if there is one, and of a free list. -/
def heldBy : Option Pgdir → Free → Page → ℤ
  | none, free, x => free.count x
  | some d, free, x => d.held free x

variable {kmap : List Kmap} {d pgdir : Pgdir} {free : Free} {x : Page} {v n sz : ℕ}

theorem mapKernel_ends (l : List Kmap) : Ends (fun _ => True) (mapKernel l d free) fun r =>
    ∀ x, r.2.1.held r.2.2 x = d.held free x := by
  induction l generalizing d free with
  | nil => exact .ok fun _ => rfl
  | cons k rest ih =>
    rw [mapKernel]
    apply (Pgdir.mappages_kernel k).bind
    rintro ⟨ok, d₁, free₁⟩ hmap
    cases ok with
    | true =>
      apply ih.mono
      intro r hr x
      rw [hr x]
      exact hmap x
    | false => exact .pure hmap

theorem setupkvm_ends : Ends (fun _ => True) (setupkvm kmap free) fun r =>
    ∀ x, heldBy r.1 r.2 x = free.count x := by
  rw [setupkvm]
  cases free with
  | nil => exact .ok fun _ => rfl
  | cons a rest =>
    have hbare : ∀ x, (⟨a, fun _ => none⟩ : Pgdir).held rest x = (a :: rest).count x := by
      intro x
      have hnone : ∀ pl, pl ≠ PgPlace.dir → (⟨a, fun _ => none⟩ : Pgdir).slot pl = none := by
        rintro (_ | _ | _) hne
        · exact absurd rfl hne
        · rfl
        · rfl
      rw [Pgdir.held, refs, Finset.sum_eq_single PgPlace.dir, Pgdir.count_cons]
      · rfl
      · intro pl _ hne
        rw [hnone pl hne, slotRef_none]
      · exact fun h => absurd (Finset.mem_univ _) h
    apply (mapKernel_ends kmap).bind
    rintro ⟨ok, d₁, free₁⟩ hmap
    cases ok with
    | true => exact .pure fun x => (hmap x).trans (hbare x)
    | false =>
      apply Pgdir.freevm_ends.bind
      intro free₂ hfree
      exact .pure fun x => (hfree x).trans ((hmap x).trans (hbare x))

theorem copyLoop_ends (h : ∀ k < n, Pgdir.IsUser (v + k)) :
    Ends (fun _ => True) (copyLoop pgdir n v d free) fun r =>
      ∀ x, heldBy r.1 r.2 x = d.held free x := by
  induction n generalizing v d free with
  | zero => exact .ok fun _ => rfl
  | succ n ih =>
    have huser : Pgdir.IsUser v := h 0 (Nat.succ_pos n)
    have hrest : ∀ k < n, Pgdir.IsUser (v + 1 + k) := by
      grind
    rw [copyLoop]
    split
    · exact .error trivial
    · exact .error trivial
    · cases free with
      | nil =>
        apply Pgdir.freevm_ends.bind
        intro free₁ hfree
        exact .pure hfree
      | cons mem rest =>
        apply (Pgdir.mappages_user huser).bind
        rintro ⟨ok, d₁, free₁⟩ hmap
        cases ok with
        | true =>
          grind [Pgdir.held_cons]
        | false =>
          apply Pgdir.freevm_ends.bind
          intro free₂ hfree
          refine .pure fun x => ?_
          have hfail := hmap x
          dsimp only at hfail
          rw [if_neg Bool.false_ne_true, add_zero] at hfail
          show (free₂.count x : ℤ) = _
          rw [hfree x, Vm.kfree, Pgdir.held_cons, Pgdir.held_cons, hfail]

/-- `copyuvm` of a process whose size is below the kernel. -/
theorem copyuvm_ends (hsz : sz ≤ KERNBASE) :
    Ends (fun _ => True) (copyuvm kmap pgdir sz free) fun r =>
      ∀ x, heldBy r.1 r.2 x = free.count x := by
  rw [copyuvm]
  apply setupkvm_ends.bind
  rintro ⟨d, free₁⟩ hsetup
  cases d with
  | none => exact .pure hsetup
  | some d =>
    apply (copyLoop_ends fun k hk => ?_).mono
    · intro r hr x
      rw [hr x]
      exact hsetup x
    · have hlt : (0 + k) * PGSIZE < sz := Pgdir.lt_pages.mpr (by omega)
      exact Nat.lt_of_lt_of_le hlt hsz

end Xv6.Vm
