/-
# New directories

`setupkvm` makes a directory that maps the kernel and no page of the user. It does so if there
are free pages for the directory and for the tables of the kernel, and otherwise it puts back
what it has taken. The ranges of `kmap` do not overlap, so it never finds a page mapped.
-/

import Xv6.Mmu.Map

namespace Xv6.Mmu

open Function Xv6.Lib Xv6.Files
open Xv6.Vm (PGSIZE NPDENTRIES NPTENTRIES KERNBASE pages)

variable {k : Kernel} {d d' : Pgdir} {m m' m₀ : Mem} {u v n n' i : ℕ} {a pa : Page} {x : Pte}
  {perm : Flags} {inside inside' : ℕ → Prop} {has' has'' : ℕ → Bool} {r : Bool × Pgdir × Mem}

/-- What mapping pages of the kernel has done: it takes `need` pages for tables, if there are
so many. -/
structure KernelMapped (inside : ℕ → Prop) (need : ℕ) (has' : ℕ → Bool) (d : Pgdir) (m : Mem)
    (r : Bool × Pgdir × Mem) : Prop where
  ok : r.1 = true ↔ need ≤ m.free.length
  page : r.2.1.page = d.page
  old : ∀ u, ¬ inside u → r.2.1.lookup u = d.lookup u
  flags : ∀ u x, r.2.1.lookup u = some x → d.lookup u = some x ∨ ¬ x.Has PTE_U
  data : r.2.2.data = m.data
  loaded : r.2.2.loaded = m.loaded
  free : ∀ a ∈ r.2.2.free, a ∈ m.free
  perm : (r.2.1.owned ++ r.2.2.free).Perm (d.owned ++ m.free)
  has : r.1 = true → r.2.1.has = has'
  length : r.1 = true → m.free.length = r.2.2.free.length + need

namespace KernelMapped

/-- Two mappings after each other. -/
theorem andThen (h : KernelMapped inside n has' d m (true, d', m'))
    (h' : KernelMapped inside' n' has'' d' m' r) :
    KernelMapped (fun u => inside u ∨ inside' u) (n + n') has'' d m r := by
  have hlength : m.free.length = m'.free.length + n := h.length rfl
  constructor
  case ok =>
    rw [h'.ok]
    omega
  case page => exact h'.page.trans h.page
  case old =>
    intro u hu
    rw [not_or] at hu
    rw [h'.old u hu.2]
    exact h.old u hu.1
  case flags =>
    intro u x hx
    obtain hold | hflags := h'.flags u x hx
    · exact h.flags u x hold
    · exact .inr hflags
  case data => exact h'.data.trans h.data
  case loaded => exact h'.loaded.trans h.loaded
  case free => exact fun a ha => h.free a (h'.free a ha)
  case perm => exact h'.perm.trans h.perm
  case has => exact h'.has
  case length =>
    intro hok
    have hlength' := h'.length hok
    omega

/-- The first of two mappings fails. -/
theorem stop (h : KernelMapped inside n has' d m (false, d', m')) :
    KernelMapped (fun u => inside u ∨ inside' u) (n + n') has'' d m (false, d', m') := by
  have hno : ¬ n ≤ m.free.length := fun hle => Bool.false_ne_true (h.ok.mpr hle)
  constructor
  case ok => exact iff_of_false Bool.false_ne_true (by omega)
  case page => exact h.page
  case old => exact fun u hu => h.old u fun hin => hu (.inl hin)
  case flags => exact h.flags
  case data => exact h.data
  case loaded => exact h.loaded
  case free => exact h.free
  case perm => exact h.perm
  case has => exact fun htrue => absurd htrue Bool.false_ne_true
  case length => exact fun htrue => absurd htrue Bool.false_ne_true

/-- One page. -/
theorem of_mapped (h : Mapped v x d m d' m') (hv : USERPAGES ≤ v) (hx : ¬ x.Has PTE_U) :
    KernelMapped (· = v) (if d.has (v / NPTENTRIES) then 0 else 1)
      (update d.has (v / NPTENTRIES) true) d m (true, d', m') := by
  have hlength := h.length
  constructor
  case ok => exact iff_of_true rfl (by omega)
  case page => exact h.page
  case old => exact h.lookup_of_ne
  case flags =>
    intro u y hy
    dsimp only at hy
    by_cases hu : u = v
    · rw [hu, h.lookup_self, Option.some_inj] at hy
      exact .inr (hy ▸ hx)
    · rw [h.lookup_of_ne u hu] at hy
      exact .inl hy
  case data => exact h.data
  case loaded => exact h.loaded
  case free => exact h.free
  case perm => exact h.perm_kernel hv
  case has => exact fun _ => h.has
  case length => exact fun _ => hlength

/-- Nothing is left to map. -/
theorem refl (d : Pgdir) (m : Mem) : KernelMapped (fun _ => False) 0 d.has d m (true, d, m) where
  ok := iff_of_true rfl (Nat.zero_le _)
  page := rfl
  old := fun _ _ => rfl
  flags := fun _ _ hx => .inl hx
  data := rfl
  loaded := rfl
  free := fun _ h => h
  perm := .refl _
  has := fun _ => rfl
  length := fun _ => rfl

/-- There is no page for a table. -/
theorem of_empty (inside : ℕ → Prop) (has' : ℕ → Bool) (hhas : d.has i = false)
    (hfree : m.free = []) :
    KernelMapped inside (if d.has i then 0 else 1) has' d m (false, d, m) where
  ok := by
    rw [hhas, hfree]
    exact iff_of_false Bool.false_ne_true (by decide)
  page := rfl
  old := fun _ _ => rfl
  flags := fun _ _ hx => .inl hx
  data := rfl
  loaded := rfl
  free := fun _ h => h
  perm := .refl _
  has := fun htrue => absurd htrue Bool.false_ne_true
  length := fun htrue => absurd htrue Bool.false_ne_true

theorem congr (h : KernelMapped inside n has' d m r) (heq : ∀ u, inside u ↔ inside' u) :
    KernelMapped inside' n has' d m r := by
  have hfun : inside = inside' := funext fun u => propext (heq u)
  rw [← hfun]
  exact h

end KernelMapped

namespace Pgdir

/-- The address after the last page is never used. -/
theorem mapLoop_next (hv : v + 1 + n ≤ NPAGES) :
    mapLoop perm n ((v * PGSIZE + PGSIZE) % 2 ^ 32) pa d m =
      mapLoop perm n ((v + 1) * PGSIZE) pa d m := by
  cases n with
  | zero => rw [mapLoop, mapLoop]
  | succ n => rw [next_mul (by omega)]

/-- The loop of `mappages` over pages of the kernel. -/
theorem mapLoop_kernel (pa : Page) (hperm : ∀ pa, ¬ (⟨pa, perm ||| PTE_P⟩ : Pte).Has PTE_U)
    (hv : USERPAGES ≤ v) (hn : v + n ≤ NPAGES)
    (hnone : ∀ u, v ≤ u → u < v + n → d.lookup u = none) :
    ∃ r, mapLoop perm n (v * PGSIZE) pa d m = .ok r ∧
      KernelMapped (fun u => v ≤ u ∧ u < v + n) (newTables d.has n v) (withTables d.has n v) d m
        r := by
  induction n generalizing v pa d m with
  | zero => exact ⟨_, rfl, (KernelMapped.refl d m).congr fun u => iff_of_false id (by omega)⟩
  | succ n ih =>
    have hrange : ∀ u, u = v ∨ (v + 1 ≤ u ∧ u < v + 1 + n) ↔ v ≤ u ∧ u < v + (n + 1) := by
      intro u
      omega
    obtain ⟨hhas, hfree, hloop⟩ | ⟨d', m', hmapped, hloop⟩ := mapLoop_succ (n := n) (m := m)
      pa perm (show v < NPAGES by omega) (hnone v (Nat.le_refl v) (by omega))
    · refine ⟨_, hloop, ?_⟩
      exact (KernelMapped.of_empty (· = v) d.has hhas hfree).stop.congr hrange
    · have hone := KernelMapped.of_mapped hmapped hv (hperm pa)
      have hrest : ∀ u, v + 1 ≤ u → u < v + 1 + n → d'.lookup u = none := by
        grind [hmapped.lookup_of_ne]
      obtain ⟨r, hr, hmap⟩ := ih (m := m') (pa + 1) (by omega) (by omega) hrest
      rw [hloop, mapLoop_next (by omega)]
      rw [hmapped.has] at hmap
      exact ⟨r, hr, (hone.andThen hmap).congr hrange⟩

end Pgdir

namespace Kmap

/-- The first page of a mapping. -/
def start (e : Kmap) : ℕ := e.virt / PGSIZE

/-- The number of pages of a mapping. -/
def count (e : Kmap) : ℕ := e.size / PGSIZE

def Inside (e : Kmap) (u : ℕ) : Prop := e.start ≤ u ∧ u < e.start + e.count

/-- A mapping of whole pages of the kernel, not for the user. -/
structure Ok (e : Kmap) : Prop where
  virt : e.virt = e.start * PGSIZE
  size : e.size = e.count * PGSIZE
  count_pos : 0 < e.count
  user_le : USERPAGES ≤ e.start
  le_npages : e.start + e.count ≤ NPAGES
  flags : ∀ pa, ¬ (⟨pa, e.perm ||| PTE_P⟩ : Pte).Has PTE_U

end Kmap

/-- The tables that are there when the kernel is mapped. -/
def kernelTables (l : List Kmap) (has : ℕ → Bool) : ℕ → Bool :=
  l.foldl (fun has e => withTables has e.count e.start) has

/-- The number of tables that are missing to map the kernel. -/
def kernelNeed : List Kmap → (ℕ → Bool) → ℕ
  | [], _ => 0
  | e :: rest, has =>
    newTables has e.count e.start + kernelNeed rest (withTables has e.count e.start)

/-- The loop of `setupkvm` over mappings that do not overlap. -/
theorem mapKernel_spec {l : List Kmap} (hok : ∀ e ∈ l, e.Ok)
    (hapart : l.Pairwise fun e e' => ∀ u, e'.Inside u → ¬ e.Inside u)
    (hnone : ∀ e ∈ l, ∀ u, e.Inside u → d.lookup u = none) :
    ∃ r, mapKernel l d m = .ok r ∧
      KernelMapped (fun u => ∃ e ∈ l, e.Inside u) (kernelNeed l d.has) (kernelTables l d.has) d m
        r := by
  induction l generalizing d m with
  | nil => exact ⟨_, rfl, (KernelMapped.refl d m).congr fun u => by simp⟩
  | cons e rest ih =>
    have he := hok e List.mem_cons_self
    have hmappages : d.mappages e.virt e.size (e.phys_start / PGSIZE) e.perm m =
        Pgdir.mapLoop e.perm e.count (e.start * PGSIZE) (e.phys_start / PGSIZE) d m := by
      rw [he.virt, he.size]
      exact Pgdir.mappages_pages _ _ he.count_pos he.le_npages
    have hinside : ∀ u, e.Inside u ∨ (∃ e' ∈ rest, e'.Inside u) ↔
        ∃ e' ∈ e :: rest, e'.Inside u := by
      intro u
      rw [List.exists_mem_cons_iff]
    obtain ⟨⟨ok, d', m'⟩, hr, hmap⟩ := Pgdir.mapLoop_kernel (d := d) (m := m)
      (e.phys_start / PGSIZE) he.flags he.user_le he.le_npages fun u hle hlt =>
        hnone e List.mem_cons_self u ⟨hle, hlt⟩
    rw [mapKernel, kernelNeed, kernelTables, List.foldl_cons, hmappages, hr, ok_bind]
    dsimp only
    cases ok with
    | false =>
      rw [if_neg Bool.false_ne_true]
      exact ⟨_, rfl, hmap.stop.congr hinside⟩
    | true =>
      rw [if_pos rfl]
      rw [List.pairwise_cons] at hapart
      have hrest : ∀ e' ∈ rest, ∀ u, e'.Inside u → d'.lookup u = none := by
        intro e' he' u hu
        rw [hmap.old u (hapart.1 e' he' u hu)]
        exact hnone e' (List.mem_cons_of_mem _ he') u hu
      have hhas : d'.has = withTables d.has e.count e.start := hmap.has rfl
      obtain ⟨r, hr', hmap'⟩ := ih (d := d') (m := m')
        (fun e' he' => hok e' (List.mem_cons_of_mem _ he')) hapart.2 hrest
      rw [hhas] at hmap'
      exact ⟨r, hr', (hmap.andThen hmap').congr hinside⟩

theorem withTables_iff {has : ℕ → Bool} : withTables has n v i = true ↔
    has i = true ∨ ∃ u, v ≤ u ∧ u < v + n ∧ u / NPTENTRIES = i := by
  induction n generalizing has v with
  | zero =>
    rw [withTables, or_iff_left]
    rintro ⟨u, hle, hlt, _⟩
    omega
  | succ n ih =>
    rw [withTables, ih]
    by_cases hi : i = v / NPTENTRIES
    · rw [hi, update_self]
      exact iff_of_true (.inl rfl) (.inr ⟨v, Nat.le_refl v, by omega, rfl⟩)
    · rw [update_of_ne hi]
      apply or_congr Iff.rfl
      constructor
      · rintro ⟨u, hle, hlt, hu⟩
        exact ⟨u, by omega, by omega, hu⟩
      · rintro ⟨u, hle, hlt, hu⟩
        have hne : u ≠ v := by
          intro heq
          rw [heq] at hu
          exact hi hu.symm
        exact ⟨u, by omega, by omega, hu⟩

/-- Of the tables of a range, at most those that are not there are missing. -/
theorem newTables_le (has : ℕ → Bool) (n v : ℕ) : newTables has (n + 1) v + v / NPTENTRIES +
    (if has (v / NPTENTRIES) then 1 else 0) ≤ (v + n) / NPTENTRIES + 1 := by
  induction n generalizing has v with
  | zero =>
    rw [newTables, newTables, Nat.add_zero v]
    split <;> omega
  | succ n ih =>
    have hstep := ih (update has (v / NPTENTRIES) true) (v + 1)
    have hsum : v + (n + 1) = v + 1 + n := by omega
    rw [newTables, hsum]
    have hsize : NPTENTRIES = 1024 := rfl
    grind

/-! ## The table kmap -/

/-- The first page of `data`. -/
def Kernel.dataPage (k : Kernel) : ℕ := k.data / PGSIZE

theorem Kernel.data_eq (k : Kernel) : k.data = k.dataPage * PGSIZE :=
  (Nat.div_mul_cancel (Nat.dvd_of_mod_eq_zero k.data_aligned)).symm

theorem Kernel.dataPage_bounds (k : Kernel) : 0x80100 < k.dataPage ∧ k.dataPage < 0x8E000 := by
  have hdata := k.data_eq
  have hlink := k.link_lt
  have hle := k.data_le
  have hend := k.kend_lt
  change 0x80100000 < k.data at hlink
  change k.kend < 0x8E000000 at hend
  change k.data = k.dataPage * 4096 at hdata
  omega

/-- A mapping of `n` pages from the page `v` on. -/
structure Kmap.Covers (e : Kmap) (v n : ℕ) : Prop where
  start_eq : e.start = v
  count_eq : e.count = n
  ok : e.Ok

theorem Kmap.covers {e : Kmap} (hvirt : e.virt = v * PGSIZE) (hsize : e.size = n * PGSIZE)
    (hn : 0 < n) (hv : USERPAGES ≤ v) (hle : v + n ≤ NPAGES)
    (hflags : e.perm = PTE_W ∨ e.perm = 0) : e.Covers v n := by
  have hstart : e.start = v := by
    rw [start, hvirt]
    exact Nat.mul_div_cancel v (by decide)
  have hcount : e.count = n := by
    rw [count, hsize]
    exact Nat.mul_div_cancel n (by decide)
  refine ⟨hstart, hcount, ?_⟩
  constructor
  case virt => rw [hstart, hvirt]
  case size => rw [hcount, hsize]
  case count_pos => rwa [hcount]
  case user_le => rwa [hstart]
  case le_npages => rwa [hstart, hcount]
  case flags =>
    intro pa
    show ¬ (e.perm ||| PTE_P) &&& PTE_U ≠ 0
    obtain h | h := hflags
    · rw [h]
      decide
    · rw [h]
      decide

/-- The pages of `kmap`: up to where `data` is, they are those from `KERNBASE` to
`KERNBASE + PHYSTOP`, and those of the devices. -/
theorem kmap_covers (k : Kernel) : ∃ e₁ e₂ e₃ e₄, kmap k = [e₁, e₂, e₃, e₄] ∧
    e₁.Covers 0x80000 0x100 ∧ e₂.Covers 0x80100 (k.dataPage - 0x80100) ∧
    e₃.Covers k.dataPage (0x8E000 - k.dataPage) ∧ e₄.Covers 0xFE000 0x2000 := by
  have hdata := k.data_eq
  have hbounds := k.dataPage_bounds
  have huser : USERPAGES = 0x80000 := rfl
  have hpages : NPAGES = 0x100000 := rfl
  refine ⟨_, _, _, _, rfl, ?_, ?_, ?_, ?_⟩
  · exact Kmap.covers rfl (by decide) (by decide) (by decide) (by decide) (.inl rfl)
  · refine Kmap.covers rfl ?_ (by omega) (by omega) (by omega) (.inr rfl)
    change k.data = k.dataPage * 4096 at hdata
    show (k.data - 0x80000000 + 2 ^ 32 - 0x100000) % 2 ^ 32 = (k.dataPage - 0x80100) * 4096
    omega
  · refine Kmap.covers hdata ?_ (by omega) (by omega) (by omega) (.inl rfl)
    change k.data = k.dataPage * 4096 at hdata
    show (0xE000000 + 2 ^ 32 - (k.data - 0x80000000)) % 2 ^ 32 = (0x8E000 - k.dataPage) * 4096
    omega
  · exact Kmap.covers rfl (by decide) (by decide) (by decide) (by decide) (.inl rfl)

theorem Kmap.Covers.inside_iff {e : Kmap} (h : e.Covers v n) : e.Inside u ↔ v ≤ u ∧ u < v + n := by
  rw [Inside, h.start_eq, h.count_eq]

theorem kmap_ok (k : Kernel) : (∀ e ∈ kmap k, e.Ok) ∧
    (kmap k).Pairwise fun e e' => ∀ u, e'.Inside u → ¬ e.Inside u := by
  obtain ⟨e₁, e₂, e₃, e₄, hkmap, h₁, h₂, h₃, h₄⟩ := kmap_covers k
  have hbounds := k.dataPage_bounds
  rw [hkmap]
  constructor
  · grind [h₁.ok, h₂.ok, h₃.ok, h₄.ok]
  · simp only [List.pairwise_cons, List.mem_cons, List.not_mem_nil, or_false, forall_eq_or_imp,
      forall_eq, h₁.inside_iff, h₂.inside_iff, h₃.inside_iff, h₄.inside_iff, List.Pairwise.nil,
      and_true, IsEmpty.forall_iff, implies_true]
    refine ⟨⟨?_, ?_, ?_⟩, ⟨?_, ?_⟩, ?_⟩ <;> (intro u; omega)

/-- The tables that every directory has. -/
theorem kernelTables_kmap (k : Kernel) : kernelTables (kmap k) (fun _ => false) i = true ↔
    (512 ≤ i ∧ i < 568) ∨ (1016 ≤ i ∧ i < 1024) := by
  obtain ⟨e₁, e₂, e₃, e₄, hkmap, h₁, h₂, h₃, h₄⟩ := kmap_covers k
  have hbounds := k.dataPage_bounds
  have hsize : NPTENTRIES = 1024 := rfl
  rw [hkmap, kernelTables, List.foldl_cons, List.foldl_cons, List.foldl_cons, List.foldl_cons,
    List.foldl_nil, withTables_iff, withTables_iff, withTables_iff, withTables_iff, h₁.start_eq,
    h₁.count_eq, h₂.start_eq, h₂.count_eq, h₃.start_eq, h₃.count_eq, h₄.start_eq, h₄.count_eq,
    hsize]
  constructor
  · intro h
    obtain (((h | ⟨u, h⟩) | ⟨u, h⟩) | ⟨u, h⟩) | ⟨u, h⟩ := h
    · cases h
    all_goals omega
  · intro h
    obtain ⟨hle, hlt⟩ | h := h
    · -- the first page of the table is in one of the first three mappings
      by_cases hlow : i * 1024 < 0x80100
      · exact .inl (.inl (.inl (.inr ⟨i * 1024, by omega, by omega, by omega⟩)))
      · by_cases hmid : i * 1024 < k.dataPage
        · exact .inl (.inl (.inr ⟨i * 1024, by omega, by omega, by omega⟩))
        · exact .inl (.inr ⟨i * 1024, by omega, by omega, by omega⟩)
    · exact .inr ⟨i * 1024, by omega, by omega, by omega⟩

/-- A bound for the tables of the kernel. -/
theorem kernelNeed_kmap_le (k : Kernel) : kernelNeed (kmap k) (fun _ => false) ≤ 70 := by
  obtain ⟨e₁, e₂, e₃, e₄, hkmap, h₁, h₂, h₃, h₄⟩ := kmap_covers k
  have hbounds := k.dataPage_bounds
  have hsize : NPTENTRIES = 1024 := rfl
  have hle : ∀ (has : ℕ → Bool) v n, 0 < n →
      newTables has n v ≤ (v + n - 1) / 1024 + 1 - v / 1024 := by
    intro has v n hn
    obtain ⟨j, rfl⟩ := Nat.exists_eq_succ_of_ne_zero (Nat.ne_of_gt hn)
    have h := newTables_le has j v
    rw [hsize] at h
    rw [Nat.succ_eq_add_one, ← Nat.add_assoc, Nat.add_sub_cancel]
    omega
  rw [hkmap, kernelNeed, kernelNeed, kernelNeed, kernelNeed, kernelNeed, h₁.start_eq,
    h₁.count_eq, h₂.start_eq, h₂.count_eq, h₃.start_eq, h₃.count_eq, h₄.start_eq, h₄.count_eq]
  generalize withTables (fun _ => false) 0x100 0x80000 = has₁
  generalize withTables has₁ (k.dataPage - 0x80100) 0x80100 = has₂
  generalize withTables has₂ (0x8E000 - k.dataPage) k.dataPage = has₃
  have hle₁ := hle (fun _ => false) 0x80000 0x100 (by decide)
  have hle₂ := hle has₁ 0x80100 (k.dataPage - 0x80100) (by omega)
  have hle₃ := hle has₂ k.dataPage (0x8E000 - k.dataPage) (by omega)
  have hle₄ := hle has₃ 0xFE000 0x2000 (by decide)
  omega

/-- The free pages are those there were, and the others have their contents. -/
structure Mem.Restored (m m' : Mem) : Prop where
  free : m'.free.Perm m.free
  data : ∀ a, a ∉ m.free → m'.data a = m.data a

/-- `freevm` of a directory that has been made of free pages. -/
theorem Pgdir.freevm_restores (hvalid : ∀ a ∈ m₀.free, k.Valid a)
    (hperm : (d.owned ++ m.free).Perm m₀.free)
    (hdata : ∀ a, a ∉ m₀.free → m.data a = m₀.data a) :
    ∃ m', d.freevm k m = .ok m' ∧ m₀.Restored m' ∧ m'.loaded = m.loaded := by
  have howned : ∀ a ∈ d.owned, a ∈ m₀.free := fun a ha =>
    hperm.mem_iff.mp (List.mem_append_left _ ha)
  refine ⟨_, freevm_spec fun a ha => hvalid a (howned a ha), ⟨?_, ?_⟩, Mem.putAll_loaded _⟩
  · rw [Mem.putAll_free]
    exact ((List.reverse_perm _).append_right _).trans hperm
  · intro a ha
    rw [Mem.putAll_data_of_notMem fun h => ha (howned a h), hdata a ha]

/-- A directory that `setupkvm` has made. -/
structure Fresh (k : Kernel) (m : Mem) (d : Pgdir) (m' : Mem) : Prop where
  user : ∀ v < USERPAGES, d.lookup v = none
  kernel : ∀ v x, d.lookup v = some x → ¬ x.Has PTE_U
  has : d.has = kernelTables (kmap k) fun _ => false
  data : m'.data = m.data
  loaded : m'.loaded = m.loaded
  free : ∀ a ∈ m'.free, a ∈ m.free
  perm : (d.owned ++ m'.free).Perm m.free
  length : m.free.length = m'.free.length + (1 + kernelNeed (kmap k) fun _ => false)

/-- `setupkvm` makes a directory if there are pages enough. -/
theorem setupkvm_spec (hvalid : ∀ a ∈ m.free, k.Valid a) :
    ∃ r m', setupkvm k m = .ok (r, m') ∧
      (1 + kernelNeed (kmap k) (fun _ => false) ≤ m.free.length → ∃ d, r = some d ∧
        Fresh k m d m') ∧
      (m.free.length < 1 + kernelNeed (kmap k) (fun _ => false) → r = none ∧
        m.Restored m' ∧ m'.loaded = m.loaded) := by
  rw [setupkvm, Mem.kalloc]
  cases hfree : m.free with
  | nil =>
    refine ⟨none, m, rfl, fun hle => ?_, fun _ => ⟨rfl, ⟨.refl _, fun _ _ => rfl⟩, rfl⟩⟩
    rw [List.length_nil] at hle
    omega
  | cons a rest =>
    dsimp only
    rw [if_neg (by decide)]
    obtain ⟨⟨ok, d, m'⟩, hr, hmap⟩ := mapKernel_spec (d := .empty a)
      (m := { m with free := rest }) (kmap_ok k).1 (kmap_ok k).2 fun e _ u _ =>
        Pgdir.lookup_empty a u
    have hneed : ok = true ↔ 1 + kernelNeed (kmap k) (fun _ => false) ≤ (a :: rest).length := by
      rw [List.length_cons, Nat.add_comm rest.length]
      exact hmap.ok.trans Nat.add_le_add_iff_left.symm
    have hperm : (d.owned ++ m'.free).Perm m.free := by
      have h := hmap.perm
      rw [Pgdir.owned_empty] at h
      rw [hfree]
      exact h
    rw [hr, ok_bind]
    dsimp only
    cases ok with
    | true =>
      rw [if_pos rfl]
      refine ⟨some d, m', rfl, fun _ => ⟨d, rfl, ?_⟩, fun hlt => ?_⟩
      · constructor
        case user =>
          intro v hv
          have hout : ¬ ∃ e ∈ kmap k, e.Inside v := by
            rintro ⟨e, he, hin⟩
            have huser := ((kmap_ok k).1 e he).user_le
            exact Nat.not_lt.mpr (huser.trans hin.1) hv
          exact (hmap.old v hout).trans (Pgdir.lookup_empty a v)
        case kernel =>
          intro v x hx
          exact (hmap.flags v x hx).resolve_left (by rw [Pgdir.lookup_empty]; simp)
        case has => exact hmap.has rfl
        case data => exact hmap.data
        case loaded => exact hmap.loaded
        case free =>
          intro b hb
          rw [hfree]
          exact List.mem_cons_of_mem _ (hmap.free b hb)
        case perm => exact hperm
        case length =>
          have hlength : rest.length = m'.free.length +
              kernelNeed (kmap k) (fun _ => false) := hmap.length rfl
          rw [hfree, List.length_cons]
          omega
      · exact absurd (hneed.mp rfl) (Nat.not_le.mpr hlt)
    | false =>
      rw [if_neg Bool.false_ne_true]
      obtain ⟨m'', hfreevm, hrestored, hloaded⟩ := Pgdir.freevm_restores hvalid hperm
        (fun b _ => congrFun hmap.data b)
      rw [hfreevm, ok_bind]
      refine ⟨none, m'', rfl, fun hle => ?_, fun _ => ⟨rfl, hrestored, ?_⟩⟩
      swap
      · exact hloaded.trans hmap.loaded
      exact absurd (hneed.mpr hle) Bool.false_ne_true

end Xv6.Mmu
