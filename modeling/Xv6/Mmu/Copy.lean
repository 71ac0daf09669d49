/-
# Copying an address space

`copyuvm` gives a child its own copy of the pages of its parent: the same pages, with the
same flags and contents, in physical pages that were free. If there are not enough of
those then all that have been taken are free again.
-/

import Xv6.Mmu.Growproc
import Xv6.Mmu.Setup

namespace Xv6.Mmu

open Function Xv6.Lib Xv6.Files
open Xv6.Vm (PGSIZE NPDENTRIES NPTENTRIES KERNBASE pages)

variable {k : Kernel} {pgdir d d' : Pgdir} {m m' m₀ : Mem} {u v n sz : ℕ} {a mem : Page} {x : Pte}

theorem Pte.Has.flags_or (h : x.Has PTE_P) : x.flags ||| PTE_P = x.flags := by
  have hbit : x.flags.getLsbD 0 = true := by
    by_contra hno
    apply h
    apply BitVec.eq_of_getLsbD_eq
    intro i hi
    rw [BitVec.getLsbD_and]
    cases i with
    | zero =>
      rw [Bool.eq_false_of_not_eq_true hno]
      rfl
    | succ i => simp [PTE_P]
  apply BitVec.eq_of_getLsbD_eq
  intro i hi
  rw [BitVec.getLsbD_or]
  cases i with
  | zero => simp [hbit]
  | succ i => simp [PTE_P]

/-- The first `n` pages have been copied since `m₀`. -/
structure Copied (pgdir : Pgdir) (n : ℕ) (m₀ : Mem) (d : Pgdir) (m : Mem) : Prop where
  new : ∀ u < n, ∃ x a, pgdir.lookup u = some x ∧ a ∈ m₀.free ∧
    d.lookup u = some ⟨a, x.flags⟩ ∧ m.data a = m₀.data x.addr
  rest : ∀ u, n ≤ u → u < USERPAGES → d.lookup u = none
  data : ∀ a, a ∉ m₀.free → m.data a = m₀.data a
  free : ∀ a ∈ m.free, a ∈ m₀.free
  perm : (d.owned ++ m.free).Perm m₀.free

namespace Copied

theorem of_fresh (h : Fresh k m₀ d m) : Copied pgdir 0 m₀ d m where
  new := fun u hu => absurd hu (Nat.not_lt_zero u)
  rest := fun u _ hu => h.user u hu
  data := fun a _ => congrFun h.data a
  free := h.free
  perm := h.perm

/-- One more page is copied to a free page and mapped. -/
theorem succ {rest : List Page} (h : Copied pgdir n m₀ d m) (hsound : Sound k pgdir m₀)
    (hn : n < USERPAGES) (hx : pgdir.lookup n = some x) (hfree : m.free = mem :: rest)
    (hmap : Mapped n ⟨mem, x.flags⟩ d
      (({ m with free := rest } : Mem).setPage mem (m.data x.addr)) d' m') :
    Copied pgdir (n + 1) m₀ d' m' := by
  have hmem : mem ∈ m.free := by
    rw [hfree]
    exact List.mem_cons_self
  have hdata : ∀ a, a ≠ mem → m'.data a = m.data a := by
    intro a ha
    rw [hmap.data]
    exact update_of_ne ha _ _
  have hparent : x.addr ∉ m₀.free := hsound.notMem_free (Pgdir.mem_owned_of_lookup hn hx)
  constructor
  case new =>
    intro u hu
    by_cases heq : u = n
    · refine ⟨x, mem, heq ▸ hx, h.free mem hmem, ?_, ?_⟩
      · rw [heq, hmap.lookup_self]
      · rw [hmap.data, ← h.data _ hparent]
        exact update_self ..
    · obtain ⟨y, a, hy, ha, hlookup, hcopy⟩ := h.new u (by omega)
      have hne : a ≠ mem := by
        intro hsame
        have hown : a ∈ d.owned := Pgdir.mem_owned_of_lookup (by omega) hlookup
        have hnodup := h.perm.nodup_iff.mpr (List.nodup_append.mp hsound.nodup).2.1
        exact (List.nodup_append.mp hnodup).2.2 a hown mem hmem hsame
      refine ⟨y, a, hy, ha, ?_, ?_⟩
      · rw [hmap.lookup_of_ne u heq, hlookup]
      · rw [hdata a hne, hcopy]
  case rest =>
    intro u hle hu
    rw [hmap.lookup_of_ne u (by omega), h.rest u (by omega) hu]
  case data =>
    intro a ha
    have hne : a ≠ mem := fun heq => ha (heq ▸ h.free mem hmem)
    rw [hdata a hne, h.data a ha]
  case free =>
    intro a ha
    apply h.free
    rw [hfree]
    exact List.mem_cons_of_mem _ (hmap.free a ha)
  case perm =>
    apply (hmap.perm_user hn).trans
    apply List.Perm.trans _ h.perm
    rw [hfree]
    exact List.perm_middle.symm

end Copied

/-- The loop of `copyuvm`, by induction on the turns that are left. -/
theorem copyLoop_spec (hsound : Sound k pgdir m₀) (hv : v + n ≤ USERPAGES)
    (hpresent : ∀ u < v + n, (pgdir.lookup u).isSome) (h : Copied pgdir v m₀ d m) :
    ∃ r m', copyLoop k pgdir n (v * PGSIZE) d m = .ok (r, m') ∧
      (n + newTables d.has n v ≤ m.free.length → ∃ d', r = some d' ∧
        Copied pgdir (v + n) m₀ d' m') ∧
      (m.free.length < n + newTables d.has n v → r = none ∧ m₀.Restored m') := by
  have hvalid : ∀ a ∈ m₀.free, k.Valid a := fun a => hsound.valid_of_free
  induction n generalizing v d m with
  | zero =>
    refine ⟨some d, m, rfl, fun _ => ⟨d, rfl, h⟩, fun hlt => ?_⟩
    exact absurd hlt (Nat.not_lt_zero _)
  | succ n ih =>
    obtain ⟨x, hx⟩ := Option.isSome_iff_exists.mp (hpresent v (by omega))
    obtain ⟨hentry, hhas⟩ := Pgdir.entry_of_lookup hx
    have huser : v < USERPAGES := by omega
    rw [copyLoop, Pgdir.walk_mul (huser.trans userpages_lt_npages), hentry, newTables]
    dsimp only
    rw [if_neg (not_not.mpr hhas), Mem.kalloc]
    cases hfree : m.free with
    | nil =>
      obtain ⟨m', hfreevm, hrestored, -⟩ := Pgdir.freevm_restores hvalid h.perm h.data
      simp [hfreevm, hrestored]
    | cons mem rest =>
      have hmem : mem ∈ m₀.free := h.free mem (hfree ▸ List.mem_cons_self)
      dsimp only
      have hcases := Pgdir.mappages_cases mem x.flags
        (m := ({ m with free := rest } : Mem).setPage mem (m.data x.addr)) huser
        (h.rest v (Nat.le_refl v) huser)
      rw [hhas.flags_or] at hcases
      obtain ⟨hno, hrest, hmap⟩ | ⟨d₁, m₁, hmapped, hmap⟩ := hcases
      · change rest = [] at hrest
        have hperm : (d.owned ++ mem :: rest).Perm m₀.free := by
          rw [← hfree]
          exact h.perm
        obtain ⟨m', hfreevm, hrestored, -⟩ := Pgdir.freevm_restores
          (m := (({ m with free := rest } : Mem).setPage mem (m.data x.addr)).put mem) hvalid
          hperm fun a ha => by
            have hne : a ≠ mem := fun heq => ha (heq ▸ hmem)
            rw [← h.data a ha]
            exact (update_of_ne hne _ _).trans (update_of_ne hne _ _)
        rw [hmap, ok_bind]
        dsimp only
        rw [if_neg Bool.false_ne_true, kfree_of_valid (hvalid mem hmem), ok_bind, hfreevm,
          ok_bind]
        refine ⟨none, m', rfl, fun hle => ?_, fun _ => ⟨rfl, hrestored⟩⟩
        rw [hno, if_neg Bool.false_ne_true, hrest, List.length_singleton] at hle
        omega
      · have hlength : rest.length = _ := hmapped.length
        obtain ⟨r, m', hr, henough, hlack⟩ := ih (by omega) (fun u hu => hpresent u (by omega))
          (h.succ hsound huser hx hfree hmapped)
        rw [hmap, ok_bind]
        dsimp only
        rw [if_pos rfl, ← Nat.succ_mul, ← hmapped.has, List.length_cons]
        refine ⟨r, m', hr, fun hle => ?_, fun hlt => hlack (by omega)⟩
        rw [← Nat.add_assoc v, Nat.add_right_comm v]
        exact henough (by omega)

/-- The number of free pages that `copyuvm` takes. -/
def copyNeed (k : Kernel) (sz : ℕ) : ℕ :=
  1 + kernelNeed (kmap k) (fun _ => false) +
    (pages sz + newTables (kernelTables (kmap k) fun _ => false) (pages sz) 0)

/-- What `copyuvm` does. -/
theorem copyuvm_spec (hsound : Sound k pgdir m) (hsz : sz ≤ KERNBASE)
    (hpresent : ∀ v < pages sz, (pgdir.lookup v).isSome) :
    ∃ r m', copyuvm k pgdir sz m = .ok (r, m') ∧
      (copyNeed k sz ≤ m.free.length → ∃ d, r = some d ∧ Copied pgdir (pages sz) m d m') ∧
      (m.free.length < copyNeed k sz → r = none ∧ m.Restored m') := by
  have htop : pages sz ≤ USERPAGES := Pgdir.pages_le hsz
  obtain ⟨r, m₁, hr, henough, hlack⟩ := setupkvm_spec (k := k) (m := m) fun a =>
    hsound.valid_of_free
  rw [copyuvm, hr, ok_bind, copyNeed]
  dsimp only
  by_cases hkernel : 1 + kernelNeed (kmap k) (fun _ => false) ≤ m.free.length
  · obtain ⟨d, rfl, hfresh⟩ := henough hkernel
    have hlength := hfresh.length
    obtain ⟨r, m', hr', henough', hlack'⟩ := copyLoop_spec (v := 0) (n := pages sz) hsound
      (by omega) (fun u hu => hpresent u (by omega)) (Copied.of_fresh hfresh)
    rw [hfresh.has] at henough' hlack'
    rw [Nat.zero_mul] at hr'
    rw [Nat.zero_add] at henough'
    exact ⟨r, m', hr', fun hle => henough' (by omega), fun hlt => hlack' (by omega)⟩
  · obtain ⟨rfl, hrestored, -⟩ := hlack (Nat.lt_of_not_le hkernel)
    exact ⟨none, m₁, rfl, fun hle => absurd hle (by omega), fun _ => ⟨rfl, hrestored⟩⟩

/-- The parent sees what it saw. -/
theorem space_of_data (hsound : Sound k pgdir m) (hdata : ∀ a, a ∉ m.free → m'.data a = m.data a)
    (hv : v < USERPAGES) : pgdir.space m' v = pgdir.space m v := by
  rw [Pgdir.space, Pgdir.space]
  cases hx : pgdir.lookup v with
  | none => rfl
  | some x =>
    have hown : x.addr ∈ pgdir.owned := Pgdir.mem_owned_of_lookup hv hx
    rw [Option.map_some, Option.map_some, hdata _ (hsound.notMem_free hown)]

/-- `copyuvm` copies an address space. With pages enough on the free list the child has the
pages of the parent below its size and no others, with the same flags and contents, each in a
page that was free and is not mapped twice; otherwise there is no child, and the free pages are
those there were. The parent does not change. -/
theorem copyuvm_copies_pages (k : Kernel) (pgdir : Pgdir) (sz : ℕ) (m : Mem)
    (hsound : Sound k pgdir m) (hsz : sz < KERNBASE)
    (hpresent : ∀ v < pages sz, (pgdir.lookup v).isSome) :
    (copyNeed k sz ≤ m.free.length → ∃ d m', copyuvm k pgdir sz m = .ok (some d, m') ∧
      (∀ v < pages sz, d.space m' v = pgdir.space m v) ∧
      (∀ v < USERPAGES, pages sz ≤ v → d.lookup v = none) ∧
      (∀ v < pages sz, ∀ x, d.lookup v = some x → x.addr ∈ m.free ∧ x.addr ∉ pgdir.owned) ∧
      (∀ u < pages sz, ∀ v < pages sz, ∀ x y, d.lookup u = some x → d.lookup v = some y →
        x.addr = y.addr → u = v) ∧
      ∀ v < USERPAGES, pgdir.space m' v = pgdir.space m v) ∧
    (m.free.length < copyNeed k sz → ∃ m', copyuvm k pgdir sz m = .ok (none, m') ∧
      m'.free.Perm m.free ∧ ∀ v < USERPAGES, pgdir.space m' v = pgdir.space m v) := by
  have htop : pages sz ≤ USERPAGES := Pgdir.pages_le hsz.le
  obtain ⟨r, m', hr, henough, hlack⟩ := copyuvm_spec hsound hsz.le hpresent
  constructor
  · intro hle
    obtain ⟨d, rfl, h⟩ := henough hle
    have hnodup : d.owned.Nodup := (List.nodup_append.mp
      (h.perm.nodup_iff.mpr (List.nodup_append.mp hsound.nodup).2.1)).1
    refine ⟨d, m', hr, ?_, ?_, ?_, ?_, fun v => space_of_data hsound h.data⟩
    · intro v hv
      obtain ⟨x, a, hx, -, hlookup, hcopy⟩ := h.new v hv
      rw [Pgdir.space, Pgdir.space, hlookup, hx, Option.map_some, Option.map_some, hcopy]
    · exact fun v hv hle => h.rest v hle hv
    · intro v hv x hx
      obtain ⟨y, a, -, ha, hlookup, -⟩ := h.new v hv
      rw [hlookup, Option.some_inj] at hx
      rw [← hx]
      exact ⟨ha, fun hown => hsound.notMem_free hown ha⟩
    · intro u hu v hv x y hx hy
      exact Pgdir.lookup_inj hnodup (by omega) (by omega) hx hy
  · intro hlt
    obtain ⟨rfl, h⟩ := hlack hlt
    exact ⟨m', hr, h.free, fun v => space_of_data hsound h.data⟩

/-- A hundred free pages. -/
def Mem.hundred : Mem := { free := List.range' 0x1003 100, data := fun _ _ => 1 }

theorem Pgdir.single_owned : Pgdir.single.owned.Perm [0x1002, 0x1000, 0x1001] := by
  have howned := single_mapped.perm_user (by decide)
  rw [owned_empty] at howned
  exact (List.perm_append_right_iff Mem.three.free).mp howned

theorem Pgdir.single_sound_hundred : Sound Kernel.sample .single .hundred := by
  have hperm := single_owned.append_right Mem.hundred.free
  constructor
  · rw [hperm.nodup_iff]
    decide +kernel
  · intro a ha
    rw [hperm.mem_iff] at ha
    revert a
    decide +kernel

/-- A directory with a page of the user and above it one that the user cannot use. -/
def Pgdir.double : Pgdir := Pgdir.single.setPte 4096 ⟨0x1100, PTE_W ||| PTE_P⟩

/-- A hundred free pages; the page of the user and the others differ in their contents. -/
def Mem.striped : Mem := { Mem.hundred with data := fun a _ => if a = 0x1002 then 1 else 2 }

theorem Pgdir.double_mapped :
    Mapped 1 ⟨0x1100, PTE_W ||| PTE_P⟩ .single .striped .double .striped :=
  Mapped.of_table (v := 1) (y := {}) (by decide) rfl rfl (by decide)

theorem Pgdir.double_sound : Sound Kernel.sample .double .striped := by
  have hperm := (double_mapped.perm_user (by decide)).trans
    ((single_owned.append_right Mem.striped.free).cons 0x1100)
  constructor
  · rw [hperm.nodup_iff]
    decide +kernel
  · intro a ha
    rw [hperm.mem_iff] at ha
    revert a
    decide +kernel

/-- Two pages with different flags and contents are copied. -/
theorem copyuvm_copies_double : ∃ d m', copyuvm Kernel.sample .double 8192 .striped =
    .ok (some d, m') ∧ d.space m' 0 = some (userFlags, fun _ => 1) ∧
      d.space m' 1 = some (PTE_W ||| PTE_P, fun _ => 2) := by
  have hpages : pages 8192 = 2 := by decide
  have hneed : copyNeed Kernel.sample 8192 ≤ Mem.striped.free.length := by
    have hkernel := kernelNeed_kmap_le Kernel.sample
    have htwo (has : ℕ → Bool) : newTables has 2 0 ≤ 1 :=
      (Nat.le_add_right _ _).trans ((Nat.le_add_right _ _).trans (newTables_le has 1 0))
    have htables := htwo (kernelTables (kmap Kernel.sample) fun _ => false)
    have hfree : Mem.striped.free.length = 100 := List.length_range'
    rw [copyNeed, hpages, hfree]
    omega
  have hpresent : ∀ v < pages 8192, (Pgdir.double.lookup v).isSome := by
    rw [hpages]
    decide +kernel
  obtain ⟨d, m', hr, hspace, -⟩ := (copyuvm_copies_pages Kernel.sample .double 8192 .striped
    Pgdir.double_sound (by decide) hpresent).1 hneed
  exact ⟨d, m', hr, hspace 0 (by omega), hspace 1 (by omega)⟩

end Xv6.Mmu
