/-
# The arguments of a program

`exec` pushes the arguments of the new program on its stack, which is one page above a page
that the user cannot reach. What does not fit into the stack reaches the page below and is
refused there, unless a string is so long that the stack pointer goes past address zero: then
`copyout` looks up an address of the kernel's half, and between the kernel's memory and the
devices no page table is there.
-/

import Xv6.Mmu.Load

namespace Xv6.Mmu

open Function Xv6.Lib Xv6.Files
open Xv6.Vm (PGSIZE NPDENTRIES NPTENTRIES KERNBASE pages)

variable {k : Kernel} {d : Pgdir} {m m₀ : Mem} {u v n va sp sz base fuel : ℕ} {a : Page} {x : Pte}
  {flags : ℕ → Flags} {buf p s : List UInt8} {argv : List (List UInt8)} {ustack : List ℕ}

namespace Pgdir

theorem uva2ka_of_user (hv : v < NPAGES) (hx : d.lookup v = some x) (hu : x.Has PTE_U) :
    d.uva2ka (v * PGSIZE) = .ok (some x.addr) := by
  obtain ⟨hentry, hp⟩ := entry_of_lookup hx
  rw [uva2ka, walk_mul hv, hentry]
  dsimp only
  rw [if_neg (not_not.mpr hp), if_neg (not_not.mpr hu)]

theorem uva2ka_of_not_user (hv : v < NPAGES) (hhas : d.has (v / NPTENTRIES) = true)
    (h : ∀ x, d.lookup v = some x → ¬ x.Has PTE_U) : d.uva2ka (v * PGSIZE) = .ok none := by
  obtain ⟨b, hb⟩ := Option.isSome_iff_exists.mp hhas
  have hentry : d.entry v = some (d.pte v) := by rw [entry, hb, Option.map_some]
  rw [uva2ka, walk_mul hv, hentry]
  grind [lookup_of_present]

theorem uva2ka_of_no_table (hv : v < NPAGES) (hhas : d.has (v / NPTENTRIES) = false) :
    d.uva2ka (v * PGSIZE) = .error .nullPte := by
  have hentry : d.entry v = none := by
    rw [entry, Option.map_eq_none_iff, ← Option.isNone_iff_eq_none]
    rw [has, ← Option.not_isNone, Bool.not_eq_false'] at hhas
    exact hhas
  rw [uva2ka, walk_mul hv, hentry]

theorem copyoutLoop_nil : d.copyoutLoop (fuel + 1) va [] m = .ok (true, m) := by
  rw [copyoutLoop]
  exact if_neg (Nat.lt_irrefl 0)

/-- A turn of the loop of `copyout` that finds the page. -/
theorem copyoutLoop_some (hbuf : 0 < buf.length)
    (ha : d.uva2ka (va / PGSIZE * PGSIZE) = .ok (some a)) :
    d.copyoutLoop (fuel + 1) va buf m =
      d.copyoutLoop fuel ((va / PGSIZE * PGSIZE + PGSIZE) % 2 ^ 32)
        (buf.drop (min (PGSIZE - va % PGSIZE) buf.length))
        (m.setPage a ((m.data a).blit (va % PGSIZE)
          (buf.take (min (PGSIZE - va % PGSIZE) buf.length)))) := by
  have hsub : va - va / PGSIZE * PGSIZE = va % PGSIZE := by
    show va - va / 4096 * 4096 = va % 4096
    omega
  rw [copyoutLoop, if_pos hbuf, pgRoundDown]
  dsimp only
  rw [ha, ok_bind, hsub]

theorem copyoutLoop_none (hbuf : 0 < buf.length)
    (ha : d.uva2ka (va / PGSIZE * PGSIZE) = .ok none) :
    d.copyoutLoop (fuel + 1) va buf m = .ok (false, m) := by
  rw [copyoutLoop, if_pos hbuf, pgRoundDown]
  dsimp only
  rw [ha, ok_bind]
  rfl

theorem copyoutLoop_null (hbuf : 0 < buf.length)
    (ha : d.uva2ka (va / PGSIZE * PGSIZE) = .error .nullPte) :
    d.copyoutLoop (fuel + 1) va buf m = .error .nullPte := by
  rw [copyoutLoop, if_pos hbuf, pgRoundDown]
  dsimp only
  rw [ha]
  rfl

end Pgdir

namespace Stacked

section

variable (h : Stacked k m₀ sz d m)

include h

theorem page_lt (hv : v < pages sz) : v < NPAGES :=
  (hv.trans_le h.image.pages_le).trans userpages_lt_npages

/-- A page of the user that is not the one below the stack. -/
theorem lookup_user (hv : v < pages sz) (hne : v + 2 ≠ pages sz) :
    ∃ a, d.lookup v = some ⟨a, userFlags⟩ := by
  obtain ⟨a, ha⟩ := h.image.user v hv
  rw [guarded, if_neg hne] at ha
  exact ⟨a, ha⟩

theorem uva2ka_guard (hv : v + 2 = pages sz) : d.uva2ka (v * PGSIZE) = .ok none := by
  obtain ⟨a, ha⟩ := h.image.user v (by omega)
  rw [guarded, if_pos hv] at ha
  obtain ⟨hentry, -⟩ := Pgdir.entry_of_lookup ha
  obtain ⟨b, hb, -⟩ := Option.map_eq_some_iff.mp hentry
  apply Pgdir.uva2ka_of_not_user (h.page_lt (by omega))
  · rw [Pgdir.has, hb, Option.isSome_some]
  · intro x hx
    rw [ha, Option.some_inj] at hx
    rw [← hx]
    show ¬ guardFlags &&& PTE_U ≠ 0
    decide

/-- An address of the user that is not in the page below the stack is written. -/
theorem uva2ka_user (hv : v < pages sz) (ha : d.lookup v = some ⟨a, userFlags⟩) :
    d.uva2ka (v * PGSIZE) = .ok (some a) :=
  Pgdir.uva2ka_of_user (h.page_lt hv) ha (show userFlags &&& PTE_U ≠ 0 by decide)

theorem setPage (hv : v < pages sz) (hx : d.lookup v = some x) (bytes : Bytes) :
    Stacked k m₀ sz d (m.setPage x.addr bytes) :=
  ⟨h.image.setPage hv hx bytes, h.sz_eq, h.two_le⟩

theorem stack_eq : sz - PGSIZE = (pages sz - 1) * PGSIZE := by
  have heq := h.sz_eq
  have htwo := h.two_le
  generalize pages sz = n at heq htwo
  subst heq
  show n * 4096 - 4096 = (n - 1) * 4096
  omega

/-- `copyout` to the stack. -/
theorem copyout_stack (ha : d.lookup (pages sz - 1) = some ⟨a, userFlags⟩)
    (hlo : sz - PGSIZE ≤ va) (hhi : va + p.length ≤ sz) (hp : 0 < p.length) :
    d.copyout va p m = .ok (true, m.setPage a ((m.data a).blit (va - (sz - PGSIZE)) p)) := by
  have heq := h.stack_eq
  have hsz := h.sz_eq
  have htwo := h.two_le
  have hpage : va / PGSIZE = pages sz - 1 := by
    rw [heq] at hlo
    rw [hsz] at hhi
    generalize pages sz = n at hlo hhi htwo
    change (n - 1) * 4096 ≤ va at hlo
    change va + p.length ≤ n * 4096 at hhi
    show va / 4096 = n - 1
    omega
  have hoff : va % PGSIZE = va - (sz - PGSIZE) := by
    rw [heq, ← hpage]
    show va % 4096 = va - va / 4096 * 4096
    omega
  have hall : p.length ≤ PGSIZE - va % PGSIZE := by
    omega
  have hua : d.uva2ka (va / PGSIZE * PGSIZE) = .ok (some a) := by
    rw [hpage]
    exact h.uva2ka_user (by omega) ha
  rw [Pgdir.copyout, Pgdir.copyoutLoop_some hp hua, Nat.min_eq_right hall, List.drop_length,
    List.take_length, hoff]
  obtain ⟨fuel, hfuel⟩ := Nat.exists_eq_succ_of_ne_zero (Nat.ne_of_gt hp)
  rw [hfuel, Pgdir.copyoutLoop_nil]

/-- `copyout` of bytes that reach the page below the stack fails there. -/
theorem copyoutLoop_guard (hlo : va < sz - PGSIZE) (hhi : sz - 2 * PGSIZE < va + buf.length)
    (hbuf : 0 < buf.length) (hfuel : buf.length < fuel) :
    ∃ m', d.copyoutLoop fuel va buf m = .ok (false, m') ∧ Stacked k m₀ sz d m' := by
  have htwo := h.two_le
  have htop := h.image.pages_le
  change pages sz ≤ 524288 at htop
  -- in pages: the address is below the stack, and the bytes reach the page below it
  have hpage : va / PGSIZE < pages sz - 1 := by
    rw [h.stack_eq] at hlo
    exact (Nat.div_lt_iff_lt_mul (by decide)).mpr hlo
  have hreach : (pages sz - 2) * PGSIZE < va + buf.length := by
    have hsz := h.sz_eq
    rw [hsz] at hhi
    generalize pages sz = n at hhi htwo
    change n * 4096 - 2 * 4096 < va + buf.length at hhi
    show (n - 2) * 4096 < va + buf.length
    omega
  clear hlo hhi
  induction fuel generalizing va buf m with
  | zero => exact absurd hfuel (Nat.not_lt_zero _)
  | succ fuel ih =>
    by_cases hguard : va / PGSIZE + 2 = pages sz
    · exact ⟨m, Pgdir.copyoutLoop_none hbuf (h.uva2ka_guard hguard), h⟩
    · obtain ⟨a, ha⟩ := h.lookup_user (v := va / PGSIZE) (by omega) hguard
      rw [Pgdir.copyoutLoop_some hbuf (h.uva2ka_user (by omega) ha)]
      have hnext : (va / PGSIZE * PGSIZE + PGSIZE) % 2 ^ 32 = (va / PGSIZE + 1) * PGSIZE :=
        next_mul (by
          have hall : NPAGES = 1048576 := rfl
          omega)
      have hsplit : va / PGSIZE * PGSIZE + va % PGSIZE = va := Nat.div_add_mod' va PGSIZE
      have hmod : va % PGSIZE < PGSIZE := Nat.mod_lt _ (by decide)
      have hbelow : (va / PGSIZE + 1) * PGSIZE ≤ (pages sz - 2) * PGSIZE :=
        Nat.mul_le_mul_right _ (by omega)
      rw [Nat.succ_mul] at hbelow
      have hmin : min (PGSIZE - va % PGSIZE) buf.length = PGSIZE - va % PGSIZE :=
        Nat.min_eq_left (by omega)
      rw [hmin, hnext]
      apply ih (h.setPage (by omega) ha _)
      · rw [List.length_drop]
        omega
      · rw [List.length_drop]
        omega
      · rw [Nat.mul_div_cancel _ (by decide)]
        omega
      · rw [List.length_drop, Nat.succ_mul]
        omega

end

/-- The addresses of the kernel's half without a page table: from the end of the physical memory
to the devices. -/
def InHole (va : ℕ) : Prop := KERNBASE + PHYSTOP ≤ va ∧ va < DEVSPACE
  deriving Decidable

/-- `copyout` to the kernel's half of the address space. -/
theorem copyout_kernel (h : Stacked k m₀ sz d m) (hlo : KERNBASE ≤ va) (hhi : va < 2 ^ 32)
    (hp : 0 < p.length) :
    (InHole va → d.copyout va p m = .error .nullPte) ∧
      (¬ InHole va → d.copyout va p m = .ok (false, m)) := by
  change 2147483648 ≤ va at hlo
  have hpage : va / PGSIZE < NPAGES := by
    show va / 4096 < 1048576
    omega
  have huser : USERPAGES ≤ va / PGSIZE := by
    show 524288 ≤ va / 4096
    omega
  have htable : 512 ≤ va / PGSIZE / NPTENTRIES := by
    show 512 ≤ va / 4096 / 1024
    omega
  have hhas : d.has (va / PGSIZE / NPTENTRIES) = true ↔ ¬ InHole va := by
    rw [h.image.has _ htable, kernelTables_kmap]
    show _ ↔ ¬ (2382364672 ≤ va ∧ va < 4261412864)
    show (512 ≤ va / 4096 / 1024 ∧ va / 4096 / 1024 < 568) ∨
      (1016 ≤ va / 4096 / 1024 ∧ va / 4096 / 1024 < 1024) ↔ _
    omega
  constructor
  · intro hhole
    apply Pgdir.copyoutLoop_null hp
    apply Pgdir.uva2ka_of_no_table hpage
    rw [← Bool.not_eq_true, hhas, not_not]
    exact hhole
  · intro hhole
    apply Pgdir.copyoutLoop_none hp
    exact Pgdir.uva2ka_of_not_user hpage (hhas.mpr hhole) fun x => h.image.kernel _ x huser

end Stacked

/-- The addresses of the strings. -/
def layout : ℕ → List (List UInt8) → List ℕ
  | _, [] => []
  | sp, s :: rest => pushed sp s :: layout (pushed sp s) rest

/-- The stack pointer below the strings. -/
def belowStrings (sp : ℕ) (argv : List (List UInt8)) : ℕ := argv.foldl pushed sp

/-- The strings fit above `base`. -/
def Fits (base : ℕ) : ℕ → List (List UInt8) → Prop
  | _, [] => True
  | sp, s :: rest => base + (s.length + 1) ≤ sp ∧ Fits base (pushed sp s) rest

/-- The first string that does not fit above `base` takes the stack pointer past address zero to
where there is no page table. -/
def Overruns (base : ℕ) : ℕ → List (List UInt8) → Prop
  | _, [] => False
  | sp, s :: rest =>
    if base + (s.length + 1) ≤ sp then Overruns base (pushed sp s) rest
    else sp < s.length + 1 ∧ Stacked.InHole (pushed sp s)

/-- A string that fits is put right below the stack pointer, at a multiple of four. -/
theorem pushed_of_fits (hbase : base % 4 = 0) (hsp : sp < 2 ^ 32)
    (h : base + (s.length + 1) ≤ sp) :
    base ≤ pushed sp s ∧ pushed sp s + (s.length + 1) ≤ sp ∧ pushed sp s % 4 = 0 := by
  rw [pushed]
  omega

theorem not_overruns_of_fits (h : Fits base sp argv) : ¬ Overruns base sp argv := by
  induction argv generalizing sp with
  | nil => exact id
  | cons s rest ih =>
    rw [Overruns, if_pos h.1]
    exact ih h.2

/-- Strings shorter than the range of the devices do not overrun. -/
theorem not_overruns_of_short (hbase : base % 4 = 0) (hsp : sp < 2 ^ 32)
    (h : ∀ s ∈ argv, s.length < 2 ^ 32 - DEVSPACE) : ¬ Overruns base sp argv := by
  induction argv generalizing sp with
  | nil => exact id
  | cons s rest ih =>
    have hs := h s List.mem_cons_self
    rw [Overruns]
    split
    case isTrue hfirst =>
      have hpushed := pushed_of_fits hbase hsp hfirst
      exact ih (by omega) fun s hs => h s (List.mem_cons_of_mem _ hs)
    case isFalse hfirst =>
      intro hover
      have hwrap := hover.1
      have hhole := hover.2.2
      change s.length < 2 ^ 32 - 4261412864 at hs
      change pushed sp s < 4261412864 at hhole
      rw [pushed] at hhole
      omega

theorem layout_length (sp : ℕ) (argv : List (List UInt8)) :
    (layout sp argv).length = argv.length := by
  induction argv generalizing sp with
  | nil => rfl
  | cons s rest ih => rw [layout, List.length_cons, List.length_cons, ih]

theorem belowStrings_bounds (hbase : base % 4 = 0) (hsp : sp < 2 ^ 32) (hfour : sp % 4 = 0)
    (hle : base ≤ sp) (h : Fits base sp argv) :
    base ≤ belowStrings sp argv ∧ belowStrings sp argv ≤ sp ∧ belowStrings sp argv % 4 = 0 := by
  induction argv generalizing sp with
  | nil => exact ⟨hle, Nat.le_refl sp, hfour⟩
  | cons s rest ih =>
    obtain ⟨hfirst, hrest⟩ := h
    obtain ⟨hle', hlt, hfour'⟩ := pushed_of_fits hbase hsp hfirst
    obtain ⟨hlow, hhigh, hmod⟩ := ih (by omega) hfour' hle' hrest
    exact ⟨hlow, Nat.le_trans hhigh (by omega), hmod⟩

/-- The strings that fit are between the stack pointer as it was and as it is now, at multiples
of four. -/
theorem layout_bounds (hbase : base % 4 = 0) (hsp : sp < 2 ^ 32) (h : Fits base sp argv) :
    ∀ q ∈ (layout sp argv).zip argv, belowStrings sp argv ≤ q.1 ∧
      q.1 + (q.2.length + 1) ≤ sp ∧ q.1 % 4 = 0 := by
  induction argv generalizing sp with
  | nil => exact fun q hq => absurd hq List.not_mem_nil
  | cons s rest ih =>
    obtain ⟨hfirst, hrest⟩ := h
    obtain ⟨hle, hlt, hfour⟩ := pushed_of_fits hbase hsp hfirst
    have hbelow := belowStrings_bounds hbase (by omega) hfour hle hrest
    intro q hq
    rw [layout, List.zip_cons_cons, List.mem_cons] at hq
    obtain rfl | hq := hq
    · exact ⟨hbelow.2.1, hlt, hfour⟩
    · obtain ⟨hlow, hhigh, hmod⟩ := ih (by omega) hrest q hq
      exact ⟨hlow, by omega, hmod⟩

/-- A later string is below an earlier one. -/
theorem layout_pairwise (hbase : base % 4 = 0) (hsp : sp < 2 ^ 32) (h : Fits base sp argv) :
    ((layout sp argv).zip argv).Pairwise fun q q' => q'.1 + (q'.2.length + 1) ≤ q.1 := by
  induction argv generalizing sp with
  | nil => exact .nil
  | cons s rest ih =>
    obtain ⟨hfirst, hrest⟩ := h
    obtain ⟨hle, hlt, -⟩ := pushed_of_fits hbase hsp hfirst
    rw [layout, List.zip_cons_cons, List.pairwise_cons]
    constructor
    · intro q hq
      exact (layout_bounds hbase (by omega) hrest q hq).2.1
    · exact ih (by omega) hrest

/-! ## Pushing the strings -/

theorem Mem.setPage_self (m : Mem) (a : Page) : m.setPage a (m.data a) = m := by
  rw [setPage, update_eq_self]

theorem Mem.setPage_setPage (m : Mem) (a : Page) (b b' : Bytes) :
    (m.setPage a b).setPage a b' = m.setPage a b' := by
  rw [setPage, setPage, setPage]
  dsimp only
  rw [update_idem]

namespace Stacked

section

variable (h : Stacked k m₀ sz d m)

include h

theorem base_mod : (sz - PGSIZE) % 4 = 0 := by
  rw [h.stack_eq]
  show (pages sz - 1) * 4096 % 4 = 0
  omega

theorem sz_lt : sz < 2 ^ 32 := h.image.sz_lt.trans (by decide)

/-- Strings that fit are all pushed; what is above the stack pointer does not change. -/
theorem pushStrings_of_fits (ha : d.lookup (pages sz - 1) = some ⟨a, userFlags⟩) (hsp : sp ≤ sz)
    (hargs : ustack.length + argv.length ≤ MAXARG) (hfits : Fits (sz - PGSIZE) sp argv) :
    ∃ b, d.pushStrings argv sp ustack m =
        .ok (some (belowStrings sp argv, ustack ++ layout sp argv), m.setPage a b) ∧
      (∀ i, sp - (sz - PGSIZE) ≤ i → b i = m.data a i) ∧
      ∀ q ∈ (layout sp argv).zip argv, b.Holds (q.1 - (sz - PGSIZE)) (q.2 ++ [0]) := by
  induction argv generalizing sp ustack m with
  | nil =>
    refine ⟨m.data a, ?_, fun _ _ => rfl, fun q hq => absurd hq List.not_mem_nil⟩
    rw [Mem.setPage_self, layout, List.append_nil]
    rfl
  | cons s rest ih =>
    obtain ⟨hfirst, hrest⟩ := hfits
    obtain ⟨hle, hlt, hfour⟩ := pushed_of_fits h.base_mod (by have := h.sz_lt; omega) hfirst
    rw [List.length_cons] at hargs
    have hlength : (s ++ [0]).length = s.length + 1 := List.length_append
    have hcopy := h.copyout_stack (p := s ++ [0]) ha hle (by omega) (by omega)
    have hset := h.setPage (by have := h.two_le; omega) ha
      ((m.data a).blit (pushed sp s - (sz - PGSIZE)) (s ++ [0]))
    have hdata : ∀ b : Bytes, (m.setPage a b).data a = b := fun b => update_self ..
    obtain ⟨b, hpush, hkept, hholds⟩ := ih hset (by omega)
      (show (ustack ++ [pushed sp s]).length + rest.length ≤ MAXARG by
        rw [List.length_append, List.length_singleton]
        omega) hrest
    rw [hdata] at hkept
    refine ⟨b, ?_, ?_, ?_⟩
    · rw [Pgdir.pushStrings, if_neg (by omega)]
      dsimp only
      rw [hcopy, ok_bind]
      dsimp only
      rw [if_pos rfl, hpush, Mem.setPage_setPage, layout, List.append_assoc]
      rfl
    · intro i hi
      rw [hkept i (by omega), Bytes.blit_of_out (.inr (by omega))]
    · intro q hq
      rw [layout, List.zip_cons_cons, List.mem_cons] at hq
      obtain rfl | hq := hq
      · apply (Bytes.holds_blit (m.data a) (pushed sp s - (sz - PGSIZE)) (s ++ [0])).congr
        exact fun i hi _ => hkept i hi
      · exact hholds q hq

/-- A string that does not fit: the address of the copy is in the hole, and otherwise `copyout`
fails. -/
theorem copyout_of_not_fits (hsp : sp ≤ sz) (hlo : sz - PGSIZE ≤ sp) (hfour : sp % 4 = 0)
    (hs : s.length < KERNBASE) (hno : ¬ sz - PGSIZE + (s.length + 1) ≤ sp) :
    (sp < s.length + 1 ∧ InHole (pushed sp s) →
        d.copyout (pushed sp s) (s ++ [0]) m = .error .nullPte) ∧
      (¬ (sp < s.length + 1 ∧ InHole (pushed sp s)) →
        ∃ m', d.copyout (pushed sp s) (s ++ [0]) m = .ok (false, m') ∧ Stacked k m₀ sz d m') := by
  have hlength : (s ++ [0]).length = s.length + 1 := List.length_append
  have hmod := h.base_mod
  have hsz := h.image.sz_lt
  change s.length < 2147483648 at hs
  change sz < 2147483648 at hsz
  by_cases hwrap : sp < s.length + 1
  · have hkernel := h.copyout_kernel (p := s ++ [0])
      (show 2147483648 ≤ pushed sp s by rw [pushed]; omega) (by rw [pushed]; omega) (by omega)
    grind
  · constructor
    · exact fun hhole => absurd hhole.1 hwrap
    · intro _
      have hpushed : pushed sp s = (sp - (s.length + 1)) / 4 * 4 := by
        rw [pushed]
        omega
      apply h.copyoutLoop_guard
      · rw [hpushed]
        omega
      · rw [hpushed, hlength]
        have hsize : PGSIZE = 4096 := rfl
        omega
      · omega
      · omega

/-- Strings that do not fit: the kernel follows a null pointer, or `exec` fails. -/
theorem pushStrings_of_not_fits (ha : d.lookup (pages sz - 1) = some ⟨a, userFlags⟩)
    (hsp : sp ≤ sz) (hlo : sz - PGSIZE ≤ sp) (hfour : sp % 4 = 0)
    (hs : ∀ s ∈ argv, s.length < KERNBASE) (hargs : ustack.length + argv.length ≤ MAXARG)
    (hno : ¬ Fits (sz - PGSIZE) sp argv) :
    (Overruns (sz - PGSIZE) sp argv → d.pushStrings argv sp ustack m = .error .nullPte) ∧
      (¬ Overruns (sz - PGSIZE) sp argv →
        ∃ m', d.pushStrings argv sp ustack m = .ok (none, m') ∧ Stacked k m₀ sz d m') := by
  induction argv generalizing sp ustack m with
  | nil => exact absurd trivial hno
  | cons s rest ih =>
    rw [List.length_cons] at hargs
    rw [Overruns, Pgdir.pushStrings, if_neg (show ¬ ustack.length ≥ MAXARG by omega)]
    dsimp only
    by_cases hfirst : sz - PGSIZE + (s.length + 1) ≤ sp
    · have hrest : ¬ Fits (sz - PGSIZE) (pushed sp s) rest := fun hfits => hno ⟨hfirst, hfits⟩
      have hlength : (s ++ [0]).length = s.length + 1 := List.length_append
      obtain ⟨hle, hlt, hfour'⟩ := pushed_of_fits h.base_mod (by have := h.sz_lt; omega) hfirst
      have hset := h.setPage (by have := h.two_le; omega) ha
        ((m.data a).blit (pushed sp s - (sz - PGSIZE)) (s ++ [0]))
      rw [if_pos hfirst, h.copyout_stack ha hle (by omega) (by omega), ok_bind]
      dsimp only
      rw [if_pos rfl]
      exact ih hset (by omega) hle hfour' (fun s hs' => hs s (List.mem_cons_of_mem _ hs'))
        (by rw [List.length_append, List.length_singleton]; omega) hrest
    · obtain ⟨hnull, hfail⟩ :=
        h.copyout_of_not_fits hsp hlo hfour (hs s List.mem_cons_self) hfirst
      rw [if_neg hfirst]
      constructor
      · intro hover
        rw [hnull hover]
        rfl
      · intro hover
        obtain ⟨m', hcopy, h'⟩ := hfail hover
        rw [hcopy, ok_bind]
        exact ⟨m', rfl, h'⟩

end

end Stacked

/-- The arguments fit into the page of the stack. -/
def ArgsFit (sz : ℕ) (argv : List (List UInt8)) : Prop :=
  Fits (sz - PGSIZE) sz argv ∧
    sz - PGSIZE + (3 + argv.length + 1) * 4 ≤ belowStrings sz argv

/-- Where `exec` leaves the stack pointer. -/
def argsSp (sz : ℕ) (argv : List (List UInt8)) : ℕ :=
  belowStrings sz argv - (3 + argv.length + 1) * 4

theorem length_flatMap_wordBytes (l : List ℕ) : (l.flatMap wordBytes).length = 4 * l.length := by
  induction l with
  | nil => rfl
  | cons w rest ih =>
    rw [List.flatMap_cons, List.length_append, ih, List.length_cons]
    show 4 + 4 * rest.length = 4 * (rest.length + 1)
    omega

theorem length_ustackOf (sp : ℕ) (addrs : List ℕ) :
    (ustackOf sp addrs).length = 3 + addrs.length + 1 := by
  rw [ustackOf, List.length_append, List.length_append]
  rfl

namespace Stacked

section

variable (h : Stacked k m₀ sz d m)

include h

theorem sz_mod : sz % 4 = 0 := by
  rw [h.sz_eq]
  show pages sz * 4096 % 4 = 0
  omega

theorem two_pages : 2 * PGSIZE ≤ sz := by
  rw [h.sz_eq]
  exact Nat.mul_le_mul_right _ h.two_le

/-- Arguments that fit are on the stack: the strings, and below them the words of `ustack`. -/
theorem pushArgs_of_fit (ha : d.lookup (pages sz - 1) = some ⟨a, userFlags⟩)
    (hargs : argv.length < MAXARG) (hfit : ArgsFit sz argv) :
    ∃ b, d.pushArgs argv sz m = .ok (some (argsSp sz argv), m.setPage a b) ∧
      b.Holds (argsSp sz argv - (sz - PGSIZE))
        ((ustackOf (belowStrings sz argv) (layout sz argv)).flatMap wordBytes) ∧
      ∀ q ∈ (layout sz argv).zip argv, b.Holds (q.1 - (sz - PGSIZE)) (q.2 ++ [0]) := by
  obtain ⟨hstrings, hwords⟩ := hfit
  have hbelow := belowStrings_bounds h.base_mod h.sz_lt h.sz_mod (Nat.sub_le ..) hstrings
  have hsz := h.sz_lt
  have hlayout := layout_length sz argv
  have hlength : ((ustackOf (belowStrings sz argv) (layout sz argv)).flatMap wordBytes).length =
      (3 + argv.length + 1) * 4 := by
    rw [length_flatMap_wordBytes, length_ustackOf, hlayout, Nat.mul_comm]
  obtain ⟨b, hpush, -, hholds⟩ := h.pushStrings_of_fits ha (Nat.le_refl sz)
    (show [].length + argv.length ≤ MAXARG by rw [List.length_nil]; omega) hstrings
  have hset := h.setPage (by have := h.two_le; omega) ha b
  have hsp : (belowStrings sz argv + 2 ^ 32 - (3 + (layout sz argv).length + 1) * 4) % 2 ^ 32 =
      argsSp sz argv := by
    rw [argsSp, hlayout]
    omega
  have hcopy := hset.copyout_stack
    (p := (ustackOf (belowStrings sz argv) (layout sz argv)).flatMap wordBytes)
    ha (show _ ≤ argsSp sz argv by rw [argsSp]; omega) (by rw [argsSp]; omega) (by omega)
  have hdata : (m.setPage a b).data a = b := update_self ..
  rw [hdata, Mem.setPage_setPage] at hcopy
  refine ⟨_, ?_, Bytes.holds_blit b _ _, ?_⟩
  · rw [Pgdir.pushArgs, hpush, ok_bind]
    dsimp only
    rw [List.nil_append, hsp, hcopy, ok_bind]
    rfl
  · intro q hq
    have hq' := (layout_bounds h.base_mod hsz hstrings q hq).1
    apply (hholds q hq).congr
    intro i hi _
    apply Bytes.blit_of_out
    right
    rw [hlength, argsSp]
    omega

/-- Arguments that do not fit: the kernel follows a null pointer, or `exec` fails. -/
theorem pushArgs_of_not_fit (hargs : argv.length < MAXARG) (hs : ∀ s ∈ argv, s.length < KERNBASE)
    (hno : ¬ ArgsFit sz argv) :
    (Overruns (sz - PGSIZE) sz argv → d.pushArgs argv sz m = .error .nullPte) ∧
      (¬ Overruns (sz - PGSIZE) sz argv →
        ∃ m', d.pushArgs argv sz m = .ok (none, m') ∧ Stacked k m₀ sz d m') := by
  obtain ⟨a, ha⟩ := h.lookup_user (v := pages sz - 1) (by have := h.two_le; omega)
    (by have := h.two_le; omega)
  by_cases hstrings : Fits (sz - PGSIZE) sz argv
  · -- the words of `ustack` do not fit
    have hbelow := belowStrings_bounds h.base_mod h.sz_lt h.sz_mod (Nat.sub_le ..) hstrings
    have hsz := h.sz_lt
    have htwo := h.two_pages
    have hsize : PGSIZE = 4096 := rfl
    have hmax : MAXARG = 32 := rfl
    have hlayout := layout_length sz argv
    have hwords : ¬ sz - PGSIZE + (3 + argv.length + 1) * 4 ≤ belowStrings sz argv := fun hle =>
      hno ⟨hstrings, hle⟩
    have hlength : ((ustackOf (belowStrings sz argv) (layout sz argv)).flatMap wordBytes).length =
        (3 + argv.length + 1) * 4 := by
      rw [length_flatMap_wordBytes, length_ustackOf, hlayout, Nat.mul_comm]
    constructor
    · exact fun hover => absurd hover (not_overruns_of_fits hstrings)
    · intro _
      obtain ⟨b, hpush, -⟩ := h.pushStrings_of_fits ha (Nat.le_refl sz)
        (show [].length + argv.length ≤ MAXARG by rw [List.length_nil]; omega) hstrings
      have hset := h.setPage (by have := h.two_le; omega) ha b
      have hsp : (belowStrings sz argv + 2 ^ 32 - (3 + (layout sz argv).length + 1) * 4) % 2 ^ 32 =
          argsSp sz argv := by
        rw [argsSp, hlayout]
        omega
      obtain ⟨m', hcopy, h'⟩ := hset.copyoutLoop_guard
        (show argsSp sz argv < _ by rw [argsSp]; omega) (by rw [hlength, argsSp]; omega)
        (by omega) (Nat.lt_succ_self _)
      refine ⟨m', ?_, h'⟩
      rw [Pgdir.pushArgs, hpush, ok_bind]
      dsimp only
      rw [List.nil_append, hsp, Pgdir.copyout, hcopy, ok_bind]
      rfl
  · obtain ⟨hnull, hfail⟩ := h.pushStrings_of_not_fits ha (Nat.le_refl sz) (Nat.sub_le ..) h.sz_mod
      hs (show [].length + argv.length ≤ MAXARG by rw [List.length_nil]; omega) hstrings
    rw [Pgdir.pushArgs]
    constructor
    · intro hover
      rw [hnull hover]
      rfl
    · intro hover
      obtain ⟨m', hpush, h'⟩ := hfail hover
      rw [hpush, ok_bind]
      exact ⟨m', rfl, h'⟩

theorem exists_stack : ∃ a, d.lookup (pages sz - 1) = some ⟨a, userFlags⟩ :=
  h.lookup_user (by have := h.two_le; omega) (by have := h.two_le; omega)

end

end Stacked

/-- When `exec` pushes the arguments on the stack of a new image, a page is looked up where
there is no page table exactly if the first string that does not fit takes the stack pointer
past address zero, to between the kernel's memory and the devices. Otherwise the arguments are
pushed if they fit into the page of the stack, and `exec` returns -1 if they do not. -/
theorem pushArgs_null_iff (k : Kernel) (m₀ : Mem) (sz : ℕ) (d : Pgdir) (m : Mem)
    (argv : List (List UInt8)) (hok : m₀.Ok k) (h : Stacked k m₀ sz d m)
    (hargs : argv.length < MAXARG) (hs : ∀ s ∈ argv, s.length < KERNBASE) :
    (d.pushArgs argv sz m = .error .nullPte ↔ Overruns (sz - PGSIZE) sz argv) ∧
      (¬ Overruns (sz - PGSIZE) sz argv →
        (ArgsFit sz argv → ∃ sp m', d.pushArgs argv sz m = .ok (some sp, m')) ∧
        (¬ ArgsFit sz argv → (∃ m', d.pushArgs argv sz m = .ok (none, m')) ∧
          ∀ path entry curproc fs, ∃ m',
            execArgs k path argv d sz entry curproc fs m = .ok (-1, curproc, fs, m'))) := by
  obtain ⟨a, ha⟩ := h.exists_stack
  by_cases hfit : ArgsFit sz argv
  · obtain ⟨b, hpush, -⟩ := h.pushArgs_of_fit ha hargs hfit
    constructor
    · rw [hpush]
      exact iff_of_false (by simp) (not_overruns_of_fits hfit.1)
    · exact fun _ => ⟨fun _ => ⟨_, _, hpush⟩, fun hno => absurd hfit hno⟩
  · obtain ⟨hnull, hfail⟩ := h.pushArgs_of_not_fit hargs hs hfit
    constructor
    · constructor
      · intro heq
        by_contra hover
        obtain ⟨m', hpush, -⟩ := hfail hover
        rw [hpush] at heq
        cases heq
      · exact hnull
    · intro hover
      obtain ⟨m', hpush, h'⟩ := hfail hover
      refine ⟨fun hyes => absurd hyes hfit, fun _ => ⟨⟨m', hpush⟩, ?_⟩⟩
      intro path entry curproc fs
      obtain ⟨m'', hfreevm, -⟩ := Pgdir.freevm_restores hok.valid h'.image.perm h'.image.data
      rw [execArgs, hpush, ok_bind]
      dsimp only
      rw [hfreevm, ok_bind]
      exact ⟨m'', rfl⟩

/-- A hundred pages are enough for a directory. -/
theorem setupkvm_hundred : ∃ d m, setupkvm Kernel.sample .hundred = .ok (some d, m) ∧
    Fresh Kernel.sample .hundred d m := by
  have hlength : Mem.hundred.free.length = 100 := List.length_range'
  have hneed := kernelNeed_kmap_le Kernel.sample
  obtain ⟨pgdir, m, hret, henough, -⟩ := setupkvm_spec Mem.hundred_ok.valid
  obtain ⟨d, rfl, hfresh⟩ := henough (by omega)
  exact ⟨d, m, hret, hfresh⟩

/-- They are enough for a stack too. -/
theorem Fresh.allocStack (hfresh : Fresh Kernel.sample .hundred d m) :
    ∃ d' m', d.allocStack Kernel.sample 0 m = .ok (some 8192, d', m') ∧
      Stacked Kernel.sample .hundred 8192 d' m' := by
  have hlength : Mem.hundred.free.length = 100 := List.length_range'
  have hneed := kernelNeed_kmap_le Kernel.sample
  have himage := Image.of_fresh hfresh
  have hpages : pages 8192 = 2 := by decide
  obtain ⟨⟨r, d', m'⟩, hret, hgrown, -⟩ := Pgdir.allocuvm_spec
    (himage.sound Mem.hundred_ok) himage.exact (Nat.zero_le 8192) (by decide)
  have htables := newTables_le d.has 1 0
  have hfree := hfresh.length
  have hgrow : d.growNeed 0 8192 ≤ m.free.length := by
    rw [Pgdir.growNeed, hpages]
    show 2 + newTables d.has 2 0 ≤ _
    change newTables d.has 2 0 + 0 + _ ≤ 1 at htables
    omega
  obtain ⟨rfl, hgrown⟩ := hgrown hgrow
  have himage' := himage.grown (Nat.zero_le _) (by decide) hgrown
  obtain ⟨d'', hclear, hguard⟩ := himage'.guard (v := 0) hpages.symm
  refine ⟨d'', m', ?_, hguard, by rw [hpages]; rfl, hpages.ge⟩
  have hzero : pgRoundUp 0 = 0 := by decide
  rw [Pgdir.allocStack, hzero]
  show (d.allocuvm Kernel.sample 0 8192 m >>= _) = _
  rw [hret, ok_bind]
  show (d'.clearpteu (0 * PGSIZE) >>= _) = _
  rw [hclear, ok_bind]
  rfl

/-- An image that is only a stack, made of a hundred pages. -/
theorem exists_stacked : ∃ d m, Stacked Kernel.sample .hundred 8192 d m := by
  obtain ⟨d, m, -, hfresh⟩ := setupkvm_hundred
  obtain ⟨d', m', -, h⟩ := hfresh.allocStack
  exact ⟨d', m', h⟩

/-- One short argument. -/
theorem pushArgs_null_iff_short : ∃ d m, Stacked Kernel.sample .hundred 8192 d m ∧
    d.pushArgs [[0x6c, 0x73]] 8192 m ≠ .error .nullPte := by
  obtain ⟨d, m, h⟩ := exists_stacked
  have hnull := (pushArgs_null_iff Kernel.sample .hundred 8192 d m [[0x6c, 0x73]] Mem.hundred_ok h
    (by decide) (by decide)).1
  refine ⟨d, m, h, fun heq => ?_⟩
  exact not_overruns_of_short (by decide) (by decide) (by decide) (hnull.mp heq)

/-- A string of fifty megabytes. -/
theorem pushArgs_null_long : ∃ d m s, Stacked Kernel.sample .hundred 8192 d m ∧
    s.length = 0x3000000 ∧ d.pushArgs [s] 8192 m = .error .nullPte := by
  obtain ⟨d, m, h⟩ := exists_stacked
  have hlength : (List.replicate 0x3000000 (0x41 : UInt8)).length = 0x3000000 :=
    List.length_replicate
  generalize List.replicate 0x3000000 (0x41 : UInt8) = s at hlength
  have hlarge : ¬ 8192 - PGSIZE + (s.length + 1) ≤ 8192 := by omega
  have hhole : Stacked.InHole (pushed 8192 s) := by
    rw [pushed, hlength]
    decide
  refine ⟨d, m, s, h, hlength, (h.pushArgs_of_not_fit ?_ ?_ ?_).1 ?_⟩
  · rw [List.length_singleton]
    decide
  · intro t ht
    rw [List.mem_singleton.mp ht, hlength]
    decide
  · exact fun hfit => hlarge hfit.1.1
  · rw [Overruns, if_neg hlarge]
    exact ⟨by omega, hhole⟩

end Xv6.Mmu
