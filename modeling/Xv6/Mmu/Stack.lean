/-
# The stack of a new program

What a program finds on its stack when `exec` has started it. It reads its memory through its
page table, and only pages that the user may reach: the three words at the stack pointer, the
array of the addresses of its arguments, and above it the arguments.
-/

import Xv6.Mmu.Replace

namespace Xv6.Mmu

open Xv6.Lib Xv6.Files
open Xv6.Vm (PGSIZE NPDENTRIES NPTENTRIES KERNBASE pages)
open Xv6.Fs (NINODE Superblock Devsw)

variable {k : Kernel} {d : Pgdir} {m m₀ : Mem} {va w off sz : ℕ} {a : Page}
  {s : List UInt8} {argv : List (List UInt8)} {b : Bytes}

namespace Pgdir

/-- The byte that a program reads at an address, if it may read there. -/
def userByte (d : Pgdir) (m : Mem) (va : ℕ) : Option UInt8 :=
  (d.lookup (va / PGSIZE)).bind fun x =>
    if x.Has PTE_U then some (m.data x.addr (va % PGSIZE)) else none

/-- The word that a program reads at an address. -/
def userWord (d : Pgdir) (m : Mem) (va : ℕ) : Option ℕ := do
  let b₀ ← d.userByte m va
  let b₁ ← d.userByte m (va + 1)
  let b₂ ← d.userByte m (va + 2)
  let b₃ ← d.userByte m (va + 3)
  return b₀.toNat + 2 ^ 8 * b₁.toNat + 2 ^ 16 * b₂.toNat + 2 ^ 24 * b₃.toNat

/-- A program reads these bytes from an address on. -/
def UserHolds (d : Pgdir) (m : Mem) (va : ℕ) (data : List UInt8) : Prop :=
  ∀ i < data.length, d.userByte m (va + i) = some (data.getD i 0)

theorem UserHolds.userWord (h : d.UserHolds m va (wordBytes w)) (hw : w < 2 ^ 32) :
    d.userWord m va = some w := by
  have h₀ := h 0 (show 0 < 4 by decide)
  have h₁ := h 1 (show 1 < 4 by decide)
  have h₂ := h 2 (show 2 < 4 by decide)
  have h₃ := h 3 (show 3 < 4 by decide)
  rw [Nat.add_zero] at h₀
  rw [Pgdir.userWord, h₀, h₁, h₂, h₃]
  show some ((UInt8.ofNat w).toNat + 2 ^ 8 * (UInt8.ofNat (w / 2 ^ 8)).toNat +
    2 ^ 16 * (UInt8.ofNat (w / 2 ^ 16)).toNat + 2 ^ 24 * (UInt8.ofNat (w / 2 ^ 24)).toNat) = some w
  rw [UInt8.toNat_ofNat', UInt8.toNat_ofNat', UInt8.toNat_ofNat', UInt8.toNat_ofNat']
  congr 1
  omega

end Pgdir

/-- The words of an array are one after the other. -/
theorem holds_word {words : List ℕ} {i : ℕ} (h : b.Holds off (words.flatMap wordBytes))
    (hi : words[i]? = some w) : b.Holds (off + 4 * i) (wordBytes w) := by
  induction words generalizing off i with
  | nil => cases hi
  | cons w' rest ih =>
    rw [List.flatMap_cons, Bytes.holds_append] at h
    cases i with
    | zero =>
      obtain rfl : w' = w := Option.some_inj.mp hi
      exact h.1
    | succ i =>
      have hrest := ih h.2 hi
      rw [show off + 4 * (i + 1) = off + (wordBytes w').length + 4 * i by
        show off + 4 * (i + 1) = off + 4 + 4 * i
        omega]
      exact hrest

theorem getElem?_ustackOf (sp : ℕ) (addrs : List ℕ) (i : ℕ) :
    (ustackOf sp addrs)[3 + i]? = (addrs ++ [0])[i]? := by
  rw [Nat.add_comm]
  rfl

theorem userFlags_user (a : Page) : (⟨a, userFlags⟩ : Pte).Has PTE_U :=
  show userFlags &&& PTE_U ≠ 0 by decide

theorem guardFlags_not_user (a : Page) : ¬ (⟨a, guardFlags⟩ : Pte).Has PTE_U :=
  show ¬ guardFlags &&& PTE_U ≠ 0 by decide

namespace Stacked

/-- The program reads the page of the stack. -/
theorem userHolds (h : Stacked k m₀ sz d m) (ha : d.lookup (pages sz - 1) = some ⟨a, userFlags⟩)
    {m' : Mem} {data : List UInt8} (hlo : sz - PGSIZE ≤ va) (hhi : va + data.length ≤ sz)
    (hdata : (m'.data a).Holds (va - (sz - PGSIZE)) data) : d.UserHolds m' va data := by
  intro i hi
  have heq := h.stack_eq
  have hsz := h.sz_eq
  have htwo := h.two_le
  have hpage : (va + i) / PGSIZE = pages sz - 1 := by
    rw [heq] at hlo
    rw [hsz] at hhi
    generalize pages sz = n at hlo hhi htwo
    change (n - 1) * 4096 ≤ va at hlo
    change va + data.length ≤ n * 4096 at hhi
    show (va + i) / 4096 = n - 1
    omega
  have hoff : (va + i) % PGSIZE = va - (sz - PGSIZE) + i := by
    rw [heq, ← hpage] at hlo ⊢
    change (va + i) / 4096 * 4096 ≤ va at hlo
    show (va + i) % 4096 = va - (va + i) / 4096 * 4096 + i
    omega
  rw [Pgdir.userByte, hpage, ha, Option.bind_some, if_pos (userFlags_user a), hoff]
  exact congrArg some (hdata i hi)

/-- The page below the stack is not for the user. -/
theorem userByte_guard (h : Stacked k m₀ sz d m) {m' : Mem} (hlo : sz - 2 * PGSIZE ≤ va)
    (hhi : va < sz - PGSIZE) : d.userByte m' va = none := by
  have hsz := h.sz_eq
  have htwo := h.two_le
  have hpage : va / PGSIZE + 2 = pages sz := by
    rw [hsz] at hlo hhi
    generalize pages sz = n at hlo hhi htwo
    change n * 4096 - 2 * 4096 ≤ va at hlo
    change va < n * 4096 - 4096 at hhi
    show va / 4096 + 2 = n
    omega
  obtain ⟨a, ha⟩ := h.image.user (va / PGSIZE) (by omega)
  rw [guarded, if_pos hpage] at ha
  rw [Pgdir.userByte, ha, Option.bind_some, if_neg (guardFlags_not_user a)]

end Stacked

/-- The three words at the stack pointer, the array of addresses, and the strings: where each
starts, and how long it is. -/
def stackRegions (esp : ℕ) (argv : List (List UInt8)) (addrs : List ℕ) : List (ℕ × ℕ) :=
  (esp, 12) :: (esp + 12, 4 * (argv.length + 1)) ::
    (addrs.zip argv).map fun q => (q.1, q.2.length + 1)

/-- Two regions have no address in common. -/
def Apart (q q' : ℕ × ℕ) : Prop := q.1 + q.2 ≤ q'.1 ∨ q'.1 + q'.2 ≤ q.1

/-- What a program finds on its stack: a return address that is none, the number of arguments,
the address of an array of the addresses `addrs` that ends with a null pointer, and at these
addresses the arguments, each with a NUL at its end. All is in the one page at the end of the
image, and the user cannot reach the page below it. -/
structure ArgsOnStack (p : Proc) (m : Mem) (argv : List (List UInt8)) (addrs : List ℕ) :
    Prop where
  length : addrs.length = argv.length
  returnAddress : p.pgdir.userWord m p.esp = some 0xffffffff
  argc : p.pgdir.userWord m (p.esp + 4) = some argv.length
  array : p.pgdir.userWord m (p.esp + 8) = some (p.esp + 12)
  address : ∀ i < argv.length, p.pgdir.userWord m (p.esp + 12 + 4 * i) = addrs[i]?
  null : p.pgdir.userWord m (p.esp + 12 + 4 * argv.length) = some 0
  aligned : ∀ addr ∈ addrs, addr % 4 = 0
  strings : ∀ q ∈ addrs.zip argv, p.pgdir.UserHolds m q.1 (q.2 ++ [0])
  apart : (stackRegions p.esp argv addrs).Pairwise Apart
  inside : ∀ q ∈ stackRegions p.esp argv addrs, p.sz - PGSIZE ≤ q.1 ∧ q.1 + q.2 ≤ p.sz
  guard : ∀ va, p.sz - 2 * PGSIZE ≤ va → va < p.sz - PGSIZE → p.pgdir.userByte m va = none

theorem ArgsFit.below (hfit : ArgsFit sz argv) :
    belowStrings sz argv = argsSp sz argv + (3 + argv.length + 1) * 4 := by
  have hwords := hfit.2
  rw [argsSp]
  omega

theorem ArgsFit.apart (hfit : ArgsFit sz argv) (h : Stacked k m₀ sz d m) :
    (stackRegions (argsSp sz argv) argv (layout sz argv)).Pairwise Apart := by
  have hbelow := hfit.below
  have hbounds := layout_bounds h.base_mod h.sz_lt hfit.1
  rw [stackRegions, List.pairwise_cons, List.pairwise_cons]
  refine ⟨?_, ?_, ?_⟩
  · intro q hq
    obtain rfl | hq := List.mem_cons.mp hq
    · exact .inl (Nat.le_refl _)
    · obtain ⟨r, hr, rfl⟩ := List.mem_map.mp hq
      have hlo := (hbounds r hr).1
      exact .inl (show argsSp sz argv + 12 ≤ r.1 by omega)
  · intro q hq
    obtain ⟨r, hr, rfl⟩ := List.mem_map.mp hq
    have hlo := (hbounds r hr).1
    exact .inl (show argsSp sz argv + 12 + 4 * (argv.length + 1) ≤ r.1 by omega)
  · apply (layout_pairwise h.base_mod h.sz_lt hfit.1).map
    exact fun q q' hle => .inr hle

theorem ArgsFit.inside (hfit : ArgsFit sz argv) (h : Stacked k m₀ sz d m) :
    ∀ q ∈ stackRegions (argsSp sz argv) argv (layout sz argv),
      sz - PGSIZE ≤ q.1 ∧ q.1 + q.2 ≤ sz := by
  have hbelow := hfit.below
  have hwords := hfit.2
  have hstrings := belowStrings_bounds h.base_mod h.sz_lt h.sz_mod (Nat.sub_le ..) hfit.1
  have hbounds := layout_bounds h.base_mod h.sz_lt hfit.1
  intro q hq
  rw [stackRegions, List.mem_cons, List.mem_cons, List.mem_map] at hq
  grind

/-- The arguments that `exec` has pushed are on the stack, as long as the page of the stack does
not change. -/
theorem Stacked.argsOnStack {m' : Mem} {name : List UInt8} {entry : ℕ}
    (h : Stacked k m₀ sz d m) (ha : d.lookup (pages sz - 1) = some ⟨a, userFlags⟩)
    (hargs : argv.length < MAXARG) (hfit : ArgsFit sz argv)
    (hwords : (m'.data a).Holds (argsSp sz argv - (sz - PGSIZE))
      ((ustackOf (belowStrings sz argv) (layout sz argv)).flatMap wordBytes))
    (hstrings : ∀ q ∈ (layout sz argv).zip argv,
      (m'.data a).Holds (q.1 - (sz - PGSIZE)) (q.2 ++ [0])) :
    ArgsOnStack { pgdir := d, sz, name, eip := entry, esp := argsSp sz argv } m' argv
      (layout sz argv) := by
  have hinside := hfit.inside h
  have hbelow := hfit.below
  have hfits := hfit.2
  have hsz := h.sz_lt
  have hmax : MAXARG = 32 := rfl
  have hlayout := layout_length sz argv
  have hbounds := layout_bounds h.base_mod hsz hfit.1
  have hbelow' := belowStrings_bounds h.base_mod hsz h.sz_mod (Nat.sub_le ..) hfit.1
  -- a word of `ustack`
  have hword : ∀ i w, (ustackOf (belowStrings sz argv) (layout sz argv))[i]? = some w →
      w < 2 ^ 32 → d.userWord m' (argsSp sz argv + 4 * i) = some w := by
    intro i w hi hw
    have hlt : i < 3 + argv.length + 1 := by
      rw [← hlayout, ← length_ustackOf (belowStrings sz argv)]
      exact (List.getElem?_eq_some_iff.mp hi).1
    have hlength : (wordBytes w).length = 4 := rfl
    apply Pgdir.UserHolds.userWord _ hw
    apply h.userHolds ha (by omega) (by omega)
    have hoff : argsSp sz argv + 4 * i - (sz - PGSIZE) =
        argsSp sz argv - (sz - PGSIZE) + 4 * i := by omega
    rw [hoff]
    exact holds_word hwords hi
  have haddr : ∀ addr ∈ layout sz argv, ∃ s, (addr, s) ∈ (layout sz argv).zip argv := by
    intro addr hmem
    rw [← List.map_fst_zip hlayout.le, List.mem_map] at hmem
    obtain ⟨q, hq, rfl⟩ := hmem
    exact ⟨q.2, hq⟩
  constructor
  case length => exact hlayout
  case returnAddress => exact hword 0 _ rfl (by decide)
  case argc =>
    apply hword 1 _ _ (by omega)
    rw [← hlayout]
    rfl
  case array =>
    apply hword 2 _ _ (show argsSp sz argv + 12 < 2 ^ 32 by omega)
    rw [ustackOf, hlayout]
    show some ((belowStrings sz argv + 2 ^ 32 - (argv.length + 1) * 4) % 2 ^ 32) =
      some (argsSp sz argv + 12)
    congr 1
    omega
  case address =>
    intro i hi
    have hsome : (layout sz argv)[i]? = some ((layout sz argv)[i]) :=
      List.getElem?_eq_getElem (by omega)
    obtain ⟨s, hs⟩ := haddr _ (List.getElem_mem (show i < (layout sz argv).length by omega))
    have hlt := (hbounds _ hs).2.1
    rw [hsome]
    show d.userWord m' (argsSp sz argv + 12 + 4 * i) = _
    rw [show argsSp sz argv + 12 + 4 * i = argsSp sz argv + 4 * (3 + i) by omega]
    apply hword (3 + i)
    · rw [getElem?_ustackOf, List.getElem?_append_left (by omega), hsome]
    · dsimp only at hlt
      omega
  case null =>
    show d.userWord m' (argsSp sz argv + 12 + 4 * argv.length) = _
    rw [show argsSp sz argv + 12 + 4 * argv.length = argsSp sz argv + 4 * (3 + argv.length) by
      omega]
    apply hword (3 + argv.length) 0 _ (by decide)
    rw [getElem?_ustackOf, ← hlayout, List.getElem?_concat_length]
  case aligned =>
    intro addr hmem
    obtain ⟨s, hs⟩ := haddr addr hmem
    exact (hbounds _ hs).2.2
  case strings =>
    intro q hq
    obtain ⟨hlo, hhi, -⟩ := hbounds q hq
    have hlength : (q.2 ++ [0]).length = q.2.length + 1 := List.length_append
    exact h.userHolds ha (by omega) (by omega) (hstrings q hq)
  case apart => exact hfit.apart h
  case inside => exact hinside
  case guard => exact fun va => h.userByte_guard

/-- `exec` of a program without segments, with arguments that fit. -/
theorem exec_emptyProgram_of_fit (hargs : argv.length < MAXARG) (hfit : ArgsFit 8192 argv) :
    ∃ p' fs' m', exec Kernel.sample Fs.sample {} ⟨0, Fs.ninode_pos⟩ [] argv .single
      (headerFs emptyProgram) .hundred = .ok (0, p', fs', m') := by
  obtain ⟨fs', d, m, h, heq⟩ := exec_emptyProgram argv
  obtain ⟨a, ha⟩ := h.exists_stack
  obtain ⟨b, hpush, -⟩ := h.pushArgs_of_fit ha hargs hfit
  rw [heq, execArgs, hpush, ok_bind]
  dsimp only
  have hsound : Sound Kernel.sample Proc.single.pgdir .hundred := Pgdir.single_sound_hundred
  rw [Pgdir.freevm_spec fun a => hsound.valid_of_owned, ok_bind]
  exact ⟨_, _, _, rfl⟩

/-- Arguments pass through `exec`: whenever it returns zero, the new program finds them on its
stack. -/
theorem exec_passes_args (k : Kernel) (sb : Superblock) (dev : Devsw) (cwd : Fin NINODE)
    (path : List UInt8) (argv : List (List UInt8)) (curproc p' : Proc) (fs fs' : Fs.State)
    (m m' : Mem) (hsound : Sound k curproc.pgdir m) (hcwd : 0 < (fs.icache cwd).ref)
    (hargs : argv.length < MAXARG)
    (hret : exec k sb dev cwd path argv curproc fs m = .ok (0, p', fs', m')) :
    ∃ addrs, ArgsOnStack p' m' argv addrs := by
  obtain ⟨-, hreplaced⟩ := (exec_ends hcwd hsound.mem_ok).of_ok hret
  dsimp only at hreplaced
  generalize hr : (0 : ℤ) = r at hreplaced
  cases hreplaced with
  | failed => cases hr
  | @done sz entry sp d m₁ m₂ m' h hfit hpush hfree =>
    obtain ⟨a, ha⟩ := h.exists_stack
    obtain ⟨b, hpush', hwords, hstrings⟩ := h.pushArgs_of_fit ha hargs hfit
    rw [hpush', Except.ok.injEq, Prod.mk.injEq, Option.some_inj] at hpush
    obtain ⟨rfl, rfl⟩ := hpush
    rw [Pgdir.freevm_spec fun a => hsound.valid_of_owned, Except.ok.injEq] at hfree
    -- the page of the stack was free, so it is not one of the old image
    have hold : a ∉ curproc.pgdir.owned := by
      intro hmem
      apply hsound.notMem_free hmem
      apply h.image.perm.mem_iff.mp
      apply List.mem_append_left
      exact Pgdir.mem_owned_of_lookup (by
        have htwo := h.two_le
        have htop := h.image.pages_le
        omega) ha
    have hdata : m'.data a = b := by
      rw [← hfree, Mem.putAll_data_of_notMem hold]
      exact Function.update_self ..
    refine ⟨layout sz argv, h.argsOnStack ha hargs hfit ?_ ?_⟩
    · rw [hdata]
      exact hwords
    · rw [hdata]
      exact hstrings

/-- Two arguments. -/
theorem exec_passes_args_two : ∃ p' fs' m' addrs,
    exec Kernel.sample Fs.sample {} ⟨0, Fs.ninode_pos⟩ [] [[0x6c, 0x73], [0x2d, 0x6c]] .single
      (headerFs emptyProgram) .hundred = .ok (0, p', fs', m') ∧
    ArgsOnStack p' m' [[0x6c, 0x73], [0x2d, 0x6c]] addrs := by
  have hfit : ArgsFit 8192 [[0x6c, 0x73], [0x2d, 0x6c]] :=
    ⟨⟨by decide, by decide, trivial⟩, by decide⟩
  obtain ⟨p', fs', m', hret⟩ := exec_emptyProgram_of_fit (by decide) hfit
  obtain ⟨addrs, h⟩ := exec_passes_args Kernel.sample Fs.sample {} ⟨0, Fs.ninode_pos⟩ []
    [[0x6c, 0x73], [0x2d, 0x6c]] .single p' (headerFs emptyProgram) fs' .hundred m'
    Pgdir.single_sound_hundred (by decide) (by decide) hret
  exact ⟨p', fs', m', addrs, hret, h⟩

end Xv6.Mmu
