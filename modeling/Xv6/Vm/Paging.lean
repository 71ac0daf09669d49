/-
# Pages and page tables

The free list of physical pages and the page tables of `vm.c`. A page directory is a page
with entries for page tables, each of which is a page with entries for pages. Both kinds
of entries are there or not; the permission bits are no part of the model. A table belongs
to its directory, and an entry of a table of the lower half of the address space to the
process; the upper half maps the kernel.

Virtual addresses are given in pages where the source steps through them page by page, and
in bytes where it compares sizes. `kfree` is only given pages that `kalloc` has returned, so
its check of the address is left out. The mappings of the kernel depend on where it is
linked and are a parameter.
-/

import Xv6.Files.Refs

namespace Xv6.Vm

open Xv6.Lib Xv6.Files

def PGSIZE : ℕ := 4096

def NPDENTRIES : ℕ := 1024

def NPTENTRIES : ℕ := 1024

def KERNBASE : ℕ := 0x80000000

/-- The panics of `vm.c`, and of the callers. -/
inductive Panic
  /-- "remap" -/
  | remap
  /-- "kfree" -/
  | kfree
  /-- "copyuvm: pte should exist" -/
  | copyuvmPte
  /-- "copyuvm: page not present" -/
  | copyuvmPage
  /-- "loaduvm: address should exist" -/
  | loaduvm
  /-- "loaduvm: addr must be page aligned" -/
  | loaduvmAlign
  /-- "clearpteu" -/
  | clearpteu
  /-- "freevm: no pgdir" -/
  | freevm
  /-- A panic of the open files. -/
  | files (e : Files.Panic)
  deriving DecidableEq, Repr

/-- A page table: its page and the pages of the entries that are present. -/
structure Table where
  page : Page
  pte : Fin NPTENTRIES → Option Page

/-- A page directory. -/
structure Pgdir where
  page : Page
  pde : Fin NPDENTRIES → Option Table

/-- The index in the directory of a virtual address, given in pages. -/
def PDX (v : ℕ) : Fin NPDENTRIES := ⟨v / NPTENTRIES % NPDENTRIES, Nat.mod_lt _ (by decide)⟩

/-- The index in its table. -/
def PTX (v : ℕ) : Fin NPTENTRIES := ⟨v % NPTENTRIES, Nat.mod_lt _ (by decide)⟩

/-- `PGROUNDUP`, in pages. -/
def pages (sz : ℕ) : ℕ := (sz + PGSIZE - 1) / PGSIZE

/-- The free list. -/
abbrev Free := List Page

def kalloc : Free → Option Page × Free
  | [] => (none, [])
  | a :: rest => (some a, rest)

def kfree (a : Page) (free : Free) : Free := a :: free

/-- `kfree` of several pages, in this order. -/
def kfreeAll (l : List Page) (free : Free) : Free := l.foldl (fun free a => kfree a free) free

/-- The pages that `freerange` frees, for addresses in bytes. -/
def pageRange (vstart vend : ℕ) : List Page :=
  List.range' (pages vstart) (vend / PGSIZE - pages vstart)

def freerange (vstart vend : ℕ) (free : Free) : Free := kfreeAll (pageRange vstart vend) free

namespace Pgdir

/-- The entry of a virtual address, if its table is there: `walkpgdir` with `alloc == 0`. -/
def entry (d : Pgdir) (v : ℕ) : Option (Option Page) := (d.pde (PDX v)).map fun t => t.pte (PTX v)

/-- `*pte = x`, if the table is there. -/
def setPte (d : Pgdir) (v : ℕ) (x : Option Page) : Pgdir :=
  match d.pde (PDX v) with
  | none => d
  | some t =>
    let t := { t with pte := Function.update t.pte (PTX v) x }
    { d with pde := Function.update d.pde (PDX v) (some t) }

/-- `walkpgdir` with `alloc != 0`, as far as it changes the directory: whether it has found or
made the table. -/
def walkpgdir (d : Pgdir) (v : ℕ) (free : Free) : Bool × Pgdir × Free :=
  match d.pde (PDX v) with
  | some _ => (true, d, free)
  | none =>
    match kalloc free with
    | (none, free) => (false, d, free)
    | (some a, free) =>
      (true, { d with pde := Function.update d.pde (PDX v) (some ⟨a, fun _ => none⟩) }, free)

/-- The loop of `mappages` over `n` pages. -/
def mapLoop : ℕ → ℕ → Page → Pgdir → Free → Except Panic (Bool × Pgdir × Free)
  | 0, _, _, d, free => .ok (true, d, free)
  | n + 1, v, pa, d, free =>
    match d.walkpgdir v free with
    | (false, d, free) => .ok (false, d, free)
    | (true, d, free) =>
      match d.entry v with
      | some (some _) => .error .remap
      | _ => mapLoop n (v + 1) (pa + 1) (d.setPte v (some pa)) free

/-- `mappages` of `size` bytes at the address `va`, both in bytes, to the page `pa`. -/
def mappages (d : Pgdir) (va size : ℕ) (pa : Page) (free : Free) :
    Except Panic (Bool × Pgdir × Free) :=
  let a := va / PGSIZE
  let last := (va + size - 1) % 2 ^ 32 / PGSIZE
  mapLoop (last - a + 1) a pa d free

/-- The loop of `deallocuvm` from page `v` on. Where there is no table it goes on with the
next one. -/
def deallocLoop (oldsz : ℕ) : ℕ → ℕ → Pgdir → Free → Except Panic (Pgdir × Free)
  | 0, _, d, free => .ok (d, free)
  | fuel + 1, v, d, free =>
    if v * PGSIZE < oldsz then
      match d.entry v with
      | none => deallocLoop oldsz fuel ((v / NPTENTRIES + 1) * NPTENTRIES) d free
      | some none => deallocLoop oldsz fuel (v + 1) d free
      | some (some pa) =>
        if pa = 0 then .error .kfree
        else deallocLoop oldsz fuel (v + 1) (d.setPte v none) (Vm.kfree pa free)
    else .ok (d, free)

/-- `deallocuvm`, with the new size. A turn of the loop moves on by a page at least. -/
def deallocuvm (d : Pgdir) (oldsz newsz : ℕ) (free : Free) : Except Panic (ℕ × Pgdir × Free) :=
  if newsz ≥ oldsz then .ok (oldsz, d, free)
  else do
    let (d, free) ← deallocLoop oldsz (pages oldsz) (pages newsz) d free
    return (newsz, d, free)

/-- A turn of the loop of `freevm` over the directory. -/
def freeTable (d : Pgdir) (free : Free) (i : Fin NPDENTRIES) : Free :=
  match d.pde i with
  | some t => Vm.kfree t.page free
  | none => free

def freevm (d : Pgdir) (free : Free) : Except Panic Free := do
  let (_, d, free) ← d.deallocuvm KERNBASE 0 free
  return Vm.kfree d.page ((List.finRange NPDENTRIES).foldl d.freeTable free)

/-- The loop of `allocuvm` over `n` pages from `v` on. -/
def allocLoop (oldsz newsz : ℕ) : ℕ → ℕ → Pgdir → Free → Except Panic (ℕ × Pgdir × Free)
  | 0, _, d, free => .ok (newsz, d, free)
  | n + 1, v, d, free =>
    match kalloc free with
    | (none, free) => do
        let (_, d, free) ← d.deallocuvm newsz oldsz free
        return (0, d, free)
    | (some mem, free) => do
        let (ok, d, free) ← d.mappages (v * PGSIZE) PGSIZE mem free
        if ok then allocLoop oldsz newsz n (v + 1) d free
        else do
          let (_, d, free) ← d.deallocuvm newsz oldsz free
          return (0, d, Vm.kfree mem free)

-- irreducible because Lean would count up to `KERNBASE` to decide the test of the size
/-- `allocuvm`, with the new size. -/
@[irreducible]
def allocuvm (d : Pgdir) (oldsz newsz : ℕ) (free : Free) : Except Panic (ℕ × Pgdir × Free) :=
  if newsz ≥ KERNBASE then .ok (0, d, free)
  else if newsz < oldsz then .ok (oldsz, d, free)
  else allocLoop oldsz newsz (pages newsz - pages oldsz) (pages oldsz) d free

end Pgdir

/-- An entry of `kmap`: `size` bytes of the kernel, in bytes but for the page they are mapped
to. -/
structure Kmap where
  virt : ℕ
  size : ℕ
  phys_start : Page
  in_kernel : KERNBASE ≤ virt
  size_pos : 0 < size
  in_range : virt + size ≤ 2 ^ 32

variable (kmap : List Kmap)

/-- The loop of `setupkvm`. -/
def mapKernel : List Kmap → Pgdir → Free → Except Panic (Bool × Pgdir × Free)
  | [], d, free => .ok (true, d, free)
  | k :: rest, d, free => do
      let (ok, d, free) ← d.mappages k.virt k.size k.phys_start free
      if ok then mapKernel rest d free else return (false, d, free)

def setupkvm (free : Free) : Except Panic (Option Pgdir × Free) :=
  match kalloc free with
  | (none, free) => .ok (none, free)
  | (some a, free) => do
      let (ok, d, free) ← mapKernel kmap ⟨a, fun _ => none⟩ free
      if ok then return (some d, free)
      else do
        let free ← d.freevm free
        return (none, free)

/-- The loop of `copyuvm` over `n` pages of `pgdir` from `v` on. -/
def copyLoop (pgdir : Pgdir) : ℕ → ℕ → Pgdir → Free → Except Panic (Option Pgdir × Free)
  | 0, _, d, free => .ok (some d, free)
  | n + 1, v, d, free =>
    match pgdir.entry v with
    | none => .error .copyuvmPte
    | some none => .error .copyuvmPage
    | some (some _) =>
      match kalloc free with
      | (none, free) => do
          let free ← d.freevm free
          return (none, free)
      | (some mem, free) => do
          let (ok, d, free) ← d.mappages (v * PGSIZE) PGSIZE mem free
          if ok then copyLoop pgdir n (v + 1) d free
          else do
            let free ← d.freevm (kfree mem free)
            return (none, free)

def copyuvm (pgdir : Pgdir) (sz : ℕ) (free : Free) : Except Panic (Option Pgdir × Free) := do
  let (d, free) ← setupkvm kmap free
  match d with
  | none => return (none, free)
  | some d => copyLoop pgdir (pages sz) 0 d free

end Xv6.Vm
