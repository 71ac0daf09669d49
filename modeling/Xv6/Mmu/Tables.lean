/-
# Page tables and their contents

The functions of `vm.c` with what the abstract model of the pages leaves out: the
permission bits of an entry, the contents of a page, addresses as 32-bit numbers, and
the check of `kfree`.

A page directory says which page tables there are. The entries of the tables are kept in
one array by the number of the page they map, since a table belongs to one directory; an
entry of a table that is not there is never looked at. Pages are numbers of physical
pages. All addresses are below `2 ^ 32`, and sums that can be larger are reduced.
-/

import Xv6.Fs.Dir
import Xv6.Vm.Conserve

namespace Xv6.Mmu

open Xv6.Lib Xv6.Files
open Xv6.Vm (PGSIZE NPDENTRIES NPTENTRIES KERNBASE)

/-- `EXTMEM` -/
def EXTMEM : ℕ := 0x100000

def PHYSTOP : ℕ := 0xE000000

def DEVSPACE : ℕ := 0xFE000000

def KERNLINK : ℕ := KERNBASE + EXTMEM

/-- How a function ends that does not return. -/
inductive Stop
  /-- "remap" -/
  | remap
  /-- "kfree" -/
  | kfree
  /-- "copyuvm: pte should exist" -/
  | copyuvmPte
  /-- "copyuvm: page not present" -/
  | copyuvmPage
  /-- "loaduvm: addr must be page aligned" -/
  | loaduvmAlign
  /-- "loaduvm: address should exist" -/
  | loaduvm
  /-- "clearpteu" -/
  | clearpteu
  /-- "PHYSTOP too high" -/
  | phystop
  /-- `uva2ka` follows the null pointer. -/
  | nullPte
  /-- A loop has not ended. -/
  | running
  /-- A panic of the file system. -/
  | fs (e : Fs.Panic)
  deriving DecidableEq

/-- The twelve low bits of an entry. -/
abbrev Flags := BitVec 12

def PTE_P : Flags := 0x001

def PTE_W : Flags := 0x002

def PTE_U : Flags := 0x004

/-- An entry of a page table: `PTE_ADDR`, as a page, and `PTE_FLAGS`. -/
structure Pte where
  addr : Page := 0
  flags : Flags := 0
  deriving DecidableEq, Repr

/-- `*pte & f` -/
def Pte.Has (x : Pte) (f : Flags) : Prop := x.flags &&& f ≠ 0
  deriving Decidable

@[ext]
structure Pgdir where
  page : Page
  /-- The pages of the page tables that are there. -/
  pde : ℕ → Option Page
  pte : ℕ → Pte

/-- A page directory that is filled with zeros. -/
def Pgdir.empty (a : Page) : Pgdir := ⟨a, fun _ => none, fun _ => {}⟩

/-- `kmem.freelist`, and the contents of the pages. The last field is for the record: the pages
into which `loaduvm` has read from a file. -/
structure Mem where
  free : List Page
  data : Page → Bytes := fun _ _ => 0
  loaded : List Page := []

/-- Where the linker has put the kernel: `data` and `end`, as virtual addresses. -/
structure Kernel where
  data : ℕ
  kend : ℕ
  data_aligned : data % PGSIZE = 0
  link_lt : KERNLINK < data
  data_le : data ≤ kend
  kend_lt : kend < KERNBASE + PHYSTOP

def PDX (va : ℕ) : ℕ := va / 2 ^ 22 % NPDENTRIES

def PTX (va : ℕ) : ℕ := va / 2 ^ 12 % NPTENTRIES

/-- `PGADDR(d, t, o)` for `t` and `o` zero. -/
def PGADDR (d : ℕ) : ℕ := d * 2 ^ 22 % 2 ^ 32

/-- `PGROUNDDOWN` -/
def pgRoundDown (a : ℕ) : ℕ := a / PGSIZE * PGSIZE

/-- `PGROUNDUP` -/
def pgRoundUp (sz : ℕ) : ℕ := (sz + PGSIZE - 1) % 2 ^ 32 / PGSIZE * PGSIZE

/-- The place of the entry of a virtual address. -/
def pageOf (va : ℕ) : ℕ := PDX va * NPTENTRIES + PTX va

namespace Mem

/-- Fill or copy a whole page. -/
def setPage (m : Mem) (a : Page) (bytes : Bytes) : Mem :=
  { m with data := Function.update m.data a bytes }

def kalloc (m : Mem) : Option (Page × Mem) :=
  match m.free with
  | [] => none
  | a :: free => some (a, { m with free })

end Mem

/-- A page that `kfree` accepts. -/
def Kernel.Valid (k : Kernel) (a : Page) : Prop :=
  k.kend ≤ KERNBASE + a * PGSIZE ∧ a * PGSIZE < PHYSTOP
  deriving Decidable

variable (k : Kernel)

/-- `kfree`, which fills the page with junk. -/
def kfree (a : Page) (m : Mem) : Except Stop Mem :=
  if k.Valid a then .ok { m.setPage a (fun _ => 1) with free := a :: m.free } else .error .kfree

namespace Pgdir

/-- `walkpgdir` with `alloc == 0`: the entry it finds. -/
def walk (d : Pgdir) (va : ℕ) : Option Pte := (d.pde (PDX va)).map fun _ => d.pte (pageOf va)

/-- `walkpgdir` with `alloc != 0`: it finds or makes the table. -/
def walkAlloc (d : Pgdir) (va : ℕ) (m : Mem) : Option (Pgdir × Mem) :=
  match d.pde (PDX va) with
  | some _ => some (d, m)
  | none => m.kalloc.map fun (a, m) =>
    ({ d with
        pde := Function.update d.pde (PDX va) (some a)
        pte := fun v => if v / NPTENTRIES = PDX va then {} else d.pte v }, m)

/-- `*pte = x` -/
def setPte (d : Pgdir) (va : ℕ) (x : Pte) : Pgdir :=
  { d with pte := Function.update d.pte (pageOf va) x }

/-- The loop of `mappages`, which takes `n` turns. -/
def mapLoop (perm : Flags) : ℕ → ℕ → Page → Pgdir → Mem → Except Stop (Bool × Pgdir × Mem)
  | 0, _, _, d, m => .ok (true, d, m)
  | n + 1, a, pa, d, m =>
    match d.walkAlloc a m with
    | none => .ok (false, d, m)
    | some (d, m) =>
      if (d.pte (pageOf a)).Has PTE_P then .error .remap
      else mapLoop perm n ((a + PGSIZE) % 2 ^ 32) (pa + 1)
        (d.setPte a ⟨pa, perm ||| PTE_P⟩) m

/-- `mappages`; false is its return value -1. -/
def mappages (d : Pgdir) (va size : ℕ) (pa : Page) (perm : Flags) (m : Mem) :
    Except Stop (Bool × Pgdir × Mem) :=
  let a := pgRoundDown va
  let last := pgRoundDown ((va + size + (2 ^ 32 - 1)) % 2 ^ 32)
  mapLoop perm ((last + 2 ^ 32 - a) % 2 ^ 32 / PGSIZE + 1) a pa d m

/-- The loop of `deallocuvm`. -/
def deallocLoop (oldsz : ℕ) : ℕ → ℕ → Pgdir → Mem → Except Stop (Pgdir × Mem)
  | 0, _, _, _ => .error .running
  | fuel + 1, a, d, m =>
    if a < oldsz then
      match d.walk a with
      | none =>
        let a := (PGADDR (PDX a + 1) + (2 ^ 32 - PGSIZE)) % 2 ^ 32
        deallocLoop oldsz fuel ((a + PGSIZE) % 2 ^ 32) d m
      | some x =>
        if x.Has PTE_P then
          if x.addr = 0 then .error .kfree
          else do
            let m ← kfree k x.addr m
            deallocLoop oldsz fuel ((a + PGSIZE) % 2 ^ 32) (d.setPte a {}) m
        else deallocLoop oldsz fuel ((a + PGSIZE) % 2 ^ 32) d m
    else .ok (d, m)

/-- `deallocuvm`, with the size it returns. Every turn of the loop is given to go on by a page,
so it has turns enough. -/
def deallocuvm (d : Pgdir) (oldsz newsz : ℕ) (m : Mem) : Except Stop (ℕ × Pgdir × Mem) :=
  if newsz ≥ oldsz then .ok (oldsz, d, m)
  else do
    let (d, m) ← deallocLoop k oldsz (oldsz / PGSIZE + 2) (pgRoundUp newsz) d m
    return (newsz, d, m)

/-- The loop of `freevm` over the entries `i` of the directory. -/
def freeTables (d : Pgdir) : List ℕ → Mem → Except Stop Mem
  | [], m => .ok m
  | i :: rest, m =>
    match d.pde i with
    | none => d.freeTables rest m
    | some a => do
        let m ← kfree k a m
        d.freeTables rest m

def freevm (d : Pgdir) (m : Mem) : Except Stop Mem := do
  let (_, d, m) ← d.deallocuvm k KERNBASE 0 m
  let m ← d.freeTables k (List.range NPDENTRIES) m
  kfree k d.page m

/-- The loop of `allocuvm`, which takes `n` turns; also the size that `allocuvm` returns. -/
def allocLoop (oldsz newsz : ℕ) : ℕ → ℕ → Pgdir → Mem → Except Stop (ℕ × Pgdir × Mem)
  | 0, _, d, m => .ok (newsz, d, m)
  | n + 1, a, d, m =>
    match m.kalloc with
    | none => do
        let (_, d, m) ← d.deallocuvm k newsz oldsz m
        return (0, d, m)
    | some (mem, m) => do
        let m := m.setPage mem fun _ => 0
        let (ok, d, m) ← d.mappages a PGSIZE mem (PTE_W ||| PTE_U) m
        if ok then allocLoop oldsz newsz n (a + PGSIZE) d m
        else do
          let (_, d, m) ← d.deallocuvm k newsz oldsz m
          let m ← kfree k mem m
          return (0, d, m)

def allocuvm (d : Pgdir) (oldsz newsz : ℕ) (m : Mem) : Except Stop (ℕ × Pgdir × Mem) :=
  if newsz ≥ KERNBASE then .ok (0, d, m)
  else if newsz < oldsz then .ok (oldsz, d, m)
  else
    let a := pgRoundUp oldsz
    allocLoop k oldsz newsz ((newsz + PGSIZE - 1 - a) / PGSIZE) a d m

end Pgdir

/-- An entry of `kmap`. -/
structure Kmap where
  virt : ℕ
  phys_start : ℕ
  phys_end : ℕ
  perm : Flags

/-- `k->phys_end - k->phys_start` -/
def Kmap.size (e : Kmap) : ℕ := (e.phys_end + 2 ^ 32 - e.phys_start) % 2 ^ 32

def kmap : List Kmap :=
  [⟨KERNBASE, 0, EXTMEM, PTE_W⟩,
    ⟨KERNLINK, KERNLINK - KERNBASE, k.data - KERNBASE, 0⟩,
    ⟨k.data, k.data - KERNBASE, PHYSTOP, PTE_W⟩,
    ⟨DEVSPACE, DEVSPACE, 0, PTE_W⟩]

/-- The loop of `setupkvm`. -/
def mapKernel : List Kmap → Pgdir → Mem → Except Stop (Bool × Pgdir × Mem)
  | [], d, m => .ok (true, d, m)
  | e :: rest, d, m => do
      let (ok, d, m) ← d.mappages e.virt e.size (e.phys_start / PGSIZE) e.perm m
      if ok then mapKernel rest d m else return (false, d, m)

def setupkvm (m : Mem) : Except Stop (Option Pgdir × Mem) :=
  match m.kalloc with
  | none => .ok (none, m)
  | some (a, m) =>
    if KERNBASE + PHYSTOP > DEVSPACE then .error .phystop
    else do
      let (ok, d, m) ← mapKernel (kmap k) (.empty a) m
      if ok then return (some d, m)
      else do
        let m ← d.freevm k m
        return (none, m)

/-- The loop of `copyuvm`, which takes `n` turns. -/
def copyLoop (pgdir : Pgdir) : ℕ → ℕ → Pgdir → Mem → Except Stop (Option Pgdir × Mem)
  | 0, _, d, m => .ok (some d, m)
  | n + 1, i, d, m =>
    match pgdir.walk i with
    | none => .error .copyuvmPte
    | some x =>
      if ¬ x.Has PTE_P then .error .copyuvmPage
      else
        match m.kalloc with
        | none => do
            let m ← d.freevm k m
            return (none, m)
        | some (mem, m) => do
            let m := m.setPage mem (m.data x.addr)
            let (ok, d, m) ← d.mappages i PGSIZE mem x.flags m
            if ok then copyLoop pgdir n (i + PGSIZE) d m
            else do
              let m ← kfree k mem m
              let m ← d.freevm k m
              return (none, m)

/-- `copyuvm`; none is the null pointer. -/
def copyuvm (pgdir : Pgdir) (sz : ℕ) (m : Mem) : Except Stop (Option Pgdir × Mem) := do
  let (d, m) ← setupkvm k m
  match d with
  | none => return (none, m)
  | some d => copyLoop k pgdir ((sz + PGSIZE - 1) / PGSIZE) 0 d m

/-- What `growproc` and `exec` change of a process; `eip` and `esp` are in its trap frame. -/
structure Proc where
  pgdir : Pgdir
  sz : ℕ
  name : List UInt8 := []
  eip : ℕ := 0
  esp : ℕ := 0

/-- `growproc`. -/
def growproc (curproc : Proc) (n : ℤ) (m : Mem) : Except Stop (ℤ × Proc × Mem) := do
  let sz := curproc.sz
  let next := (((sz : ℤ) + n) % 2 ^ 32).toNat
  if n > 0 then
    let (sz, pgdir, m) ← curproc.pgdir.allocuvm k sz next m
    if sz = 0 then return (-1, { curproc with pgdir }, m)
    else return (0, { curproc with pgdir, sz }, m)
  else if n < 0 then
    let (sz, pgdir, m) ← curproc.pgdir.deallocuvm k sz next m
    if sz = 0 then return (-1, { curproc with pgdir }, m)
    else return (0, { curproc with pgdir, sz }, m)
  else return (0, curproc, m)

end Xv6.Mmu
