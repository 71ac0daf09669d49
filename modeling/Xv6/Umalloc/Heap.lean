/-
# The allocator of user programs

`free`, `morecore` and `malloc` of `umalloc.c`. Memory is looked at through the
headers in it: `mem` gives the header at an address. Addresses are numbers of bytes;
they are below `2 ^ 32`, so only the sizes computed from an argument of `malloc` can
overflow.

What `sbrk` answers is up to the environment. The loops are counted by `fuel`, and
`none` is a loop that has not ended. `live` and `regions` are kept for the statements
only: the blocks in use and what `sbrk` has given.
-/

import Mathlib.Algebra.Order.Ring.Nat
import Xv6.Lib.Machine
import Xv6.Lib.Ring

namespace Xv6.Umalloc

open Function Xv6.Lib

/-- `union header`. -/
structure Header where
  ptr : ℕ := 0
  /-- In units of `sizeof(Header)`. -/
  size : ℕ := 0
  deriving DecidableEq

/-- `sizeof(Header)` -/
def HEADER : ℕ := 8

abbrev Mem := ℕ → Header

structure Heap where
  mem : Mem := fun _ => {}
  /-- `none` is the null pointer. -/
  freep : Option ℕ := none
  /-- The headers of the blocks that `malloc` has returned and that are not freed yet. -/
  live : List ℕ := []
  /-- Address and length of what `sbrk` has given. -/
  regions : List (ℕ × ℕ) := []

/-- The test that ends the loop of `free`, in its two places. -/
def Mem.fits (mem : Mem) (bp p : ℕ) : Bool :=
  p < bp ∧ bp < (mem p).ptr ∨ (mem p).ptr ≤ p ∧ (p < bp ∨ bp < (mem p).ptr)

/-- Join the block to the free block above it if they touch. -/
def Mem.joinUpper (mem : Mem) (bp p : ℕ) : Mem :=
  if bp + HEADER * (mem bp).size = (mem p).ptr then
    update mem bp
      { ptr := (mem (mem p).ptr).ptr, size := (mem bp).size + (mem (mem p).ptr).size }
  else update mem bp { mem bp with ptr := (mem p).ptr }

/-- Join the block to the free block below it if they touch. -/
def Mem.joinLower (mem : Mem) (bp p : ℕ) : Mem :=
  if p + HEADER * (mem p).size = bp then
    update mem p { ptr := (mem bp).ptr, size := (mem p).size + (mem bp).size }
  else update mem p { mem p with ptr := bp }

namespace Heap

def free (fuel : ℕ) (h : Heap) (ap : ℕ) : Option Heap := do
  let bp := ap - HEADER
  let p ← h.freep
  let p ← seek (h.mem.fits bp) (fun p => (h.mem p).ptr) fuel p
  return { h with
    mem := (h.mem.joinUpper bp p).joinLower bp p
    freep := some p
    live := h.live.erase bp }

/-- The number of units `morecore` asks for. -/
def coreUnits (nu : ℕ) : ℕ := if nu < 4096 then 4096 else nu

/-- What `morecore` puts at the address it gets from `sbrk`. -/
def extend (h : Heap) (nu hp : ℕ) : Heap :=
  { h with
    mem := update h.mem hp { h.mem hp with size := nu }
    live := hp :: h.live
    regions := (hp, nu * HEADER % 2 ^ 32) :: h.regions }

/-- `morecore`; the inner `none` is its return value 0. -/
def morecore (fuel : ℕ) (h : Heap) (nu : ℕ) : Option ℕ → Option (Option Heap)
  | none => some none
  | some hp => ((h.extend (coreUnits nu) hp).free fuel (hp + HEADER)).map some

/-- Take `nunits` units from the free block `p`, which comes after `prevp`; also the address
that `malloc` returns. -/
def take (h : Heap) (nunits prevp p : ℕ) : Heap × ℕ :=
  if (h.mem p).size = nunits then
    ({ h with
        mem := update h.mem prevp { h.mem prevp with ptr := (h.mem p).ptr }
        freep := some prevp
        live := p :: h.live },
      p + HEADER)
  else
    let size := (h.mem p).size - nunits
    let mem := update h.mem p { h.mem p with size }
    let p := p + HEADER * size
    ({ h with
        mem := update mem p { mem p with size := nunits }
        freep := some prevp
        live := p :: h.live },
      p + HEADER)

/-- The loop of `malloc`. The answer of `sbrk` is used up by the first call of `morecore`. -/
def mallocLoop (nunits : ℕ) : ℕ → Heap → Option ℕ → ℕ → ℕ → Option (Heap × ℕ)
  | 0, _, _, _, _ => none
  | fuel + 1, h, answer, prevp, p =>
    if (h.mem p).size ≥ nunits then some (h.take nunits prevp p)
    else if some p = h.freep then do
      match ← h.morecore fuel nunits answer with
      | none => some (h, 0)
      | some h =>
        let p ← h.freep
        mallocLoop nunits fuel h none p (h.mem p).ptr
    else mallocLoop nunits fuel h answer p (h.mem p).ptr

def nunits (nbytes : ℕ) : ℕ := (nbytes + HEADER - 1) % 2 ^ 32 / HEADER + 1

/-- The first call of `malloc` makes `base` the free list. -/
def start (base : ℕ) (h : Heap) : Heap :=
  match h.freep with
  | none => { h with mem := update h.mem base ⟨base, 0⟩, freep := some base }
  | some _ => h

/-- `malloc`; it returns the null pointer or the address after a header. -/
def malloc (base fuel : ℕ) (h : Heap) (nbytes : ℕ) (answer : Option ℕ) : Option (Heap × ℕ) := do
  let h := h.start base
  let prevp ← h.freep
  mallocLoop (nunits nbytes) fuel h answer prevp (h.mem prevp).ptr

end Heap

inductive Label
  /-- A call of `malloc`, with the answer of `sbrk` in case it is asked. -/
  | malloc (fuel nbytes : ℕ) (answer : Option ℕ)
  | free (fuel ap : ℕ)
  /-- The program stores something in a block that it has. -/
  | store (a : ℕ) (x : Header)

namespace Heap

/-- A region that `sbrk` may give lies above `base` and all earlier regions. -/
def Fresh (base : ℕ) (h : Heap) (hp : ℕ) : Prop :=
  base + HEADER ≤ hp ∧ ∀ r ∈ h.regions, r.1 + r.2 ≤ hp
  deriving Decidable

/-- The program asks for at most `2 ^ 30` bytes, frees pointers that it got from `malloc` and
has not freed, and stores only behind the headers of its blocks. -/
def Allowed (base : ℕ) (h : Heap) : Label → Prop
  | .malloc _ nbytes answer => nbytes ≤ 2 ^ 30 ∧ ∀ hp ∈ answer, h.Fresh base hp
  | .free _ ap => ∃ b ∈ h.live, ap = b + HEADER
  | .store a _ => ∃ b ∈ h.live, b + HEADER ≤ a ∧ a < b + HEADER * (h.mem b).size

instance (base : ℕ) (h : Heap) (a : Label) : Decidable (h.Allowed base a) := by
  cases a <;> dsimp only [Allowed] <;> infer_instance

/-- What a label does, if its loops end. -/
def perform (base : ℕ) (h : Heap) : Label → Option Heap
  | .malloc fuel nbytes answer => (h.malloc base fuel nbytes answer).map Prod.fst
  | .free fuel ap => h.free fuel ap
  | .store a x => some { h with mem := update h.mem a x }

end Heap

/-- A program that uses the allocator; `base` is the address of the variable. -/
def system (base : ℕ) : Machine Heap Label where
  Init h := h = {}
  Enabled h a := h.Allowed base a ∧ (h.perform base a).isSome = true
  next h a := (h.perform base a).getD h

instance (base : ℕ) (h : Heap) (a : Label) : Decidable ((system base).Enabled h a) :=
  inferInstanceAs (Decidable (_ ∧ _))

end Xv6.Umalloc
