/-
# The arguments of system calls

`syscall.c`: the kernel reads the arguments of a call from the user's stack, at addresses that
the user chooses. Addresses and sizes are the 32-bit words of the machine, and what a function
reads is part of its result, so that a check that wraps around would show as a read outside the
process. The results hold for every stack pointer and every contents of the memory, as long as
the size of the process is at most `KERNBASE`.
-/

import Xv6.Lib.Access
import Xv6.Mmu.Stack

namespace Xv6.Syscall

open Xv6.Lib
open Xv6.Files (NOFILE)
open Xv6.Vm (PGSIZE KERNBASE pages)
open Xv6.Mmu (MAXARG)

/-- What the functions of `syscall.c` see of the calling process. -/
structure Caller (F : Type) where
  sz : UInt32
  /-- `tf->esp`. -/
  esp : UInt32
  mem : Bytes
  ofile : Fin NOFILE → Option F := fun _ => none

namespace Caller

variable {F : Type} (p : Caller F)

/-- `*(char*)addr` -/
def load (addr : UInt32) : Access ℕ UInt8 := .read p.mem addr.toNat

/-- `*(int*)addr` -/
def loadInt (addr : UInt32) : Access ℕ UInt32 := do
  let b₀ ← p.load addr
  let b₁ ← p.load (addr + 1)
  let b₂ ← p.load (addr + 2)
  let b₃ ← p.load (addr + 3)
  return b₀.toUInt32 ||| b₁.toUInt32 <<< 8 ||| b₂.toUInt32 <<< 16 ||| b₃.toUInt32 <<< 24

/-- `fetchint`; a failure is the return value -1. -/
def fetchint (addr : UInt32) : Access ℕ UInt32 :=
  if addr ≥ p.sz ∨ addr + 4 > p.sz then .fail else p.loadInt addr

/-- The loop of `fetchstr` for the string at `addr`. -/
def fetchstrLoop (addr : UInt32) : ℕ → UInt32 → Access ℕ Int32
  | 0, _ => .fail
  | fuel + 1, s =>
    if s < p.sz then do
      let b ← p.load s
      if b = 0 then return (s - addr).toInt32 else fetchstrLoop addr fuel (s + 1)
    else .fail

/-- `fetchstr`, with the pointer it stores and the length it returns. The loop goes up to `sz`,
so it has no more turns than that. -/
def fetchstr (addr : UInt32) : Access ℕ (UInt32 × Int32) :=
  if addr ≥ p.sz then .fail
  else do
    let n ← p.fetchstrLoop addr p.sz.toNat addr
    return (addr, n)

def argint (n : UInt32) : Access ℕ UInt32 := p.fetchint (p.esp + 4 + 4 * n)

def argptr (n : UInt32) (size : Int32) : Access ℕ UInt32 := do
  let i ← p.argint n
  if size < 0 ∨ i ≥ p.sz ∨ i + size.toUInt32 > p.sz then .fail else return i

def argstr (n : UInt32) : Access ℕ (UInt32 × Int32) := do
  let addr ← p.argint n
  p.fetchstr addr

def argfd (n : UInt32) : Access ℕ (Fin NOFILE × F) := do
  let fd ← p.argint n
  if fd.toInt32 < 0 then .fail
  else if h : fd.toNat < NOFILE then
    match p.ofile ⟨fd.toNat, h⟩ with
    | none => .fail
    | some f => return (⟨fd.toNat, h⟩, f)
  else .fail

/-- The two pointers of `sys_waitx`. -/
def sysWaitx : Access ℕ (UInt32 × UInt32) := do
  let wtime ← p.argptr 0 4
  let rtime ← p.argptr 1 4
  return (wtime, rtime)

/-- The arguments of `sys_read` and of `sys_write`. -/
def sysReadWrite : Access ℕ (F × UInt32 × Int32) := do
  let (_, f) ← p.argfd 0
  let n ← p.argint 2
  let buf ← p.argptr 1 n.toInt32
  return (f, buf, n.toInt32)

/-- The loop of `sys_exec`, with as many turns left as there is room in `argv`. -/
def sysExecLoop (uargv : UInt32) : ℕ → UInt32 → Access ℕ (List (UInt32 × Int32))
  | 0, _ => .fail
  | room + 1, i => do
      let uarg ← p.fetchint (uargv + 4 * i)
      if uarg = 0 then return []
      else do
        let s ← p.fetchstr uarg
        let rest ← sysExecLoop uargv room (i + 1)
        return s :: rest

/-- The arguments of `sys_exec`. -/
def sysExec : Access ℕ ((UInt32 × Int32) × List (UInt32 × Int32)) := do
  let path ← p.argstr 0
  let uargv ← p.argint 1
  let argv ← p.sysExecLoop uargv MAXARG 0
  return (path, argv)

section Words

variable {a b : UInt32}

theorem toNat_add_of_lt (h : a.toNat + b.toNat < 2 ^ 32) : (a + b).toNat = a.toNat + b.toNat := by
  rw [UInt32.toNat_add, Nat.mod_eq_of_lt h]

/-- A size that is not negative, as an unsigned number. -/
theorem toNat_toUInt32 {n : Int32} (h : 0 ≤ n.toInt) : (n.toUInt32.toNat : ℤ) = n.toInt := by
  have hcond : n.toInt = if 2 * n.toUInt32.toNat < 2 ^ 32 then (n.toUInt32.toNat : ℤ)
      else n.toUInt32.toNat - 2 ^ 32 := BitVec.toInt_eq_toNat_cond _
  grind [n.toUInt32.toNat_lt]

theorem toInt_toInt32 (h : a.toNat < 2 ^ 31) : a.toInt32.toInt = a.toNat := by
  have hcond : a.toInt32.toInt = if 2 * a.toNat < 2 ^ 32 then (a.toNat : ℤ)
      else a.toNat - 2 ^ 32 := BitVec.toInt_eq_toNat_cond _
  rw [hcond, if_pos (by omega)]

end Words

/-- The program reads inside the process only. -/
abbrev Inside {α : Type} (x : Access ℕ α) (Q : α → Prop) : Prop :=
  x.Within (· < p.sz.toNat) Q

/-- The first NUL from an address on is at a distance of `d`, inside the process. -/
def NulAt (addr d : ℕ) : Prop :=
  addr + d < p.sz.toNat ∧ p.mem (addr + d) = 0 ∧ ∀ i < d, p.mem (addr + i) ≠ 0

/-- A pointer to a string inside the process, with its length. -/
def IsString (r : UInt32 × Int32) : Prop := ∃ d : ℕ, r.2.toInt = d ∧ p.NulAt r.1.toNat d

variable {p} {addr s n : UInt32} {size : Int32} {d fuel : ℕ}

theorem load_inside (h : addr.toNat < p.sz.toNat) :
    p.Inside (p.load addr) fun b => b = p.mem addr.toNat := .read h

theorem fetchstrLoop_inside : p.Inside (p.fetchstrLoop addr fuel s) fun _ => True := by
  induction fuel generalizing s with
  | zero => exact .fail
  | succ fuel ih =>
    rw [fetchstrLoop]
    apply Access.Within.ite _ (fun _ => .fail)
    intro hlt
    apply (load_inside (UInt32.lt_iff_toNat_lt.mp hlt)).bind
    intro b _
    exact .ite (fun _ => .pure trivial) fun _ => ih

/-- A turn of the loop of `fetchstr`. -/
theorem fetchstrLoop_step (h : s.toNat < p.sz.toNat) :
    (p.fetchstrLoop addr (fuel + 1) s).result =
      if p.mem s.toNat = 0 then some (s - addr).toInt32
      else (p.fetchstrLoop addr fuel (s + 1)).result := by
  rw [fetchstrLoop, if_pos (UInt32.lt_iff_toNat_lt.mpr h), Access.result_bind]
  show (if p.mem s.toNat = 0 then _ else _ : Access ℕ Int32).result = _
  split <;> rfl

theorem exists_nulAt {addr a : ℕ} (hle : addr ≤ a) (hlt : a < p.sz.toNat) (ha : p.mem a = 0) :
    ∃ d, p.NulAt addr d := by
  have hex : ∃ d, addr + d < p.sz.toNat ∧ p.mem (addr + d) = 0 :=
    ⟨a - addr, by rw [Nat.add_sub_cancel' hle]; exact ⟨hlt, ha⟩⟩
  obtain ⟨hin, hnul⟩ := Nat.find_spec hex
  refine ⟨Nat.find hex, hin, hnul, fun i hi hzero => ?_⟩
  exact Nat.find_min hex hi ⟨by omega, hzero⟩

theorem NulAt.unique {addr d' : ℕ} (h : p.NulAt addr d) (h' : p.NulAt addr d') : d = d' := by
  apply Nat.le_antisymm
  · exact Nat.le_of_not_lt fun hlt => h.2.2 d' hlt h'.2.1
  · exact Nat.le_of_not_lt fun hlt => h'.2.2 d hlt h.2.1

section Kernbase

variable (hsz : p.sz.toNat ≤ KERNBASE)

include hsz

theorem fetchint_inside : p.Inside (p.fetchint addr) fun _ => addr.toNat + 4 ≤ p.sz.toNat := by
  change p.sz.toNat ≤ 2147483648 at hsz
  rw [fetchint]
  apply Access.Within.ite (fun _ => .fail)
  intro hno
  rw [not_or, ge_iff_le, gt_iff_lt, UInt32.le_iff_toNat_le, UInt32.lt_iff_toNat_lt] at hno
  -- the address is below `sz`, so its sum with a small number does not wrap around
  have hadd : ∀ b : UInt32, b.toNat ≤ 4 → (addr + b).toNat = addr.toNat + b.toNat := fun b hb =>
    toNat_add_of_lt (by omega)
  have hone : (addr + 1).toNat = addr.toNat + 1 := hadd 1 (by decide)
  have htwo : (addr + 2).toNat = addr.toNat + 2 := hadd 2 (by decide)
  have hthree : (addr + 3).toNat = addr.toNat + 3 := hadd 3 (by decide)
  have hfour : (addr + 4).toNat = addr.toNat + 4 := hadd 4 (by decide)
  have hend : addr.toNat + 4 ≤ p.sz.toNat := by omega
  apply (load_inside (by omega)).bind
  intro b₀ _
  apply (load_inside (by omega)).bind
  intro b₁ _
  apply (load_inside (by omega)).bind
  intro b₂ _
  apply (load_inside (by omega)).bind
  exact fun b₃ _ => .pure hend

theorem argint_inside (n : UInt32) : p.Inside (p.argint n) fun _ => True :=
  (fetchint_inside hsz).mono fun _ _ => trivial

/-! ## Strings -/

theorem toNat_succ (h : s.toNat < p.sz.toNat) : (s + 1).toNat = s.toNat + 1 := by
  change p.sz.toNat ≤ 2147483648 at hsz
  exact toNat_add_of_lt (show s.toNat + 1 < 2 ^ 32 by omega)

/-- The loop finds the first NUL. -/
theorem fetchstrLoop_of_nul (h : p.NulAt s.toNat d) (hfuel : d < fuel) :
    (p.fetchstrLoop addr fuel s).result = some (s + UInt32.ofNat d - addr).toInt32 := by
  induction d generalizing s fuel with
  | zero =>
    obtain ⟨fuel, rfl⟩ := Nat.exists_eq_succ_of_ne_zero (Nat.ne_of_gt hfuel)
    obtain ⟨hlt, hnul, -⟩ := h
    grind [fetchstrLoop_step, UInt32.add_zero]
  | succ d ih =>
    obtain ⟨fuel, rfl⟩ := Nat.exists_eq_succ_of_ne_zero (Nat.ne_of_gt (Nat.zero_lt_of_lt hfuel))
    obtain ⟨hlt, hnul, hbefore⟩ := h
    have hin : s.toNat < p.sz.toNat := by omega
    have hsucc := toNat_succ hsz hin
    have hfirst : p.mem s.toNat ≠ 0 := hbefore 0 (Nat.succ_pos d)
    rw [fetchstrLoop_step hin, if_neg hfirst, ih _ (by omega)]
    · congr 2
      rw [UInt32.ofNat_add, UInt32.add_assoc, UInt32.add_comm 1]
      rfl
    · rw [NulAt, hsucc, Nat.add_assoc, Nat.add_comm 1]
      grind

/-- Without a NUL the loop fails. -/
theorem fetchstrLoop_of_no_nul (h : ∀ a, s.toNat ≤ a → a < p.sz.toNat → p.mem a ≠ 0) :
    (p.fetchstrLoop addr fuel s).result = none := by
  induction fuel generalizing s with
  | zero => rfl
  | succ fuel ih =>
    by_cases hin : s.toNat < p.sz.toNat
    · grind [fetchstrLoop_step, toNat_succ]
    · rw [fetchstrLoop, if_neg (by rw [UInt32.lt_iff_toNat_lt]; exact hin)]
      rfl

/-- `fetchstr` of a string that ends inside the process. -/
theorem fetchstr_of_nul (h : p.NulAt addr.toNat d) :
    ∃ len, (p.fetchstr addr).result = some (addr, len) ∧ len.toInt = d := by
  have hin := h.1
  change p.sz.toNat ≤ 2147483648 at hsz
  refine ⟨(addr + UInt32.ofNat d - addr).toInt32, ?_, ?_⟩
  · have hno : ¬ addr ≥ p.sz := by
      rw [ge_iff_le, UInt32.le_iff_toNat_le]
      omega
    rw [fetchstr, if_neg hno, Access.result_bind, fetchstrLoop_of_nul hsz h (by omega)]
    rfl
  · grind [UInt32.add_comm, UInt32.add_sub_cancel, UInt32.toNat_ofNat_of_lt', toInt_toInt32]

theorem fetchstr_of_no_nul (h : ∀ a, addr.toNat ≤ a → a < p.sz.toNat → p.mem a ≠ 0) :
    (p.fetchstr addr).result = none := by
  rw [fetchstr]
  split
  · rfl
  · rw [Access.result_bind, fetchstrLoop_of_no_nul hsz h]
    rfl

/-- `fetchstr` returns exactly the distance of the first NUL. -/
theorem fetchstr_iff {q : UInt32} {len : Int32} : (p.fetchstr addr).result = some (q, len) ↔
    q = addr ∧ ∃ d : ℕ, len.toInt = d ∧ p.NulAt addr.toNat d := by
  by_cases hex : ∃ a, addr.toNat ≤ a ∧ a < p.sz.toNat ∧ p.mem a = 0
  · obtain ⟨a, hle, hlt, ha⟩ := hex
    obtain ⟨d, hd⟩ := exists_nulAt hle hlt ha
    obtain ⟨len', hret, hlen⟩ := fetchstr_of_nul hsz hd
    rw [hret, Option.some_inj, Prod.mk.injEq]
    constructor
    · intro heq
      exact ⟨heq.1.symm, d, heq.2 ▸ hlen, hd⟩
    · intro h
      obtain ⟨rfl, d', hlen', hd'⟩ := h
      have heq : d' = d := hd'.unique hd
      exact ⟨rfl, Int32.toInt_inj.mp (by rw [hlen, hlen', heq])⟩
  · rw [fetchstr_of_no_nul hsz fun a hle hlt ha => hex ⟨a, hle, hlt, ha⟩]
    constructor
    · intro h
      cases h
    · intro h
      obtain ⟨-, d, -, hlt, hnul, -⟩ := h
      exact absurd ⟨addr.toNat + d, Nat.le_add_right _ _, hlt, hnul⟩ hex

theorem fetchstr_inside : p.Inside (p.fetchstr addr) p.IsString := by
  refine ⟨?_, fun r hr => ?_⟩
  swap
  · obtain ⟨hq, hd⟩ := (fetchstr_iff hsz).mp hr
    rw [IsString, hq]
    exact hd
  have hreads : p.Inside (p.fetchstr addr) fun _ => True := by
    rw [fetchstr]
    apply Access.Within.ite (fun _ => .fail)
    intro _
    apply fetchstrLoop_inside.bind
    exact fun _ _ => .pure trivial
  exact hreads.1

theorem argstr_inside (n : UInt32) : p.Inside (p.argstr n) p.IsString := by
  apply (argint_inside hsz n).bind
  exact fun addr _ => fetchstr_inside hsz

/-- A range that `argptr` hands out is inside the process. -/
theorem argptr_inside (n : UInt32) (size : Int32) : p.Inside (p.argptr n size) fun q =>
    0 ≤ size.toInt ∧ q.toNat < p.sz.toNat ∧ q.toNat + size.toInt ≤ p.sz.toNat := by
  apply (argint_inside hsz n).bind
  intro i _
  apply Access.Within.ite (fun _ => .fail)
  intro hno
  rw [not_or, not_or, ge_iff_le, gt_iff_lt, UInt32.le_iff_toNat_le, UInt32.lt_iff_toNat_lt,
    Int32.lt_iff_toInt_lt, not_lt] at hno
  obtain ⟨hsize, hlt, hend⟩ := hno
  have hnat := toNat_toUInt32 hsize
  have hhalf := size.toInt_lt
  change 0 ≤ size.toInt at hsize
  change p.sz.toNat ≤ 2147483648 at hsz
  rw [toNat_add_of_lt (by omega)] at hend
  exact .pure ⟨hsize, by omega, by omega⟩

/-- `argptr` hands out every range inside the process. -/
theorem argptr_of_inside {q : UInt32} (hq : (p.argint n).result = some q) (hsize : 0 ≤ size.toInt)
    (hlt : q.toNat < p.sz.toNat) (hend : q.toNat + size.toInt ≤ p.sz.toNat) :
    (p.argptr n size).result = some q := by
  have hnat := toNat_toUInt32 hsize
  change p.sz.toNat ≤ 2147483648 at hsz
  have hno : ¬ (size < 0 ∨ q ≥ p.sz ∨ q + size.toUInt32 > p.sz) := by
    grind [UInt32.le_iff_toNat_le, UInt32.lt_iff_toNat_lt, Int32.lt_iff_toInt_lt, toNat_add_of_lt]
  rw [argptr, Access.result_bind, hq, Option.bind_some, if_neg hno]
  rfl

theorem sysWaitx_inside : p.Inside p.sysWaitx fun r =>
    r.1.toNat + 4 ≤ p.sz.toNat ∧ r.2.toNat + 4 ≤ p.sz.toNat := by
  have hfour : (4 : Int32).toInt = 4 := by decide
  apply (argptr_inside hsz 0 4).bind
  intro w hw
  apply (argptr_inside hsz 1 4).bind
  intro r hr
  rw [hfour] at hw hr
  apply Access.Within.pure
  dsimp only
  omega

theorem argfd_inside (n : UInt32) : p.Inside (p.argfd n) fun r => p.ofile r.1 = some r.2 := by
  apply (argint_inside hsz n).bind
  intro fd _
  apply Access.Within.ite (fun _ => .fail)
  intro _
  split
  · split
    · exact .fail
    · exact .pure ‹_›
  · exact .fail

theorem sysReadWrite_inside : p.Inside p.sysReadWrite fun r =>
    0 ≤ r.2.2.toInt ∧ r.2.1.toNat + r.2.2.toInt ≤ p.sz.toNat := by
  apply (argfd_inside hsz 0).bind
  intro f _
  apply (argint_inside hsz 2).bind
  intro n _
  apply (argptr_inside hsz 1 n.toInt32).bind
  exact fun q hq => .pure ⟨hq.1, hq.2.2⟩

theorem sysExecLoop_inside (uargv i : UInt32) (room : ℕ) :
    p.Inside (p.sysExecLoop uargv room i) fun l => l.length < room ∧ ∀ r ∈ l, p.IsString r := by
  induction room generalizing i with
  | zero => exact .fail
  | succ room ih =>
    rw [sysExecLoop]
    apply (fetchint_inside hsz).bind
    intro uarg _
    apply Access.Within.ite
    · exact fun _ => .pure ⟨Nat.succ_pos room, fun r hr => absurd hr List.not_mem_nil⟩
    · intro _
      apply (fetchstr_inside hsz).bind
      intro s hs
      apply (ih (i + 1)).bind
      intro rest hrest
      refine .pure ⟨Nat.succ_lt_succ hrest.1, fun r hr => ?_⟩
      obtain rfl | hr := List.mem_cons.mp hr
      · exact hs
      · exact hrest.2 r hr

/-- What `sys_exec` hands to `exec`: less than `MAXARG` strings, which are inside the process. -/
theorem sysExec_inside : p.Inside p.sysExec fun r =>
    p.IsString r.1 ∧ r.2.length < MAXARG ∧ ∀ s ∈ r.2, p.IsString s := by
  apply (argstr_inside hsz 0).bind
  intro path hpath
  apply (argint_inside hsz 1).bind
  intro uargv _
  apply (sysExecLoop_inside hsz uargv 0 MAXARG).bind
  exact fun argv hargv => .pure ⟨hpath, hargv⟩

end Kernbase

/-- The checks of system call arguments confine the kernel to the memory of the caller. -/
structure Confined (p : Caller F) : Prop where
  /-- What is read is inside the process. -/
  fetchint_reads : ∀ addr, ∀ a ∈ (p.fetchint addr).reads, a < p.sz.toNat
  fetchstr_reads : ∀ addr, ∀ a ∈ (p.fetchstr addr).reads, a < p.sz.toNat
  argint_reads : ∀ n, ∀ a ∈ (p.argint n).reads, a < p.sz.toNat
  argptr_reads : ∀ n size, ∀ a ∈ (p.argptr n size).reads, a < p.sz.toNat
  argstr_reads : ∀ n, ∀ a ∈ (p.argstr n).reads, a < p.sz.toNat
  /-- A word that is fetched does not wrap around. -/
  fetchint_range : ∀ addr w, (p.fetchint addr).result = some w → addr.toNat + 4 ≤ p.sz.toNat
  /-- A range that is handed out is inside the process. -/
  argptr_range : ∀ n size q, (p.argptr n size).result = some q →
    0 ≤ size.toInt ∧ q.toNat < p.sz.toNat ∧ q.toNat + size.toInt ≤ p.sz.toNat
  waitx_ranges : ∀ wtime rtime, p.sysWaitx.result = some (wtime, rtime) →
    wtime.toNat + 4 ≤ p.sz.toNat ∧ rtime.toNat + 4 ≤ p.sz.toNat
  readWrite_range : ∀ f buf n, p.sysReadWrite.result = some (f, buf, n) →
    0 ≤ n.toInt ∧ buf.toNat + n.toInt ≤ p.sz.toNat
  /-- Every range inside the process is handed out. -/
  argptr_succeeds : ∀ n (size : Int32) q, (p.argint n).result = some q → 0 ≤ size.toInt →
    q.toNat < p.sz.toNat → q.toNat + size.toInt ≤ p.sz.toNat → (p.argptr n size).result = some q
  /-- A string is fetched exactly if it ends inside the process. -/
  fetchstr_succeeds : ∀ addr, (p.fetchstr addr).result.isSome ↔
    ∃ a, addr.toNat ≤ a ∧ a < p.sz.toNat ∧ p.mem a = 0
  fetchstr_distance : ∀ addr q len, (p.fetchstr addr).result = some (q, len) →
    q = addr ∧ ∃ d : ℕ, len.toInt = d ∧ p.NulAt addr.toNat d

/-- For every stack pointer and every contents of the memory, the functions that fetch the
arguments of a system call read inside the process, hand out exactly the ranges inside it, and
find the end of a string exactly if it is inside. -/
theorem args_confined (p : Caller F) (hsz : p.sz.toNat ≤ KERNBASE) : p.Confined where
  fetchint_reads := fun _ => (fetchint_inside hsz).1
  fetchstr_reads := fun _ => (fetchstr_inside hsz).1
  argint_reads := fun n => (argint_inside hsz n).1
  argptr_reads := fun n size => (argptr_inside hsz n size).1
  argstr_reads := fun n => (argstr_inside hsz n).1
  fetchint_range := fun _ => (fetchint_inside hsz).2
  argptr_range := fun n size => (argptr_inside hsz n size).2
  waitx_ranges := fun _ _ h => (sysWaitx_inside hsz).2 _ h
  readWrite_range := fun _ _ _ h => (sysReadWrite_inside hsz).2 _ h
  argptr_succeeds := fun _ _ _ => argptr_of_inside hsz
  fetchstr_succeeds := fun addr => by
    constructor
    · intro h
      obtain ⟨r, hr⟩ := Option.isSome_iff_exists.mp h
      obtain ⟨-, d, -, hlt, hnul, -⟩ := (fetchstr_iff hsz).mp hr
      exact ⟨addr.toNat + d, Nat.le_add_right _ _, hlt, hnul⟩
    · intro h
      obtain ⟨a, hle, hlt, ha⟩ := h
      obtain ⟨d, hd⟩ := exists_nulAt hle hlt ha
      obtain ⟨len, hret, -⟩ := fetchstr_of_nul hsz hd
      rw [hret, Option.isSome_some]
  fetchstr_distance := fun _ _ _ => (fetchstr_iff hsz).mp

/-- The process with the whole of the user's half, with its stack pointer just below the end of
the address space. -/
def highest : Caller Unit where
  sz := 0x80000000
  esp := 0xfffffff8
  mem := fun a => if a = 0x7fffffff then 0 else 1

/-- The first argument would be at the end of the address space, and the second at address zero. -/
theorem args_confined_highest : highest.Confined ∧ (highest.argint 0).result = none ∧
    (highest.argint 1).reads = [0, 1, 2, 3] :=
  ⟨args_confined highest (by decide), by decide, by decide⟩

section Mapped

variable {d : Mmu.Pgdir} (hexact : d.Exact p.sz.toNat) (hsz : p.sz.toNat ≤ KERNBASE)

include hexact hsz

/-- No address inside the process faults. -/
theorem mapped_of_lt {a : ℕ} (ha : a < p.sz.toNat) : (d.lookup (a / PGSIZE)).isSome := by
  have hpage : a / PGSIZE < pages p.sz.toNat :=
    Mmu.Pgdir.lt_pages.mp (Nat.lt_of_le_of_lt (Nat.div_mul_le_self a PGSIZE) ha)
  exact (hexact _ (Nat.lt_of_lt_of_le hpage (Mmu.Pgdir.pages_le hsz))).mpr hpage

/-- The kernel reads pages that are there while it fetches the arguments of `exec`, and hands
over less than `MAXARG` strings, each of which ends inside the process. -/
theorem sysExec_args : (∀ a ∈ p.sysExec.reads, (d.lookup (a / PGSIZE)).isSome) ∧
    ∀ path argv, p.sysExec.result = some (path, argv) →
      argv.length < MAXARG ∧ ∀ r ∈ path :: argv, p.IsString r := by
  obtain ⟨hreads, hresult⟩ := sysExec_inside hsz
  refine ⟨fun a ha => mapped_of_lt hexact hsz (hreads a ha), fun path argv h => ?_⟩
  obtain ⟨hpath, hlength, hargv⟩ := hresult _ h
  exact ⟨hlength, List.forall_mem_cons.mpr ⟨hpath, hargv⟩⟩

end Mapped

/-- A process of one page with these words from the stack pointer on. -/
def onePage (words : List UInt8) : Caller Unit where
  sz := 4096
  esp := 0
  mem := fun a => if a % 4 = 0 then words.getD (a / 4) 0 else 0

/-- A path of no characters and one argument. -/
theorem sysExec_args_one : ∃ path argv,
    (onePage [0, 16, 20, 0, 0, 28, 0, 97]).sysExec.result = some (path, argv) ∧
      argv.length < MAXARG := by
  have hresult : (onePage [0, 16, 20, 0, 0, 28, 0, 97]).sysExec.result =
    some ((16, 0), [(28, 1)]) := by decide +kernel
  have h := (sysExec_args Mmu.Pgdir.single_exact (by decide)).2 _ _ hresult
  exact ⟨_, _, hresult, h.1⟩

end Caller

end Xv6.Syscall
