/-
# The MP configuration table

`mpinit` of `mp.c` walks over the table in which the firmware lists the processors. Entries of
a known type are skipped by their size. At any other entry the `break` of the `default` branch
leaves the `switch` but not the loop, which then looks at the same entry again.

The table is given by its bytes from the beginning of `struct mpconf` on, so `p` is an offset.
Finding it, and the interrupt mode registers, are no part of the model.
-/

import Xv6.Lib.Bytes

namespace Xv6.Boot

open Xv6.Lib

def NCPU : ℕ := 8
def MPPROC : UInt8 := 0
def MPBUS : UInt8 := 1
def MPIOAPIC : UInt8 := 2
def MPIOINTR : UInt8 := 3
def MPLINTR : UInt8 := 4

/-- `sizeof(struct mpconf)` -/
def MPCONF : ℕ := 44

inductive Panic
  /-- "Expect to run on an SMP" -/
  | noSmp
  /-- "Didn't find a suitable machine" -/
  | unsuitable
  deriving DecidableEq, Repr

/-- `conf->length` -/
def length (conf : Bytes) : ℕ := conf.getLE 4 2

/-- The sum of `len` bytes, of type `uchar`. -/
def sum (addr : Bytes) (len : ℕ) : UInt8 := (List.range len).foldl (fun s i => s + addr i) 0

/-- Whether `mpconfig` accepts a table. -/
def mpconfig (conf : Bytes) : Bool :=
  conf.slice 0 4 = [80, 67, 77, 80] ∧ (conf 6 = 1 ∨ conf 6 = 4) ∧ sum conf (length conf) = 0

/-- What the loop of `mpinit` changes. `cpus` has as many elements as `ncpu` says. -/
structure Mp where
  p : ℕ := MPCONF
  cpus : List UInt8 := []
  ioapicid : UInt8 := 0
  ismp : Bool := true
  lapic : ℕ

/-- A turn of the loop. -/
def entry (conf : Bytes) (s : Mp) : Mp :=
  if conf s.p = MPPROC then
    { s with cpus := if s.cpus.length < NCPU then s.cpus ++ [conf (s.p + 1)] else s.cpus
             p := s.p + 20 }
  else if conf s.p = MPIOAPIC then { s with ioapicid := conf (s.p + 1), p := s.p + 8 }
  else if conf s.p = MPBUS ∨ conf s.p = MPIOINTR ∨ conf s.p = MPLINTR then
    { s with p := s.p + 8 }
  else { s with ismp := false }

/-- The loop, if it ends within `fuel` turns. -/
def mpinitLoop (conf : Bytes) : ℕ → Mp → Option Mp
  | 0, _ => none
  | fuel + 1, s => if s.p < length conf then mpinitLoop conf fuel (entry conf s) else some s

/-- `mpinit`, if its loop ends within `fuel` turns. -/
def mpinit (conf : Bytes) (fuel : ℕ) : Option (Except Panic Mp) :=
  if mpconfig conf = false then some (.error .noSmp)
  else (mpinitLoop conf fuel { lapic := conf.getLE 36 4 }).map fun s =>
    if s.ismp = false then .error .unsuitable else .ok s

/-- The size of the entries of a type, if it is known. -/
def entrySize (type : UInt8) : Option ℕ :=
  if type = MPPROC then some 20
  else if type = MPIOAPIC ∨ type = MPBUS ∨ type = MPIOINTR ∨ type = MPLINTR then some 8
  else none

/-- Where the entries from `p` on are: one after the other, up to the end of the table or an
entry of unknown size. -/
def entriesFrom (conf : Bytes) : ℕ → ℕ → List ℕ
  | 0, _ => []
  | fuel + 1, p =>
    if p < length conf then
      p :: ((entrySize (conf p)).map fun size => entriesFrom conf fuel (p + size)).getD []
    else []

/-- Where the entries are; none has less than one byte. -/
def entries (conf : Bytes) : List ℕ := entriesFrom conf (length conf) MPCONF

/-- The processors of the entries at the given places. -/
def processors (conf : Bytes) (l : List ℕ) : List UInt8 :=
  (l.filter fun p => conf p = MPPROC).map fun p => conf (p + 1)

variable {conf : Bytes} {s : Mp} {fuel size : ℕ}

/-- A turn at an entry of known type goes to the next one and records a processor. -/
theorem entry_of_size (h : entrySize (conf s.p) = some size) (hcpus : s.cpus.length ≤ NCPU) :
    0 < size ∧ (entry conf s).p = s.p + size ∧ (entry conf s).ismp = s.ismp ∧
    (entry conf s).cpus = (s.cpus ++ processors conf [s.p]).take NCPU := by
  rw [entrySize] at h
  rw [entry]
  by_cases hproc : conf s.p = MPPROC
  · have hone : processors conf [s.p] = [conf (s.p + 1)] := by simp [processors, hproc]
    rw [if_pos hproc] at h ⊢
    cases h
    refine ⟨by decide, rfl, rfl, ?_⟩
    rw [hone]
    dsimp only
    split
    · rw [List.take_of_length_le (by rw [List.length_append]; exact ‹_›)]
    · rw [List.take_append_of_le_length (by omega), List.take_of_length_le hcpus]
  · have hnone : processors conf [s.p] = [] := by simp [processors, hproc]
    rw [if_neg hproc] at h ⊢
    rw [hnone, List.append_nil, List.take_of_length_le hcpus]
    split at h
    · cases h
      split <;> simp_all
    · cases h

/-- At an entry of unknown type the loop stays. -/
theorem mpinitLoop_of_unknown (hlt : s.p < length conf) (h : entrySize (conf s.p) = none) :
    mpinitLoop conf fuel s = none := by
  induction fuel generalizing s with
  | zero => rfl
  | succ fuel ih =>
    have hstay : (entry conf s).p = s.p := by
      rw [entrySize] at h
      rw [entry]
      grind
    rw [mpinitLoop, if_pos hlt]
    exact ih (by rwa [hstay]) (by rwa [hstay])

/-- The loop ends if and only if all entries are known. It has then recorded the first
processors and found nothing wrong. -/
theorem mpinitLoop_spec (fuel : ℕ) {n : ℕ} (hn : length conf ≤ s.p + n)
    (hcpus : s.cpus.length ≤ NCPU) :
    (∀ r, mpinitLoop conf fuel s = some r →
      (∀ p ∈ entriesFrom conf n s.p, (entrySize (conf p)).isSome) ∧ r.ismp = s.ismp ∧
      r.cpus = (s.cpus ++ processors conf (entriesFrom conf n s.p)).take NCPU) ∧
    ((∀ p ∈ entriesFrom conf n s.p, (entrySize (conf p)).isSome) → n < fuel →
      (mpinitLoop conf fuel s).isSome) := by
  induction fuel generalizing s n with
  | zero => exact ⟨fun r hr => (by cases hr), fun _ hlt => absurd hlt (Nat.not_lt_zero n)⟩
  | succ fuel ih =>
    by_cases hlt : s.p < length conf
    · obtain ⟨n, rfl⟩ : ∃ k, n = k + 1 := ⟨n - 1, by omega⟩
      cases hsize : entrySize (conf s.p) with
      | none =>
        rw [mpinitLoop_of_unknown hlt hsize, entriesFrom, if_pos hlt, hsize]
        simp [hsize]
      | some size =>
        obtain ⟨hpos, hp, hismp, hnew⟩ := entry_of_size hsize hcpus
        have hsmall : (entry conf s).cpus.length ≤ NCPU := by
          rw [hnew, List.length_take]
          exact Nat.min_le_left _ _
        have hnext := ih (s := entry conf s) (n := n) (by rw [hp]; omega) hsmall
        have hmore : ∀ l, processors conf (s.p :: l) =
            processors conf [s.p] ++ processors conf l := by
          intro l
          rw [← List.singleton_append, processors, List.filter_append, List.map_append]
          rfl
        rw [hp, hismp, hnew] at hnext
        rw [mpinitLoop, entriesFrom, if_pos hlt, if_pos hlt, hsize, Option.map_some,
          Option.getD_some, hmore, List.forall_mem_cons, hsize]
        refine ⟨fun r hr => ?_, fun hknown hfuel => hnext.2 hknown.2 (by omega)⟩
        obtain ⟨hknown, hok, hrec⟩ := hnext.1 r hr
        refine ⟨⟨rfl, hknown⟩, hok, hrec.trans ?_⟩
        rw [← List.append_assoc]
        generalize s.cpus ++ processors conf [s.p] = found
        rw [List.take_append, List.take_append, List.take_take, Nat.min_self, List.length_take]
        congr 2
        omega
    · have hnil : entriesFrom conf n s.p = [] := by cases n <;> simp [entriesFrom, hlt]
      rw [mpinitLoop, if_neg hlt, hnil]
      refine ⟨fun r hr => ?_, fun _ _ => rfl⟩
      cases hr
      simp [processors, List.take_of_length_le hcpus]

/-- For every table that `mpconfig` accepts, `mpinit` ends if and only if all entries are of a
known type. It then does not panic, and has recorded the first `NCPU` processors in the order of
the table. -/
theorem mpinit_ends_iff (h : mpconfig conf = true) :
    ((∃ fuel, (mpinit conf fuel).isSome) ↔ ∀ p ∈ entries conf, (entrySize (conf p)).isSome) ∧
    ∀ fuel r, mpinit conf fuel = some r →
      ∃ s, r = .ok s ∧ s.cpus = (processors conf (entries conf)).take NCPU := by
  have hspec := fun fuel => mpinitLoop_spec (s := { lapic := conf.getLE 36 4 }) fuel
    (Nat.le_add_left (length conf) MPCONF) (Nat.zero_le _)
  have hinit : ∀ fuel, mpinit conf fuel = (mpinitLoop conf fuel { lapic := conf.getLE 36 4 }).map
      fun s => if s.ismp = false then .error .unsuitable else .ok s :=
    fun fuel => if_neg (by rw [h]; decide)
  refine ⟨⟨?_, fun hknown => ⟨length conf + 1, ?_⟩⟩, fun fuel r hr => ?_⟩
  · rintro ⟨fuel, hends⟩
    rw [hinit, Option.isSome_map] at hends
    obtain ⟨s, hs⟩ := Option.isSome_iff_exists.mp hends
    exact ((hspec fuel).1 s hs).1
  · rw [hinit, Option.isSome_map]
    exact (hspec _).2 hknown (Nat.lt_succ_self _)
  · rw [hinit] at hr
    obtain ⟨s, hs, rfl⟩ := Option.map_eq_some_iff.mp hr
    obtain ⟨-, hismp, hcpus⟩ := (hspec fuel).1 s hs
    exact ⟨s, if_neg (by simp [hismp]), hcpus⟩

/-- A table with one entry of the given type. -/
def sampleTable (type checksum : UInt8) : Bytes := fun i =>
  ([80, 67, 77, 80, 64, 0, 1, checksum].getD i 0) + if i = 44 then type else 0

theorem mpinit_ends_iff_processor : ∃ fuel, (mpinit (sampleTable 0 143) fuel).isSome :=
  (@mpinit_ends_iff (sampleTable 0 143) (by decide +kernel)).1.mpr (by decide +kernel)

/-- At an entry of type 5 `mpinit` never ends. -/
theorem mpinit_loops : mpconfig (sampleTable 5 138) = true ∧ 44 ∈ entries (sampleTable 5 138) ∧
    entrySize (sampleTable 5 138 44) = none ∧ ∀ fuel, mpinit (sampleTable 5 138) fuel = none := by
  have hconf : mpconfig (sampleTable 5 138) = true := by decide +kernel
  refine ⟨hconf, by decide +kernel, by decide +kernel, fun fuel => ?_⟩
  rw [mpinit, if_neg (by rw [hconf]; decide),
    mpinitLoop_of_unknown (by decide +kernel) (by decide +kernel)]
  rfl

end Xv6.Boot
