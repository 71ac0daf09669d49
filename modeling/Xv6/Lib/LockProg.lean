/-
# Spinlock programs

Processors that run lock programs: sequences of `acquire` and `release` with
choices and loops, where everything but the lock operations has been forgotten. A
processor that holds no lock may be interrupted. One lock, the baton, is held
across a context switch: a thread that gives up its processor does so with the
baton held, and whoever runs next on that processor releases it.

A program is checked statically by following the set of locks it holds. The
checker is told which nestings the program may use, and a checked system never
leaves them: a processor that waits for a lock holds only locks under which the
function it executes may acquire it. Deadlock freedom is then a matter of ranking
the locks.
-/

import Xv6.Lib.Machine
import Mathlib.Data.Finset.Basic
import Mathlib.Data.Finset.Lattice.Fold
import Mathlib.Data.Fintype.Basic
import Mathlib.Data.List.GetD

namespace Xv6.Lib

open Function

universe u v

/-- Lock programs over the locks `L`. -/
inductive LockCmd (L : Type u)
  | skip
  | acquire (l : L)
  /-- The holder lets go of the lock. -/
  | release (l : L)
  | seq (a b : LockCmd L)
  /-- A branch on something that is not modelled. -/
  | alt (a b : LockCmd L)
  | loop (a : LockCmd L)
  /-- Give up the processor, holding the baton, and go on when picked again. -/
  | switch
  /-- The same, never to be picked again. -/
  | finish
  /-- Run another thread, or release the baton. -/
  | pick
  deriving DecidableEq

namespace LockCmd

variable {L : Type u}

/-- A branch that may be skipped. -/
def opt (a : LockCmd L) : LockCmd L := alt skip a

/-- Run a program a number of times. -/
def times : ℕ → LockCmd L → LockCmd L
  | 0, _ => skip
  | n + 1, a => seq a (times n a)

end LockCmd

/-- The functions of a kernel as lock programs; a function may depend on the
processor that runs it. -/
structure LockKernel (L : Type u) (F : Type v) where
  baton : L
  /-- The function that runs after a thread has given up the processor. -/
  scheduler : F
  body : ℕ → F → LockCmd L
  /-- Functions that may start while another is in progress. -/
  interrupt : F → Bool

/-- What is left to do: commands with the function each belongs to. -/
abbrev LockCode (L : Type u) (F : Type v) := List (F × LockCmd L)

structure LockState (L : Type u) (F : Type v) where
  owner : L → Option ℕ := fun _ => none
  code : ℕ → LockCode L F := fun _ => []
  /-- Threads that have given up their processor. -/
  parked : List (LockCode L F) := []

inductive LockLabel (F : Type v)
  /-- Processor `c` starts a function. -/
  | call (c : ℕ) (f : F)
  /-- Processor `c` executes its next command; `k` resolves choices. -/
  | exec (c k : ℕ)
  deriving DecidableEq

namespace LockState

variable {L : Type u} {F : Type v} (s : LockState L F)

/-- Processor `c` is in `acquire` for `l`. -/
def Waits (c : ℕ) (l : L) : Prop := ∃ f rest, s.code c = (f, .acquire l) :: rest

instance [DecidableEq L] (c : ℕ) (l : L) : Decidable (s.Waits c l) :=
  match h : s.code c with
  | [] => isFalse (by simp [Waits, h])
  | (f, cmd) :: rest => decidable_of_iff (cmd = .acquire l) (by simp [Waits, h])

/-- The function processor `c` executes. -/
def running (c : ℕ) : Option F := (s.code c).head?.map Prod.fst

/-- Lock `l` is held by a processor that executes one of the functions `P`. -/
def HeldIn (P : F → Bool) (l : L) : Prop :=
  ∃ c f, s.owner l = some c ∧ s.running c = some f ∧ P f = true

instance (P : F → Bool) (l : L) : Decidable (s.HeldIn P l) :=
  decidable_of_iff (((s.owner l).any fun c => (s.running c).any P) = true) (by
    simp [HeldIn, Option.any_eq_true])

/-- Replace the code of one processor. -/
def setCode (c : ℕ) (code : LockCode L F) : LockState L F :=
  { s with code := update s.code c code }

theorem setCode_running {c : ℕ} {code : LockCode L F} {f : F} {cmd : LockCmd L}
    {rest : LockCode L F} (hcode : code = (f, cmd) :: rest) :
    (s.setCode c code).running c = some f := by
  simp [running, setCode, hcode]

/-- Processors that each wait for a lock another one of them holds. -/
def Deadlocked (D : Set ℕ) : Prop :=
  D.Nonempty ∧ ∀ c ∈ D, ∃ l, s.Waits c l ∧ ∃ c' ∈ D, c' ≠ c ∧ s.owner l = some c'

/-- Locks can be ranked so that waiting goes up: then nobody is deadlocked. -/
theorem not_deadlocked_of_rank [Fintype L] (rank : L → ℕ)
    (hrank : ∀ c h l, s.owner h = some c → s.Waits c l → rank h < rank l) (D : Set ℕ) :
    ¬ s.Deadlocked D := by
  rintro ⟨⟨c₀, hc₀⟩, hall⟩
  -- Follow the chain of owners from `c₀`: the rank waited for grows without bound.
  have hgrow : ∀ n, ∃ c ∈ D, ∃ l, s.Waits c l ∧ n ≤ rank l := by
    intro n
    induction n with
    | zero =>
      obtain ⟨l, hwait, -⟩ := hall c₀ hc₀
      exact ⟨c₀, hc₀, l, hwait, Nat.zero_le _⟩
    | succ n ih =>
      obtain ⟨c, hc, l, hwait, hle⟩ := ih
      obtain ⟨l₁, hwait₁, c', hc', -, howner⟩ := hall c hc
      have hEq : l₁ = l := by
        obtain ⟨f, rest, hcode⟩ := hwait
        obtain ⟨f₁, rest₁, hcode₁⟩ := hwait₁
        rw [hcode] at hcode₁
        cases hcode₁
        rfl
      grind
  obtain ⟨c, -, l, -, hle⟩ := hgrow (Finset.univ.sup rank + 1)
  have : rank l ≤ Finset.univ.sup rank := Finset.le_sup (Finset.mem_univ l)
  omega

end LockState

namespace LockKernel

variable {L : Type u} {F : Type v} [DecidableEq L] (K : LockKernel L F)

/-- When a command may be executed. `acquire` blocks while the lock is held. -/
def ReadyCmd (s : LockState L F) (c k : ℕ) : LockCmd L → Prop
  | .acquire l => s.owner l = none
  | .release l => s.owner l = some c
  | .pick => k ≤ s.parked.length
  | _ => True

instance (s : LockState L F) (c k : ℕ) (cmd : LockCmd L) : Decidable (ReadyCmd s c k cmd) := by
  cases cmd <;> dsimp only [ReadyCmd] <;> infer_instance

/-- The effect of command `cmd` of function `f`, with `rest` still to do. -/
def execCmd (s : LockState L F) (c k : ℕ) (f : F) (rest : LockCode L F) :
    LockCmd L → LockState L F
  | .skip => s.setCode c rest
  | .acquire l => { s.setCode c rest with owner := update s.owner l (some c) }
  | .release l => { s.setCode c rest with owner := update s.owner l none }
  | .seq a b => s.setCode c ((f, a) :: (f, b) :: rest)
  | .alt a b => s.setCode c ((f, if k = 0 then a else b) :: rest)
  | .loop a => s.setCode c (if k = 0 then rest else (f, a) :: (f, .loop a) :: rest)
  | .switch =>
    { s.setCode c [(K.scheduler, .pick)] with parked := rest :: s.parked }
  | .finish => s.setCode c [(K.scheduler, .pick)]
  | .pick =>
    match k with
    | 0 => s.setCode c [(K.scheduler, .release K.baton)]
    | i + 1 =>
      { s.setCode c (s.parked.getD i []) with parked := s.parked.eraseIdx i }

/-- Other processors keep their code. -/
theorem execCmd_code {s : LockState L F} {c k : ℕ} {f : F} {rest : LockCode L F}
    (cmd : LockCmd L) {c' : ℕ} (hc : c' ≠ c) :
    (K.execCmd s c k f rest cmd).code c' = s.code c' := by
  cases cmd with
  | pick => cases k <;> exact update_of_ne hc _ _
  | _ => exact update_of_ne hc _ _

/-- Other processors keep their locks. -/
theorem execCmd_owner {s : LockState L F} {c k : ℕ} {f : F} {rest : LockCode L F}
    {cmd : LockCmd L} (ready : ReadyCmd s c k cmd) {c' : ℕ} (hc : c' ≠ c) (l : L) :
    (K.execCmd s c k f rest cmd).owner l = some c' ↔ s.owner l = some c' := by
  cases cmd with
  | acquire l' =>
    have hfree : s.owner l' = none := ready
    by_cases hl : l = l'
    · subst hl
      simp [execCmd, hfree, Ne.symm hc]
    · simp [execCmd, hl]
  | release l' =>
    have howner : s.owner l' = some c := ready
    by_cases hl : l = l'
    · subst hl
      simp [execCmd, howner, Ne.symm hc]
    · simp [execCmd, hl]
  | pick => cases k <;> rfl
  | _ => rfl

/-- When a processor with this code may execute its next command. -/
def ReadyCode (s : LockState L F) (c k : ℕ) : LockCode L F → Prop
  | [] => False
  | (_, cmd) :: _ => ReadyCmd s c k cmd

instance (s : LockState L F) (c k : ℕ) (code : LockCode L F) :
    Decidable (ReadyCode s c k code) := by
  cases code <;> dsimp only [ReadyCode] <;> infer_instance

/-- When a label may be taken. A function starts on a processor with nothing to
do; an interrupt on one that holds no lock. -/
def Enabled (s : LockState L F) : LockLabel F → Prop
  | .call c f => (∀ l, s.owner l ≠ some c) ∧ ((s.code c).isEmpty = true ∨ K.interrupt f = true)
  | .exec c k => ReadyCode s c k (s.code c)

instance [Fintype L] (s : LockState L F) (l : LockLabel F) : Decidable (K.Enabled s l) := by
  cases l <;> dsimp only [Enabled] <;> infer_instance

/-- The state after processor `c` has executed the first command of its code. -/
def execCode (s : LockState L F) (c k : ℕ) : LockCode L F → LockState L F
  | [] => s
  | (f, cmd) :: rest => K.execCmd s c k f rest cmd

def next (s : LockState L F) : LockLabel F → LockState L F
  | .call c f => s.setCode c ((f, K.body c f) :: s.code c)
  | .exec c k => K.execCode s c k (s.code c)

/-- The processors together. -/
def system : Machine (LockState L F) (LockLabel F) where
  Init s := s = {}
  Enabled := K.Enabled
  next := K.next

instance [Fintype L] (s : LockState L F) (l : LockLabel F) : Decidable (K.system.Enabled s l) :=
  inferInstanceAs (Decidable (K.Enabled s l))

end LockKernel

/-! ## Checking programs -/

/-- What each function may do: the nestings it uses, and whether it gives up the
processor and goes on later. -/
structure LockDiscipline (L : Type u) (F : Type v) where
  /-- `nest f h l`: function `f` may acquire `l` while it holds `h`. -/
  nest : F → L → L → Bool
  parks : F → Bool

namespace LockDiscipline

variable {L : Type u} {F : Type v} [DecidableEq L] (D : LockDiscipline L F)

/-- Follow the set of held locks through a program; `none` if the program leaves
the discipline. -/
def check (baton : L) (f : F) : LockCmd L → Finset L → Option (Finset L)
  | .skip, H => some H
  | .acquire l, H => if l ∉ H ∧ ∀ h ∈ H, D.nest f h l = true then some (insert l H) else none
  | .release l, H => if l ∈ H then some (H.erase l) else none
  | .seq a b, H => (check baton f a H).bind (check baton f b)
  | .alt a b, H => if check baton f a H = check baton f b H then check baton f a H else none
  | .loop a, H => if check baton f a H = some H then some H else none
  | .switch, H => if H = {baton} ∧ D.parks f = true then some {baton} else none
  | .finish, H => if H = {baton} then some ∅ else none
  | .pick, H => if H = {baton} then some ∅ else none

variable (K : LockKernel L F)

/-- Code that can be run with the locks `H` held. A function that holds a lock
between two commands is not left in between. -/
def Flow : Finset L → LockCode L F → Prop
  | H, [] => H = ∅
  | H, (f, cmd) :: rest => ∃ H', D.check K.baton f cmd H = some H' ∧
      (H' ≠ ∅ → ∃ cmd' rest', rest = (f, cmd') :: rest') ∧ Flow H' rest

/-- Every function passes the check, starting and ending without locks. -/
def WellNested : Prop := ∀ c f, D.check K.baton f (K.body c f) ∅ = some ∅

/-- Processors and parked threads have code that fits the locks they hold. -/
structure Fits (s : LockState L F) : Prop where
  code : ∀ c, ∃ H, (∀ l, l ∈ H ↔ s.owner l = some c) ∧ D.Flow K H (s.code c)
  parked : ∀ code ∈ s.parked, D.Flow K {K.baton} code ∧
    ∃ f cmd rest, code = (f, cmd) :: rest ∧ D.parks f = true

variable {D K} {s : LockState L F}

theorem flow_cons {f : F} {cmd : LockCmd L} {H H' : Finset L} {rest : LockCode L F}
    (hcheck : D.check K.baton f cmd H = some H')
    (htag : H' ≠ ∅ → ∃ cmd' rest', rest = (f, cmd') :: rest') (hrest : D.Flow K H' rest) :
    D.Flow K H ((f, cmd) :: rest) :=
  ⟨H', hcheck, htag, hrest⟩

/-- The scheduler's part of a context switch. -/
theorem flow_pick : D.Flow K {K.baton} [(K.scheduler, .pick)] :=
  flow_cons (by simp [check]) (by simp) rfl

theorem flow_release : D.Flow K {K.baton} [(K.scheduler, .release K.baton)] := by
  refine ⟨∅, ?_, by simp, rfl⟩
  simp [check]

/-- A step of one processor: only its own code, the locks it takes or drops, and
the parked threads change. -/
theorem Fits.of_step (h : D.Fits K s) (s' : LockState L F) (c : ℕ)
    (hcode : ∀ c', c' ≠ c → s'.code c' = s.code c')
    (howner : ∀ c', c' ≠ c → ∀ l, s'.owner l = some c' ↔ s.owner l = some c')
    (hself : ∃ H, (∀ l, l ∈ H ↔ s'.owner l = some c) ∧ D.Flow K H (s'.code c))
    (hparked : ∀ code ∈ s'.parked, D.Flow K {K.baton} code ∧
      ∃ f cmd rest, code = (f, cmd) :: rest ∧ D.parks f = true) : D.Fits K s' := by
  refine ⟨fun c' => ?_, hparked⟩
  by_cases hc : c' = c
  · subst hc
    exact hself
  · obtain ⟨H, hH, hflow⟩ := h.code c'
    grind

/-- The same when no lock changes hands. -/
theorem Fits.of_setCode (h : D.Fits K s) (c : ℕ) {H : Finset L} {code : LockCode L F}
    (hH : ∀ l, l ∈ H ↔ s.owner l = some c) (hflow : D.Flow K H code) :
    D.Fits K (s.setCode c code) := by
  refine h.of_step (s.setCode c code) c ?_ (fun _ _ _ => Iff.rfl) ⟨H, hH, ?_⟩ h.parked
  · intro c' hc
    exact update_of_ne hc _ _
  · simpa [LockState.setCode] using hflow

theorem Fits.call (h : D.Fits K s) (hK : D.WellNested K) {c : ℕ} {f : F}
    (hfree : ∀ l, s.owner l ≠ some c) :
    D.Fits K (s.setCode c ((f, K.body c f) :: s.code c)) := by
  obtain ⟨H, hH, hflow⟩ := h.code c
  have hempty : H = ∅ := by
    ext l
    simp [hH l, hfree l]
  subst hempty
  exact h.of_setCode c hH (flow_cons (hK c f) (by simp) hflow)

theorem Fits.exec (h : D.Fits K s) {c k : ℕ} {f : F} {cmd : LockCmd L} {rest : LockCode L F}
    (hcode : s.code c = (f, cmd) :: rest) (ready : LockKernel.ReadyCmd s c k cmd) :
    D.Fits K (K.execCmd s c k f rest cmd) := by
  obtain ⟨H, hH, hflow⟩ := h.code c
  rw [hcode] at hflow
  obtain ⟨H', hcheck, htag, hrest⟩ := hflow
  have hstep := h.of_step (K.execCmd s c k f rest cmd) c (fun _ hc => K.execCmd_code cmd hc)
    fun _ hc => K.execCmd_owner ready hc
  cases cmd with
  | skip =>
    simp only [check, Option.some.injEq] at hcheck
    subst hcheck
    exact h.of_setCode c hH hrest
  | acquire l =>
    simp only [check, Option.ite_none_right_eq_some, Option.some.injEq] at hcheck
    obtain ⟨-, rfl⟩ := hcheck
    refine hstep ⟨insert l H, ?_, ?_⟩ h.parked
    · intro l'
      by_cases hl : l' = l
      · subst hl
        simp [LockKernel.execCmd]
      · simp [LockKernel.execCmd, hl, hH]
    · simpa [LockKernel.execCmd, LockState.setCode] using hrest
  | release l =>
    simp only [check, Option.ite_none_right_eq_some, Option.some.injEq] at hcheck
    obtain ⟨-, rfl⟩ := hcheck
    refine hstep ⟨H.erase l, ?_, ?_⟩ h.parked
    · intro l'
      by_cases hl : l' = l
      · subst hl
        simp [LockKernel.execCmd]
      · simp [LockKernel.execCmd, hl, hH]
    · simpa [LockKernel.execCmd, LockState.setCode] using hrest
  | seq a b =>
    obtain ⟨H₁, ha, hb⟩ := Option.bind_eq_some_iff.mp hcheck
    refine h.of_setCode c hH (flow_cons ha ?_ (flow_cons hb htag hrest))
    exact fun _ => ⟨b, rest, rfl⟩
  | alt a b =>
    simp only [check, Option.ite_none_right_eq_some] at hcheck
    obtain ⟨hEq, ha⟩ := hcheck
    refine h.of_setCode c hH ?_
    grind [flow_cons]
  | loop a =>
    have hloop := hcheck
    simp only [check, Option.ite_none_right_eq_some, Option.some.injEq] at hcheck
    obtain ⟨ha, rfl⟩ := hcheck
    refine h.of_setCode c hH ?_
    grind [flow_cons]
  | switch =>
    simp only [check, Option.ite_none_right_eq_some, Option.some.injEq] at hcheck
    obtain ⟨⟨rfl, hparks⟩, rfl⟩ := hcheck
    obtain ⟨cmd', rest', hrest'⟩ := htag (by simp)
    refine hstep ⟨{K.baton}, hH, ?_⟩ ?_
    · simpa [LockKernel.execCmd, LockState.setCode] using flow_pick
    · intro code hmem
      rcases List.mem_cons.mp hmem with rfl | hold
      · exact ⟨hrest, f, cmd', rest', hrest', hparks⟩
      · exact h.parked code hold
  | finish =>
    simp only [check, Option.ite_none_right_eq_some, Option.some.injEq] at hcheck
    obtain ⟨rfl, -⟩ := hcheck
    exact h.of_setCode c hH flow_pick
  | pick =>
    simp only [check, Option.ite_none_right_eq_some, Option.some.injEq] at hcheck
    obtain ⟨rfl, -⟩ := hcheck
    cases k with
    | zero => exact h.of_setCode c hH flow_release
    | succ i =>
      have hi : i < s.parked.length := ready
      have hmem : s.parked.getD i [] ∈ s.parked := by
        rw [List.getD_eq_getElem _ _ hi]
        exact List.getElem_mem hi
      refine hstep ⟨{K.baton}, hH, ?_⟩ ?_
      · have := (h.parked _ hmem).1
        simpa [LockKernel.execCmd, LockState.setCode] using this
      · intro code hcode'
        exact h.parked code (List.mem_of_mem_eraseIdx hcode')

/-- Checked programs keep to the locks they are said to hold, in every step. -/
theorem Fits.next (h : D.Fits K s) (hK : D.WellNested K) {l : LockLabel F}
    (enabled : K.Enabled s l) : D.Fits K (K.next s l) := by
  cases l with
  | call c f => exact h.call hK enabled.1
  | exec c k =>
    have ready : LockKernel.ReadyCode s c k (s.code c) := enabled
    rw [LockKernel.next]
    cases hcode : s.code c with
    | nil =>
      rw [hcode] at ready
      exact ready.elim
    | cons head rest =>
      rw [hcode] at ready
      exact h.exec hcode ready

theorem fits_init : D.Fits K ({} : LockState L F) :=
  ⟨fun _ => ⟨∅, by simp, rfl⟩, by simp⟩

/-- A processor that waits for `l` and holds `h` executes a function that may nest
them so. -/
theorem Fits.nest (h : D.Fits K s) {c : ℕ} {l held : L} (hwait : s.Waits c l)
    (howner : s.owner held = some c) :
    ∃ f, s.running c = some f ∧ D.nest f held l = true := by
  obtain ⟨f, rest, hcode⟩ := hwait
  obtain ⟨H, hH, hflow⟩ := h.code c
  rw [hcode] at hflow
  obtain ⟨H', hcheck, -⟩ := hflow
  simp only [check, Option.ite_none_right_eq_some] at hcheck
  exact ⟨f, by simp [LockState.running, hcode], hcheck.1.2 held ((hH held).mpr howner)⟩

/-- How processor `c` came to hold `held` and execute what it executes: it is in
the same function as before, which held the lock or has just got it, or it holds
the baton after a context switch. -/
inductive Held (D : LockDiscipline L F) (K : LockKernel L F) (s s' : LockState L F)
    (l : LockLabel F) (c : ℕ) (held : L) : Prop
  | kept (hrun : s'.running c = s.running c) (howner : s.owner held = some c)
  | taken (hrun : s'.running c = s.running c) (k : ℕ) (hl : l = .exec c k)
      (hwait : s.Waits c held)
  | switched (hbaton : held = K.baton) (f : F) (hrun : s'.running c = some f)
      (hf : f = K.scheduler ∨ D.parks f = true)

theorem Fits.held_exec (h : D.Fits K s) {c k : ℕ} {f : F} {cmd : LockCmd L}
    {rest : LockCode L F} (hcode : s.code c = (f, cmd) :: rest)
    (ready : LockKernel.ReadyCmd s c k cmd) {held : L}
    (hown : (K.execCmd s c k f rest cmd).owner held = some c) :
    Held D K s (K.execCmd s c k f rest cmd) (.exec c k) c held := by
  have hrun : s.running c = some f := by simp [LockState.running, hcode]
  obtain ⟨H, hH, hflow⟩ := h.code c
  rw [hcode] at hflow
  obtain ⟨H', hcheck, htag, hrest⟩ := hflow
  have hne : held ∈ H' → H' ≠ ∅ := fun hmem hEq => by simp [hEq] at hmem
  -- The commands after this one belong to the same function while a lock is held.
  have hsame : held ∈ H' → ∀ s' : LockState L F, (s'.setCode c rest).running c = s.running c := by
    intro hmem s'
    obtain ⟨cmd', rest', hrest'⟩ := htag (hne hmem)
    rw [s'.setCode_running hrest', hrun]
  have hbaton : H = {K.baton} → s.owner held = some c → held = K.baton := by
    intro hEq howner
    have := (hH held).mpr howner
    simpa [hEq] using this
  cases cmd with
  | skip =>
    simp only [check, Option.some.injEq] at hcheck
    subst hcheck
    exact .kept (hsame ((hH held).mpr hown) s) hown
  | acquire l =>
    simp only [check, Option.ite_none_right_eq_some, Option.some.injEq] at hcheck
    obtain ⟨-, rfl⟩ := hcheck
    by_cases hl : held = l
    · subst hl
      exact .taken (hsame (by simp) s) k rfl ⟨f, rest, hcode⟩
    · have howner : s.owner held = some c := by
        simpa [LockKernel.execCmd, hl] using hown
      exact .kept (hsame (by simp [(hH held).mpr howner]) s) howner
  | release l =>
    simp only [check, Option.ite_none_right_eq_some, Option.some.injEq] at hcheck
    obtain ⟨-, rfl⟩ := hcheck
    have hl : held ≠ l := by
      rintro rfl
      simp [LockKernel.execCmd] at hown
    have howner : s.owner held = some c := by
      simpa [LockKernel.execCmd, hl] using hown
    exact .kept (hsame (by simp [hl, (hH held).mpr howner]) s) howner
  | seq a b => exact .kept (by rw [LockKernel.execCmd, s.setCode_running rfl, hrun]) hown
  | alt a b => exact .kept (by rw [LockKernel.execCmd, s.setCode_running rfl, hrun]) hown
  | loop a =>
    simp only [check, Option.ite_none_right_eq_some, Option.some.injEq] at hcheck
    obtain ⟨-, rfl⟩ := hcheck
    refine .kept ?_ hown
    by_cases hk : k = 0
    · rw [LockKernel.execCmd, if_pos hk]
      exact hsame ((hH held).mpr hown) s
    · rw [LockKernel.execCmd, if_neg hk, s.setCode_running rfl, hrun]
  | switch =>
    simp only [check, Option.ite_none_right_eq_some, Option.some.injEq] at hcheck
    exact .switched (hbaton hcheck.1.1 hown) K.scheduler (s.setCode_running rfl) (Or.inl rfl)
  | finish =>
    simp only [check, Option.ite_none_right_eq_some, Option.some.injEq] at hcheck
    exact .switched (hbaton hcheck.1 hown) K.scheduler (s.setCode_running rfl) (Or.inl rfl)
  | pick =>
    simp only [check, Option.ite_none_right_eq_some, Option.some.injEq] at hcheck
    cases k with
    | zero =>
      exact .switched (hbaton hcheck.1 hown) K.scheduler (s.setCode_running rfl) (Or.inl rfl)
    | succ i =>
      have hi : i < s.parked.length := ready
      have hmem : s.parked.getD i [] ∈ s.parked := by
        rw [List.getD_eq_getElem _ _ hi]
        exact List.getElem_mem hi
      obtain ⟨-, g, cmd', rest', hparked, hparks⟩ := h.parked _ hmem
      exact .switched (hbaton hcheck.1 hown) g (s.setCode_running hparked) (Or.inr hparks)

theorem Fits.held_next (h : D.Fits K s) {l : LockLabel F} (enabled : K.Enabled s l) {c : ℕ}
    {held : L} (hown : (K.next s l).owner held = some c) : Held D K s (K.next s l) l c held := by
  cases l with
  | call c' f =>
    have howner : s.owner held = some c := hown
    have hne : c ≠ c' := by
      rintro rfl
      exact enabled.1 held howner
    exact .kept (by simp [LockKernel.next, LockState.running, LockState.setCode, hne]) howner
  | exec c' k =>
    have ready : LockKernel.ReadyCode s c' k (s.code c') := enabled
    rw [LockKernel.next] at hown ⊢
    cases hcode : s.code c' with
    | nil =>
      rw [hcode] at ready
      exact ready.elim
    | cons head rest =>
      rw [hcode] at ready hown
      by_cases hc : c = c'
      · subst hc
        exact h.held_exec hcode ready hown
      · refine .kept ?_ ((K.execCmd_owner ready hc held).mp hown)
        simp [LockState.running, LockKernel.execCode, K.execCmd_code _ hc]

end LockDiscipline

end Xv6.Lib
