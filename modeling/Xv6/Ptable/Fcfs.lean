/-
# First come, first served

The scan of the FCFS scheduler keeps `first_process` unless the process at hand
has a larger `ctime`. So it does not find the earliest process but the latest
one, and the two are the same only when all runnable processes were created at
the same tick. An iteration that finds nothing has met no runnable process.
-/

import Xv6.Ptable.Pbs
import Xv6.Ptable.Table

namespace Xv6.Ptable

open Xv6.Lib

namespace State

variable {s : State} {p : Slot}

theorem fcfsPick_eq_none (h : s.fcfsPick = none) (x : Slot) :
    (s.proc x).state ≠ .runnable := by
  have hbest := s.isScan_fcfsScan.foldl (List.finRange NPROC)
  rw [← fcfsPick, h] at hbest
  exact hbest x (List.mem_finRange x)

/-- The scan ends with a runnable process of largest `ctime`. -/
theorem fcfsPick_latest (h : s.fcfsPick = some p) {x : Slot}
    (hx : (s.proc x).state = .runnable) : (s.proc x).ctime ≤ (s.proc p).ctime := by
  have hbest := s.isScan_fcfsScan.foldl (List.finRange NPROC)
  rw [← fcfsPick, h] at hbest
  exact neg_le_neg_iff.mp (hbest.2 x (List.mem_finRange x) hx)

/-- An iteration dispatches what the scan has found. -/
theorem dispatched_fcfs (s : State) (c : Cpu) :
    s.dispatched .fcfs (.schedule c) = s.fcfsPick := by
  rw [dispatched, schedule]
  cases s.fcfsPick with
  | none => exact schedIdle_proc s c
  | some p => exact dispatch_proc s c p none

/-- All runnable processes were created at the same tick. -/
def SameCtime (s : State) : Prop :=
  ∀ x y, (s.proc x).state = .runnable → (s.proc y).state = .runnable →
    (s.proc x).ctime = (s.proc y).ctime

end State

/-- FCFS dispatches a runnable process with the least `ctime`, and nothing only if there is
none, exactly if all runnable processes have the same `ctime`. -/
theorem fcfs_dispatches_earliest_iff (s : State) (c : Cpu) :
    ((∀ p, s.dispatched .fcfs (.schedule c) = some p → (s.proc p).state = .runnable ∧
      ∀ x, (s.proc x).state = .runnable → (s.proc p).ctime ≤ (s.proc x).ctime) ∧
    (s.dispatched .fcfs (.schedule c) = none → ∀ x, (s.proc x).state ≠ .runnable)) ↔
      s.SameCtime := by
  rw [State.dispatched_fcfs]
  constructor
  · rintro ⟨hearliest, -⟩ x y hx hy
    cases hpick : s.fcfsPick with
    | none => exact absurd hx (State.fcfsPick_eq_none hpick x)
    | some p =>
      -- the process found is both the latest and the earliest one
      have hsame : ∀ z, (s.proc z).state = .runnable → (s.proc z).ctime = (s.proc p).ctime :=
        fun z hz => le_antisymm (State.fcfsPick_latest hpick hz) ((hearliest p hpick).2 z hz)
      exact (hsame x hx).trans (hsame y hy).symm
  · intro hsame
    refine ⟨fun p hp => ?_, State.fcfsPick_eq_none⟩
    have hrun := State.fcfsPick_spec hp
    exact ⟨hrun, fun x hx => (hsame p x hrun hx).le⟩

/-- Two runnable processes, of which the first was created earlier. -/
def elderAndYounger : State :=
  { proc := fun p =>
      if p = 0 then { state := .runnable, ctime := 3 }
      else if p = 1 then { state := .runnable, ctime := 8 } else {} }

set_option maxRecDepth 10000 in
/-- FCFS dispatches the younger one. -/
theorem fcfs_dispatches_younger : elderAndYounger.dispatched .fcfs (.schedule 0) = some 1 ∧
    (elderAndYounger.proc 0).state = .runnable ∧
    (elderAndYounger.proc 0).ctime < (elderAndYounger.proc 1).ctime := by
  decide +kernel

end Xv6.Ptable
