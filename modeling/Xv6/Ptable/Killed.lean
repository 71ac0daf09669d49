/-
# The kill flag of free slots

`allocproc` does not clear `killed`; it relies on free slots having it clear.
`wait` and `waitx` see to that for the slots they free. Two paths do not:
`kill` marks the first slot with the given pid whatever its state, and free slots
have pids too (`0`, or the pid of a `fork` that failed); and a `fork` that fails
gives its slot back with the mark it may have received in the meantime.

In every run that avoids these two, free slots are unmarked, so no process
inherits a kill, and `kill` succeeds only on processes.
-/

import Xv6.Ptable.Steps

namespace Xv6.Ptable

open Xv6.Lib

namespace State

variable {s : State} {b : Build} {c : Cpu} {p : Slot} {l : Label}

theorem killTarget_spec {pid : ℤ} (h : s.killTarget pid = some p) : (s.proc p).pid = pid := by
  simpa using List.find?_some h

theorem killTarget_eq_none {pid : ℤ} :
    s.killTarget pid = none ↔ ∀ p, (s.proc p).pid ≠ pid := by
  simp [killTarget, List.find?_eq_none]

/-- No free slot carries the pid given to `kill`, and a slot that is given back
by a failing `fork` is unmarked. -/
def KillsOnlyUsed (s : State) : Label → Prop
  | .kill _ _ pid => ∀ p, (s.proc p).pid = pid → (s.proc p).state ≠ .unused
  | .allocKalloc _ _ np ok | .allocCopy _ _ np ok => ok = false → (s.proc np).killed = false
  | _ => True

instance (s : State) (l : Label) : Decidable (s.KillsOnlyUsed l) := by
  apply l.casesOn (motive := fun l => Decidable (s.KillsOnlyUsed l)) <;> intros <;>
    dsimp only [KillsOnlyUsed] <;> infer_instance

/-- Free slots are unmarked. -/
def FreeUnmarked (s : State) : Prop :=
  ∀ p, (s.proc p).state = .unused → (s.proc p).killed = false

theorem Drifted.unused {x y : Proc} (h : Drifted x y) (hy : y.state = .unused) :
    x.state = .unused ∧ y.killed = x.killed := by
  refine ⟨?_, by rw [h.1]⟩
  rcases h.2 with hsame | ⟨-, hrun⟩
  · rw [← hsame, hy]
  · rw [hy] at hrun
    cases hrun

theorem FreeUnmarked.next (h : s.FreeUnmarked) (hok : s.Ok) (enabled : s.Enabled l)
    (huse : s.KillsOnlyUsed l) (b : Build) : (s.next b l).FreeUnmarked := by
  intro p hp
  have hstep := slotStep_next hok enabled b p
  generalize (s.next b l).proc p = y at hp hstep
  cases hstep with
  | drift hy =>
    obtain ⟨hx, hk⟩ := hy.unused hp
    rw [hk]
    exact h p hx
  | failed c t hl _ =>
    rcases hl with rfl | rfl
    · exact huse rfl
    · exact huse rfl
  | reaped => rfl
  | killed c q pid hl ht hy =>
    subst hl
    exact absurd (hy.unused hp).1 (huse p (killTarget_spec ht))
  | ticked hl hy =>
    obtain ⟨hx, hk⟩ := hy.unused hp
    rw [tickProc_state] at hx
    rw [hk, tickProc_of_ne (by simp [hx]) (by simp [hx])]
    exact h p hx
  | ctime c t hl hpc | init c t hl hpc =>
    have hemb : (s.proc p).state = .embryo := TableOk.owns hok t _ p hpc
    simp [hemb] at hp
  | trapKilled hst | awake hst => simp [hst] at hp
  | priority n => exact h p hp
  | found | published | exited | yielded | slept | dispatched =>
    simp [Proc.asleep] at hp

end State

/-- In a run whose steps all meet `KillsOnlyUsed`: every free slot has `killed`
clear, so does every process `allocproc` hands out, and `kill(pid)` returns `0`
exactly if a slot in use has that pid, and otherwise `-1` with no effect. -/
theorem no_process_inherits_kill {b : Build} {s : State}
    (h : ((system b).restrict State.KillsOnlyUsed).Reachable s) :
    (∀ p, (s.proc p).state = .unused → (s.proc p).killed = false) ∧
    (∀ t np, s.unusedSlot = some np → ((s.allocFound t np).proc np).killed = false) ∧
    ∀ c p pid, s.KillsOnlyUsed (.kill c p pid) →
      (s.killResult pid = 0 → ∃ q, (s.proc q).pid = pid ∧ (s.proc q).state ≠ .unused) ∧
      ((∀ q, (s.proc q).pid = pid → (s.proc q).state = .unused) →
        s.killResult pid = -1 ∧ s.kill b pid = s) := by
  have both : s.Ok ∧ s.FreeUnmarked := by
    refine h.invariant (I := fun s => s.Ok ∧ s.FreeUnmarked) ?_ ?_
    · rintro s rfl
      exact ⟨State.ok_init, fun _ _ => rfl⟩
    · exact fun s l hs enabled => ⟨hs.1.next enabled.1, hs.2.next hs.1 enabled.1 enabled.2 b⟩
  refine ⟨both.2, ?_, ?_⟩
  · intro t np hnp
    have := both.2 np (State.unusedSlot_spec hnp)
    simpa [State.allocFound, State.setPc] using this
  · intro c p pid huse
    refine ⟨?_, ?_⟩
    · intro hzero
      cases htarget : s.killTarget pid with
      | none => simp [State.killResult, htarget] at hzero
      | some q =>
        have hq := State.killTarget_spec htarget
        exact ⟨q, hq, huse q hq⟩
    · intro hall
      have htarget : s.killTarget pid = none :=
        State.killTarget_eq_none.mpr fun q hq => huse q hq (hall q hq)
      exact ⟨by simp [State.killResult, htarget], by simp [State.kill, htarget]⟩

set_option maxRecDepth 10000 in
/-- A killed child that exits and is collected leaves an unmarked slot. -/
theorem no_kill_after_collection :
    ∃ s, ((system .rr).restrict State.KillsOnlyUsed).Reachable s ∧
      (s.proc 1).state = .unused ∧ (s.proc 1).killed = false := by
  obtain ⟨s, hs, hun⟩ := Machine.exists_reachable_of_exec
    ((system .rr).restrict State.KillsOnlyUsed)
    (boot ++ [.schedule 1, .resumed 1 0] ++ forkLabels 1 0 1 ++
      [.kill 1 0 2, .schedule 0, .resumed 0 1, .exit 0 1, .back 0 1, .wait 1 0 false]) (s := {})
    (P := fun s => (s.proc 1).state = .unused) rfl (by decide +kernel)
  exact ⟨s, hs, hun, (no_process_inherits_kill hs).1 1 hun⟩

set_option maxRecDepth 10000 in
/-- `kill(0)` returns `0`, marks a slot that was never used, and the next child
is born killed. -/
theorem kill_zero_marks_free_slot :
    (∃ s, (system .rr).Reachable s ∧ s.Enabled (.kill 1 0 0) ∧ s.killResult 0 = 0 ∧
      (∀ q, (s.proc q).pid = 0 → (s.proc q).state = .unused)) ∧
    (∃ s, (system .rr).Reachable s ∧ (s.proc 1).state = .unused ∧ (s.proc 1).killed = true) ∧
    ∃ s, (system .rr).Reachable s ∧ (s.proc 1).state = .runnable ∧ (s.proc 1).killed = true := by
  refine ⟨?_, ?_, ?_⟩
  · exact Machine.exists_reachable_of_exec (system .rr)
      (boot ++ [.schedule 1, .resumed 1 0]) (s := {})
      (P := fun s => s.Enabled (.kill 1 0 0) ∧ s.killResult 0 = 0 ∧
        ∀ q, (s.proc q).pid = 0 → (s.proc q).state = .unused) rfl (by decide +kernel)
  · exact Machine.exists_reachable_of_exec (system .rr)
      (boot ++ [.schedule 1, .resumed 1 0, .kill 1 0 0]) (s := {})
      (P := fun s => (s.proc 1).state = .unused ∧ (s.proc 1).killed = true) rfl
      (by decide +kernel)
  · exact Machine.exists_reachable_of_exec (system .rr)
      (boot ++ [.schedule 1, .resumed 1 0, .kill 1 0 0] ++ forkLabels 1 0 1) (s := {})
      (P := fun s => (s.proc 1).state = .runnable ∧ (s.proc 1).killed = true) rfl
      (by decide +kernel)

end Xv6.Ptable
