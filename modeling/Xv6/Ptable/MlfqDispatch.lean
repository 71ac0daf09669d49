/-
# The dispatch law of the MLFQ scheduler

An iteration of `scheduler` takes the lock, ages the queues, looks at the head of
the first non-empty queue, and leaves the loop. Because the queues hold exactly
the runnable processes, in the order in which they were appended, that head is
always the right process, and a processor stays idle only when nothing can run.
-/

import Xv6.Ptable.MlfqIntegrity

namespace Xv6.Ptable

open Xv6.Lib

namespace State

variable {s : State} {c : Cpu} {p : Slot} {l : Label}

/-- In the MLFQ build the only label that dispatches on `c` is the start of an
iteration on `c`: after a process comes back the loop is left. -/
theorem dispatches_next (hl : l ≠ .schedule c) :
    (s.next .mlfq l).ghost.dispatches c = s.ghost.dispatches c := by
  cases ghostStep_next s .mlfq l with
  | dispatched c' n hl' h =>
    rcases hl' with rfl | ⟨hb, -⟩
    · have hne : c ≠ c' := by
        rintro rfl
        exact hl rfl
      rw [h]
      exact Function.update_of_ne hne _ _
    · exact absurd rfl hb
  | same h => rw [h]
  | found np hl' h => rw [h]
  | ctime c t np hl' h => rw [h]
  | exited c p hl' h => rw [h]
  | reaped f hl' h => rw [h]
  | stored c p child pid hl' h => rw [h]
  | tickInc hl' h => rw [h]
  | tickAccount hl' h => rw [h]; rfl
  | tick hl' h => rw [h]; rfl

/-- What an iteration does with the head it has picked. -/
theorem schedule_of_pick {i : ℕ}
    (h : (s.mlfq.age s.pids s.ticks).pickHead s.states = some (i, p)) :
    s.schedule .mlfq c =
      { s with mlfq := (s.mlfq.age s.pids s.ticks).charge s.pids i p }.dispatch c p none := by
  have h' : (s.mlfq.age s.pids s.ticks).pickHead (fun p => (s.proc p).state) = some (i, p) := h
  rw [State.schedule]
  dsimp only
  rw [h']
  rfl

theorem schedule_of_none
    (h : (s.mlfq.age s.pids s.ticks).pickHead s.states = none) :
    s.schedule .mlfq c = { s with mlfq := s.mlfq.age s.pids s.ticks }.schedIdle c := by
  have h' : (s.mlfq.age s.pids s.ticks).pickHead (fun p => (s.proc p).state) = none := h
  rw [State.schedule]
  dsimp only
  rw [h']

end State

/-- The dispatch law. With a runnable process in the table, an iteration on `c`
switches to exactly one process: a runnable one, in the lowest-numbered queue any
runnable process is in after the aging pass, and appended to it before all others
there. Without one, nothing is dispatched. Either way `c` dispatches nothing more
before its next iteration. -/
theorem mlfq_dispatch_law {s : State} {c : Cpu} (h : (system .mlfq).Reachable s)
    (hbound : s.ghost.allocs < 2 ^ 31 - 1) (enabled : s.Enabled (.schedule c)) :
    let aged := s.mlfq.age s.pids s.ticks
    let s' := s.next .mlfq (.schedule c)
    ((∃ x, (s.proc x).state = .runnable) → ∃ p, (s.proc p).state = .runnable ∧
      (s'.cpu c).proc = some p ∧ s'.lk = .resume c ∧ (s'.proc p).state = .running ∧
      (∀ x, x ≠ p → s'.proc x = s.proc x) ∧
      s'.ghost.dispatches c = s.ghost.dispatches c + 1 ∧
      ∀ x, (s.proc x).state = .runnable → (aged.info p).curQ ≤ (aged.info x).curQ ∧
        ((aged.info x).curQ = (aged.info p).curQ → x ≠ p → aged.stamp p < aged.stamp x)) ∧
    ((∀ x, (s.proc x).state ≠ .runnable) → (s'.cpu c).proc = none ∧ s'.lk = .free ∧
      s'.proc = s.proc ∧ s'.ghost.dispatches = s.ghost.dispatches) ∧
    ∀ labels t, (system .mlfq).Run s' labels t → Label.schedule c ∉ labels →
      t.ghost.dispatches c = s'.ghost.dispatches c := by
  intro aged s'
  have hhand : s.inHand = none := State.inHand_eq_none (by simp [enabled.1])
  have hqueued : ∀ x, s.Queued x ↔ (s.proc x).state = .runnable :=
    fun x => State.queued_iff hhand
  have haged : aged.QueuesOk s.Queued :=
    Mlfq.QueuesOk.age (qOk_of_reachable h hbound) (pidOk_of_reachable h hbound).queued_inj
  refine ⟨?_, ?_, ?_⟩
  · rintro ⟨x₀, hx₀⟩
    obtain ⟨i, p, hpick, hp, hcur, hmin⟩ :=
      haged.pickHead_some s.states (fun x hx => hx.1) ((hqueued x₀).mpr hx₀)
    have hs' : s' = _ := State.schedule_of_pick hpick
    refine ⟨p, hp.1, ?_, ?_, ?_, ?_, ?_, ?_⟩
    · simp [hs', State.dispatch]
    · simp [hs', State.dispatch]
    · simp [hs', State.dispatch, State.setProc]
    · intro x hx
      simp [hs', State.dispatch, State.setProc, hx]
    · simp [hs', State.dispatch]
    · intro x hx
      rw [hcur]
      exact hmin x ((hqueued x).mpr hx)
  · intro hnone
    have hpick := haged.pickHead_none s.states fun x hx => hnone x hx.1
    have hs' : s' = _ := State.schedule_of_none hpick
    simp [hs', State.schedIdle]
  · intro labels t hrun hno
    refine hrun.unchanged (f := fun t => t.ghost.dispatches c) fun u l hl _ => ?_
    exact State.dispatches_next fun hEq => hno (hEq ▸ hl)

set_option maxRecDepth 10000 in
/-- Of a process in queue `1` and two in queue `0`, the one that has been there longer is run. -/
theorem mlfq_dispatch_of_children : ∃ s, (system .mlfq).Reachable s ∧
    s.Enabled (.schedule 1) ∧ (∀ p < 3, (s.proc p).state = .runnable) ∧
    ((s.next .mlfq (.schedule 1)).cpu 1).proc = some 1 := by
  obtain ⟨s, hs, hbound, henabled, hrun, hqueue, hstamp⟩ := Machine.exists_reachable_of_exec
    (system .mlfq) twoChildren (s := {})
    (P := fun s => s.ghost.allocs < 2 ^ 31 - 1 ∧ s.Enabled (.schedule 1) ∧
      (∀ p, (s.proc p).state = .runnable ↔ p < 3) ∧
      (∀ p < 3, ((s.mlfq.age s.pids s.ticks).info p).curQ = if p = 0 then 1 else 0) ∧
      (s.mlfq.age s.pids s.ticks).stamp 1 < (s.mlfq.age s.pids s.ticks).stamp 2) rfl
    (by decide +kernel)
  obtain ⟨p, hp, hcpu, -, -, -, -, hfirst⟩ := (mlfq_dispatch_law hs hbound henabled).1
    ⟨1, (hrun 1).mpr (by decide)⟩
  have hlt := (hrun p).mp hp
  obtain ⟨hle, hbefore⟩ := hfirst 1 ((hrun 1).mpr (by decide))
  rw [hqueue p hlt, hqueue 1 (by decide)] at hle hbefore
  have hcases : ∀ q : Slot, q < 3 → q = 0 ∨ q = 1 ∨ q = 2 := by decide
  obtain rfl | rfl | rfl := hcases p hlt
  · cases hle
  · exact ⟨s, hs, henabled, fun p hp => (hrun p).mpr hp, hcpu⟩
  · exact absurd (hbefore rfl (by decide)) (not_lt.mpr hstamp.le)

end Xv6.Ptable
