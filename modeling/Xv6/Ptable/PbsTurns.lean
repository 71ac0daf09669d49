/-
# Turns among processes of equal priority

The PBS scheduler goes round the processes of the highest priority by walking the
table once and starting over. The walk is abandoned as soon as a process of
higher priority has become runnable, and the next walk at the old priority
starts at slot `0` again. A process late in the table can lose its turn that way
for as long as it waits, which the first theorem shows by a run.

The turn is kept whenever no walk is abandoned with processes of its priority
left, and the priority that the kept pointer shows is not changed under it. Then
a process that waits with the same priority as `A` is served before `A` is
served again. The invariant says where the walk is in relation to both slots.
-/

import Xv6.Ptable.Pbs
import Xv6.Ptable.Frame

namespace Xv6.Ptable

open Xv6.Lib

/-- The processor a label runs on. Interrupts and `userinit` are taken by
processor `0`. -/
def Label.cpu : Label → Cpu
  | .fork c _ _ | .allocKalloc c _ _ _ | .allocCtime c _ _ | .allocInit c _ _
  | .allocCopy c _ _ _ | .forkPublish c _ _ | .exit c _ | .wait c _ _ | .waitxStore c _ _ _
  | .kill c _ _ | .trapKill c _ | .setPriority c _ _ _ | .yield c _ | .sleep c _ _
  | .schedule c | .resumed c _ | .back c _ | .timerTrap c _ => c
  | _ => 0

/-- The PBS build on one processor. -/
def pbsOneCpu : Machine State Label :=
  (system .pbs).restrict fun _ l => l.cpu = 0

instance (s : State) (l : Label) : Decidable (pbsOneCpu.Enabled s l) :=
  inferInstanceAs (Decidable (s.Enabled l ∧ l.cpu = 0))

namespace State

variable {s : State} {A B p x : Slot} {l : Label}

/-- Process `B` waits for the processor with the priority of `A`. -/
def WaitsLike (A B : Slot) (s : State) : Prop :=
  (s.proc B).state = .runnable ∧ (s.proc B).priority = (s.proc A).priority
  deriving Decidable

end State

set_option maxRecDepth 10000 in
/-- Turns can be lost. Slots `1` and `2` have equal priority. While `1` runs, the
first process wakes up with a higher priority; the walk is abandoned, the first
process runs and sleeps again, and the next walk dispatches `1` a second time
although `2` has been waiting all along. -/
theorem pbs_turn_lost : ∃ s₁ labels s₂, pbsOneCpu.Reachable s₁ ∧
    pbsOneCpu.Enabled s₁ (.schedule 0) ∧ s₁.dispatched .pbs (.schedule 0) = some 1 ∧
    (pbsOneCpu.restrict fun s _ => s.WaitsLike 1 2).Run (s₁.next .pbs (.schedule 0)) labels s₂ ∧
    s₂.WaitsLike 1 2 ∧ pbsOneCpu.Enabled s₂ (.schedule 0) ∧
    s₂.dispatched .pbs (.schedule 0) = some 1 := by
  let labels : List Label := [.resumed 0 1, .wakeup (.other 7), .timerTrap 0 1, .back 0 1,
    .schedule 0, .resumed 0 0, .sleep 0 0 (.other 7), .back 0 0]
  obtain ⟨s₁, hreach, henabled, hfirst, hexec⟩ := Machine.exists_reachable_of_exec pbsOneCpu
    (boot ++ [.schedule 0, .resumed 0 0] ++ forkLabels 0 0 1 ++ forkLabels 0 0 2 ++
      [.setPriority 0 0 50 1, .yield 0 0, .back 0 0, .schedule 0, .resumed 0 0,
        .sleep 0 0 (.other 7), .back 0 0]) (s := {})
    (P := fun s => pbsOneCpu.Enabled s (.schedule 0) ∧
      s.dispatched .pbs (.schedule 0) = some 1 ∧
      ((pbsOneCpu.restrict fun s _ => s.WaitsLike 1 2).exec labels
        (s.next .pbs (.schedule 0))).any (fun t => decide (t.WaitsLike 1 2 ∧
          pbsOneCpu.Enabled t (.schedule 0) ∧ t.dispatched .pbs (.schedule 0) = some 1)) = true)
    rfl (by decide +kernel)
  obtain ⟨s₂, hrun, hsecond⟩ := (Option.any_eq_true _ _).mp hexec
  exact ⟨s₁, labels, s₂, hreach, henabled, hfirst, Machine.run_of_exec hrun,
    of_decide_eq_true hsecond⟩

namespace State

variable {s : State} {A B p x hp : Slot} {l : Label} {b : Build}

theorem setProc_priority {f : Proc → Proc} (hf : ∀ y, (f y).priority = y.priority) (s : State)
    (p x : Slot) : ((s.setProc p f).proc x).priority = (s.proc x).priority := by
  by_cases hx : x = p
  · subst hx
    rw [setProc_proc_self, hf]
  · rw [setProc_proc_of_ne s f hx]

theorem Drift.priority {s' : State} (h : Drift s s') (x : Slot) :
    (s'.proc x).priority = (s.proc x).priority := by
  rw [h.proc x]

theorem tickProc_priority (x : Proc) : (tickProc x).priority = x.priority := by
  unfold tickProc
  split <;> rfl

theorem waitBody_priority (s : State) (b : Build) (c : Cpu) (cur : Slot) (w : Bool) (x : Slot) :
    ((s.waitBody b c cur w).proc x).priority = (s.proc x).priority := by
  unfold waitBody
  split
  · next child _ =>
    dsimp only
    split <;> exact setProc_priority (f := Proc.freed) (fun _ => rfl) s child x
  · split
    · rfl
    · exact setProc_priority (f := fun y => y.asleep (.proc cur)) (fun _ => rfl) s cur x

theorem dispatch_priority (s : State) (c : Cpu) (p : Slot) (hp : Option Slot) (x : Slot) :
    ((s.dispatch c p hp).proc x).priority = (s.proc x).priority :=
  setProc_priority (f := fun y => { y with nRun := y.nRun + 1, state := .running })
    (fun _ => rfl) s p x

theorem schedule_priority (s : State) (c : Cpu) (x : Slot) :
    ((s.schedule .pbs c).proc x).priority = (s.proc x).priority := by
  rcases schedule_pbs s c with ⟨hidle, -⟩ | ⟨hp, p, -, -, hdispatch⟩
  · rw [hidle]
    rfl
  · rw [hdispatch, dispatch_priority]

theorem schedBack_priority (s : State) (c : Cpu) (p x : Slot) :
    ((s.schedBack .pbs c p).proc x).priority = (s.proc x).priority := by
  rcases schedBack_pbs s c p with ⟨hidle, -⟩ | ⟨hp, p', -, -, hdispatch⟩
  · rw [hidle]
    rfl
  · rw [hdispatch, dispatch_priority]

theorem kill_priority (s : State) (b : Build) (pid : ℤ) (x : Slot) :
    ((s.kill b pid).proc x).priority = (s.proc x).priority := by
  unfold kill
  split
  · rfl
  · next p _ =>
    have hmark := setProc_priority (f := fun y => { y with killed := true }) (fun _ => rfl) s p x
    dsimp only
    split
    · exact (setProc_priority (f := fun y => { y with state := .runnable }) (fun _ => rfl)
        _ p x).trans hmark
    · exact hmark

theorem resumed_priority (s : State) (b : Build) (c : Cpu) (p x : Slot) :
    ((s.resumed b c p).proc x).priority = (s.proc x).priority := by
  have hclear := setProc_priority (f := fun y => { y with chan := none }) (fun _ => rfl) s p x
  unfold resumed
  split
  · rfl
  · exact hclear
  · rw [waitBody_priority]
    exact hclear

/-- A step changes the priority of at most one slot: the target of
`set_priority`, or a slot that `allocproc` initialises. -/
theorem priority_next (s : State) (l : Label) :
    (∀ x, ((s.next .pbs l).proc x).priority = (s.proc x).priority) ∨
    ∃ z, (∀ x, x ≠ z → ((s.next .pbs l).proc x).priority = (s.proc x).priority) ∧
      ((∃ c q n pid, l = .setPriority c q n pid ∧ s.killTarget pid = some z ∧
        ((s.next .pbs l).proc z).priority = n) ∨
      ∃ c t, l = .allocInit c t z ∧ ((s.next .pbs l).proc z).priority = 60) := by
  cases l with
  | setPriority c q n pid =>
    rw [next, setPriority]
    split
    · exact Or.inl fun _ => rfl
    · next z hz =>
      refine Or.inr ⟨z, ?_, Or.inl ⟨c, q, n, pid, rfl, hz, ?_⟩⟩
      · intro x hx
        dsimp only
        split <;> exact congrArg Proc.priority
          (setProc_proc_of_ne s (fun y => { y with priority := n }) hx)
      · dsimp only
        split <;> exact congrArg Proc.priority
          (setProc_proc_self s z fun y => { y with priority := n })
  | allocInit c t np =>
    let fresh : Proc → Proc := fun y =>
      { y with etime := 0, rtime := 0, iotime := 0, nRun := 0, priority := 60 }
    have hproc : (s.next .pbs (.allocInit c t np)).proc = (s.setProc np fresh).proc := by
      rw [next, allocInit]
      split <;> rfl
    refine Or.inr ⟨np, ?_, Or.inr ⟨c, t, rfl, ?_⟩⟩
    · intro x hx
      rw [hproc, setProc_proc_of_ne s fresh hx]
    · rw [hproc, setProc_proc_self]
  | userinit np =>
    exact Or.inl fun x => setProc_priority
      (f := fun y => { y with state := .embryo, pid := s.nextpid }) (fun _ => rfl) s np x
  | fork c p np =>
    exact Or.inl fun x => setProc_priority
      (f := fun y => { y with state := .embryo, pid := s.nextpid }) (fun _ => rfl) s np x
  | allocKalloc c t np ok =>
    refine Or.inl fun x => ?_
    cases ok with
    | true => rfl
    | false =>
      exact setProc_priority (f := fun y => { y with state := .unused }) (fun _ => rfl) s np x
  | allocCtime c t np =>
    exact Or.inl fun x => setProc_priority
      (f := fun y => { y with ctime := toInt32 s.ticks }) (fun _ => rfl) s np x
  | allocCopy c t np ok =>
    refine Or.inl fun x => ?_
    cases ok with
    | true =>
      cases t with
      | none => rfl
      | some q =>
        exact setProc_priority (f := fun y => { y with parent := some q }) (fun _ => rfl)
          s np x
    | false =>
      exact setProc_priority (f := fun y => { y with state := .unused }) (fun _ => rfl) s np x
  | forkPublish c p np =>
    exact Or.inl fun x => setProc_priority
      (f := fun y => { y with state := .runnable }) (fun _ => rfl) s np x
  | userinitPublish np =>
    exact Or.inl fun x => setProc_priority
      (f := fun y => { y with state := .runnable }) (fun _ => rfl) s np x
  | exit c p =>
    refine Or.inl fun x => ?_
    refine (setProc_priority (f := fun y =>
      { y with state := .zombie, etime := toInt32 (s.exitDrift .pbs p).ticks })
      (fun _ => rfl) _ p x).trans ?_
    exact (drift_exitDrift s .pbs p).priority x
  | wait c p w => exact Or.inl fun x => waitBody_priority s .pbs c p w x
  | kill c p pid => exact Or.inl fun x => kill_priority s .pbs pid x
  | trapKill c p =>
    exact Or.inl fun x => setProc_priority
      (f := fun y => { y with killed := true }) (fun _ => rfl) s p x
  | yield c p =>
    exact Or.inl fun x => setProc_priority
      (f := fun y => { y with state := .runnable }) (fun _ => rfl) s p x
  | sleep c p chan =>
    exact Or.inl fun x => setProc_priority (f := fun y => y.asleep chan) (fun _ => rfl) s p x
  | wakeup chan => exact Or.inl fun x => (drift_wakeup1 s .pbs _).priority x
  | schedule c => exact Or.inl fun x => schedule_priority s c x
  | resumed c p => exact Or.inl fun x => resumed_priority s .pbs c p x
  | back c p => exact Or.inl fun x => schedBack_priority s c p x
  | timerTrap c p =>
    exact Or.inl fun x => setProc_priority
      (f := fun y => { y with state := .runnable }) (fun _ => rfl) s p x
  | waitxStore c p child pid => exact Or.inl fun _ => rfl
  | tickInc => exact Or.inl fun _ => rfl
  | tickAccount => exact Or.inl fun x => tickProc_priority (s.proc x)
  | tickWake => exact Or.inl fun x => (drift_wakeup1 s .pbs _).priority x
  | tick =>
    refine Or.inl fun x => ?_
    exact ((drift_wakeup1 s.tickInc.tickAccount .pbs (some .ticks)).priority x).trans
      (tickProc_priority (s.proc x))

/-- Only the two steps of a scheduler change what a processor runs. -/
theorem cpu_next (b : Build) (hschedule : ∀ c, l ≠ .schedule c) (hback : ∀ c p, l ≠ .back c p) :
    (s.next b l).cpu = s.cpu :=
  (next_leaves s b l).cpu hschedule hback

/-! ## When turns are kept -/

/-- The step leaves the walk of processor `0` alone: a walk is not abandoned with
runnable processes of its priority left, and `high_priority_process` keeps its
priority, against `set_priority` and against a new process in its slot. -/
def KeepsTurn (s : State) : Label → Prop
  | .back _ p => ∀ hp, (s.cpu 0).hp = some hp → s.pbsOvertaken hp = true →
      ∀ x, ¬ s.IsNext hp (p + 1) x
  | .setPriority _ _ priority pid => ∀ hp, (s.cpu 0).hp = some hp →
      s.killTarget pid = some hp → (s.proc hp).priority = priority
  | .allocInit _ _ np => (s.cpu 0).hp = some np → (s.proc np).priority = 60
  | _ => True

instance (s : State) (hp : Slot) (k : ℕ) (x : Slot) : Decidable (s.IsNext hp k x) :=
  inferInstanceAs (Decidable (_ ∧ _ ∧ _))

instance (s : State) (l : Label) : Decidable (s.KeepsTurn l) := by
  apply l.casesOn (motive := fun l => Decidable (s.KeepsTurn l)) <;> intros <;>
    dsimp only [KeepsTurn] <;> infer_instance

/-- Where the walk is while `B` waits behind `A`. A walk at their priority is
either the one that served `A` and has `B` still before it if `B` comes later in
the table, or a later one that has not reached `B`. -/
structure TurnOk (A B : Slot) (s : State) : Prop where
  idle : (s.cpu 0).proc = none → B < A
  walk : ∀ p, (s.cpu 0).proc = some p → ∃ hp, (s.cpu 0).hp = some hp ∧
    ((s.proc hp).priority = (s.proc B).priority →
      (A ≤ p ∧ (A < B → p < B)) ∨ (B < A ∧ p < B)) ∧
    ((s.proc hp).priority ≠ (s.proc B).priority → B < A)

/-- While `B` waits with the priority of `A`, neither priority changes. -/
theorem WaitsLike.priority_kept (hne : A ≠ B) (h : s.WaitsLike A B)
    (h' : (s.next .pbs l).WaitsLike A B) :
    ((s.next .pbs l).proc B).priority = (s.proc B).priority := by
  rcases priority_next s l with hall | ⟨z, hother, -⟩
  · exact hall B
  · by_cases hz : B = z
    · rw [h'.2, hother A (fun hA => hne (hA.trans hz.symm)), h.2]
    · exact hother B hz

theorem KeepsTurn.priority_kept (h : s.KeepsTurn l) (hhp : (s.cpu 0).hp = some hp) :
    ((s.next .pbs l).proc hp).priority = (s.proc hp).priority := by
  rcases priority_next s l with hall | ⟨z, hother, hcause⟩
  · exact hall hp
  · by_cases hz : hp = z
    · subst hz
      rcases hcause with ⟨c, q, n, pid, rfl, htarget, hnew⟩ | ⟨c, t, rfl, hnew⟩
      · rw [hnew, h hp hhp htarget]
      · rw [hnew, h hhp]
    · exact hother hp hz

/-- A step that is not the scheduler's keeps the walk where it is. -/
theorem TurnOk.of_cpu (h : s.TurnOk A B) (hcpu : (s.next .pbs l).cpu = s.cpu)
    (hkeep : s.KeepsTurn l)
    (hB : ((s.next .pbs l).proc B).priority = (s.proc B).priority) :
    (s.next .pbs l).TurnOk A B := by
  refine ⟨?_, ?_⟩
  · rw [hcpu]
    exact h.idle
  · rw [hcpu]
    intro p hp
    obtain ⟨hp', hhp, hequal, hdiffer⟩ := h.walk p hp
    refine ⟨hp', hhp, ?_, ?_⟩
    · rwa [hkeep.priority_kept hhp, hB]
    · rwa [hkeep.priority_kept hhp, hB]

/-- The scheduler switches to `p` in a walk with pointer `hp`. -/
theorem TurnOk.dispatch (s : State)
    (hequal : (s.proc hp).priority = (s.proc B).priority →
      (A ≤ p ∧ (A < B → p < B)) ∨ (B < A ∧ p < B))
    (hdiffer : (s.proc hp).priority ≠ (s.proc B).priority → B < A) :
    (s.dispatch 0 p (some hp)).TurnOk A B := by
  have hcpu : (s.dispatch 0 p (some hp)).cpu 0 = ⟨some p, some hp⟩ := by simp [State.dispatch]
  refine ⟨?_, ?_⟩
  · rw [hcpu]
    simp
  · grind [dispatch_priority]

theorem TurnOk.schedIdle (h : B < A) : (s.schedIdle 0).TurnOk A B := by
  have hcpu : (s.schedIdle 0).cpu 0 = {} := by simp [State.schedIdle]
  refine ⟨fun _ => h, ?_⟩
  rw [hcpu]
  simp

/-- Dispatching `B` ends its wait. -/
theorem not_waitsLike_dispatch (s : State) (c : Cpu) (hp : Option Slot) :
    ¬ (s.dispatch c B hp).WaitsLike A B := by
  intro h
  have hrun : ((s.dispatch c B hp).proc B).state = .running :=
    congrArg Proc.state (setProc_proc_self s B fun y =>
      { y with nRun := y.nRun + 1, state := .running })
  rw [h.1] at hrun
  cases hrun

/-- The outer iteration: a walk at the priority of `A` and `B` starts before `B`,
and dispatches something before `B`, or `B`. -/
theorem TurnOk.schedule (h : s.TurnOk A B) (hcpu : (s.cpu 0).proc = none)
    (hwait : s.WaitsLike A B) :
    s.dispatched .pbs (.schedule 0) ≠ some A ∧
    ((s.schedule .pbs 0).WaitsLike A B → (s.schedule .pbs 0).TurnOk A B) := by
  have hBA := h.idle hcpu
  rcases schedule_pbs s 0 with ⟨-, hnone⟩ | ⟨hp, p, -, hnext, hdispatch⟩
  · exact absurd hwait.1 (hnone B)
  · obtain ⟨-, ⟨-, -, hprio⟩, hfirst⟩ := pbsNext_eq_some hnext
    rw [dispatched, hdispatch, dispatch_proc]
    by_cases hequal : (s.proc hp).priority = (s.proc B).priority
    · have hle : p ≤ B := hfirst B ⟨Nat.zero_le _, hwait.1, hequal.symm⟩
      refine ⟨?_, fun hstill => ?_⟩
      · rintro ⟨⟩
        exact absurd hBA (not_lt.mpr hle)
      · refine .dispatch s (fun _ => Or.inr ⟨hBA, lt_of_le_of_ne hle ?_⟩) fun _ => hBA
        rintro rfl
        exact not_waitsLike_dispatch s 0 _ hstill
    · refine ⟨?_, fun _ => .dispatch s (fun hEq => absurd hEq hequal) fun _ => hBA⟩
      rintro ⟨⟩
      exact hequal (hprio.symm.trans hwait.2.symm)

/-- The walk goes on: it reaches `B` before it ends, and never goes back to `A`. -/
theorem TurnOk.schedBack (hne : A ≠ B) (h : s.TurnOk A B) (hcpu : (s.cpu 0).proc = some p)
    (hwait : s.WaitsLike A B) (hkeep : s.KeepsTurn (.back 0 p)) :
    s.dispatched .pbs (.back 0 p) ≠ some A ∧
    ((s.schedBack .pbs 0 p).WaitsLike A B → (s.schedBack .pbs 0 p).TurnOk A B) := by
  obtain ⟨hp, hhp, hequal, hdiffer⟩ := h.walk p hcpu
  -- With the pointer at their priority, the walk can still serve a `B` after `p`.
  have hB : (s.proc hp).priority = (s.proc B).priority → p < B → s.IsNext hp (p + 1) B :=
    fun hEq hlt => ⟨hlt, hwait.1, hEq.symm⟩
  rcases schedBack_pbs s 0 p with ⟨hidle, hnone⟩ | ⟨hp', q, hhp', hnext, hdispatch⟩
  · rw [dispatched, hidle, schedIdle_proc]
    refine ⟨(by simp), fun _ => .schedIdle ?_⟩
    by_cases hEq : (s.proc hp).priority = (s.proc B).priority
    · rcases hequal hEq with ⟨-, hbefore⟩ | ⟨hBA, -⟩
      · by_contra hge
        have hAB : A < B := lt_of_le_of_ne (not_lt.mp hge) hne
        have hcand := hB hEq (hbefore hAB)
        rcases pbsNext_eq_none (hnone hp hhp) with hover | hno
        · exact hkeep hp hhp hover B hcand
        · exact hno B hcand
      · exact hBA
    · exact hdiffer hEq
  · rw [hhp] at hhp'
    cases hhp'
    obtain ⟨-, ⟨hpq, -, hprio⟩, hfirst⟩ := pbsNext_eq_some hnext
    have hpq' : p < q := hpq
    rw [dispatched, hdispatch, dispatch_proc]
    by_cases hEq : (s.proc hp).priority = (s.proc B).priority
    · have hle : p < B → q ≤ B := fun hlt => hfirst B (hB hEq hlt)
      have hneB : (s.dispatch 0 q (some hp)).WaitsLike A B → q ≠ B := by
        rintro hstill rfl
        exact not_waitsLike_dispatch s 0 _ hstill
      rcases hequal hEq with ⟨hAp, hbefore⟩ | ⟨hBA, hpB⟩
      · have hAq : A < q := lt_of_le_of_lt hAp hpq'
        refine ⟨?_, fun hstill => .dispatch s (fun _ => Or.inl ⟨hAq.le, fun hAB => ?_⟩) ?_⟩
        · rintro ⟨⟩
          exact lt_irrefl _ hAq
        · exact lt_of_le_of_ne (hle (hbefore hAB)) (hneB hstill)
        · exact fun hdiff => absurd hEq hdiff
      · refine ⟨?_, fun hstill => .dispatch s (fun _ => Or.inr ⟨hBA, ?_⟩) fun _ => hBA⟩
        · rintro ⟨⟩
          exact absurd hBA (not_lt.mpr (hle hpB))
        · exact lt_of_le_of_ne (hle hpB) (hneB hstill)
    · refine ⟨?_, fun _ => .dispatch s (fun hEq' => absurd hEq' hEq) fun _ => hdiffer hEq⟩
      rintro ⟨⟩
      exact hEq (hprio.symm.trans hwait.2.symm)

/-- One step: `A` is not dispatched, and the walk stays where `TurnOk` says. -/
theorem TurnOk.next (hne : A ≠ B) (h : s.TurnOk A B) (enabled : s.Enabled l) (hl : l.cpu = 0)
    (hwait : s.WaitsLike A B) (hkeep : s.KeepsTurn l) :
    s.dispatched .pbs l ≠ some A ∧
    ((s.next .pbs l).WaitsLike A B → (s.next .pbs l).TurnOk A B) := by
  cases l with
  | schedule c =>
    obtain rfl : c = 0 := hl
    exact h.schedule enabled.2.1 hwait
  | back c p =>
    obtain rfl : c = 0 := hl
    exact h.schedBack hne enabled.2 hwait hkeep
  | _ =>
    refine ⟨nofun, fun hstill => ?_⟩
    exact h.of_cpu (cpu_next .pbs nofun nofun) hkeep (hwait.priority_kept hne hstill)

/-- `A` has just been dispatched, and `B` waits with its priority. -/
theorem TurnOk.start (hl : l.cpu = 0) (h : s.dispatched .pbs l = some A)
    (hwait : (s.next .pbs l).WaitsLike A B) : (s.next .pbs l).TurnOk A B := by
  have hdispatch : ∀ {hp : Slot} {k : ℕ}, s.pbsNext hp k = some A →
      (s.dispatch 0 A (some hp)).WaitsLike A B → (s.dispatch 0 A (some hp)).TurnOk A B := by
    intro hp k hnext hw
    obtain ⟨-, ⟨-, -, hprio⟩, -⟩ := pbsNext_eq_some hnext
    have hEq : (s.proc hp).priority = (s.proc B).priority := by
      have := hw.2
      rw [dispatch_priority, dispatch_priority] at this
      rw [← hprio, this]
    exact .dispatch s (fun _ => Or.inl ⟨le_refl A, id⟩) fun hdiff => absurd hEq hdiff
  cases l with
  | schedule c =>
    obtain rfl : c = 0 := hl
    rw [dispatched] at h
    rw [State.next] at hwait ⊢
    grind [schedule_pbs, schedIdle_proc, dispatch_proc]
  | back c q =>
    obtain rfl : c = 0 := hl
    rw [dispatched] at h
    rw [State.next] at hwait ⊢
    grind [schedBack_pbs, schedIdle_proc, dispatch_proc]
  | _ => cases h

end State

/-- Turns are kept. After a dispatch of `A`, in a run on one processor whose steps
all meet `KeepsTurn` and along which another process `B` waits with the priority
of `A`, no step dispatches `A` again: between two dispatches of `A`, whoever
waits all the time with its priority has been dispatched. -/
theorem pbs_turns_kept {s₁ s₂ : State} {l₁ l₂ : Label} {labels : List Label} {A B : Slot}
    (hne : A ≠ B) (h₁ : s₁.dispatched .pbs l₁ = some A) (enabled₁ : pbsOneCpu.Enabled s₁ l₁)
    (hrun : (pbsOneCpu.restrict fun s l => s.WaitsLike A B ∧ s.KeepsTurn l).Run
      (s₁.next .pbs l₁) labels s₂)
    (enabled₂ : pbsOneCpu.Enabled s₂ l₂) (hwait₂ : s₂.WaitsLike A B) (hkeep₂ : s₂.KeepsTurn l₂) :
    s₂.dispatched .pbs l₂ ≠ some A := by
  have hturn : s₂.WaitsLike A B → s₂.TurnOk A B := by
    refine hrun.invariant (I := fun s => s.WaitsLike A B → s.TurnOk A B) ?_ ?_
    · exact fun hwait => State.TurnOk.start enabled₁.2 h₁ hwait
    · intro s l hs enabled
      exact ((hs enabled.2.1).next hne enabled.1.1 enabled.1.2 enabled.2.1 enabled.2.2).2
  exact ((hturn hwait₂).next hne enabled₂.1 enabled₂.2 hwait₂ hkeep₂).1

set_option maxRecDepth 10000 in
/-- With nobody of higher priority about, slot `1` is not served again while slot
`2` waits. -/
theorem pbs_turns_kept_two : ∃ s₁ labels s₂, s₁.dispatched .pbs (.back 0 0) = some 1 ∧
    pbsOneCpu.Reachable s₁ ∧
    (pbsOneCpu.restrict fun s l => s.WaitsLike 1 2 ∧ s.KeepsTurn l).Run
      (s₁.next .pbs (.back 0 0)) labels s₂ ∧
    s₂.dispatched .pbs (.back 0 1) ≠ some 1 := by
  let labels : List Label := [.resumed 0 1, .timerTrap 0 1]
  obtain ⟨s₁, hreach, henabled, hfirst, hexec⟩ := Machine.exists_reachable_of_exec pbsOneCpu
    (boot ++ [.schedule 0, .resumed 0 0] ++ forkLabels 0 0 1 ++ forkLabels 0 0 2 ++
      [.timerTrap 0 0]) (s := {})
    (P := fun s => pbsOneCpu.Enabled s (.back 0 0) ∧ s.dispatched .pbs (.back 0 0) = some 1 ∧
      ((pbsOneCpu.restrict fun s l => s.WaitsLike 1 2 ∧ s.KeepsTurn l).exec labels
        (s.next .pbs (.back 0 0))).any (fun t => decide (pbsOneCpu.Enabled t (.back 0 1) ∧
          t.WaitsLike 1 2 ∧ t.KeepsTurn (.back 0 1))) = true) rfl (by decide +kernel)
  obtain ⟨s₂, hrun, hsecond⟩ := (Option.any_eq_true _ _).mp hexec
  obtain ⟨henabled₂, hwait₂, hkeep₂⟩ := of_decide_eq_true hsecond
  exact ⟨s₁, labels, s₂, hfirst, hreach, Machine.run_of_exec hrun,
    pbs_turns_kept (by decide) hfirst henabled (Machine.run_of_exec hrun) henabled₂ hwait₂ hkeep₂⟩

end Xv6.Ptable
