/-
# What the tick counters of the MLFQ build count

`q[i]` is documented as the number of ticks a process ran in queue `i`, and the
time slice of a queue is measured with it. The counter is raised at every
dispatch and at every timer interrupt below the limit, and it is never reset. So
a process that comes back to a queue finds its old slice used up, and a process
that sleeps before its first interrupt is charged a tick it did not run.

Both promises hold where these effects cannot show: for the first stay in a
queue, and for a process that leaves the processor only when its slice is over.
-/

import Xv6.Ptable.MlfqSlices

namespace Xv6.Ptable

open Xv6.Lib

/-- The step gives slot `p` to a new process. -/
def Label.renews (p : Slot) : Label → Bool
  | .allocInit _ _ np => decide (np = p)
  | _ => false

namespace State

variable {s : State} {p : Slot} {l : Label}

/-- Process `p` is in queue `i`, and the step does not give its slot to another
process. -/
def StaysIn (p : Slot) (i : ℕ) (s : State) (l : Label) : Prop :=
  (s.mlfq.info p).curQ = i ∧ l.renews p = false
  deriving Decidable

/-- A step that raises `p->q[i]`. -/
def raises (p : Slot) (i : ℕ) (s : State) (l : Label) : Option Unit :=
  if (s.mlfq.info p).q i < ((s.next .mlfq l).mlfq.info p).q i then some () else none

/-- A step raises a counter by one or leaves it alone. -/
theorem SliceStep.q_raised {y : MlfqProc} (h : SliceStep s l p y)
    (hl : l.renews p = false) (i : ℕ) :
    y.q i = (s.mlfq.info p).q i ∨ y.q i = (s.mlfq.info p).q i + 1 := by
  have hupdate : ∀ {x : ℕ → ℤ} {k : ℕ}, x = Function.update (s.mlfq.info p).q k
      ((s.mlfq.info p).q k + 1) → x i = (s.mlfq.info p).q i ∨ x i = (s.mlfq.info p).q i + 1 := by
    rintro x k rfl
    grind
  cases h with
  | same h _ => exact Or.inl (congrFun h.q i)
  | reset hl' _ =>
    obtain ⟨c, t, rfl⟩ := hl'
    exact absurd rfl (of_decide_eq_false hl)
  | first _ h => exact h.elim (fun h => Or.inl (congrFun h.q i)) fun h => Or.inl (congrFun h.q i)
  | scheduled c _ h =>
    rcases h.charged with ⟨hq, -, -⟩ | ⟨-, -, hq, -⟩
    · exact Or.inl (congrFun hq i)
    · exact hupdate hq
  | back c _ _ h =>
    refine Or.inl ((congrFun h.q i).trans ?_)
    unfold Mlfq.demoted
    split <;> rfl
  | ticked c _ h =>
    subst h
    unfold Mlfq.ticked
    split
    · exact Or.inl rfl
    · exact hupdate rfl

/-- A process is demoted only when the slice of its queue is used up. -/
theorem SliceStep.used_of_demoted {y : MlfqProc} (h : SliceStep s l p y)
    (hold : (s.mlfq.info p).SliceOk) (hdem : y.curQ = (s.mlfq.info p).curQ + 1) :
    maxQueueTicks (s.mlfq.info p).curQ ≤ (s.mlfq.info p).q (s.mlfq.info p).curQ := by
  cases h with
  | same h _ =>
    have := h.curQ
    omega
  | reset _ h =>
    subst h
    exact absurd hdem (Nat.zero_ne_add_one _)
  | first _ h =>
    rcases h with h | h
    · have := h.curQ
      omega
    · rw [h.curQ] at hdem
      exact absurd hdem (Nat.zero_ne_add_one _)
  | scheduled c _ h =>
    rcases h.curQ with hsame | ⟨-, hup⟩ <;> omega
  | back c _ _ h =>
    rw [h.curQ] at hdem
    unfold Mlfq.demoted at hdem
    grind [hold.marked]
  | ticked c _ h =>
    subst h
    unfold Mlfq.ticked at hdem
    split at hdem
    · dsimp only at hdem
      omega
    · dsimp only at hdem
      omega

end State

/-- The counter at the end of a run is the counter at its start and the number of
steps that raised it. -/
theorem q_eq_add_raises {s t : State} {labels : List Label} {p : Slot} {i : ℕ}
    (h : (system .mlfq).Reachable s)
    (hrun : ((system .mlfq).restrict (State.StaysIn p i)).Run s labels t) :
    (t.mlfq.info p).q i = (s.mlfq.info p).q i +
      ((system .mlfq).log (State.raises p i) s labels).length := by
  have hinv := hrun.invariant_log (f := State.raises p i)
    (I := fun u es => (system .mlfq).Reachable u ∧
      (u.mlfq.info p).q i = (s.mlfq.info p).q i + es.length) ⟨h, by simp⟩ ?_
  · rw [← Machine.log_restrict (State.StaysIn p i)]
    exact hinv.2
  · rintro u es l ⟨hu, hq⟩ ⟨enabled, hstay⟩
    refine ⟨hu.step enabled, ?_⟩
    have hstep := (State.sliceStep_next (entriesOk_of_reachable hu) l p).q_raised hstay.2 i
    change ((u.next .mlfq l).mlfq.info p).q i = _
    rw [List.length_append, Int.natCast_add, ← add_assoc, ← hq, State.raises]
    grind

set_option maxRecDepth 10000 in
/-- A stay that does not get its slice. The first process uses up queue `0`, is
moved to queue `1`, waits there for more than 25 ticks and is promoted and
dispatched in one iteration. That is its only charge in queue `0` when it is
moved down again, although the slice of that queue is two. -/
theorem second_stay_cut_short : ∃ s labels t, (system .mlfq).Reachable s ∧
    (s.mlfq.info 0).curQ = 1 ∧
    ((s.next .mlfq (.schedule 0)).mlfq.info 0).curQ = 0 ∧
    ((system .mlfq).restrict (State.StaysIn 0 0)).Run (s.next .mlfq (.schedule 0)) labels t ∧
    t.Enabled (.back 0 0) ∧ (t.mlfq.info 0).curQ = 0 ∧
    ((t.next .mlfq (.back 0 0)).mlfq.info 0).curQ = 1 ∧
    ((system .mlfq).log (State.raises 0 0) s (.schedule 0 :: labels)).length <
      maxQueueTicks 0 := by
  obtain ⟨s, hs, hcur, hup, hexec⟩ := Machine.exists_reachable_of_exec (system .mlfq)
    (boot ++ [.schedule 0, .resumed 0 0, .timerTrap 0 0, .timerTrap 0 0, .back 0 0] ++
      List.replicate 26 .tick) (s := {})
    (P := fun s => (s.mlfq.info 0).curQ = 1 ∧
      ((s.next .mlfq (.schedule 0)).mlfq.info 0).curQ = 0 ∧
      (((system .mlfq).restrict (State.StaysIn 0 0)).exec [.resumed 0 0, .timerTrap 0 0]
        (s.next .mlfq (.schedule 0))).any (fun t => decide (t.Enabled (.back 0 0) ∧
          (t.mlfq.info 0).curQ = 0 ∧ ((t.next .mlfq (.back 0 0)).mlfq.info 0).curQ = 1 ∧
          ((system .mlfq).log (State.raises 0 0) s
            [.schedule 0, .resumed 0 0, .timerTrap 0 0]).length < maxQueueTicks 0)) = true) rfl
    (by decide +kernel)
  obtain ⟨t, hrun, hback, hstay, hdown, hcount⟩ := Machine.exists_run_of_exec _ _ hexec
  exact ⟨s, _, t, hs, hcur, hup, hrun, hback, hstay, hdown, hcount⟩

/-- The first stay in a queue gets its full time slice. If `q[i]` is `0` when
process `p` is in queue `i`, which is so when it enters that queue for the first
time, then `q[i]` is raised as often as the slice says before `p` is demoted. -/
theorem first_stay_full_slice {s t : State} {labels : List Label} {p : Slot} {i : ℕ} {l : Label}
    (h : (system .mlfq).Reachable s) (hstart : (s.mlfq.info p).q i = 0)
    (hrun : ((system .mlfq).restrict (State.StaysIn p i)).Run s labels t)
    (hcur : (t.mlfq.info p).curQ = i)
    (hdem : ((t.next .mlfq l).mlfq.info p).curQ = i + 1) :
    maxQueueTicks i ≤ ((system .mlfq).log (State.raises p i) s labels).length := by
  have hcount := q_eq_add_raises h hrun
  have ht := h.run hrun.of_restrict
  have hused := (State.sliceStep_next (entriesOk_of_reachable ht) l p).used_of_demoted
    (sliceOk_of_reachable ht p) (by rw [hdem, hcur])
  rw [hcur, hcount, hstart, zero_add] at hused
  exact hused

set_option maxRecDepth 10000 in
/-- The first stay of the first process. -/
theorem first_stay_full_slice_boot : ∃ s labels t, (system .mlfq).Reachable s ∧
    ((system .mlfq).restrict (State.StaysIn 0 0)).Run s labels t ∧
    maxQueueTicks 0 ≤ ((system .mlfq).log (State.raises 0 0) s labels).length := by
  obtain ⟨s, hs, hstart, hexec⟩ := Machine.exists_reachable_of_exec (system .mlfq) boot (s := {})
    (P := fun s => (s.mlfq.info 0).q 0 = 0 ∧
      (((system .mlfq).restrict (State.StaysIn 0 0)).exec
        [.schedule 0, .resumed 0 0, .timerTrap 0 0, .timerTrap 0 0] s).any
        (fun t => decide ((t.mlfq.info 0).curQ = 0 ∧
          ((t.next .mlfq (.back 0 0)).mlfq.info 0).curQ = 1)) = true) rfl (by decide +kernel)
  obtain ⟨t, hrun, hcur, hdem⟩ := Machine.exists_run_of_exec _ _ hexec
  exact ⟨s, _, t, hs, hrun, first_stay_full_slice hs hstart hrun hcur hdem⟩

/-! ## Ticks as `ps` prints them -/

namespace State

variable {s s' : State} {c : Cpu} {p q : Slot} {l : Label} {i : ℕ}

/-- `wait` by `p` would sleep: there are children, none of them a zombie. -/
def Blocks (s : State) (p : Slot) : Prop :=
  s.zombieChild p = none ∧ s.haveKids p = true ∧ (s.proc p).killed = false
  deriving Decidable

/-- Process `p` gives up the processor by itself. -/
def Relinquishes (s : State) (p : Slot) : Label → Prop
  | .exit _ q | .yield _ q | .sleep _ q _ => q = p
  | .wait _ q _ => q = p ∧ s.Blocks p
  | .resumed _ q => q = p ∧ s.resume p ≠ .release ∧ s.resume p ≠ .sleep ∧ s.Blocks p
  | _ => False

instance (s : State) (p : Slot) (l : Label) : Decidable (s.Relinquishes p l) := by
  apply l.casesOn (motive := fun l => Decidable (s.Relinquishes p l)) <;> intros <;>
    dsimp only [Relinquishes] <;> infer_instance

/-- The queue process `p` is in at a timer interrupt it takes. -/
def ticksIn (p : Slot) (s : State) : Label → Option ℕ
  | .timerTrap _ q => if q = p then some (s.mlfq.info p).curQ else none
  | _ => none

theorem ticksIn_of_ne (h : ∀ c, l ≠ .timerTrap c p) : ticksIn p s l = none := by
  cases l with
  | timerTrap c q =>
    have hq : q ≠ p := fun hq => h c (by rw [hq])
    exact if_neg hq
  | _ => rfl

/-- How label `l` of the MLFQ build may start or end a run of process `p`. -/
inductive RunStep (s : State) (l : Label) (s' : State) (p : Slot) : Prop
  | same (h : (s'.proc p).state = .running ↔ (s.proc p).state = .running)
      (hl : ∀ c, l ≠ .timerTrap c p)
      (hc : ∀ c, l = .schedule c → ((s.schedule .mlfq c).cpu c).proc ≠ some p)
  | started (c : Cpu) (hl : l = .schedule c) (hc : ((s.schedule .mlfq c).cpu c).proc = some p)
      (h : (s'.proc p).state = .running)
  | left (h : s.Relinquishes p l)
  | trapped (c : Cpu) (hl : l = .timerTrap c p) (hrun : (s.proc p).state = .running)
      (h : (s'.proc p).state = .running ↔ s.mlfq.sliceUsed p = false)

theorem running_setProc {f : Proc → Proc} (s : State)
    (hf : (f (s.proc q)).state = .running ↔ (s.proc q).state = .running) (p : Slot) :
    ((s.setProc q f).proc p).state = .running ↔ (s.proc p).state = .running := by
  grind [setProc_proc_self, setProc_proc_of_ne]

theorem Drift.running (h : Drift s s') (p : Slot) :
    (s'.proc p).state = .running ↔ (s.proc p).state = .running := by
  grind [h.state]

/-- Neither process ever runs. -/
theorem running_iff_of_ne {x y : ProcState} (hx : x ≠ .running) (hy : y ≠ .running) :
    x = .running ↔ y = .running :=
  ⟨fun h => absurd h hx, fun h => absurd h hy⟩

theorem waitBody_running (b : Build) (w : Bool) (h : p = q → ¬ s.Blocks p) :
    ((s.waitBody b c q w).proc p).state = .running ↔ (s.proc p).state = .running := by
  unfold waitBody
  split
  · next child hchild =>
    have hreap := running_setProc (q := child) (f := Proc.freed) s
      (running_iff_of_ne nofun (by rw [(zombieChild_spec hchild).2]; nofun)) p
    dsimp only
    split <;> exact hreap
  · next hnone =>
    split
    · exact Iff.rfl
    · next hkids =>
      have hp : p ≠ q := by
        rintro rfl
        rw [not_or, Bool.not_eq_false, Bool.not_eq_true] at hkids
        exact h rfl ⟨hnone, hkids.1, hkids.2⟩
      rw [show (s.goToSleep c q (.proc q) (.wait w)).proc p = s.proc p from
        setProc_proc_of_ne s (fun x => x.asleep (.proc q)) hp]

/-- Clearing `chan` does not change what `wait` finds. -/
theorem blocks_awake (s : State) (p : Slot) :
    (s.setProc p fun x => { x with chan := none }).Blocks p ↔ s.Blocks p := by
  have hproc : ∀ x, ((s.setProc p fun y => { y with chan := none }).proc x).parent =
      (s.proc x).parent ∧ ((s.setProc p fun y => { y with chan := none }).proc x).state =
      (s.proc x).state ∧ ((s.setProc p fun y => { y with chan := none }).proc x).killed =
      (s.proc x).killed := by
    grind [setProc_proc_self, setProc_proc_of_ne]
  simp only [Blocks, zombieChild, haveKids, (hproc _).1, (hproc _).2.1, (hproc _).2.2]

theorem runStep_schedule : RunStep s (.schedule c) (s.schedule .mlfq c) p := by
  cases hpick : (s.mlfq.age s.pids s.ticks).pickHead s.states with
  | none =>
    rw [schedule_of_none hpick]
    refine .same Iff.rfl nofun ?_
    rintro _ ⟨⟩
    rw [schedule_of_none hpick]
    simp [schedIdle]
  | some pick =>
    obtain ⟨i, q⟩ := pick
    have hs' := schedule_of_pick (c := c) hpick
    have hcpu : ((s.schedule .mlfq c).cpu c).proc = some q := by
      rw [hs']
      simp [dispatch]
    by_cases hp : p = q
    · subst hp
      refine .started c rfl hcpu ?_
      rw [hs']
      exact congrArg Proc.state (setProc_proc_self s p
        fun x => { x with nRun := x.nRun + 1, state := .running })
    · refine .same ?_ nofun ?_
      · have hother : (s.schedule .mlfq c).proc p = s.proc p := by
          rw [hs']
          exact setProc_proc_of_ne s
            (fun x => { x with nRun := x.nRun + 1, state := .running }) hp
        rw [hother]
      · rintro _ ⟨⟩
        rw [hcpu]
        exact fun h => hp (Option.some.inj h).symm

theorem runStep_timerTrap (hrun : (s.proc q).state = .running) :
    RunStep s (.timerTrap c q) (s.timerTrap .mlfq c q) p := by
  have hused : s.mlfq.sliceUsed q = true → (s.timerTrap .mlfq c q).proc =
      (s.setProc q fun x => { x with state := .runnable }).proc := by
    intro h
    rw [timerTrap, h]
    rfl
  have hunused : s.mlfq.sliceUsed q = false → (s.timerTrap .mlfq c q).proc = s.proc := by
    intro h
    rw [timerTrap, h]
    rfl
  by_cases hp : p = q
  · subst hp
    refine .trapped c rfl hrun ?_
    grind [setProc_proc_self]
  · refine .same ?_ (fun _ h => hp (by cases h; rfl)) (by simp)
    cases h : s.mlfq.sliceUsed q with
    | true => rw [hused h, setProc_proc_of_ne s _ hp]
    | false => rw [hunused h]

/-- The inversion lemma for runs of a process. -/
theorem runStep_next (hok : s.Ok) (enabled : s.Enabled l) (p : Slot) :
    RunStep s l (s.next .mlfq l) p := by
  have hset : ∀ {q : Slot} {f : Proc → Proc} {s' : State}, s'.proc = (s.setProc q f).proc →
      ((f (s.proc q)).state = .running ↔ (s.proc q).state = .running) →
      (∀ c, l ≠ .timerTrap c p) → (∀ c, l ≠ .schedule c) → RunStep s l s' p := by
    intro q f s' hproc hf htrap hsched
    refine .same ?_ htrap fun c hc => absurd hc (hsched c)
    rw [hproc]
    exact running_setProc s hf p
  have hembryo : ∀ {t stage np}, s.pc t = .alloc stage np → (s.proc np).state ≠ .running := by
    intro t stage np hpc
    have : (s.proc np).state = .embryo := TableOk.owns hok _ _ _ hpc
    simp [this]
  have hunused : ∀ {np}, s.unusedSlot = some np → (s.proc np).state ≠ .running := by
    intro np hnp
    simp [unusedSlot_spec hnp]
  -- a process that goes off the processor itself, and all others
  have hleave : ∀ {q : Slot} {f : Proc → Proc} {s' : State}, s'.proc = (s.setProc q f).proc →
      (q = p → s.Relinquishes p l) → (∀ c, l ≠ .timerTrap c p) → (∀ c, l ≠ .schedule c) →
      RunStep s l s' p := by
    intro q f s' hproc hself htrap hsched
    by_cases hp : q = p
    · exact .left (hself hp)
    · refine .same ?_ htrap fun c hc => absurd hc (hsched c)
      rw [hproc, setProc_proc_of_ne s f (Ne.symm hp)]
  cases l with
  | userinit np =>
    exact hset (f := fun x => { x with state := .embryo, pid := s.nextpid }) rfl
      (running_iff_of_ne (by simp) (hunused enabled.2.2)) (by simp) (by simp)
  | fork c q np =>
    exact hset (f := fun x => { x with state := .embryo, pid := s.nextpid }) rfl
      (running_iff_of_ne (by simp) (hunused enabled.2.2)) (by simp) (by simp)
  | allocKalloc c t np ok =>
    cases ok with
    | true => exact .same Iff.rfl (by simp) (by simp)
    | false =>
      exact hset (f := fun x => { x with state := .unused }) rfl
        (running_iff_of_ne (by simp) (hembryo enabled.2.1)) (by simp) (by simp)
  | allocCtime c t np =>
    exact hset (q := np) (f := fun x => { x with ctime := toInt32 s.ticks }) rfl Iff.rfl
      (by simp) (by simp)
  | allocInit c t np =>
    have hproc : (s.next .mlfq (.allocInit c t np)).proc = (s.setProc np fun x =>
        { x with etime := 0, rtime := 0, iotime := 0, nRun := 0, priority := 60 }).proc := by
      rw [next, allocInit]
      split <;> rfl
    exact hset hproc Iff.rfl (by simp) (by simp)
  | allocCopy c t np ok =>
    cases ok with
    | true =>
      cases t with
      | none => exact .same Iff.rfl (by simp) (by simp)
      | some q =>
        exact hset (f := fun x => { x with parent := some q }) rfl Iff.rfl (by simp) (by simp)
    | false =>
      exact hset (f := fun x => { x with state := .unused }) rfl
        (running_iff_of_ne (by simp) (hembryo enabled.2.1)) (by simp) (by simp)
  | forkPublish c q np =>
    exact hset (f := fun x => { x with state := .runnable }) rfl
      (running_iff_of_ne (by simp) (hembryo enabled.2)) (by simp) (by simp)
  | userinitPublish np =>
    exact hset (f := fun x => { x with state := .runnable }) rfl
      (running_iff_of_ne (by simp) (hembryo enabled.2)) (by simp) (by simp)
  | exit c q =>
    by_cases hp : q = p
    · exact .left hp
    · refine .same ?_ (by simp) (by simp)
      have hother : ((s.exit .mlfq c q).proc p).state = ((s.exitDrift .mlfq q).proc p).state :=
        congrArg Proc.state (setProc_proc_of_ne (s.exitDrift .mlfq q) (fun x =>
          { x with state := .zombie, etime := toInt32 (s.exitDrift .mlfq q).ticks })
          (Ne.symm hp))
      rw [show s.next .mlfq (.exit c q) = s.exit .mlfq c q from rfl, hother]
      exact (drift_exitDrift s .mlfq q).running p
  | wait c q w =>
    by_cases hleft : s.Relinquishes p (.wait c q w)
    · exact .left hleft
    · exact .same (waitBody_running .mlfq w fun hp hb => hleft ⟨hp.symm, hb⟩) (by simp) (by simp)
  | waitxStore c q child pid => exact .same Iff.rfl (by simp) (by simp)
  | kill c q pid =>
    refine .same ?_ (by simp) (by simp)
    change ((s.kill .mlfq pid).proc p).state = .running ↔ _
    unfold kill
    split
    · exact Iff.rfl
    · next x _ =>
      have hkilled := running_setProc (q := x) (f := fun y => { y with killed := true }) s
        Iff.rfl p
      dsimp only
      split
      · next hsleep =>
        refine (running_setProc (q := x) (f := fun y => { y with state := .runnable })
          (s.setProc x fun y => { y with killed := true }) ?_ p).trans hkilled
        exact running_iff_of_ne (by simp) (by rw [hsleep]; simp)
      · exact hkilled
  | trapKill c q =>
    exact hset (f := fun x => { x with killed := true }) rfl Iff.rfl (by simp) (by simp)
  | setPriority c q priority pid =>
    refine .same ?_ (by simp) (by simp)
    change ((s.setPriority .mlfq (some q) priority pid).proc p).state = .running ↔ _
    unfold setPriority
    grind [running_setProc]
  | yield c q =>
    exact hleave (f := fun x => { x with state := .runnable }) rfl (fun hp => hp) (by simp)
      (by simp)
  | sleep c q chan =>
    exact hleave (f := fun x => x.asleep chan) rfl (fun hp => hp) (by simp) (by simp)
  | wakeup chan => exact .same ((drift_wakeup1 s .mlfq _).running p) (by simp) (by simp)
  | schedule c => exact runStep_schedule
  | resumed c q =>
    by_cases hleft : s.Relinquishes p (.resumed c q)
    · exact .left hleft
    · refine .same ?_ (by simp) (by simp)
      have hawake := running_setProc (q := q) (f := fun y => { y with chan := none }) s Iff.rfl p
      change ((s.resumed .mlfq c q).proc p).state = .running ↔ _
      unfold resumed
      split
      · exact Iff.rfl
      · exact hawake
      · next w hw =>
        refine (waitBody_running .mlfq w ?_).trans hawake
        rintro rfl hb
        exact hleft ⟨rfl, by simp [hw], by simp [hw], (blocks_awake s p).mp hb⟩
  | back c q =>
    refine .same ?_ (by simp) (by simp)
    change ((s.schedBack .mlfq c q).proc p).state = .running ↔ _
    unfold schedBack
    dsimp only
    split <;> exact Iff.rfl
  | timerTrap c q => exact runStep_timerTrap (hok.running enabled.1 enabled.2.1)
  | tickInc => exact .same Iff.rfl (by simp) (by simp)
  | tickAccount =>
    refine .same ?_ (by simp) (by simp)
    rw [show ((s.next .mlfq .tickAccount).proc p).state = (s.proc p).state from
      tickProc_state (s.proc p)]
  | tickWake => exact .same ((drift_wakeup1 s .mlfq _).running p) (by simp) (by simp)
  | tick =>
    refine .same ?_ (by simp) (by simp)
    refine ((drift_wakeup1 s.tickInc.tickAccount .mlfq (some .ticks)).running p).trans ?_
    rw [show (s.tickInc.tickAccount.proc p).state = (s.proc p).state from
      tickProc_state (s.proc p)]

/-- The counter of `p` for queue `i` agrees with the queues `es` of the interrupts
so far. While the process runs, the charge of its dispatch is not yet covered. -/
def Counted (p : Slot) (i : ℕ) (s : State) (es : List ℕ) : Prop :=
  (s.mlfq.info p).q i = es.count i +
    if (s.proc p).state = .running ∧ (s.mlfq.info p).curQ = i then 1 else 0

/-- A step that is no interrupt of `p`, starts no run of it and ends none. -/
theorem Counted.same {es : List ℕ} (h : Counted p i s es)
    (hrun : (s'.proc p).state = .running ↔ (s.proc p).state = .running)
    (hq : (s'.mlfq.info p).q = (s.mlfq.info p).q)
    (hcur : (s.proc p).state = .running → (s'.mlfq.info p).curQ = (s.mlfq.info p).curQ) :
    Counted p i s' es := by
  unfold Counted at h ⊢
  grind

theorem Counted.started {es : List ℕ} (h : Counted p i s es)
    (hidle : (s.proc p).state = .runnable) (hrun : (s'.proc p).state = .running)
    (hq : (s'.mlfq.info p).q = Function.update (s.mlfq.info p).q (s'.mlfq.info p).curQ
      ((s.mlfq.info p).q (s'.mlfq.info p).curQ + 1)) : Counted p i s' es := by
  have hold : (s.mlfq.info p).q i = es.count i := by
    rw [h, if_neg (by simp [hidle]), add_zero]
  unfold Counted
  rw [hq]
  grind

/-- The interrupt that ends a run is not charged, and makes up for the dispatch. -/
theorem Counted.trapped {es : List ℕ} (h : Counted p i s es) (hrun : (s.proc p).state = .running)
    (hstate : (s'.proc p).state = .running ↔ s.mlfq.sliceUsed p = false)
    (hinfo : s'.mlfq.info p = Mlfq.ticked (s.mlfq.info p)) :
    Counted p i s' (es ++ [(s.mlfq.info p).curQ]) := by
  unfold Counted at h ⊢
  simp only [hrun, true_and] at h
  rw [List.count_append, List.count_singleton]
  unfold Mlfq.sliceUsed at hstate
  unfold Mlfq.ticked at hinfo
  by_cases hused : maxQueueTicks (s.mlfq.info p).curQ ≤ (s.mlfq.info p).q (s.mlfq.info p).curQ
  · rw [if_pos hused] at hinfo
    simp only [hused, decide_true, reduceCtorEq, iff_false] at hstate
    by_cases hi : (s.mlfq.info p).curQ = i <;> simp [hstate, hinfo, h, hi]
  · rw [if_neg hused] at hinfo
    simp only [hused, decide_false, iff_true] at hstate
    by_cases hi : i = (s.mlfq.info p).curQ
    · subst hi
      simp [hstate, hinfo, h]
    · simp [hstate, hinfo, h, hi, Ne.symm hi]

/-- The steps of a process that leaves the processor only when its slice is over,
as long as it has its slot. -/
def RunsToLimit (p : Slot) (s : State) (l : Label) : Prop :=
  ¬ s.Relinquishes p l ∧ l.renews p = false
  deriving Decidable

theorem Counted.next {es : List ℕ} (h : Counted p i s es) (hok : s.Ok) (hent : s.EntriesOk)
    (enabled : s.Enabled l) (hl : RunsToLimit p s l) :
    Counted p i (s.next .mlfq l) (es ++ (ticksIn p s l).toList) := by
  have hslice := sliceStep_next hent l p
  cases runStep_next hok enabled p with
  | left hleft => exact absurd hleft hl.1
  | started c hc hcpu hrun =>
    subst hc
    rw [ticksIn_of_ne (fun c' hc' => absurd hc' (by simp)), Option.toList_none, List.append_nil]
    rcases (scheduled_schedule hent c p).charged with ⟨-, -, hne⟩ | ⟨hrunnable, -, hq, -⟩
    · exact absurd hcpu hne
    · exact h.started hrunnable hrun hq
  | trapped c hc hrun hstate =>
    subst hc
    rw [ticksIn, if_pos rfl]
    cases hslice with
    | ticked c' _ hinfo => exact h.trapped hrun hstate hinfo
    | same _ hne => exact absurd rfl (hne c)
    | reset h _ => exact absurd h nofun
    | first h _ => cases h
    | scheduled c' hc' _ => cases hc'
    | back c' hc' _ _ => cases hc'
  | same hrun htrap hsched =>
    rw [ticksIn_of_ne htrap, Option.toList_none, List.append_nil]
    cases hslice with
    | same hsame _ => exact h.same hrun hsame.q fun _ => hsame.curQ
    | reset hreset _ =>
      obtain ⟨c, t, rfl⟩ := hreset
      exact absurd rfl (of_decide_eq_false hl.2)
    | first hfirst hsame =>
      subst hfirst
      have hembryo : (s.proc p).state = .embryo := TableOk.owns hok _ _ _ enabled.2
      refine h.same hrun (hsame.elim (·.q) (·.q)) fun hr => ?_
      rw [hembryo] at hr
      cases hr
    | scheduled c hc hs =>
      subst hc
      rcases hs.charged with ⟨hq, -, -⟩ | ⟨-, hcpu, -, -⟩
      · refine h.same hrun hq fun hr => ?_
        rcases hs.curQ with hcur | ⟨hqueued, -⟩
        · exact hcur
        · exact absurd (hr.symm.trans hqueued.1) nofun
      · exact absurd hcpu (hsched c rfl)
    | back c _ hrunnable hback =>
      refine h.same hrun (hback.q.trans ?_) fun hr => ?_
      · unfold Mlfq.demoted
        split <;> rfl
      · exact absurd (hr.symm.trans hrunnable) nofun
    | ticked c hc _ => exact absurd hc (htrap c)

end State

set_option maxRecDepth 10000 in
/-- A counter that is no number of ticks: the first process is dispatched and
sleeps at once. No timer interrupt has come, and `q[0]` is `1`. -/
theorem dispatch_counted_as_tick : ∃ labels s, (system .mlfq).Run {} labels s ∧
    (s.proc 0).state = .sleeping ∧ (s.mlfq.info 0).q 0 = 1 ∧
    (system .mlfq).log (State.ticksIn 0) {} labels = [] := by
  obtain ⟨s, hrun, hsleep, hq, hlog⟩ := Machine.exists_run_of_exec (system .mlfq)
    (boot ++ [.schedule 0, .resumed 0 0, .sleep 0 0 .ticks, .back 0 0]) (s := {})
    (P := fun s => (s.proc 0).state = .sleeping ∧ (s.mlfq.info 0).q 0 = 1 ∧
      (system .mlfq).log (State.ticksIn 0) {}
        (boot ++ [.schedule 0, .resumed 0 0, .sleep 0 0 .ticks, .back 0 0]) = [])
    (by decide +kernel)
  exact ⟨_, s, hrun, hsleep, hq, hlog⟩

/-- The counters of a process that leaves the processor only when its slice is
over are its ticks: whenever it does not run, `q[i]` is the number of timer
interrupts it has taken in queue `i` since that counter was zero. -/
theorem counters_are_ticks {s t : State} {labels : List Label} {p : Slot}
    {i : ℕ} (h : (system .mlfq).Reachable s) (hreset : (s.mlfq.info p).q i = 0)
    (hidle : (s.proc p).state ≠ .running)
    (hrun : ((system .mlfq).restrict (State.RunsToLimit p)).Run s labels t)
    (hoff : (t.proc p).state ≠ .running) :
    (t.mlfq.info p).q i = ((system .mlfq).log (State.ticksIn p) s labels).count i := by
  have hstart : State.Counted p i s [] := by
    rw [State.Counted, hreset, if_neg (fun hcond => hidle hcond.1)]
    rfl
  have hinv := hrun.invariant_log (f := State.ticksIn p)
    (I := fun u es => (system .mlfq).Reachable u ∧ State.Counted p i u es) ⟨h, hstart⟩ ?_
  · rw [← Machine.log_restrict (State.RunsToLimit p), hinv.2,
      if_neg (fun hcond => hoff hcond.1), add_zero]
  · rintro u es l ⟨hu, hcount⟩ ⟨enabled, hl⟩
    exact ⟨hu.step enabled,
      hcount.next (ok_of_reachable hu) (entriesOk_of_reachable hu) enabled hl⟩

set_option maxRecDepth 10000 in
/-- The first process after it has used up queue `0`: two interrupts, `q[0] = 2`. -/
theorem counters_are_ticks_boot : ∃ s labels t, (system .mlfq).Reachable s ∧
    (system .mlfq).Run s labels t ∧ (t.mlfq.info 0).curQ = 1 ∧ (t.mlfq.info 0).q 0 = 2 ∧
    (t.mlfq.info 0).q 0 = ((system .mlfq).log (State.ticksIn 0) s labels).count 0 := by
  obtain ⟨s, hs, ⟨hreset, hidle⟩, hexec⟩ := Machine.exists_reachable_of_exec (system .mlfq) boot
    (s := {}) (P := fun s => ((s.mlfq.info 0).q 0 = 0 ∧ (s.proc 0).state ≠ .running) ∧
      (((system .mlfq).restrict (State.RunsToLimit 0)).exec
        [.schedule 0, .resumed 0 0, .timerTrap 0 0, .timerTrap 0 0, .back 0 0] s).any
        (fun t => decide ((t.proc 0).state ≠ .running ∧ (t.mlfq.info 0).curQ = 1 ∧
          (t.mlfq.info 0).q 0 = 2)) = true) rfl (by decide +kernel)
  obtain ⟨t, hrun, hoff, hcur, hq⟩ := Machine.exists_run_of_exec _ _ hexec
  exact ⟨s, _, t, hs, hrun.of_restrict, hcur, hq,
    counters_are_ticks hs hreset hidle hrun hoff⟩

end Xv6.Ptable
