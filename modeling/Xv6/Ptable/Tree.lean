/-
# The process tree

Every process that has been published and not yet collected, `initproc` apart,
has a parent that can still run and so can still collect it. Free slots have no
parent; a slot that `fork` is setting up gets one just before it is published,
and nobody but the forking process touches it in between, because that process
cannot exit in the middle of `fork`.
-/

import Xv6.Ptable.Family

namespace Xv6.Ptable

open Function Xv6.Lib

namespace State

variable {s : State} {b : Build} {c : Cpu} {p : Slot} {l : Label} {t : Thread}

/-- What a thread does on its way through `fork` or `userinit`. -/
inductive ThreadStep (s : State) (l : Label) (s' : State) (t : Thread) : Prop
  | same (h : s'.pc t = s.pc t)
  | moved (hrun : ∀ p, t = some p → (s.proc p).state = .running)
      (hpublish : ∀ p, s'.pc t = .alloc .publish p →
        s.pc t = .alloc .copy p ∧ (s'.proc p).parent = if t = none then (s.proc p).parent else t)
      (hleave : ∀ p, s.pc t = .alloc .publish p → (s'.proc p).state = .runnable)
      (hmain : t = none → ∀ stage p, s.pc none = .alloc stage p → stage ≠ .publish →
        ∃ stage', s'.pc none = .alloc stage' p)

/-- A step that moves only thread `t₀`, which is not about to publish. -/
theorem ThreadStep.of_setPc {s' : State} (t₀ : Thread) {x : Pc}
    (hpc : s'.pc = update s.pc t₀ x)
    (h : s'.pc t₀ = x → ThreadStep s l s' t₀) : ThreadStep s l s' t := by
  by_cases ht : t = t₀
  · subst ht
    exact h (by rw [hpc, update_self])
  · exact .same (by rw [hpc, update_of_ne ht])

/-- A running process that is not in `fork` moves to a place outside `fork`. -/
theorem ThreadStep.of_user {s' : State} {q : Slot} (hrun : (s.proc q).state = .running)
    (hpc : ∀ stage p, s.pc (some q) ≠ .alloc stage p)
    (hpc' : ∀ stage p, s'.pc (some q) ≠ .alloc stage p) : ThreadStep s l s' (some q) := by
  refine .moved ?_ ?_ ?_ nofun
  · rintro p ⟨⟩
    exact hrun
  · exact fun p h => absurd h (hpc' _ _)
  · exact fun p h => absurd h (hpc _ _)

/-- A thread goes from one stage to a later one before `publish`. -/
theorem ThreadStep.of_stage {s' : State} {stage stage' : AllocStage} {np : Slot}
    (hrun : ∀ p, t = some p → (s.proc p).state = .running)
    (h : s.pc t = .alloc stage np) (h' : s'.pc t = .alloc stage' np)
    (hstage : stage ≠ .publish) (hstage' : stage' ≠ .publish) : ThreadStep s l s' t := by
  refine .moved hrun ?_ ?_ ?_
  · intro p hp
    rw [h'] at hp
    cases hp
    exact absurd rfl hstage'
  · intro p hp
    rw [h] at hp
    cases hp
    exact absurd rfl hstage
  · rintro rfl stage₀ p hp -
    rw [h] at hp
    cases hp
    exact ⟨stage', h'⟩

theorem running_of_executes (hok : s.Ok) (h : s.Executes c t) (p : Slot) (ht : t = some p) :
    (s.proc p).state = .running := by
  subst ht
  exact hok.running h.1 h.2.1

/-- A thread gives the slot up and leaves `fork`. -/
theorem ThreadStep.of_failed {s' : State} {q np : Slot} {stage : AllocStage}
    (hrun : (s.proc q).state = .running) (h : s.pc (some q) = .alloc stage np)
    (h' : s'.pc (some q) = .user) (hstage : stage ≠ .publish) :
    ThreadStep s l s' (some q) := by
  refine .moved ?_ ?_ ?_ nofun
  · rintro p ⟨⟩
    exact hrun
  · intro p hp
    rw [h'] at hp
    cases hp
  · intro p hp
    rw [h] at hp
    cases hp
    exact absurd rfl hstage

/-! ## Processes that resume inside `wait` -/

/-- Process `p` is on a processor and not just entering or leaving it. -/
def Executing (s : State) (p : Slot) : Prop :=
  ∃ c, (s.cpu c).proc = some p ∧ s.lk ≠ .resume c ∧ s.lk ≠ .back c

/-- A process that will resume inside `wait` is not in the middle of `fork`. -/
def ResumeOk (s : State) : Prop :=
  ∀ p w, s.resume p = .wait w → s.pc (some p) = .user ∨ s.Executing p

section

variable (h : s.ResumeOk)

include h

/-- A step that ends with the lock free and moves no process on or off a
processor. -/
theorem ResumeOk.stay {s' : State} (hlk : s'.lk = .free) (hcpu : s'.cpu = s.cpu)
    (hresume : ∀ p w, s'.resume p = .wait w → s.resume p = .wait w)
    (hpc : ∀ p, s'.pc (some p) = s.pc (some p) ∨ ∃ c, (s.cpu c).proc = some p) : s'.ResumeOk := by
  have hexec : ∀ p c, (s.cpu c).proc = some p → s'.Executing p := by
    intro p c hc
    exact ⟨c, by rw [hcpu, hc], by simp [hlk], by simp [hlk]⟩
  intro p w hp
  rcases h p w (hresume p w hp) with huser | ⟨c, hc, -, -⟩
  · grind
  · exact Or.inr (hexec p c hc)

/-- The process on processor `c` calls `sched`; it is either not in `fork` or not
going to resume inside `wait`. -/
theorem ResumeOk.leave {s' : State} (hc : (s.cpu c).proc = some p) (hlk' : s'.lk = .back c)
    (hcpu : s'.cpu = s.cpu) (hresume : ∀ q, q ≠ p → s'.resume q = s.resume q)
    (hpc : ∀ q, q ≠ p → s'.pc (some q) = s.pc (some q))
    (hself : ∀ w, s'.resume p = .wait w → s'.pc (some p) = .user) : s'.ResumeOk := by
  intro q w hq
  by_cases hqp : q = p
  · subst hqp
    exact Or.inl (hself w hq)
  · rw [hresume q hqp] at hq
    rcases h q w hq with huser | ⟨c', hc', hres, hback⟩
    · exact Or.inl (by rw [hpc q hqp, huser])
    · have hne : c' ≠ c := by
        rintro rfl
        rw [hc] at hc'
        exact hqp (Option.some.inj hc').symm
      exact Or.inr ⟨c', by rw [hcpu, hc'], by simp [hlk'], by simpa [hlk'] using hne.symm⟩

/-- The scheduler of processor `c` switches, or finds nothing to do. -/
theorem ResumeOk.switch {s' : State} (hlk : s'.lk = .free ∨ s'.lk = .resume c)
    (hcpu : ∀ c', c' ≠ c → s'.cpu c' = s.cpu c') (hc : (s.cpu c).proc = none ∨ s.lk = .back c)
    (hresume : s'.resume = s.resume) (hpc : s'.pc = s.pc) : s'.ResumeOk := by
  intro p w hp
  rw [hresume] at hp
  rcases h p w hp with huser | ⟨c', hc', hres, hback⟩
  · exact Or.inl (by rw [hpc, huser])
  · have hne : c' ≠ c := by
      grind
    refine Or.inr ⟨c', by rw [hcpu c' hne, hc'], ?_, ?_⟩
    · rcases hlk with hlk | hlk <;> simp [hlk, hne.symm]
    · rcases hlk with hlk | hlk <;> simp [hlk]

theorem ResumeOk.goToSleep (hc : (s.cpu c).proc = some p) (chan : Chan) (r : Resume)
    (hpc : s.pc (some p) = .user) : (s.goToSleep c p chan r).ResumeOk := by
  refine h.leave hc rfl rfl ?_ (fun _ _ => rfl) fun _ _ => hpc
  intro q hq
  simp [State.goToSleep, hq]

theorem ResumeOk.yield (hc : (s.cpu c).proc = some p) : (s.yield c p).ResumeOk := by
  refine h.leave hc rfl rfl ?_ (fun _ _ => rfl) ?_
  · intro q hq
    simp [State.yield, hq]
  · intro w hw
    simp [State.yield] at hw

/-- A process that has just been switched to and resumes inside `wait` is not in
the middle of `fork`. -/
theorem ResumeOk.user (hok : s.Ok) (hlk : s.lk = .resume c) (hc : (s.cpu c).proc = some p)
    {w : Bool} (hw : s.resume p = .wait w) : s.pc (some p) = .user := by
  rcases h p w hw with huser | ⟨c', hc', hres, -⟩
  · exact huser
  · have hEq : c' = c := TableOk.inj hok c' c p hc' hc
    exact absurd hlk (hEq ▸ hres)

/-- A scan of `wait` by the process on processor `c`. -/
theorem ResumeOk.waitBody (hc : (s.cpu c).proc = some p) (hpc : s.pc (some p) = .user) (w : Bool) :
    (s.waitBody b c p w).ResumeOk := by
  unfold State.waitBody
  split
  · dsimp only
    split
    · refine h.stay rfl rfl (fun _ _ hq => hq) fun q => ?_
      by_cases hq : q = p
      · subst hq
        exact Or.inr ⟨c, hc⟩
      · exact Or.inl (update_of_ne (fun hEq => hq (Option.some.inj hEq)) _ _)
    · exact h.stay rfl rfl (fun _ _ hq => hq) fun _ => Or.inl rfl
  · split
    · exact h.stay rfl rfl (fun _ _ hq => hq) fun _ => Or.inl rfl
    · exact h.goToSleep hc _ _ hpc

theorem ResumeOk.resumed (hok : s.Ok) (hlk : s.lk = .resume c) (hc : (s.cpu c).proc = some p) :
    (s.resumed b c p).ResumeOk := by
  unfold State.resumed
  split
  · exact h.stay rfl rfl (fun _ _ hq => hq) fun _ => Or.inl rfl
  · exact h.stay rfl rfl (fun _ _ hq => hq) fun _ => Or.inl rfl
  · next w hw =>
    exact ResumeOk.waitBody (s := s.setProc p fun y => { y with chan := none }) h hc
      (h.user hok hlk hc hw) w

/-- The scheduler's half of a switch. -/
theorem ResumeOk.dispatch (hc : (s.cpu c).proc = none ∨ s.lk = .back c) (p : Slot)
    (hp : Option Slot) : (s.dispatch c p hp).ResumeOk :=
  h.switch (Or.inr rfl) (fun c' hne => by simp [State.dispatch, hne]) hc rfl rfl

theorem ResumeOk.schedIdle (hc : (s.cpu c).proc = none ∨ s.lk = .back c) :
    (s.schedIdle c).ResumeOk :=
  h.switch (Or.inl rfl) (fun c' hne => by simp [State.schedIdle, hne]) hc rfl rfl

theorem ResumeOk.schedule (hc : (s.cpu c).proc = none) : (s.schedule b c).ResumeOk := by
  unfold State.schedule
  cases b with
  | rr | fcfs =>
    dsimp only
    split
    · exact h.dispatch (Or.inl hc) _ _
    · exact h.schedIdle (Or.inl hc)
  | pbs =>
    dsimp only
    split
    · split
      · exact h.dispatch (Or.inl hc) _ _
      · exact h.schedIdle (Or.inl hc)
    · exact h.schedIdle (Or.inl hc)
  | mlfq =>
    dsimp only
    split
    · exact ResumeOk.dispatch (s := { s with mlfq := _ }) h (Or.inl hc) _ _
    · exact ResumeOk.schedIdle (s := { s with mlfq := _ }) h (Or.inl hc)

theorem ResumeOk.schedBack (hlk : s.lk = .back c) : (s.schedBack b c p).ResumeOk := by
  unfold State.schedBack
  cases b with
  | fcfs => exact h.schedIdle (Or.inr hlk)
  | rr =>
    dsimp only
    split
    · exact h.dispatch (Or.inr hlk) _ _
    · exact h.schedIdle (Or.inr hlk)
  | pbs =>
    dsimp only
    split
    · split
      · exact h.dispatch (Or.inr hlk) _ _
      · exact h.schedIdle (Or.inr hlk)
    · exact h.schedIdle (Or.inr hlk)
  | mlfq =>
    dsimp only
    split
    · exact ResumeOk.schedIdle (s := { s with mlfq := _ }) h (Or.inr hlk)
    · exact h.schedIdle (Or.inr hlk)

theorem ResumeOk.timerTrap (hlk : s.lk = .free) (hc : (s.cpu c).proc = some p) :
    (s.timerTrap b c p).ResumeOk := by
  unfold State.timerTrap
  cases b with
  | mlfq =>
    dsimp only
    split
    · exact ResumeOk.yield (s := { s with mlfq := _ }) h hc
    · exact h.stay hlk rfl (fun _ _ hq => hq) fun _ => Or.inl rfl
  | fcfs => exact h
  | rr | pbs => exact h.yield hc

end

/-- A thread that moves is on a processor, or is `main`. -/
theorem pc_of_executes {x : Pc} (h : s.Executes c t) (q : Slot) :
    update s.pc t x (some q) = s.pc (some q) ∨ ∃ c, (s.cpu c).proc = some q := by
  by_cases ht : some q = t
  · subst ht
    exact Or.inr ⟨c, h.2.1⟩
  · exact Or.inl (update_of_ne ht _ _)

theorem ResumeOk.next (h : s.ResumeOk) (hok : s.Ok) (enabled : s.Enabled l) (b : Build) :
    (s.next b l).ResumeOk := by
  have hkeep : ∀ (p : Slot) (w : Bool), s.resume p = .wait w → s.resume p = .wait w :=
    fun _ _ hq => hq
  cases l with
  | userinit np =>
    exact h.stay enabled.1.1 rfl hkeep fun q =>
      pc_of_executes (x := .alloc .kalloc np) enabled.1 q
  | fork c p np =>
    exact h.stay enabled.1.1 rfl hkeep fun q => pc_of_executes (t := some p) enabled.1 q
  | allocKalloc c t np ok =>
    cases ok with
    | true =>
      refine h.stay enabled.1.lk_free rfl ?_ fun q => pc_of_executes enabled.1 q
      intro q w hq
      by_cases hqn : q = np
      · subst hqn
        simp [State.next, State.allocKalloc] at hq
      · simpa [State.next, State.allocKalloc, setPc, hqn] using hq
    | false => exact h.stay enabled.1.lk_free rfl hkeep fun q => pc_of_executes enabled.1 q
  | allocCtime c t np =>
    exact h.stay enabled.1.lk_free rfl hkeep fun q => pc_of_executes enabled.1 q
  | allocInit c t np =>
    have hpc := fun q => pc_of_executes (x := .alloc .copy np) enabled.1 q
    change (s.allocInit b t np).ResumeOk
    unfold State.allocInit
    dsimp only
    split
    · exact h.stay enabled.1.lk_free rfl hkeep hpc
    · exact h.stay enabled.1.lk_free rfl hkeep hpc
  | allocCopy c t np ok =>
    cases ok with
    | true =>
      have hpc := fun q => pc_of_executes (x := .alloc .publish np) enabled.1 q
      change (s.allocCopy t np true).ResumeOk
      unfold State.allocCopy
      simp only [if_true]
      split
      · exact h.stay enabled.1.lk_free rfl hkeep hpc
      · exact h.stay enabled.1.lk_free rfl hkeep hpc
    | false => exact h.stay enabled.1.lk_free rfl hkeep fun q => pc_of_executes enabled.1 q
  | forkPublish c p np =>
    exact h.stay enabled.1.1 rfl hkeep fun q => pc_of_executes (t := some p) enabled.1 q
  | userinitPublish np =>
    exact h.stay enabled.1.1 rfl hkeep fun q => pc_of_executes (x := .user) enabled.1 q
  | exit c p =>
    have hframe := exit_frame s b c p
    refine h.leave enabled.1.2.1 ?_ ?_ (fun q _ => ?_) (fun q _ => ?_) fun w _ => ?_
    · rw [State.next, hframe]
    · rw [State.next, hframe]
    · rw [State.next, hframe]
    · rw [State.next, hframe]
    · rw [State.next, hframe]
      exact enabled.2.1
  | wait c p w => exact h.waitBody enabled.1.2.1 enabled.2 w
  | waitxStore c p child pid =>
    exact h.stay enabled.1.1 rfl hkeep fun q => pc_of_executes (t := some p) enabled.1 q
  | kill c p pid =>
    rw [State.next, kill_frame]
    exact h.stay enabled.1.1 rfl hkeep fun _ => Or.inl rfl
  | trapKill c p => exact h.stay enabled.1.1 rfl hkeep fun _ => Or.inl rfl
  | setPriority c p priority pid =>
    rw [State.next, State.setPriority]
    split
    · exact h
    · dsimp only
      split
      · exact h.stay enabled.1.1 rfl hkeep fun q => pc_of_executes (t := some p) enabled.1 q
      · exact h.stay enabled.1.1 rfl hkeep fun _ => Or.inl rfl
  | yield c p =>
    refine ResumeOk.yield (s := s.setPc (some p) .user) ?_ enabled.1.2.1
    exact h.stay enabled.1.1 rfl hkeep fun q => pc_of_executes (t := some p) enabled.1 q
  | sleep c p chan => exact h.goToSleep enabled.1.2.1 _ _ enabled.2.1
  | wakeup chan =>
    rw [State.next, wakeup1_frame]
    exact h.stay enabled.1 rfl hkeep fun _ => Or.inl rfl
  | schedule c => exact h.schedule enabled.2.1
  | resumed c p => exact h.resumed hok enabled.1 enabled.2
  | back c p => exact h.schedBack enabled.1
  | timerTrap c p => exact h.timerTrap enabled.1 enabled.2.1
  | tickInc => exact h.stay enabled.1 rfl hkeep fun _ => Or.inl rfl
  | tickAccount => exact h.stay enabled.1 rfl hkeep fun _ => Or.inl rfl
  | tickWake =>
    rw [State.next, tickWake, wakeup1_frame]
    exact h.stay enabled.1 rfl hkeep fun _ => Or.inl rfl
  | tick =>
    rw [State.next, tickWake, wakeup1_frame]
    exact h.stay enabled.1 rfl hkeep fun _ => Or.inl rfl

/-! ## The inversion lemma for threads in `fork` -/

theorem threadStep_waitBody (s₀ : State) (hpc : s.pc = s₀.pc)
    (hrun : (s₀.proc p).state = .running) (huser : s₀.pc (some p) = .user) (w : Bool)
    (t : Thread) : ThreadStep s₀ l (s.waitBody b c p w) t := by
  unfold waitBody
  split
  · dsimp only
    split
    · refine .of_setPc (some p) (congrArg (update · (some p) _) hpc) fun hnew => ?_
      refine .of_user hrun (by simp [huser]) fun stage np hnp => ?_
      rw [hnew] at hnp
      cases hnp
    · exact .same (congrFun hpc t)
  · split
    · exact .same (congrFun hpc t)
    · exact .same (congrFun hpc t)

theorem threadStep_next (hok : s.Ok) (hres : s.ResumeOk) (enabled : s.Enabled l) (b : Build)
    (t : Thread) : ThreadStep s l (s.next b l) t := by
  cases l with
  | userinit np =>
    refine .of_setPc none rfl fun hnew => .moved (by simp) ?_ ?_ ?_
    · intro p hp
      rw [hnew] at hp
      cases hp
    · intro p hp
      rw [enabled.2.1] at hp
      cases hp
    · intro _ stage p hp
      rw [enabled.2.1] at hp
      cases hp
  | fork c p np =>
    refine .of_setPc (some p) rfl fun hnew => .moved ?_ ?_ ?_ (by simp)
    · rintro q ⟨⟩
      exact hok.running enabled.1.1 enabled.1.2.1
    · intro q hq
      rw [hnew] at hq
      cases hq
    · intro q hq
      rw [enabled.2.1] at hq
      cases hq
  | allocKalloc c t₀ np ok =>
    cases ok with
    | true =>
      refine .of_setPc t₀ rfl fun hnew => ?_
      exact .of_stage (running_of_executes hok enabled.1) enabled.2.1 hnew (by simp) (by simp)
    | false =>
      cases t₀ with
      | none => cases enabled.2.2 rfl
      | some q =>
        refine .of_setPc (some q) rfl fun hnew => ?_
        exact .of_failed (hok.running enabled.1.1 enabled.1.2.1) enabled.2.1 hnew (by simp)
  | allocCtime c t₀ np =>
    refine .of_setPc t₀ rfl fun hnew => ?_
    exact .of_stage (running_of_executes hok enabled.1) enabled.2.1 hnew (by simp) (by simp)
  | allocInit c t₀ np =>
    have hpc : (s.next b (.allocInit c t₀ np)).pc =
        update s.pc t₀ (.alloc .copy np) := by
      rw [State.next, allocInit]
      split <;> rfl
    refine .of_setPc t₀ hpc fun hnew => ?_
    exact .of_stage (running_of_executes hok enabled.1) enabled.2 hnew (by simp) (by simp)
  | allocCopy c t₀ np ok =>
    cases ok with
    | true =>
      have hpc : (s.next b (.allocCopy c t₀ np true)).pc =
          update s.pc t₀ (.alloc .publish np) := by
        rw [State.next, allocCopy]
        simp only [if_true]
        split <;> rfl
      refine .of_setPc t₀ hpc fun hnew => ?_
      refine .moved (running_of_executes hok enabled.1) ?_ ?_ ?_
      · intro p hp
        rw [hnew] at hp
        cases hp
        refine ⟨enabled.2.1, ?_⟩
        rw [State.next, allocCopy]
        simp only [if_true]
        split
        · rfl
        · exact congrArg Proc.parent (setProc_proc_self s np fun x => { x with parent := t₀ })
      · intro p hp
        rw [enabled.2.1] at hp
        cases hp
      · rintro rfl stage p hp -
        rw [enabled.2.1] at hp
        cases hp
        exact ⟨_, hnew⟩
    | false =>
      cases t₀ with
      | none => cases enabled.2.2 rfl
      | some q =>
        refine .of_setPc (some q) rfl fun hnew => ?_
        exact .of_failed (hok.running enabled.1.1 enabled.1.2.1) enabled.2.1 hnew (by simp)
  | forkPublish c q np =>
    refine .of_setPc (some q) rfl fun hnew => .moved ?_ ?_ ?_ (by simp)
    · rintro p ⟨⟩
      exact hok.running enabled.1.1 enabled.1.2.1
    · intro p hp
      rw [hnew] at hp
      cases hp
    · intro p hp
      rw [enabled.2] at hp
      cases hp
      exact congrArg Proc.state (setProc_proc_self s np fun x => { x with state := .runnable })
  | userinitPublish np =>
    refine .of_setPc none rfl fun hnew => .moved (by simp) ?_ ?_ ?_
    · intro p hp
      rw [hnew] at hp
      cases hp
    · intro p hp
      rw [enabled.2] at hp
      cases hp
      exact congrArg Proc.state (setProc_proc_self s np fun x => { x with state := .runnable })
    · intro _ stage p hp hstage
      rw [enabled.2] at hp
      cases hp
      exact absurd rfl hstage
  | waitxStore c q child pid =>
    refine .of_setPc (some q) rfl fun hnew => ?_
    refine .of_user (hok.running enabled.1.1 enabled.1.2.1) (by simp [enabled.2]) ?_
    intro stage p hp
    rw [hnew] at hp
    cases hp
  | yield c q =>
    refine .of_setPc (some q) rfl fun hnew => ?_
    refine .of_user (hok.running enabled.1.1 enabled.1.2.1) (by simp [enabled.2]) ?_
    intro stage p hp
    rw [hnew] at hp
    cases hp
  | setPriority c q priority pid =>
    rw [State.next, setPriority]
    split
    · exact .same rfl
    · dsimp only
      split
      · refine .of_setPc (some q) rfl fun hnew => ?_
        refine .of_user (hok.running enabled.1.1 enabled.1.2.1) (by simp [enabled.2]) ?_
        intro stage p hp
        rw [hnew] at hp
        cases hp
      · exact .same rfl
  | wait c q w =>
    exact threadStep_waitBody s rfl (hok.running enabled.1.1 enabled.1.2.1) enabled.2 w t
  | resumed c q =>
    rw [State.next, resumed]
    split
    · exact .same rfl
    · exact .same rfl
    · next w hw =>
      exact threadStep_waitBody (s := s.setProc q fun y => { y with chan := none }) s rfl
        (TableOk.running hok c q enabled.2 (by simp [enabled.1]))
        (hres.user hok enabled.1 enabled.2 hw) w t
  | exit c q => exact .same (by rw [State.next, exit_frame])
  | kill c q pid => exact .same (by rw [State.next, kill_frame])
  | wakeup chan => exact .same (by rw [State.next, wakeup1_frame])
  | schedule c => exact .same (by rw [State.next, schedule_frame])
  | back c q => exact .same (by rw [State.next, schedBack_frame])
  | timerTrap c q => exact .same (by rw [State.next, timerTrap_frame])
  | tickWake => exact .same (by rw [State.next, tickWake, wakeup1_frame])
  | tick => exact .same (by rw [State.next, tickWake, wakeup1_frame]; rfl)
  | trapKill c q | sleep c q chan | tickInc | tickAccount => exact .same rfl

/-! ## The invariant -/

/-- The shape of the process tree. -/
structure TreeOk (s : State) : Prop where
  unused : ∀ p, (s.proc p).state = .unused → (s.proc p).parent = none
  embryo : ∀ p, (s.proc p).state = .embryo → (s.proc p).parent = none ∨
    ∃ q, (s.proc p).parent = some q ∧ s.pc (some q) = .alloc .publish p
  publish : ∀ q p, s.pc (some q) = .alloc .publish p → (s.proc p).parent = some q
  forker : ∀ q stage np, s.pc (some q) = .alloc stage np → (s.proc q).state.active
  self : ∀ p, (s.proc p).parent ≠ some p
  live : ∀ p, (s.proc p).state.live → s.initproc ≠ some p →
    ∃ q, (s.proc p).parent = some q ∧ (s.proc q).state.active
  unbooted : s.booted = false → ∀ p, ¬ (s.proc p).state.live
  root : ∀ p, (s.proc p).state.live → ∃ i, s.initproc = some i ∧ (s.proc i).state.active
  main : ∀ stage np, s.pc none = .alloc stage np → stage = .copy ∨ stage = .publish →
    s.initproc = some np
  initproc : ∀ i, s.initproc = some i → (s.proc i).parent = none ∧
    ((s.proc i).state.active ∨ ∃ stage, s.pc none = .alloc stage i)

/-- `initproc` is set by `userinit`, whose end is also the end of booting. -/
theorem initproc_next (s : State) (b : Build) (l : Label) :
    ((s.next b l).initproc = s.initproc ∨
      ∃ c np, l = .allocInit c none np ∧ (s.next b l).initproc = some np) ∧
    ((s.next b l).booted = s.booted ∨ (s.next b l).booted = true) := by
  have hleaves := next_leaves s b l
  constructor
  · by_cases hinit : ∃ c np, l = .allocInit c none np
    · obtain ⟨c, np, rfl⟩ := hinit
      exact Or.inr ⟨c, np, rfl, rfl⟩
    · exact Or.inl (hleaves.initproc fun c np hl => hinit ⟨c, np, hl⟩)
  · by_cases hpublish : ∃ np, l = .userinitPublish np
    · obtain ⟨np, rfl⟩ := hpublish
      exact Or.inr rfl
    · exact Or.inl (hleaves.booted fun np hl => hpublish ⟨np, hl⟩)

theorem embryo_of_pc (hok : s.Ok) {stage : AllocStage} (h : s.pc t = .alloc stage p) :
    (s.proc p).state = .embryo :=
  TableOk.owns hok t stage p h

/-- Two threads never set up the same slot. -/
theorem same_owner (hok : s.Ok) {t' : Thread} {stage stage' : AllocStage}
    (h : s.pc t = .alloc stage p) (h' : s.pc t' = .alloc stage' p) : t = t' ∧ stage = stage' := by
  have ht : t = t' := TableOk.owns_inj hok t t' stage stage' p h h'
  subst ht
  rw [h] at h'
  cases h'
  exact ⟨rfl, rfl⟩

/-- A process that can run goes on until it exits. -/
theorem active_next (hok : s.Ok) (enabled : s.Enabled l) (b : Build)
    (h : (s.proc p).state.active) (hl : ∀ c, l ≠ .exit c p) :
    ((s.next b l).proc p).state.active := by
  cases familyStep_next hok enabled b p with
  | quiet hq _ => exact hq.active h
  | found hold => simp [hold, ProcState.active] at h
  | failed q stage _ hpc => simp [embryo_of_pc hok hpc, ProcState.active] at h
  | copied c q _ hpc => simp [embryo_of_pc hok hpc, ProcState.active] at h
  | published t _ hpc => simp [embryo_of_pc hok hpc, ProcState.active] at h
  | exited c hexit => exact absurd hexit (hl c)
  | abandoned c cur _ _ _ _ hstate =>
    rcases hstate with hsame | ⟨-, hrun⟩
    · rw [hsame]
      exact h
    · rw [hrun]
      rfl
  | reaped c cur _ _ _ hzombie => simp [hzombie, ProcState.active] at h
  | waits _ _ hstate =>
    rw [hstate]
    rfl

/-- Processes come to life only by being published. -/
theorem live_next (hok : s.Ok) (enabled : s.Enabled l) (b : Build)
    (h : ((s.next b l).proc p).state.live) : (s.proc p).state.live ∨
      ∃ t, s.pc t = .alloc .publish p ∧ ((s.next b l).proc p).state = .runnable ∧
        ((s.next b l).proc p).parent = (s.proc p).parent ∧
        ((∃ c q, t = some q ∧ l = .forkPublish c q p) ∨ t = none ∧ l = .userinitPublish p) := by
  cases familyStep_next hok enabled b p with
  | quiet hq _ => exact Or.inl (hq.live h)
  | found _ hnew => simp [hnew, ProcState.live] at h
  | failed q stage _ _ hnew => simp [hnew, ProcState.live] at h
  | copied c q _ hpc hnew => simp [hnew, embryo_of_pc hok hpc, ProcState.live] at h
  | published t hl hpc hnew hparent => exact Or.inr ⟨t, hpc, hnew, hparent, hl⟩
  | exited c _ hrun => exact Or.inl (by rw [hrun]; rfl)
  | abandoned c cur _ _ _ _ hstate =>
    rcases hstate with hsame | ⟨hsleep, -⟩
    · exact Or.inl (by rw [← hsame]; exact h)
    · exact Or.inl (by rw [hsleep]; rfl)
  | reaped c cur _ _ _ _ hnew => simp [hnew, Proc.freed, ProcState.live] at h
  | waits hrun => exact Or.inl (by rw [hrun]; rfl)

/-- A process in `fork` does not exit. -/
theorem ne_exit (enabled : s.Enabled l) {q np : Slot} {stage : AllocStage}
    (hpc : s.pc (some q) = .alloc stage np) (c : Cpu) : l ≠ .exit c q := by
  rintro rfl
  rw [enabled.2.1] at hpc
  cases hpc

theorem initproc_ne_exit (enabled : s.Enabled l) {i : Slot} (hi : s.initproc = some i)
    (c : Cpu) : l ≠ .exit c i := by
  rintro rfl
  exact enabled.2.2 hi

namespace TreeOk

variable (h : s.TreeOk) (hok : s.Ok) (enabled : s.Enabled l) (b : Build)

include h hok enabled

theorem unused_next (hp : ((s.next b l).proc p).state = .unused) :
    ((s.next b l).proc p).parent = none := by
  cases familyStep_next hok enabled b p with
  | quiet hq _ =>
    rcases hq.state with hsame | ⟨-, hnew⟩
    · rw [hq.parent]
      exact h.unused p (hsame ▸ hp)
    · simp [hp, ProcState.active] at hnew
  | found _ hnew => simp [hnew] at hp
  | failed q stage hstage hpc _ hparent =>
    grind [h.embryo, embryo_of_pc, same_owner]
  | copied c q _ hpc hnew => simp [hnew, embryo_of_pc hok hpc] at hp
  | published t _ _ hnew => simp [hnew] at hp
  | exited c _ _ hnew => simp [hnew] at hp
  | abandoned c cur _ _ hold _ hstate =>
    grind [h.unused]
  | reaped c cur _ _ _ _ hnew =>
    rw [hnew]
    rfl
  | waits _ _ hstate => simp [hstate] at hp

theorem publish_next (hres : s.ResumeOk) {q : Slot}
    (hpc : (s.next b l).pc (some q) = .alloc .publish p) :
    ((s.next b l).proc p).parent = some q := by
  cases threadStep_next hok hres enabled b (some q) with
  | moved _ hpublish => simpa using (hpublish p hpc).2
  | same hsame =>
    rw [hsame] at hpc
    have hparent := h.publish q p hpc
    have hemb := embryo_of_pc hok hpc
    cases familyStep_next hok enabled b p with
    | quiet hq _ => rw [hq.parent, hparent]
    | found hold => simp [hold] at hemb
    | failed q' stage hstage hpc' => exact absurd (same_owner hok hpc' hpc).2 hstage
    | copied c q' _ hpc' => cases (same_owner hok hpc' hpc).2
    | published t _ _ _ hkept => rw [hkept, hparent]
    | exited c _ hrun => simp [hrun] at hemb
    | abandoned c cur hl _ hold =>
      rw [hparent] at hold
      cases hold
      exact absurd hl (ne_exit enabled hpc c)
    | reaped c cur _ _ _ hzombie => simp [hzombie] at hemb
    | waits hrun => simp [hrun] at hemb

theorem embryo_next (hres : s.ResumeOk) (hp : ((s.next b l).proc p).state = .embryo) :
    ((s.next b l).proc p).parent = none ∨ ∃ q, ((s.next b l).proc p).parent = some q ∧
      (s.next b l).pc (some q) = .alloc .publish p := by
  -- The forking process stays where it is: leaving would publish the slot.
  have hstay : ∀ q, s.pc (some q) = .alloc .publish p →
      (s.next b l).pc (some q) = .alloc .publish p := by
    intro q hpc
    cases threadStep_next hok hres enabled b (some q) with
    | same hsame => rw [hsame, hpc]
    | moved _ _ hleave =>
      have := hleave p hpc
      simp [this] at hp
  have hkept : ((s.next b l).proc p).parent = (s.proc p).parent →
      (s.proc p).state = .embryo → ((s.next b l).proc p).parent = none ∨
        ∃ q, ((s.next b l).proc p).parent = some q ∧
          (s.next b l).pc (some q) = .alloc .publish p := by
    grind [h.embryo]
  cases familyStep_next hok enabled b p with
  | quiet hq _ =>
    rcases hq.state with hsame | ⟨-, hnew⟩
    · exact hkept hq.parent (hsame ▸ hp)
    · simp [hp, ProcState.active] at hnew
  | found hold _ hparent => exact Or.inl (by rw [hparent, h.unused p hold])
  | failed q stage _ _ hnew => simp [hnew] at hp
  | copied c q hl _ hnew =>
    subst hl
    exact Or.inr ⟨q, by rw [hnew], by simp [State.next, allocCopy, setPc]⟩
  | published t _ _ hnew => simp [hnew] at hp
  | exited c _ _ hnew => simp [hnew] at hp
  | abandoned c cur hl _ hold _ hstate =>
    grind [h.embryo, ne_exit]
  | reaped c cur _ _ _ _ hnew => simp [hnew, Proc.freed] at hp
  | waits _ _ hstate => simp [hstate] at hp

theorem forker_next (hres : s.ResumeOk) {q np : Slot} {stage : AllocStage}
    (hpc : (s.next b l).pc (some q) = .alloc stage np) :
    ((s.next b l).proc q).state.active := by
  have hexit : ∀ c, l ≠ .exit c q := by
    rintro c rfl
    rw [State.next, exit_frame, enabled.2.1] at hpc
    cases hpc
  cases threadStep_next hok hres enabled b (some q) with
  | same hsame =>
    rw [hsame] at hpc
    exact active_next hok enabled b (h.forker q stage np hpc) hexit
  | moved hrun =>
    refine active_next hok enabled b ?_ hexit
    rw [hrun q rfl]
    rfl

theorem self_next : ((s.next b l).proc p).parent ≠ some p := by
  have hself := h.self p
  cases familyStep_next hok enabled b p with
  | quiet hq _ => rwa [hq.parent]
  | found _ _ hparent => rwa [hparent]
  | failed q stage _ _ _ hparent => rwa [hparent]
  | copied c q _ hpc hnew =>
    rw [hnew]
    intro hEq
    cases hEq
    have := h.forker p _ p hpc
    simp [embryo_of_pc hok hpc, ProcState.active] at this
  | published t _ _ _ hparent => rwa [hparent]
  | exited c _ _ _ hparent => rwa [hparent, adopted, if_neg hself]
  | abandoned c cur _ _ hold hparent =>
    rw [hparent]
    intro hinit
    rw [(h.initproc p hinit).1] at hold
    cases hold
  | reaped c cur _ _ _ _ hnew => simp [hnew, Proc.freed]
  | waits _ _ _ _ hparent => rwa [hparent]

theorem unbooted_next (hboot : (s.next b l).booted = false) :
    ¬ ((s.next b l).proc p).state.live := by
  intro hlive
  have hold : s.booted = false := by
    grind [initproc_next]
  rcases live_next hok enabled b hlive with hp | ⟨t, hpc, -, -, ⟨c, q, rfl, -⟩ | ⟨-, rfl⟩⟩
  · exact h.unbooted hold p hp
  · exact h.unbooted hold q (ProcState.live_of_active (h.forker q _ p hpc))
  · cases hboot

omit hok in
/-- Nothing but `userinit`, with no process alive, replaces `initproc`. -/
theorem initproc_kept {q : Slot} (hq : (s.proc q).state.live) :
    (s.next b l).initproc = s.initproc := by
  rcases (initproc_next s b l).1 with hsame | ⟨c, np, rfl, -⟩
  · exact hsame
  · exact absurd hq (h.unbooted enabled.1.2.2 q)

theorem root_kept {q : Slot} (hq : (s.proc q).state.live) :
    ∃ i, s.initproc = some i ∧ (s.next b l).initproc = some i ∧
      ((s.next b l).proc i).state.active := by
  obtain ⟨i, hi, hactive⟩ := h.root q hq
  refine ⟨i, hi, ?_, ?_⟩
  · rw [h.initproc_kept enabled b hq, hi]
  · exact active_next hok enabled b hactive fun c => initproc_ne_exit enabled hi c

theorem root_next (hlive : ((s.next b l).proc p).state.live) :
    ∃ i, (s.next b l).initproc = some i ∧ ((s.next b l).proc i).state.active := by
  have hkept : ∀ {q : Slot}, (s.proc q).state.live →
      ∃ i, (s.next b l).initproc = some i ∧ ((s.next b l).proc i).state.active := by
    intro q hq
    obtain ⟨i, -, hi, hactive⟩ := h.root_kept hok enabled b hq
    exact ⟨i, hi, hactive⟩
  rcases live_next hok enabled b hlive with hp | ⟨t, hpc, hnew, -, ⟨c, q, rfl, -⟩ | ⟨rfl, rfl⟩⟩
  · exact hkept hp
  · exact hkept (ProcState.live_of_active (h.forker q _ p hpc))
  · refine ⟨p, h.main _ p hpc (Or.inr rfl), ?_⟩
    rw [hnew]
    rfl

theorem live_parent_next (hlive : ((s.next b l).proc p).state.live)
    (hinit : (s.next b l).initproc ≠ some p) :
    ∃ q, ((s.next b l).proc p).parent = some q ∧ ((s.next b l).proc q).state.active := by
  rcases live_next hok enabled b hlive with hp | ⟨t, hpc, -, hparent, ⟨c, q, rfl, rfl⟩ | ⟨rfl, rfl⟩⟩
  · have hinit' : s.initproc ≠ some p := by
      rwa [h.initproc_kept enabled b hp] at hinit
    obtain ⟨q, hq, hactive⟩ := h.live p hp hinit'
    obtain ⟨i, hi, -, hiactive⟩ := h.root_kept hok enabled b hp
    have hkept : ((s.next b l).proc p).parent = (s.proc p).parent → (∀ c, l ≠ .exit c q) →
        ∃ q, ((s.next b l).proc p).parent = some q ∧
          ((s.next b l).proc q).state.active :=
      fun hparent hl => ⟨q, by rw [hparent, hq], active_next hok enabled b hactive hl⟩
    cases familyStep_next hok enabled b p with
    | quiet hquiet hexit =>
      exact hkept hquiet.parent fun c hl => (hexit c q hl).1 hq
    | found hold => simp [hold, ProcState.live] at hp
    | failed q stage _ hpc => simp [embryo_of_pc hok hpc, ProcState.live] at hp
    | copied c q _ hpc => simp [embryo_of_pc hok hpc, ProcState.live] at hp
    | published t _ hpc => simp [embryo_of_pc hok hpc, ProcState.live] at hp
    | exited c hl _ _ hparent =>
      have hne : q ≠ p := fun hEq => h.self p (by rw [hq, hEq])
      refine hkept ?_ fun c' hl' => ?_
      · rw [hparent, adopted, if_neg (h.self p)]
      · rw [hl] at hl'
        cases hl'
        exact hne rfl
    | abandoned c cur _ _ _ hparent => exact ⟨i, by rw [hparent, hi], hiactive⟩
    | reaped c cur _ _ _ _ hnew => simp [hnew, Proc.freed, ProcState.live] at hlive
    | waits _ hexit _ _ hparent => exact hkept hparent fun c => hexit c q
  · grind [h.publish, active_next, h.forker]
  · exact absurd (h.main _ p hpc (Or.inr rfl)) hinit

theorem main_next {stage : AllocStage} {np : Slot}
    (hpc : (s.next b l).pc none = .alloc stage np) (hstage : stage = .copy ∨ stage = .publish) :
    (s.next b l).initproc = some np := by
  rcases (initproc_next s b l).1 with hsame | ⟨c, np', rfl, hnew⟩
  · rw [hsame]
    cases pcStep_next hok enabled b none with
    | same hkeep =>
      rw [hkeep] at hpc
      exact h.main stage np hpc hstage
    | away _ halloc => exact absurd hpc (halloc stage np)
    | found np' _ hnew | kalloc np' _ hnew | ctime c np' _ _ hnew =>
      rw [hnew] at hpc
      cases hpc
      simp at hstage
    | init c np' hl _ hnew =>
      subst hl
      rw [hnew] at hpc
      cases hpc
      exact hsame.symm.trans rfl
    | copy np' hold hnew =>
      rw [hnew] at hpc
      cases hpc
      exact h.main _ np hold (Or.inl rfl)
    | reaped child _ _ hnew =>
      rw [hnew] at hpc
      cases hpc
  · have hcopy : (s.next b (.allocInit c none np')).pc none = .alloc .copy np' := by
      simp [State.next, allocInit, setPc]
    rw [hcopy] at hpc
    cases hpc
    exact hnew

theorem initproc_parent_next (hres : s.ResumeOk) {i : Slot}
    (hi : (s.next b l).initproc = some i) : ((s.next b l).proc i).parent = none ∧
      (((s.next b l).proc i).state.active ∨ ∃ stage, (s.next b l).pc none = .alloc stage i) := by
  rcases (initproc_next s b l).1 with hsame | ⟨c, np, rfl, hnew⟩
  · rw [hsame] at hi
    obtain ⟨hparent, hwhere⟩ := h.initproc i hi
    refine ⟨?_, ?_⟩
    · cases familyStep_next hok enabled b i with
      | quiet hq _ => rw [hq.parent, hparent]
      | found _ _ hkept => rw [hkept, hparent]
      | failed q stage _ _ _ hkept => rw [hkept, hparent]
      | copied c q _ hpc =>
        rcases hwhere with hactive | ⟨stage, hmain⟩
        · simp [embryo_of_pc hok hpc, ProcState.active] at hactive
        · cases (same_owner hok hpc hmain).1
      | published t _ _ _ hkept => rw [hkept, hparent]
      | exited c _ _ _ hnew => rw [hnew, hparent]; rfl
      | abandoned c cur _ _ hold =>
        rw [hparent] at hold
        cases hold
      | reaped c cur _ _ hold =>
        rw [hparent] at hold
        cases hold
      | waits _ _ _ _ hkept => rw [hkept, hparent]
    · rcases hwhere with hactive | ⟨stage, hmain⟩
      · exact Or.inl (active_next hok enabled b hactive fun c => initproc_ne_exit enabled hi c)
      · cases threadStep_next hok hres enabled b none with
        | same hkeep => exact Or.inr ⟨stage, by rw [hkeep, hmain]⟩
        | moved _ _ hleave hforward =>
          by_cases hstage : stage = .publish
          · subst hstage
            refine Or.inl ?_
            rw [hleave i hmain]
            rfl
          · exact Or.inr (hforward rfl stage i hmain hstage)
  · rw [hnew] at hi
    cases hi
    have hpc := enabled.2
    refine ⟨?_, Or.inr ⟨.copy, by simp [State.next, allocInit, setPc]⟩⟩
    have hparent : ((s.next b (.allocInit c none i)).proc i).parent = (s.proc i).parent := by
      simp [State.next, allocInit, queues, setPc]
    grind [h.embryo, embryo_of_pc, same_owner]

/-- Every step keeps the shape of the tree. -/
theorem next (hres : s.ResumeOk) : (s.next b l).TreeOk where
  unused _ := h.unused_next hok enabled b
  embryo _ := h.embryo_next hok enabled b hres
  publish _ _ := h.publish_next hok enabled b hres
  forker _ _ _ := h.forker_next hok enabled b hres
  self _ := h.self_next hok enabled b
  live _ := h.live_parent_next hok enabled b
  unbooted hboot _ := h.unbooted_next hok enabled b hboot
  root _ := h.root_next hok enabled b
  main _ _ := h.main_next hok enabled b
  initproc _ := h.initproc_parent_next hok enabled b hres

end TreeOk

theorem treeOk_init : ({} : State).TreeOk where
  unused _ _ := rfl
  embryo _ h := by cases h
  publish _ _ h := by cases h
  forker _ _ _ h := by cases h
  self _ h := by cases h
  live _ h := by cases h
  unbooted _ _ h := by cases h
  root _ h := by cases h
  main _ _ h := by cases h
  initproc _ h := by cases h

end State

/-- The process tree is well shaped in every reachable state. -/
theorem treeOk_of_reachable {b : Build} {s : State} (h : (system b).Reachable s) : s.TreeOk := by
  have all : s.Ok ∧ s.ResumeOk ∧ s.TreeOk := by
    refine h.invariant (I := fun s => s.Ok ∧ s.ResumeOk ∧ s.TreeOk) ?_ ?_
    · rintro s rfl
      exact ⟨State.ok_init, nofun, State.treeOk_init⟩
    · intro s l hs enabled
      exact ⟨hs.1.next enabled, hs.2.1.next hs.1 enabled b,
        hs.2.2.next hs.1 enabled b hs.2.1⟩
  exact all.2.2

end Xv6.Ptable
