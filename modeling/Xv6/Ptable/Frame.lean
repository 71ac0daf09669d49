/-
# What the kernel functions leave alone

Views of the state that the invariants speak about, and for each function that
runs a loop over the table a statement of everything it can change. Waking and
re-parenting are the only effects of `wakeup1` and of the loop of `exit`; a
`Drift` is any sequence of them.
-/

import Xv6.Ptable.System

namespace Xv6.Ptable

namespace State

/-- The states of the table. -/
def states (s : State) (p : Slot) : ProcState := (s.proc p).state

/-- What each processor runs. -/
def procs (s : State) (c : Cpu) : Option Slot := (s.cpu c).proc

@[simp]
theorem setProc_proc_self (s : State) (p : Slot) (f : Proc → Proc) :
    (s.setProc p f).proc p = f (s.proc p) := by
  simp [setProc]

theorem setProc_proc_of_ne (s : State) {p x : Slot} (f : Proc → Proc) (h : x ≠ p) :
    (s.setProc p f).proc x = s.proc x := by
  simp [setProc, h]

@[simp]
theorem setProc_states (s : State) (p : Slot) (f : Proc → Proc) :
    (s.setProc p f).states = Function.update s.states p (f (s.proc p)).state := by
  funext x
  by_cases hx : x = p
  · subst hx
    simp [states]
  · simp [states, setProc_proc_of_ne s f hx, hx]

theorem update_states_self (s : State) (p : Slot) :
    Function.update s.states p (s.proc p).state = s.states :=
  Function.update_eq_self p s.states

/-- A predicate kept by the body of a loop over the table is kept by the loop. -/
theorem foldl_induction {body : State → Slot → State} {I : State → Prop} {s : State}
    (h : I s) (step : ∀ s p, I s → I (body s p)) (slots : List Slot) :
    I (slots.foldl body s) := by
  induction slots generalizing s with
  | nil => exact h
  | cons p rest ih => exact ih (step s p h)

/-- `s'` comes from `s` by waking sleepers and changing parents. -/
structure Drift (s s' : State) : Prop where
  eq : s' = { s with proc := s'.proc, mlfq := s'.mlfq }
  proc : ∀ p, s'.proc p =
    { s.proc p with state := (s'.proc p).state, parent := (s'.proc p).parent }
  state : ∀ p, (s'.proc p).state = (s.proc p).state ∨
    (s.proc p).state = .sleeping ∧ (s'.proc p).state = .runnable

namespace Drift

variable {s s' s'' : State}

theorem refl (s : State) : Drift s s := ⟨rfl, fun _ => rfl, fun _ => Or.inl rfl⟩

theorem trans (h : Drift s s') (h' : Drift s' s'') : Drift s s'' := by
  refine ⟨?_, ?_, ?_⟩
  · have := h'.eq
    rw [h.eq] at this
    exact this
  · intro p
    rw [h'.proc p, h.proc p]
  · grind [h'.state, h.state]

/-- A process that is not asleep keeps its state. -/
theorem state_of_ne_sleeping (h : Drift s s') {p : Slot}
    (hp : (s.proc p).state ≠ .sleeping) : (s'.proc p).state = (s.proc p).state := by
  rcases h.state p with hsame | ⟨hsleep, -⟩
  · exact hsame
  · exact absurd hsleep hp

variable (h : Drift s s')

include h

theorem nextpid : s'.nextpid = s.nextpid := by rw [h.eq]
theorem initproc : s'.initproc = s.initproc := by rw [h.eq]
theorem ticks : s'.ticks = s.ticks := by rw [h.eq]
theorem cpu : s'.cpu = s.cpu := by rw [h.eq]
theorem lk : s'.lk = s.lk := by rw [h.eq]
theorem tick : s'.tick = s.tick := by rw [h.eq]
theorem booted : s'.booted = s.booted := by rw [h.eq]
theorem pc : s'.pc = s.pc := by rw [h.eq]
theorem resume : s'.resume = s.resume := by rw [h.eq]
theorem ghost : s'.ghost = s.ghost := by rw [h.eq]
theorem pid (p : Slot) : (s'.proc p).pid = (s.proc p).pid := by rw [h.proc p]

end Drift

theorem drift_wakeSlot (b : Build) (chan : Option Chan) (s : State) (p : Slot) :
    Drift s (wakeSlot b chan s p) := by
  unfold wakeSlot
  split
  · next hsleep =>
    refine ⟨rfl, ?_, ?_⟩
    · intro x
      by_cases hx : x = p
      · subst hx
        simp [makeRunnable, queues]
      · simp [makeRunnable, queues, setProc_proc_of_ne s _ hx]
    · intro x
      by_cases hx : x = p
      · subst hx
        simp [makeRunnable, queues, hsleep.1]
      · simp [makeRunnable, queues, setProc_proc_of_ne s _ hx]
  · exact .refl s

theorem drift_wakeup1 (s : State) (b : Build) (chan : Option Chan) :
    Drift s (s.wakeup1 b chan) := by
  unfold wakeup1
  exact foldl_induction (I := Drift s) (.refl s)
    (fun s' p h => h.trans (drift_wakeSlot b chan s' p)) _

theorem drift_setParent (s : State) (p : Slot) (parent : Option Slot) :
    Drift s (s.setProc p fun x => { x with parent }) := by
  refine ⟨rfl, ?_, ?_⟩
  · intro x
    by_cases hx : x = p
    · subst hx
      simp
    · simp [setProc_proc_of_ne s _ hx]
  · intro x
    by_cases hx : x = p
    · subst hx
      simp
    · simp [setProc_proc_of_ne s _ hx]

theorem drift_abandonSlot (b : Build) (cur : Slot) (s : State) (p : Slot) :
    Drift s (abandonSlot b cur s p) := by
  unfold abandonSlot
  split
  · dsimp only
    split
    · exact (drift_setParent s p s.initproc).trans (drift_wakeup1 _ b _)
    · exact drift_setParent s p s.initproc
  · exact .refl s

theorem drift_exitDrift (s : State) (b : Build) (cur : Slot) :
    Drift s (s.exitDrift b cur) := by
  unfold exitDrift
  exact foldl_induction (I := Drift s) (drift_wakeup1 s b _)
    (fun s' p h => h.trans (drift_abandonSlot b cur s' p)) _

-- Each equation lists the fields a function may write; every other field is read
-- off as unchanged.

variable (s : State) (b : Build) (c : Cpu) (p : Slot)

theorem wakeup1_frame (chan : Option Chan) : s.wakeup1 b chan =
    { s with proc := (s.wakeup1 b chan).proc, mlfq := (s.wakeup1 b chan).mlfq } :=
  (drift_wakeup1 s b chan).eq

theorem kill_frame (pid : ℤ) : s.kill b pid =
    { s with proc := (s.kill b pid).proc, mlfq := (s.kill b pid).mlfq } := by
  unfold kill
  split
  · rfl
  · dsimp only
    split <;> rfl

theorem setPriority_frame (t : Thread) (priority pid : ℤ) : s.setPriority b t priority pid =
    { s with
      proc := (s.setPriority b t priority pid).proc
      pc := (s.setPriority b t priority pid).pc } := by
  unfold setPriority
  split
  · rfl
  · dsimp only
    split <;> rfl

theorem exit_frame : s.exit b c p =
    { s with
      proc := (s.exit b c p).proc
      mlfq := (s.exit b c p).mlfq
      lk := .back c
      ghost := { s.ghost with obituary := (s.exit b c p).ghost.obituary } } := by
  have hd := drift_exitDrift s b p
  unfold exit
  dsimp only [setProc]
  rw [hd.nextpid, hd.initproc, hd.ticks, hd.cpu, hd.tick, hd.booted, hd.pc, hd.resume, hd.ghost]

theorem waitBody_frame (x : Bool) : s.waitBody b c p x =
    { s with
      proc := (s.waitBody b c p x).proc
      mlfq := (s.waitBody b c p x).mlfq
      lk := (s.waitBody b c p x).lk
      pc := (s.waitBody b c p x).pc
      resume := (s.waitBody b c p x).resume
      ghost := { s.ghost with reaped := (s.waitBody b c p x).ghost.reaped } } := by
  unfold waitBody
  split
  · dsimp only
    split <;> rfl
  · split <;> rfl

theorem resumed_frame : s.resumed b c p =
    { s with
      proc := (s.resumed b c p).proc
      mlfq := (s.resumed b c p).mlfq
      lk := (s.resumed b c p).lk
      pc := (s.resumed b c p).pc
      resume := (s.resumed b c p).resume
      ghost := { s.ghost with reaped := (s.resumed b c p).ghost.reaped } } := by
  unfold resumed
  split
  · rfl
  · rfl
  · rw [waitBody_frame]
    rfl

theorem schedule_frame : s.schedule b c =
    { s with
      proc := (s.schedule b c).proc
      mlfq := (s.schedule b c).mlfq
      cpu := (s.schedule b c).cpu
      lk := (s.schedule b c).lk
      ghost := { s.ghost with dispatches := (s.schedule b c).ghost.dispatches } } := by
  unfold schedule
  cases b with
  | rr | fcfs | mlfq =>
    dsimp only
    split <;> rfl
  | pbs =>
    dsimp only
    split
    · split <;> rfl
    · rfl

theorem schedBack_frame : s.schedBack b c p =
    { s with
      proc := (s.schedBack b c p).proc
      mlfq := (s.schedBack b c p).mlfq
      cpu := (s.schedBack b c p).cpu
      lk := (s.schedBack b c p).lk
      ghost := { s.ghost with dispatches := (s.schedBack b c p).ghost.dispatches } } := by
  unfold schedBack
  cases b with
  | fcfs => rfl
  | rr | mlfq =>
    dsimp only
    split <;> rfl
  | pbs =>
    dsimp only
    split
    · split <;> rfl
    · rfl

theorem timerTrap_frame : s.timerTrap b c p =
    { s with
      proc := (s.timerTrap b c p).proc
      mlfq := (s.timerTrap b c p).mlfq
      lk := (s.timerTrap b c p).lk
      resume := (s.timerTrap b c p).resume } := by
  unfold timerTrap
  cases b with
  | mlfq =>
    dsimp only
    split <;> rfl
  | rr | fcfs | pbs => rfl

theorem allocKalloc_frame (t : Thread) (ok : Bool) : s.allocKalloc t p ok =
    { s with
      proc := (s.allocKalloc t p ok).proc
      pc := (s.allocKalloc t p ok).pc
      resume := (s.allocKalloc t p ok).resume } := by
  unfold allocKalloc
  split <;> rfl

theorem allocInit_frame (t : Thread) : s.allocInit b t p =
    { s with
      proc := (s.allocInit b t p).proc
      mlfq := (s.allocInit b t p).mlfq
      pc := (s.allocInit b t p).pc
      initproc := (s.allocInit b t p).initproc } := by
  unfold allocInit
  dsimp only
  split <;> rfl

theorem allocCopy_frame (t : Thread) (ok : Bool) : s.allocCopy t p ok =
    { s with proc := (s.allocCopy t p ok).proc, pc := (s.allocCopy t p ok).pc } := by
  unfold allocCopy
  dsimp only
  split
  · split <;> rfl
  · rfl

/-- The labels that run `found:` of `allocproc`, with the slot they take. -/
def allocates : Label → Option Slot
  | .userinit np | .fork _ _ np => some np
  | _ => none

/-- The labels that change a field outside the table. -/
structure Leaves (s : State) (l : Label) (s' : State) : Prop where
  nextpid : allocates l = none → s'.nextpid = s.nextpid := by intros; rfl
  cpu : (∀ c, l ≠ .schedule c) → (∀ c p, l ≠ .back c p) → s'.cpu = s.cpu := by intros; rfl
  initproc : (∀ c np, l ≠ .allocInit c none np) → s'.initproc = s.initproc := by intros; rfl
  booted : (∀ np, l ≠ .userinitPublish np) → s'.booted = s.booted := by intros; rfl
  clock : l ≠ .tickInc → l ≠ .tickAccount → l ≠ .tickWake → l ≠ .tick →
    s'.ticks = s.ticks ∧ s'.tick = s.tick ∧ s'.ghost.tickCount = s.ghost.tickCount := by
      intros; exact ⟨rfl, rfl, rfl⟩

theorem next_leaves (l : Label) : Leaves s l (s.next b l) := by
  cases l with
  | userinit np | fork c p np => exact { nextpid := nofun }
  | allocKalloc c t np ok => rw [next, allocKalloc_frame]; exact {}
  | allocInit c t np =>
    rw [next, allocInit_frame]
    cases t with
    | none => exact { initproc := fun h => absurd rfl (h c np) }
    | some q => exact {}
  | allocCopy c t np ok => rw [next, allocCopy_frame]; exact {}
  | userinitPublish np => exact { booted := fun h => absurd rfl (h np) }
  | exit c p => rw [next, exit_frame]; exact {}
  | wait c p x => rw [next, waitBody_frame]; exact {}
  | kill c p pid => rw [next, kill_frame]; exact {}
  | setPriority c p priority pid => rw [next, setPriority_frame]; exact {}
  | wakeup chan => rw [next, wakeup1_frame]; exact {}
  | schedule c =>
    rw [next, schedule_frame]
    exact { cpu := fun h => absurd rfl (h c) }
  | resumed c p => rw [next, resumed_frame]; exact {}
  | back c p =>
    rw [next, schedBack_frame]
    exact { cpu := fun _ h => absurd rfl (h c p) }
  | timerTrap c p => rw [next, timerTrap_frame]; exact {}
  | tickInc => exact { clock := fun h => absurd rfl h }
  | tickAccount => exact { clock := fun _ h => absurd rfl h }
  | tickWake =>
    rw [next, tickWake, wakeup1_frame]
    exact { clock := fun _ _ h => absurd rfl h }
  | tick =>
    rw [next, tickWake, wakeup1_frame]
    exact { clock := fun _ _ _ h => absurd rfl h }
  | allocCtime c t np | forkPublish c p np | waitxStore c p child pid | trapKill c p | yield c p
  | sleep c p chan => exact {}

end State

end Xv6.Ptable
