/-
# What one step can do

The inversion lemmas of the process system. For every label and every slot, the
new contents of the slot are one of the alternatives listed in `SlotStep`, each
with the guard the source puts on it; `PcStep` does the same for a thread,
`ClockStep` for the clock and `GhostStep` for the history variables. Invariants
are proved by cases over these alternatives and rarely look at a kernel function
again.
-/

import Xv6.Ptable.Table

namespace Xv6.Ptable

open Function

namespace State

/-- A slot that is at most woken up and re-parented. -/
def Drifted (x y : Proc) : Prop :=
  y = { x with state := y.state, parent := y.parent } ∧
    (y.state = x.state ∨ x.state = .sleeping ∧ y.state = .runnable)

theorem Drifted.refl (x : Proc) : Drifted x x := ⟨rfl, Or.inl rfl⟩

theorem Drift.drifted {s s' : State} (h : Drift s s') (p : Slot) :
    Drifted (s.proc p) (s'.proc p) :=
  ⟨h.proc p, h.state p⟩

/-- The members `exit` and the accounting pass leave alone. -/
theorem Drifted.wtime {x y : Proc} (h : Drifted x y) : y.wtime = x.wtime := by
  rw [h.1]
  rfl

/-- How label `l`, taken in state `s`, may change slot `p`. -/
inductive SlotStep (s : State) (l : Label) (p : Slot) : Proc → Prop
  /-- Nothing, or a wake-up, or a new parent. -/
  | drift {y : Proc} (h : Drifted (s.proc p) y) : SlotStep s l p y
  /-- `allocproc` takes the slot. -/
  | found (hl : l = .userinit p ∨ ∃ c q, l = .fork c q p)
      (h : (s.proc p).state = .unused) :
      SlotStep s l p { s.proc p with state := .embryo, pid := s.nextpid }
  /-- An allocation failed and the slot is given back. -/
  | failed (c : Cpu) (t : Thread)
      (hl : l = .allocKalloc c t p false ∨ l = .allocCopy c t p false)
      (h : (s.proc p).state = .embryo) :
      SlotStep s l p { s.proc p with state := .unused }
  /-- `p->ctime = ticks`. -/
  | ctime (c : Cpu) (t : Thread) (hl : l = .allocCtime c t p)
      (h : s.pc t = .alloc .ctime p) (htick : s.tick = .idle) :
      SlotStep s l p { s.proc p with ctime := toInt32 s.ticks }
  /-- The rest of `allocproc`. -/
  | init (c : Cpu) (t : Thread) (hl : l = .allocInit c t p) (h : s.pc t = .alloc .init p) :
      SlotStep s l p { s.proc p with
        etime := 0, rtime := 0, iotime := 0, nRun := 0, priority := 60 }
  /-- The new process is published. -/
  | published (t : Thread) (hl : (∃ c q, l = .forkPublish c q p) ∨ l = .userinitPublish p)
      (h : s.pc t = .alloc .publish p) :
      SlotStep s l p { s.proc p with state := .runnable }
  /-- The process exits. -/
  | exited (c : Cpu) (hl : l = .exit c p) (h : (s.proc p).state = .running)
      (parent : Option Slot) :
      SlotStep s l p { s.proc p with parent, state := .zombie, etime := toInt32 s.ticks }
  /-- The parent collects the process. -/
  | reaped (h : (s.proc p).state = .zombie) :
      SlotStep s l p (s.proc p).freed
  /-- `kill` found the slot. -/
  | killed (c : Cpu) (q : Slot) (pid : ℤ) (hl : l = .kill c q pid)
      (h : s.killTarget pid = some p) {y : Proc}
      (hy : Drifted { s.proc p with killed := true } y) : SlotStep s l p y
  /-- An exception in user code. -/
  | trapKilled (h : (s.proc p).state = .running) :
      SlotStep s l p { s.proc p with killed := true }
  | priority (n : ℤ) : SlotStep s l p { s.proc p with priority := n }
  | yielded (h : (s.proc p).state = .running) :
      SlotStep s l p { s.proc p with state := .runnable }
  | slept (h : (s.proc p).state = .running) (chan : Chan) :
      SlotStep s l p ((s.proc p).asleep chan)
  | dispatched (h : (s.proc p).state = .runnable) :
      SlotStep s l p { s.proc p with nRun := (s.proc p).nRun + 1, state := .running }
  /-- A sleeper that runs again clears its channel. -/
  | awake (h : (s.proc p).state = .running) :
      SlotStep s l p { s.proc p with chan := none }
  /-- The accounting pass. -/
  | ticked (hl : l = .tickAccount ∨ l = .tick) {y : Proc}
      (hy : Drifted (tickProc (s.proc p)) y) : SlotStep s l p y

variable {s : State} {b : Build} {c : Cpu} {p x : Slot} {l : Label} {t : Thread}

theorem SlotStep.same (s : State) (l : Label) (p : Slot) : SlotStep s l p (s.proc p) :=
  .drift (.refl _)

/-- A step that changes one slot by an allowed update. -/
theorem SlotStep.of_setProc {f : Proc → Proc} (h : SlotStep s l p (f (s.proc p))) :
    SlotStep s l x ((s.setProc p f).proc x) := by
  by_cases hx : x = p
  · subst hx
    rw [setProc_proc_self]
    exact h
  · rw [setProc_proc_of_ne s f hx]
    exact .same s l x

theorem SlotStep.of_drift {s' : State} (h : Drift s s') : SlotStep s l x (s'.proc x) :=
  .drift (h.drifted x)

theorem slotStep_dispatch {hp : Option Slot} (h : (s.proc p).state = .runnable) :
    SlotStep s l x ((s.dispatch c p hp).proc x) :=
  SlotStep.of_setProc (f := fun y => { y with nRun := y.nRun + 1, state := .running })
    (.dispatched h)

theorem slotStep_yield (h : (s.proc p).state = .running) :
    SlotStep s l x ((s.yield c p).proc x) :=
  SlotStep.of_setProc (f := fun y => { y with state := .runnable }) (.yielded h)

theorem slotStep_goToSleep (h : (s.proc p).state = .running) (chan : Chan) (r : Resume) :
    SlotStep s l x ((s.goToSleep c p chan r).proc x) :=
  SlotStep.of_setProc (f := fun y => y.asleep chan) (.slept h chan)

theorem slotStep_schedule : SlotStep s l x ((s.schedule b c).proc x) := by
  unfold schedule
  cases b with
  | rr =>
    dsimp only
    split
    · next p hp => exact slotStep_dispatch (rrNext_spec hp).2
    · exact .same s l x
  | fcfs =>
    dsimp only
    split
    · next p hp => exact slotStep_dispatch (fcfsPick_spec hp)
    · exact .same s l x
  | pbs =>
    dsimp only
    split
    · split
      · next p hp => exact slotStep_dispatch (pbsNext_spec hp).2
      · exact .same s l x
    · exact .same s l x
  | mlfq =>
    dsimp only
    split
    · next i p hp =>
      exact SlotStep.of_setProc (s := s)
        (f := fun y => { y with nRun := y.nRun + 1, state := .running })
        (.dispatched (pickHead_spec (s := s) hp))
    · exact .same s l x

theorem slotStep_schedBack : SlotStep s l x ((s.schedBack b c p).proc x) := by
  unfold schedBack
  cases b with
  | rr =>
    dsimp only
    split
    · next p' hp => exact slotStep_dispatch (rrNext_spec hp).2
    · exact .same s l x
  | fcfs => exact .same s l x
  | pbs =>
    dsimp only
    split
    · split
      · next p' hp => exact slotStep_dispatch (pbsNext_spec hp).2
      · exact .same s l x
    · exact .same s l x
  | mlfq =>
    dsimp only
    split <;> exact .same s l x

/-- The three outcomes of a scan of `wait`, as far as the table is concerned. -/
theorem waitBody_proc (s : State) (b : Build) (c : Cpu) (p : Slot) (w : Bool) :
    (∃ child, (s.proc child).parent = some p ∧ (s.proc child).state = .zombie ∧
      (s.waitBody b c p w).proc = (s.setProc child Proc.freed).proc) ∨
    (s.waitBody b c p w).proc = s.proc ∨
    (s.waitBody b c p w).proc = (s.setProc p fun y => y.asleep (.proc p)).proc := by
  unfold waitBody
  split
  · next child hchild =>
    refine Or.inl ⟨child, (zombieChild_spec hchild).1, (zombieChild_spec hchild).2, ?_⟩
    dsimp only
    split <;> rfl
  · split
    · exact Or.inr (Or.inl rfl)
    · exact Or.inr (Or.inr rfl)

section

variable (h : (s.proc p).state = .running)

include h

theorem slotStep_waitBody (w : Bool) : SlotStep s l x ((s.waitBody b c p w).proc x) := by
  rcases waitBody_proc s b c p w with ⟨child, -, hzombie, hEq⟩ | hEq | hEq <;> rw [hEq]
  · exact .of_setProc (.reaped hzombie)
  · exact .same s l x
  · exact .of_setProc (f := fun y => y.asleep (.proc p)) (.slept h _)

/-- A process that resumes inside `wait` scans the table with its channel
cleared; the slot it collects, if any, is not its own. -/
theorem slotStep_waitBody_awake (w : Bool) :
    SlotStep s l x
      (((s.setProc p fun y => { y with chan := none }).waitBody b c p w).proc x) := by
  set s' := s.setProc p fun y => { y with chan := none } with hs'
  have hself : s'.proc p = { s.proc p with chan := none } := setProc_proc_self s p _
  have hother : ∀ y, y ≠ p → s'.proc y = s.proc y := fun y hy => setProc_proc_of_ne s _ hy
  have hawake : SlotStep s l x (s'.proc x) :=
    .of_setProc (f := fun y => { y with chan := none }) (.awake h)
  rcases waitBody_proc s' b c p w with ⟨child, -, hzombie, hEq⟩ | hEq | hEq <;> rw [hEq]
  · have hne : child ≠ p := by
      rintro rfl
      rw [hself] at hzombie
      rw [h] at hzombie
      cases hzombie
    by_cases hx : x = child
    · subst hx
      rw [setProc_proc_self, hother x hne]
      rw [hother x hne] at hzombie
      exact .reaped hzombie
    · rw [setProc_proc_of_ne s' _ hx]
      exact hawake
  · exact hawake
  · by_cases hx : x = p
    · subst hx
      rw [setProc_proc_self, hself]
      exact .slept h _
    · rw [setProc_proc_of_ne s' _ hx, hother x hx]
      exact .same s l x

theorem slotStep_resumed : SlotStep s l x ((s.resumed b c p).proc x) := by
  unfold resumed
  split
  · exact .same s l x
  · exact .of_setProc (f := fun z => { z with chan := none }) (.awake h)
  · exact slotStep_waitBody_awake h _

/-- Setting a running or dying process apart, `exit` only drifts. -/
theorem slotStep_exit : SlotStep s (.exit c p) x ((s.exit b c p).proc x) := by
  have hd := drift_exitDrift s b p
  change SlotStep s (.exit c p) x (((s.exitDrift b p).setProc p fun y =>
    { y with state := .zombie, etime := toInt32 (s.exitDrift b p).ticks }).proc x)
  by_cases hx : x = p
  · subst hx
    rw [setProc_proc_self, hd.proc x, hd.ticks]
    exact .exited c rfl h _
  · rw [setProc_proc_of_ne _ _ hx]
    exact .of_drift hd

end

theorem slotStep_kill {q : Slot} {pid : ℤ} :
    SlotStep s (.kill c q pid) x ((s.kill b pid).proc x) := by
  unfold kill
  split
  · exact .same s _ x
  · next p hp =>
    dsimp only
    by_cases hx : x = p
    · subst hx
      split
      · next hsleep =>
        rw [setProc_proc_self] at hsleep
        change SlotStep s _ x ((setProc (s.setProc x _) x fun y =>
          { y with state := .runnable }).proc x)
        rw [setProc_proc_self, setProc_proc_self]
        exact .killed c q pid rfl hp ⟨rfl, Or.inr ⟨hsleep, rfl⟩⟩
      · rw [setProc_proc_self]
        exact .killed c q pid rfl hp (.refl _)
    · split
      · change SlotStep s _ x ((setProc (s.setProc p _) p fun y =>
          { y with state := .runnable }).proc x)
        rw [setProc_proc_of_ne _ _ hx, setProc_proc_of_ne _ _ hx]
        exact .same s _ x
      · rw [setProc_proc_of_ne _ _ hx]
        exact .same s _ x

theorem slotStep_setPriority {t : Thread} {priority pid : ℤ} :
    SlotStep s l x ((s.setPriority b t priority pid).proc x) := by
  unfold setPriority
  split
  · exact .same s l x
  · dsimp only
    split
    · exact .of_setProc (f := fun y => { y with priority }) (.priority priority)
    · exact .of_setProc (f := fun y => { y with priority }) (.priority priority)

theorem slotStep_alloc_failed {t : Thread} {np : Slot} (h : (s.proc np).state = .embryo)
    (hl : l = .allocKalloc c t np false ∨ l = .allocCopy c t np false) :
    SlotStep s l x (((s.setProc np fun y => { y with state := .unused }).setPc t .user).proc x) :=
  .of_setProc (f := fun y => { y with state := .unused }) (.failed c t hl h)

/-- The inversion lemma: every label changes every slot in one of the ways
listed. -/
theorem slotStep_next (hok : s.Ok) (enabled : s.Enabled l) (b : Build) (x : Slot) :
    SlotStep s l x ((s.next b l).proc x) := by
  cases l with
  | userinit np =>
    exact .of_setProc (f := fun y => { y with state := .embryo, pid := s.nextpid })
      (.found (Or.inl rfl) (unusedSlot_spec enabled.2.2))
  | fork c p np =>
    exact .of_setProc (f := fun y => { y with state := .embryo, pid := s.nextpid })
      (.found (Or.inr ⟨c, p, rfl⟩) (unusedSlot_spec enabled.2.2))
  | allocKalloc c t np ok =>
    have hemb : (s.proc np).state = .embryo := TableOk.owns hok t _ np enabled.2.1
    cases ok with
    | true => exact .same s _ x
    | false => exact slotStep_alloc_failed hemb (Or.inl rfl)
  | allocCtime c t np =>
    exact .of_setProc (f := fun y => { y with ctime := toInt32 s.ticks })
      (.ctime c t rfl enabled.2.1 enabled.2.2)
  | allocInit c t np =>
    have hstep : SlotStep s (.allocInit c t np) x ((s.setProc np fun y =>
        { y with etime := 0, rtime := 0, iotime := 0, nRun := 0, priority := 60 }).proc x) :=
      .of_setProc (.init c t rfl enabled.2)
    change SlotStep s _ x ((s.allocInit b t np).proc x)
    unfold allocInit
    dsimp only
    split <;> exact hstep
  | allocCopy c t np ok =>
    have hemb : (s.proc np).state = .embryo := TableOk.owns hok t _ np enabled.2.1
    change SlotStep s _ x ((s.allocCopy t np ok).proc x)
    cases ok with
    | false => exact slotStep_alloc_failed hemb (Or.inr rfl)
    | true =>
      unfold allocCopy
      simp only [if_true]
      split
      · exact .same s _ x
      · exact .drift ((drift_setParent s np t).drifted x)
  | forkPublish c p np =>
    exact .of_setProc (f := fun y => { y with state := .runnable })
      (.published (some p) (Or.inl ⟨c, p, rfl⟩) enabled.2)
  | userinitPublish np =>
    exact .of_setProc (f := fun y => { y with state := .runnable })
      (.published none (Or.inr rfl) enabled.2)
  | exit c p => exact slotStep_exit (hok.running enabled.1.1 enabled.1.2.1)
  | wait c p w => exact slotStep_waitBody (hok.running enabled.1.1 enabled.1.2.1) w
  | waitxStore c p child pid => exact .same s _ x
  | kill c p pid => exact slotStep_kill
  | trapKill c p =>
    exact .of_setProc (f := fun y => { y with killed := true })
      (.trapKilled (hok.running enabled.1.1 enabled.1.2.1))
  | setPriority c p priority pid => exact slotStep_setPriority
  | yield c p =>
    exact slotStep_yield (s := s) (c := c) (hok.running enabled.1.1 enabled.1.2.1)
  | sleep c p chan => exact slotStep_goToSleep (hok.running enabled.1.1 enabled.1.2.1) _ _
  | wakeup chan => exact .of_drift (drift_wakeup1 s b _)
  | schedule c => exact slotStep_schedule
  | resumed c p =>
    exact slotStep_resumed (TableOk.running hok c p enabled.2 (by simp [enabled.1]))
  | back c p => exact slotStep_schedBack
  | timerTrap c p =>
    have hrun := hok.running enabled.1 enabled.2.1
    change SlotStep s _ x ((s.timerTrap b c p).proc x)
    unfold timerTrap
    cases b with
    | mlfq =>
      dsimp only
      split
      · exact slotStep_yield (s := s) (c := c) hrun
      · exact .same s _ x
    | fcfs => exact .same s _ x
    | rr | pbs => exact slotStep_yield hrun
  | tickInc => exact .same s _ x
  | tickAccount => exact .ticked (Or.inl rfl) (.refl _)
  | tickWake =>
    exact .drift ((drift_wakeup1 s b (some .ticks)).drifted x)
  | tick =>
    exact .ticked (Or.inr rfl)
      ((drift_wakeup1 s.tickInc.tickAccount b (some .ticks)).drifted x)

/-! ## Threads -/

/-- How label `l` may move thread `t` between `s` and `s'`. -/
inductive PcStep (s s' : State) (l : Label) (t : Thread) : Prop
  | same (hpc : s'.pc t = s.pc t) (hreaped : s'.ghost.reaped t = s.ghost.reaped t)
  /-- To a place where it neither owns a slot nor has times to read. -/
  | away (hstore : ∀ p pid, s'.pc t ≠ .waitxStore p pid)
      (halloc : ∀ stage np, s'.pc t ≠ .alloc stage np)
  /-- `allocproc` takes a slot. -/
  | found (np : Slot) (h : (s.proc np).state = .unused) (hpc : s'.pc t = .alloc .kalloc np)
  /-- `fork` or `userinit` goes on with its slot. -/
  | kalloc (np : Slot) (h : s.pc t = .alloc .kalloc np) (hpc : s'.pc t = .alloc .ctime np)
  | ctime (c : Cpu) (np : Slot) (hl : l = .allocCtime c t np) (h : s.pc t = .alloc .ctime np)
      (hpc : s'.pc t = .alloc .init np)
  | init (c : Cpu) (np : Slot) (hl : l = .allocInit c t np) (h : s.pc t = .alloc .init np)
      (hpc : s'.pc t = .alloc .copy np)
  | copy (np : Slot) (h : s.pc t = .alloc .copy np) (hpc : s'.pc t = .alloc .publish np)
  /-- `waitx` has freed a child. -/
  | reaped (child : Slot) (h : (s.proc child).state = .zombie)
      (hfreed : s'.proc child = (s.proc child).freed)
      (hpc : s'.pc t = .waitxStore child (s.proc child).pid)
      (hreaped : s'.ghost.reaped t = s.ghost.obituary child)

/-- A step moves thread `t₀` in one of the ways listed, and no other thread. -/
theorem PcStep.of_setPc {s' : State} (t₀ : Thread) {x : Pc}
    (hpc : s'.pc = update s.pc t₀ x)
    (hreaped : s'.ghost.reaped = s.ghost.reaped)
    (h : s'.pc t₀ = x → PcStep s s' l t₀) : PcStep s s' l t := by
  by_cases ht : t = t₀
  · subst ht
    exact h (by rw [hpc, update_self])
  · exact .same (by rw [hpc, update_of_ne ht]) (by rw [hreaped])

theorem PcStep.of_away {s' : State} (h : s'.pc t = .user ∨ s'.pc t = .yield) :
    PcStep s s' l t := by
  rcases h with h | h <;> exact .away (by simp [h]) (by simp [h])

theorem pcStep_waitBody (s₀ : State) (hproc : ∀ x, (s₀.proc x).state = .zombie →
      s.proc x = s₀.proc x) (hzombie : ∀ x, (s.proc x).state = (s₀.proc x).state)
    (hpc : s.pc = s₀.pc) (hghost : s.ghost = s₀.ghost) (x : Bool) :
    PcStep s₀ (s.waitBody b c p x) l t := by
  unfold waitBody
  split
  · next child hchild =>
    have hz : (s₀.proc child).state = .zombie := by
      rw [← hzombie child]
      exact (zombieChild_spec hchild).2
    have hsame := hproc child hz
    cases x with
    | false => exact .same (congrFun hpc t) (by rw [← hghost]; rfl)
    | true =>
      by_cases ht : t = some p
      · subst ht
        refine .reaped child hz ?_ ?_ ?_
        · rw [← hsame]
          exact setProc_proc_self s child Proc.freed
        · rw [← hsame]
          simp [setPc]
        · rw [← hghost]
          simp
      · refine .same ?_ ?_
        · simp [setPc, reap, queues, setProc, ht, hpc]
        · simp [ht, hghost]
  · split
    · exact .same (congrFun hpc t) (by rw [← hghost])
    · exact .same (congrFun hpc t) (by rw [← hghost]; rfl)

/-- The inversion lemma for threads. -/
theorem pcStep_next (hok : s.Ok) (enabled : s.Enabled l) (b : Build) (t : Thread) :
    PcStep s (s.next b l) l t := by
  cases l with
  | userinit np =>
    refine .of_setPc none rfl rfl fun hpc => ?_
    exact .found np (unusedSlot_spec enabled.2.2) hpc
  | fork c p np =>
    refine .of_setPc (some p) rfl rfl fun hpc => ?_
    exact .found np (unusedSlot_spec enabled.2.2) hpc
  | allocKalloc c t₀ np ok =>
    cases ok with
    | true =>
      refine .of_setPc t₀ rfl rfl fun hpc => ?_
      exact .kalloc np enabled.2.1 hpc
    | false => exact .of_setPc t₀ rfl rfl fun hpc => .of_away (Or.inl hpc)
  | allocCtime c t₀ np =>
    refine .of_setPc t₀ rfl rfl fun hpc => ?_
    exact .ctime c np rfl enabled.2.1 hpc
  | allocInit c t₀ np =>
    have hpc : (s.next b (.allocInit c t₀ np)).pc =
        update s.pc t₀ (.alloc .copy np) := by
      rw [State.next, allocInit]
      split <;> rfl
    refine .of_setPc t₀ hpc (by rw [State.next, allocInit_frame]) fun hpc => ?_
    exact .init c np rfl enabled.2 hpc
  | allocCopy c t₀ np ok =>
    cases ok with
    | true =>
      have hpc : (s.next b (.allocCopy c t₀ np true)).pc =
          update s.pc t₀ (.alloc .publish np) := by
        rw [State.next, allocCopy]
        simp only [if_true]
        split <;> rfl
      refine .of_setPc t₀ hpc (by rw [State.next, allocCopy_frame]) fun hpc => ?_
      exact .copy np enabled.2.1 hpc
    | false => exact .of_setPc t₀ rfl rfl fun hpc => .of_away (Or.inl hpc)
  | forkPublish c p np => exact .of_setPc (some p) rfl rfl fun hpc => .of_away (Or.inl hpc)
  | userinitPublish np => exact .of_setPc none rfl rfl fun hpc => .of_away (Or.inl hpc)
  | waitxStore c p child pid =>
    exact .of_setPc (some p) rfl rfl fun hpc => .of_away (Or.inl hpc)
  | yield c p => exact .of_setPc (some p) rfl rfl fun hpc => .of_away (Or.inl hpc)
  | setPriority c p priority pid =>
    rw [State.next, setPriority]
    split
    · exact .same rfl rfl
    · dsimp only
      split
      · exact .of_setPc (some p) rfl rfl fun hpc => .of_away (Or.inr hpc)
      · exact .same rfl rfl
  | exit c p =>
    rw [State.next, exit_frame]
    exact .same rfl rfl
  | wait c p x => exact pcStep_waitBody s (fun _ _ => rfl) (fun _ => rfl) rfl rfl x
  | resumed c p =>
    have hrun : (s.proc p).state = .running :=
      TableOk.running hok c p enabled.2 (by simp [enabled.1])
    rw [State.next, resumed]
    split
    · exact .same rfl rfl
    · exact .same rfl rfl
    · refine pcStep_waitBody s (s := s.setProc p fun y => { y with chan := none })
        ?_ ?_ rfl rfl _
      · grind [setProc_proc_of_ne]
      · grind [setProc_proc_self, setProc_proc_of_ne]
  | kill c p pid =>
    rw [State.next, kill_frame]
    exact .same rfl rfl
  | wakeup chan =>
    rw [State.next, wakeup1_frame]
    exact .same rfl rfl
  | schedule c =>
    rw [State.next, schedule_frame]
    exact .same rfl rfl
  | back c p =>
    rw [State.next, schedBack_frame]
    exact .same rfl rfl
  | timerTrap c p =>
    rw [State.next, timerTrap_frame]
    exact .same rfl rfl
  | tickWake =>
    rw [State.next, tickWake, wakeup1_frame]
    exact .same rfl rfl
  | tick =>
    rw [State.next, tickWake, wakeup1_frame]
    exact .same rfl rfl
  | trapKill c p | sleep c p chan | tickInc | tickAccount => exact .same rfl rfl

/-- How label `l` may move the clock. -/
inductive ClockStep (s : State) (l : Label) (s' : State) : Prop
  | same (haccount : l ≠ .tickAccount) (htick : l ≠ .tick) (h : s'.ticks = s.ticks)
      (hphase : s'.tick = s.tick) (hcount : s'.ghost.tickCount = s.ghost.tickCount)
  | inc (hl : l = .tickInc) (hidle : s.tick = .idle) (h : s'.ticks = (s.ticks + 1) % 2 ^ 32)
      (hphase : s'.tick = .account) (hcount : s'.ghost.tickCount = s.ghost.tickCount + 1)
  | account (hl : l = .tickAccount) (hacc : s.tick = .account) (h : s'.ticks = s.ticks)
      (hphase : s'.tick = .wake) (hcount : s'.ghost.tickCount = s.ghost.tickCount)
  | wake (hl : l = .tickWake) (hwake : s.tick = .wake) (h : s'.ticks = s.ticks)
      (hphase : s'.tick = .idle) (hcount : s'.ghost.tickCount = s.ghost.tickCount)
  | tick (hl : l = .tick) (hidle : s.tick = .idle) (h : s'.ticks = (s.ticks + 1) % 2 ^ 32)
      (hphase : s'.tick = .idle) (hcount : s'.ghost.tickCount = s.ghost.tickCount + 1)

/-- The inversion lemma for the clock. -/
theorem clockStep_next (enabled : s.Enabled l) (b : Build) : ClockStep s l (s.next b l) := by
  have hleaves := next_leaves s b l
  cases l with
  | tickInc => exact .inc rfl enabled.2.1 rfl rfl rfl
  | tickAccount => exact .account rfl enabled.2 rfl rfl rfl
  | tickWake =>
    refine .wake rfl enabled.2 ?_ rfl ?_
    · rw [next, tickWake, wakeup1_frame]
    · rw [next, tickWake, wakeup1_frame]
  | tick =>
    refine .tick rfl enabled.2.1 ?_ rfl ?_
    · rw [next, tickWake, wakeup1_frame]
      rfl
    · rw [next, tickWake, wakeup1_frame]
      rfl
  | _ =>
    obtain ⟨hticks, hphase, hcount⟩ := hleaves.clock (by simp) (by simp) (by simp) (by simp)
    exact .same (by simp) (by simp) hticks hphase hcount

/-- How label `l` of build `b` may change the history variables. -/
inductive GhostStep (b : Build) (s : State) (l : Label) (s' : State) : Prop
  | same (h : s'.ghost = s.ghost)
  | found (np : Slot) (hl : l = .userinit np ∨ ∃ c q, l = .fork c q np)
      (h : s'.ghost = { s.ghost with
        allocs := s.ghost.allocs + 1, waited := update s.ghost.waited np 0 })
  | ctime (c : Cpu) (t : Thread) (np : Slot) (hl : l = .allocCtime c t np)
      (h : s'.ghost = { s.ghost with
        waitedSinceCtime := update s.ghost.waitedSinceCtime np 0 })
  | exited (c : Cpu) (p : Slot) (hl : l = .exit c p)
      (h : s'.ghost = { s.ghost with
        obituary := update s.ghost.obituary p (s'.proc p).obituary })
  | reaped (f : Thread → Obituary) (hl : (∃ c p x, l = .wait c p x) ∨ ∃ c p, l = .resumed c p)
      (h : s'.ghost = { s.ghost with reaped := f })
  | stored (c : Cpu) (p child : Slot) (pid : ℤ) (hl : l = .waitxStore c p child pid)
      (h : s'.ghost = { s.ghost with
        waitxLog := s.ghost.waitxLog ++
          [(⟨pid, (s.proc child).rtime, (s.proc child).wtime⟩, s.ghost.reaped (some p))] })
  /-- Only RR and PBS dispatch again when a process comes back. -/
  | dispatched (c : Cpu) (n : ℕ)
      (hl : l = .schedule c ∨ b ≠ .mlfq ∧ ∃ p, l = .back c p)
      (h : s'.ghost = { s.ghost with
        dispatches := update s.ghost.dispatches c n })
  | tickInc (hl : l = .tickInc)
      (h : s'.ghost = { s.ghost with tickCount := s.ghost.tickCount + 1 })
  | tickAccount (hl : l = .tickAccount) (h : s'.ghost = s.tickAccount.ghost)
  | tick (hl : l = .tick) (h : s'.ghost = s.tickInc.tickAccount.ghost)

theorem ghostStep_schedule (hl : l = .schedule c) : GhostStep b s l (s.schedule b c) := by
  unfold schedule
  cases b with
  | rr | fcfs | mlfq =>
    dsimp only
    split
    · exact .dispatched c _ (Or.inl hl) rfl
    · exact .same rfl
  | pbs =>
    dsimp only
    split
    · split
      · exact .dispatched c _ (Or.inl hl) rfl
      · exact .same rfl
    · exact .same rfl

theorem ghostStep_schedBack (hl : l = .back c p) : GhostStep b s l (s.schedBack b c p) := by
  unfold schedBack
  cases b with
  | fcfs => exact .same rfl
  | mlfq =>
    dsimp only
    split <;> exact .same rfl
  | rr =>
    dsimp only
    split
    · exact .dispatched c _ (Or.inr ⟨by simp, p, hl⟩) rfl
    · exact .same rfl
  | pbs =>
    dsimp only
    split
    · split
      · exact .dispatched c _ (Or.inr ⟨by simp, p, hl⟩) rfl
      · exact .same rfl
    · exact .same rfl

/-- The inversion lemma for the history variables. -/
theorem ghostStep_next (s : State) (b : Build) (l : Label) :
    GhostStep b s l (s.next b l) := by
  cases l with
  | userinit np => exact .found np (Or.inl rfl) rfl
  | fork c p np => exact .found np (Or.inr ⟨c, p, rfl⟩) rfl
  | allocCtime c t np => exact .ctime c t np rfl rfl
  | exit c p =>
    refine .exited c p rfl ?_
    have hd := drift_exitDrift s b p
    simp only [next, exit, setProc, hd.ghost]
  | wait c p x => exact .reaped _ (Or.inl ⟨c, p, x, rfl⟩) (by rw [next, waitBody_frame])
  | resumed c p => exact .reaped _ (Or.inr ⟨c, p, rfl⟩) (by rw [next, resumed_frame])
  | waitxStore c p child pid => exact .stored c p child pid rfl rfl
  | schedule c => exact ghostStep_schedule rfl
  | back c p => exact ghostStep_schedBack rfl
  | tickInc => exact .tickInc rfl rfl
  | tickAccount => exact .tickAccount rfl rfl
  | tick => exact .tick rfl (by rw [next, tickWake, wakeup1_frame])
  | tickWake => exact .same (by rw [next, tickWake, wakeup1_frame])
  | allocKalloc c t np ok => exact .same (by rw [next, allocKalloc_frame])
  | allocInit c t np => exact .same (by rw [next, allocInit_frame])
  | allocCopy c t np ok => exact .same (by rw [next, allocCopy_frame])
  | kill c p pid => exact .same (by rw [next, kill_frame])
  | setPriority c p priority pid => exact .same (by rw [next, setPriority_frame])
  | wakeup chan => exact .same (by rw [next, wakeup1_frame])
  | timerTrap c p => exact .same (by rw [next, timerTrap_frame])
  | forkPublish c p np | userinitPublish np | trapKill c p | yield c p | sleep c p chan =>
    exact .same rfl

end State

end Xv6.Ptable
