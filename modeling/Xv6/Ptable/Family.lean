/-
# Parents and children

Who is whose parent, and how a step changes it. `fork` sets the parent of a new
process while nobody else looks at the slot, `exit` hands children over to
`initproc`, and `wait` clears the parent of the child it collects. `FamilyStep`
lists these possibilities once, together with the changes of state that matter
to a parent; the invariants of the process tree are proved by cases over it.

`wakeup1` and the loop of `exit` are described exactly here: after them nobody
sleeps on the channel that was woken.
-/

import Xv6.Ptable.Steps

namespace Xv6.Ptable

open Xv6.Lib

namespace ProcState

/-- A process that can still run: `SLEEPING`, `RUNNABLE` or `RUNNING`. -/
def active : ProcState → Bool
  | .sleeping | .runnable | .running => true
  | _ => false

/-- A process that has been published and not been collected. -/
def live : ProcState → Bool
  | .sleeping | .runnable | .running | .zombie => true
  | _ => false

theorem live_of_active {x : ProcState} (h : x.active) : x.live := by
  cases x <;> first | rfl | cases h

end ProcState

namespace State

variable {s s' : State} {b : Build} {c : Cpu} {p x : Slot} {l : Label} {t : Thread}

/-- What `wakeup1(chan)` does to one process. -/
def woken (chan : Option Chan) (x : Proc) : Proc :=
  if x.state = .sleeping ∧ x.chan = chan then { x with state := .runnable } else x

theorem woken_woken (chan : Option Chan) (x : Proc) : woken chan (woken chan x) = woken chan x := by
  unfold woken
  split
  · simp
  · rfl

theorem wakeSlot_proc (b : Build) (chan : Option Chan) (s : State) (p : Slot) :
    (wakeSlot b chan s p).proc = Function.update s.proc p (woken chan (s.proc p)) := by
  unfold wakeSlot woken
  split
  · rfl
  · exact (Function.update_eq_self p s.proc).symm

theorem foldl_wakeSlot_proc (b : Build) (chan : Option Chan) (slots : List Slot) (s : State)
    (x : Slot) : (slots.foldl (wakeSlot b chan) s).proc x =
      if x ∈ slots then woken chan (s.proc x) else s.proc x := by
  induction slots generalizing s with
  | nil => rfl
  | cons p rest ih =>
    rw [List.foldl_cons, ih, wakeSlot_proc]
    by_cases hx : x = p
    · subst hx
      simp [woken_woken]
    · simp [hx]

/-- `wakeup1` wakes every sleeper on the channel and changes nobody else. -/
theorem wakeup1_proc (s : State) (b : Build) (chan : Option Chan) (x : Slot) :
    (s.wakeup1 b chan).proc x = woken chan (s.proc x) := by
  unfold wakeup1
  rw [foldl_wakeSlot_proc, if_pos (List.mem_finRange x)]

/-- Nobody sleeps on the channel. -/
def Awake (s : State) (chan : Option Chan) : Prop :=
  ∀ x, (s.proc x).state = .sleeping → (s.proc x).chan ≠ chan

theorem awake_wakeup1 (s : State) (b : Build) (chan : Option Chan) :
    (s.wakeup1 b chan).Awake chan := by
  intro x hsleep hchan
  rw [wakeup1_proc] at hsleep hchan
  unfold woken at hsleep hchan
  grind

/-- Waking and re-parenting put nobody to sleep. -/
theorem Drift.asleep (h : Drift s s') (hx : (s'.proc x).state = .sleeping) :
    (s.proc x).state = .sleeping ∧ (s'.proc x).chan = (s.proc x).chan := by
  grind [h.proc, h.state]

theorem Awake.drift {chan : Option Chan} (h : s.Awake chan) (hd : Drift s s') : s'.Awake chan := by
  intro x hsleep
  obtain ⟨hold, hchan⟩ := hd.asleep hsleep
  rw [hchan]
  exact h x hold

/-- The parent a process has after `cur` has exited. -/
def adopted (initproc : Option Slot) (cur : Slot) (parent : Option Slot) : Option Slot :=
  if parent = some cur then initproc else parent

theorem adopted_adopted (initproc : Option Slot) (cur : Slot) (parent : Option Slot) :
    adopted initproc cur (adopted initproc cur parent) = adopted initproc cur parent := by
  unfold adopted
  split
  · split <;> rfl
  · rfl

theorem wakeup1_parent (s : State) (b : Build) (chan : Option Chan) (x : Slot) :
    ((s.wakeup1 b chan).proc x).parent = (s.proc x).parent := by
  rw [wakeup1_proc]
  unfold woken
  split <;> rfl

theorem abandonSlot_parent (b : Build) (cur : Slot) (s : State) (p x : Slot) :
    ((abandonSlot b cur s p).proc x).parent =
      if x = p then adopted s.initproc cur (s.proc x).parent else (s.proc x).parent := by
  have hset : ((s.setProc p fun y => { y with parent := s.initproc }).proc x).parent =
      if x = p then s.initproc else (s.proc x).parent := by
    by_cases hx : x = p
    · subst hx
      simp
    · simp [setProc_proc_of_ne s _ hx, hx]
  unfold abandonSlot adopted
  grind [wakeup1_parent]

theorem foldl_abandonSlot_parent (b : Build) (cur : Slot) (slots : List Slot) (s : State)
    (x : Slot) : ((slots.foldl (abandonSlot b cur) s).proc x).parent =
      if x ∈ slots then adopted s.initproc cur (s.proc x).parent else (s.proc x).parent := by
  induction slots generalizing s with
  | nil => rfl
  | cons p rest ih =>
    rw [List.foldl_cons, ih, (drift_abandonSlot b cur s p).initproc, abandonSlot_parent]
    by_cases hx : x = p
    · subst hx
      simp [adopted_adopted]
    · simp [hx]

/-- `exit` hands exactly the children of `cur` to `initproc`. -/
theorem exitDrift_parent (s : State) (b : Build) (cur x : Slot) :
    ((s.exitDrift b cur).proc x).parent = adopted s.initproc cur (s.proc x).parent := by
  unfold exitDrift
  rw [foldl_abandonSlot_parent, if_pos (List.mem_finRange x), wakeup1_parent,
    (drift_wakeup1 s b _).initproc]

theorem drift_foldl_abandonSlot (b : Build) (cur : Slot) (slots : List Slot) (s : State) :
    Drift s (slots.foldl (abandonSlot b cur) s) :=
  foldl_induction (I := Drift s) (.refl s)
    (fun s' p h => h.trans (drift_abandonSlot b cur s' p)) slots

/-- The parent of the exiting process is awake afterwards. -/
theorem awake_exitDrift (s : State) (b : Build) (cur : Slot) :
    (s.exitDrift b cur).Awake ((s.proc cur).parent.map .proc) := by
  unfold exitDrift
  exact (awake_wakeup1 s b _).drift (drift_foldl_abandonSlot b cur _ _)

/-- Handing over a child that is already `ZOMBIE` wakes `initproc`. -/
theorem awake_foldl_abandonSlot (b : Build) (cur : Slot) (slots : List Slot) (s : State)
    (hx : x ∈ slots) (hparent : (s.proc x).parent = some cur)
    (hzombie : (s.proc x).state = .zombie) :
    (slots.foldl (abandonSlot b cur) s).Awake (s.initproc.map .proc) := by
  induction slots generalizing s with
  | nil => cases hx
  | cons p rest ih =>
    rw [List.foldl_cons]
    by_cases hp : x = p
    · subst hp
      have hawake : (abandonSlot b cur s x).Awake (s.initproc.map .proc) := by
        unfold abandonSlot
        rw [if_pos hparent]
        dsimp only
        rw [if_pos (by rw [setProc_proc_self]; exact hzombie)]
        exact awake_wakeup1 _ b _
      exact hawake.drift (drift_foldl_abandonSlot b cur rest _)
    · have hd := drift_abandonSlot b cur s p
      have hmem : x ∈ rest := (List.mem_cons.mp hx).resolve_left hp
      have hkept : ((abandonSlot b cur s p).proc x).parent = some cur := by
        rw [abandonSlot_parent, if_neg hp, hparent]
      have hstate : ((abandonSlot b cur s p).proc x).state = .zombie := by
        rw [hd.state_of_ne_sleeping (by simp [hzombie]), hzombie]
      have := ih (abandonSlot b cur s p) hmem hkept hstate
      rwa [hd.initproc] at this

theorem awake_exitDrift_initproc (s : State) (b : Build) {cur : Slot}
    (hparent : (s.proc x).parent = some cur) (hzombie : (s.proc x).state = .zombie) :
    (s.exitDrift b cur).Awake (s.initproc.map .proc) := by
  have hd := drift_wakeup1 s b ((s.proc cur).parent.map .proc)
  have := awake_foldl_abandonSlot b cur (List.finRange NPROC)
    (s.wakeup1 b ((s.proc cur).parent.map .proc)) (List.mem_finRange x)
    (by rw [wakeup1_parent, hparent])
    (by rw [hd.state_of_ne_sleeping (by simp [hzombie]), hzombie])
  rw [hd.initproc] at this
  unfold exitDrift
  exact this

/-! ## What one step can do -/

/-- A change that leaves the family alone: same parent, a process that could run
still can, and nobody begins to sleep on a process. -/
structure Quiet (x y : Proc) : Prop where
  parent : y.parent = x.parent
  state : y.state = x.state ∨ x.state.active ∧ y.state.active
  chan : ∀ q, y.state = .sleeping → y.chan = some (.proc q) →
    x.state = .sleeping ∧ x.chan = some (.proc q)

theorem Quiet.refl (x : Proc) : Quiet x x := ⟨rfl, Or.inl rfl, fun _ h h' => ⟨h, h'⟩⟩

theorem Quiet.trans {x y z : Proc} (h : Quiet x y) (h' : Quiet y z) : Quiet x z := by
  refine ⟨h'.parent.trans h.parent, ?_, ?_⟩
  · grind [h.state, h'.state]
  · intro q hz hchan
    obtain ⟨hy, hychan⟩ := h'.chan q hz hchan
    exact h.chan q hy hychan

theorem Quiet.active {x y : Proc} (h : Quiet x y) (hx : x.state.active) : y.state.active := by
  rcases h.state with hsame | ⟨-, hy⟩
  · rw [hsame]
    exact hx
  · exact hy

theorem Quiet.live {x y : Proc} (h : Quiet x y) (hy : y.state.live) : x.state.live := by
  grind [h.state, ProcState.live_of_active]

/-- The members that are neither parent nor state nor channel do not matter. -/
theorem Quiet.of_eq {x y : Proc} (hparent : y.parent = x.parent) (hstate : y.state = x.state)
    (hchan : y.chan = x.chan ∨ y.chan = none) : Quiet x y := by
  refine ⟨hparent, Or.inl hstate, fun q hsleep hq => ?_⟩
  grind

theorem Quiet.of_active {x y : Proc} (hparent : y.parent = x.parent) (hx : x.state.active)
    (hy : y.state.active) (hsleep : y.state ≠ .sleeping) : Quiet x y :=
  ⟨hparent, Or.inr ⟨hx, hy⟩, fun _ h => absurd h hsleep⟩

/-- How label `l` between `s` and `s'` may change the family of slot `p`. -/
inductive FamilyStep (s : State) (l : Label) (s' : State) (p : Slot) : Prop
  | quiet (h : Quiet (s.proc p) (s'.proc p))
      (hkept : ∀ c cur, l = .exit c cur → (s.proc p).parent ≠ some cur ∧ p ≠ cur)
  /-- `allocproc` takes the slot. -/
  | found (hold : (s.proc p).state = .unused) (hnew : (s'.proc p).state = .embryo)
      (hparent : (s'.proc p).parent = (s.proc p).parent)
  /-- An allocation in `fork` failed. -/
  | failed (q : Slot) (stage : AllocStage) (hstage : stage ≠ .publish)
      (h : s.pc (some q) = .alloc stage p) (hnew : (s'.proc p).state = .unused)
      (hparent : (s'.proc p).parent = (s.proc p).parent)
  /-- `fork` sets the parent. -/
  | copied (c : Cpu) (q : Slot) (hl : l = .allocCopy c (some q) p true)
      (h : s.pc (some q) = .alloc .copy p)
      (hnew : s'.proc p = { s.proc p with parent := some q })
  /-- `fork` or `userinit` publishes the process. -/
  | published (t : Thread) (hl : (∃ c q, t = some q ∧ l = .forkPublish c q p) ∨
        t = none ∧ l = .userinitPublish p)
      (h : s.pc t = .alloc .publish p) (hnew : (s'.proc p).state = .runnable)
      (hparent : (s'.proc p).parent = (s.proc p).parent)
  /-- The process exits; its parent has been woken. -/
  | exited (c : Cpu) (hl : l = .exit c p) (hrun : (s.proc p).state = .running)
      (hnew : (s'.proc p).state = .zombie)
      (hparent : (s'.proc p).parent = adopted s.initproc p (s.proc p).parent)
      (hawake : s'.Awake ((s.proc p).parent.map .proc))
  /-- The parent exits; if the process is a zombie, `initproc` has been woken. -/
  | abandoned (c : Cpu) (cur : Slot) (hl : l = .exit c cur) (hne : p ≠ cur)
      (hold : (s.proc p).parent = some cur) (hparent : (s'.proc p).parent = s.initproc)
      (hstate : (s'.proc p).state = (s.proc p).state ∨
        (s.proc p).state = .sleeping ∧ (s'.proc p).state = .runnable)
      (hchan : (s'.proc p).chan = (s.proc p).chan)
      (hawake : (s.proc p).state = .zombie → s'.Awake (s.initproc.map .proc))
  /-- The parent collects the process. -/
  | reaped (c : Cpu) (cur : Slot) (hl : (∃ w, l = .wait c cur w) ∨ l = .resumed c cur)
      (hrun : (s.proc cur).state = .running) (hold : (s.proc p).parent = some cur)
      (hzombie : (s.proc p).state = .zombie) (hnew : s'.proc p = (s.proc p).freed)
  /-- The process has children, none of them `ZOMBIE`, and sleeps in `wait`. -/
  | waits (hrun : (s.proc p).state = .running) (hl : ∀ c cur, l ≠ .exit c cur)
      (hstate : (s'.proc p).state = .sleeping) (hchan : (s'.proc p).chan = some (.proc p))
      (hparent : (s'.proc p).parent = (s.proc p).parent)
      (hother : ∀ x, x ≠ p → s'.proc x = s.proc x)
      (hkids : ∃ x, (s.proc x).parent = some p)
      (hnone : ∀ x, (s.proc x).parent = some p → (s.proc x).state ≠ .zombie)

theorem FamilyStep.of_quiet (hl : ∀ c cur, l ≠ .exit c cur)
    (h : Quiet (s.proc p) (s'.proc p)) : FamilyStep s l s' p :=
  .quiet h fun c cur hexit => absurd hexit (hl c cur)

/-- A step that changes slot `p` only. -/
theorem FamilyStep.of_setProc {f : Proc → Proc} (hl : ∀ c cur, l ≠ .exit c cur)
    (hproc : s'.proc = (s.setProc p f).proc)
    (h : s'.proc p = f (s.proc p) → FamilyStep s l s' p) : FamilyStep s l s' x := by
  by_cases hx : x = p
  · subst hx
    exact h (by rw [hproc, setProc_proc_self])
  · refine .of_quiet hl ?_
    rw [hproc, setProc_proc_of_ne s f hx]
    exact .refl _

theorem Quiet.of_setProc {f : Proc → Proc} (h : Quiet (s.proc p) (f (s.proc p))) (x : Slot) :
    Quiet (s.proc x) ((s.setProc p f).proc x) := by
  by_cases hx : x = p
  · subst hx
    rw [setProc_proc_self]
    exact h
  · rw [setProc_proc_of_ne s f hx]
    exact .refl _

theorem quiet_woken (chan : Option Chan) (x : Proc) : Quiet x (woken chan x) := by
  unfold woken
  split
  · next h =>
    refine .of_active rfl ?_ rfl nofun
    rw [h.1]
    rfl
  · exact .refl x

theorem quiet_dispatch (h : (s.proc p).state = .runnable) (hp : Option Slot) (x : Slot) :
    Quiet (s.proc x) ((s.dispatch c p hp).proc x) := by
  refine Quiet.of_setProc (f := fun y => { y with nRun := y.nRun + 1, state := .running }) ?_ x
  refine .of_active rfl ?_ rfl nofun
  rw [h]
  rfl

theorem quiet_yield (h : (s.proc p).state = .running) (x : Slot) :
    Quiet (s.proc x) ((s.yield c p).proc x) := by
  refine Quiet.of_setProc (f := fun y => { y with state := .runnable }) ?_ x
  refine .of_active rfl ?_ rfl nofun
  rw [h]
  rfl

theorem quiet_goToSleep (h : (s.proc p).state = .running) {chan : Chan}
    (hchan : chan.isProc = false) (r : Resume) (x : Slot) :
    Quiet (s.proc x) ((s.goToSleep c p chan r).proc x) := by
  refine Quiet.of_setProc (f := fun y => y.asleep chan) ?_ x
  refine ⟨rfl, Or.inr ⟨?_, rfl⟩, ?_⟩
  · rw [h]
    rfl
  · intro q _ hq
    cases hq
    cases hchan

theorem quiet_schedule (x : Slot) : Quiet (s.proc x) ((s.schedule b c).proc x) := by
  unfold schedule
  cases b with
  | rr =>
    dsimp only
    split
    · next p hp => exact quiet_dispatch (rrNext_spec hp).2 _ x
    · exact .refl _
  | fcfs =>
    dsimp only
    split
    · next p hp => exact quiet_dispatch (fcfsPick_spec hp) _ x
    · exact .refl _
  | pbs =>
    dsimp only
    split
    · split
      · next p hp => exact quiet_dispatch (pbsNext_spec hp).2 _ x
      · exact .refl _
    · exact .refl _
  | mlfq =>
    dsimp only
    split
    · next i p hp =>
      exact quiet_dispatch (s := s) (c := c) (pickHead_spec (s := s) hp) none x
    · exact .refl _

theorem quiet_schedBack (x : Slot) : Quiet (s.proc x) ((s.schedBack b c p).proc x) := by
  unfold schedBack
  cases b with
  | rr =>
    dsimp only
    split
    · next p' hp => exact quiet_dispatch (rrNext_spec hp).2 _ x
    · exact .refl _
  | fcfs => exact .refl _
  | pbs =>
    dsimp only
    split
    · split
      · next p' hp => exact quiet_dispatch (pbsNext_spec hp).2 _ x
      · exact .refl _
    · exact .refl _
  | mlfq =>
    dsimp only
    split <;> exact .refl _

theorem quiet_kill (pid : ℤ) (x : Slot) : Quiet (s.proc x) ((s.kill b pid).proc x) := by
  unfold kill
  split
  · exact .refl _
  · next p _ =>
    have hmark : ∀ x, Quiet (s.proc x)
        ((s.setProc p fun y => { y with killed := true }).proc x) :=
      Quiet.of_setProc (.of_eq rfl rfl (Or.inl rfl))
    dsimp only
    split
    · next hsleep =>
      refine (hmark x).trans
        (Quiet.of_setProc (f := fun y => { y with state := .runnable }) ?_ x)
      refine .of_active rfl ?_ rfl nofun
      rw [hsleep]
      rfl
    · exact hmark x

theorem quiet_setPriority (t : Thread) (priority pid : ℤ) (x : Slot) :
    Quiet (s.proc x) ((s.setPriority b t priority pid).proc x) := by
  unfold setPriority
  split
  · exact .refl _
  · next p _ =>
    have hset := Quiet.of_setProc (s := s) (p := p) (f := fun y => { y with priority })
      (.of_eq rfl rfl (Or.inl rfl)) x
    dsimp only
    split <;> exact hset

theorem quiet_tickProc (x : Proc) : Quiet x (tickProc x) := by
  refine .of_eq ?_ (tickProc_state x) (Or.inl ?_)
  · unfold tickProc
    split <;> rfl
  · unfold tickProc
    split <;> rfl

theorem quiet_timerTrap (h : (s.proc p).state = .running) (x : Slot) :
    Quiet (s.proc x) ((s.timerTrap b c p).proc x) := by
  unfold timerTrap
  cases b with
  | mlfq =>
    dsimp only
    split
    · exact quiet_yield (s := s) (c := c) h x
    · exact .refl _
  | fcfs => exact .refl _
  | rr | pbs => exact quiet_yield h x

theorem zombieChild_eq_none {cur : Slot} (h : s.zombieChild cur = none)
    (hx : (s.proc x).parent = some cur) : (s.proc x).state ≠ .zombie := by
  have := List.find?_eq_none.mp h x (List.mem_finRange x)
  simpa [hx] using this

theorem exists_of_haveKids {cur : Slot} (h : s.haveKids cur = true) :
    ∃ x, (s.proc x).parent = some cur := by
  simpa [haveKids] using h

/-- A scan of `wait`, in terms of the family. `s₀` is the table when the process
was switched to; the scan runs with its own channel cleared. -/
theorem familyStep_waitBody (s₀ : State) (hl : (∃ w, l = .wait c p w) ∨ l = .resumed c p)
    (hrun : (s₀.proc p).state = .running) (hquiet : Quiet (s₀.proc p) (s.proc p))
    (hself : (s.proc p).state = .running) (hother : ∀ y, y ≠ p → s.proc y = s₀.proc y)
    (w : Bool) (x : Slot) : FamilyStep s₀ l (s.waitBody b c p w) x := by
  have hexit : ∀ c cur, l ≠ .exit c cur := by
    intro c cur hexit
    rcases hl with ⟨w, hl⟩ | hl <;> rw [hl] at hexit <;> cases hexit
  have hstay : ∀ {s' : State}, s'.proc x = s.proc x → FamilyStep s₀ l s' x := by
    intro s' hs'
    refine .of_quiet hexit ?_
    rw [hs']
    by_cases hx : x = p
    · subst hx
      exact hquiet
    · rw [hother x hx]
      exact .refl _
  have hparent : ∀ y, (s.proc y).parent = (s₀.proc y).parent := by
    intro y
    by_cases hy : y = p
    · subst hy
      exact hquiet.parent
    · rw [hother y hy]
  unfold waitBody
  split
  · next child hchild =>
    obtain ⟨hcur, hzombie⟩ := zombieChild_spec hchild
    have hne : child ≠ p := by
      rintro rfl
      rw [hself] at hzombie
      cases hzombie
    have hproc : ∀ {s' : State}, s'.proc = (s.setProc child Proc.freed).proc →
        FamilyStep s₀ l s' x := by
      intro s' hs'
      by_cases hx : x = child
      · subst hx
        rw [hother x hne] at hcur hzombie
        refine .reaped c p hl hrun hcur hzombie ?_
        rw [hs', setProc_proc_self, hother x hne]
      · refine hstay ?_
        rw [hs', setProc_proc_of_ne s _ hx]
    dsimp only
    split
    · exact hproc rfl
    · exact hproc rfl
  · next hnone =>
    split
    · exact hstay rfl
    · next hkids =>
      by_cases hx : x = p
      · subst hx
        have hgone : (s.goToSleep c x (.proc x) (.wait w)).proc x =
            (s.proc x).asleep (.proc x) :=
          setProc_proc_self s x fun y => y.asleep (.proc x)
        refine .waits hrun hexit (by rw [hgone]; rfl) (by rw [hgone]; rfl)
          (by rw [hgone]; exact hparent x) ?_ ?_ ?_
        · intro y hy
          rw [← hother y hy]
          exact setProc_proc_of_ne s (fun z => z.asleep (.proc x)) hy
        · grind [exists_of_haveKids]
        · grind [zombieChild_eq_none]
      · exact hstay (setProc_proc_of_ne s (fun y => y.asleep (.proc p)) hx)

theorem familyStep_resumed (hrun : (s.proc p).state = .running) (x : Slot) :
    FamilyStep s (.resumed c p) (s.resumed b c p) x := by
  have hclear : ∀ y, Quiet (s.proc y) ((s.setProc p fun z => { z with chan := none }).proc y) :=
    Quiet.of_setProc (.of_eq rfl rfl (Or.inr rfl))
  unfold resumed
  split
  · exact .of_quiet nofun (.refl _)
  · exact .of_quiet nofun (hclear x)
  · grind [familyStep_waitBody, setProc_proc_self, setProc_proc_of_ne]

/-- `exit`: the process becomes `ZOMBIE`, its children go to `initproc`, and
everybody else is at most woken. -/
theorem familyStep_exit {cur : Slot} (hrun : (s.proc cur).state = .running) (x : Slot) :
    FamilyStep s (.exit c cur) (s.exit b c cur) x := by
  have hd := drift_exitDrift s b cur
  let dead : Proc → Proc := fun y =>
    { y with state := .zombie, etime := toInt32 (s.exitDrift b cur).ticks }
  have hself : (s.exit b c cur).proc cur = dead ((s.exitDrift b cur).proc cur) :=
    setProc_proc_self (s.exitDrift b cur) cur dead
  have hother : ∀ y, y ≠ cur → (s.exit b c cur).proc y = (s.exitDrift b cur).proc y :=
    fun y hy => setProc_proc_of_ne (s.exitDrift b cur) dead hy
  have hawake : ∀ {chan : Option Chan}, (s.exitDrift b cur).Awake chan →
      (s.exit b c cur).Awake chan := by
    intro chan h y hsleep
    by_cases hy : y = cur
    · subst hy
      rw [hself] at hsleep
      cases hsleep
    · rw [hother y hy] at hsleep ⊢
      exact h y hsleep
  by_cases hx : x = cur
  · subst hx
    refine .exited c rfl hrun (by rw [hself]) ?_ (hawake (awake_exitDrift s b x))
    rw [hself]
    exact exitDrift_parent s b x x
  · have hproc := hother x hx
    have hparent := exitDrift_parent s b cur x
    by_cases hchild : (s.proc x).parent = some cur
    · refine .abandoned c cur rfl hx hchild ?_ ?_ ?_ ?_
      · rw [hproc, hparent, adopted, if_pos hchild]
      · rw [hproc]
        exact hd.state x
      · rw [hproc, hd.proc x]
      · exact fun hzombie => hawake (awake_exitDrift_initproc s b hchild hzombie)
    · refine .quiet ⟨?_, ?_, ?_⟩ ?_
      · rw [hproc, hparent, adopted, if_neg hchild]
      · rw [hproc]
        rcases hd.state x with hsame | ⟨hsleep, hwake⟩
        · exact Or.inl hsame
        · rw [hsleep, hwake]
          exact Or.inr ⟨rfl, rfl⟩
      · intro q hsleep hchan
        rw [hproc] at hsleep hchan
        obtain ⟨hold, hsame⟩ := hd.asleep hsleep
        exact ⟨hold, hsame ▸ hchan⟩
      · intro c' cur' hl
        cases hl
        exact ⟨hchild, hx⟩

/-- The inversion lemma for families. -/
theorem familyStep_next (hok : s.Ok) (enabled : s.Enabled l) (b : Build) (x : Slot) :
    FamilyStep s l (s.next b l) x := by
  cases l with
  | userinit np =>
    refine .of_setProc (p := np) (f := fun y => { y with state := .embryo, pid := s.nextpid })
      (by simp) rfl fun hnew => ?_
    exact .found (unusedSlot_spec enabled.2.2) (by rw [hnew]) (by rw [hnew])
  | fork c p np =>
    refine .of_setProc (p := np) (f := fun y => { y with state := .embryo, pid := s.nextpid })
      (by simp) rfl fun hnew => ?_
    exact .found (unusedSlot_spec enabled.2.2) (by rw [hnew]) (by rw [hnew])
  | allocKalloc c t np ok =>
    cases ok with
    | true => exact .of_quiet (by simp) (.refl _)
    | false =>
      refine .of_setProc (p := np) (f := fun y => { y with state := .unused })
        (by simp) rfl fun hnew => ?_
      cases t with
      | none => cases enabled.2.2 rfl
      | some q => exact .failed q .kalloc (by simp) enabled.2.1 (by rw [hnew]) (by rw [hnew])
  | allocCtime c t np =>
    have hquiet := Quiet.of_setProc (s := s) (p := np)
      (f := fun y => { y with ctime := toInt32 s.ticks }) (.of_eq rfl rfl (Or.inl rfl)) x
    exact .of_quiet (by simp) hquiet
  | allocInit c t np =>
    have hquiet := Quiet.of_setProc (s := s) (p := np) (f := fun y =>
      { y with etime := 0, rtime := 0, iotime := 0, nRun := 0, priority := 60 })
      (.of_eq rfl rfl (Or.inl rfl)) x
    refine .of_quiet (by simp) ?_
    change Quiet _ ((s.allocInit b t np).proc x)
    unfold allocInit
    dsimp only
    split <;> exact hquiet
  | allocCopy c t np ok =>
    cases ok with
    | true =>
      cases t with
      | none => exact .of_quiet (by simp) (.refl _)
      | some q =>
        exact .of_setProc (p := np) (f := fun y => { y with parent := some q })
          (by simp) rfl fun hnew => .copied c q rfl enabled.2.1 hnew
    | false =>
      refine .of_setProc (p := np) (f := fun y => { y with state := .unused })
        (by simp) rfl fun hnew => ?_
      cases t with
      | none => cases enabled.2.2 rfl
      | some q => exact .failed q .copy (by simp) enabled.2.1 (by rw [hnew]) (by rw [hnew])
  | forkPublish c p np =>
    refine .of_setProc (p := np) (f := fun y => { y with state := .runnable })
      (by simp) rfl fun hnew => ?_
    exact .published (some p) (Or.inl ⟨c, p, rfl, rfl⟩) enabled.2 (by rw [hnew]) (by rw [hnew])
  | userinitPublish np =>
    refine .of_setProc (p := np) (f := fun y => { y with state := .runnable })
      (by simp) rfl fun hnew => ?_
    exact .published none (Or.inr ⟨rfl, rfl⟩) enabled.2 (by rw [hnew]) (by rw [hnew])
  | exit c p => exact familyStep_exit (hok.running enabled.1.1 enabled.1.2.1) x
  | wait c p w =>
    have hrun := hok.running enabled.1.1 enabled.1.2.1
    exact familyStep_waitBody s (Or.inl ⟨w, rfl⟩) hrun (.refl _) hrun (fun _ _ => rfl) w x
  | kill c p pid => exact .of_quiet (by simp) (quiet_kill pid x)
  | trapKill c p =>
    exact .of_quiet (by simp) (Quiet.of_setProc (f := fun y => { y with killed := true })
      (.of_eq rfl rfl (Or.inl rfl)) x)
  | setPriority c p priority pid => exact .of_quiet (by simp) (quiet_setPriority _ priority pid x)
  | yield c p =>
    exact .of_quiet (by simp)
      (quiet_yield (s := s) (c := c) (hok.running enabled.1.1 enabled.1.2.1) x)
  | sleep c p chan =>
    exact .of_quiet (by simp)
      (quiet_goToSleep (hok.running enabled.1.1 enabled.1.2.1) enabled.2.2.1 _ x)
  | wakeup chan =>
    refine .of_quiet (by simp) ?_
    rw [State.next, wakeup1_proc]
    exact quiet_woken _ _
  | schedule c => exact .of_quiet (by simp) (quiet_schedule x)
  | resumed c p =>
    exact familyStep_resumed (TableOk.running hok c p enabled.2 (by simp [enabled.1])) x
  | back c p => exact .of_quiet (by simp) (quiet_schedBack x)
  | timerTrap c p =>
    exact .of_quiet (by simp) (quiet_timerTrap (hok.running enabled.1 enabled.2.1) x)
  | waitxStore c p child pid => exact .of_quiet (by simp) (.refl _)
  | tickInc => exact .of_quiet (by simp) (.refl _)
  | tickAccount => exact .of_quiet (by simp) (quiet_tickProc _)
  | tickWake =>
    refine .of_quiet (by simp) ?_
    change Quiet _ ((s.wakeup1 b (some .ticks)).proc x)
    rw [wakeup1_proc]
    exact quiet_woken _ _
  | tick =>
    refine .of_quiet (by simp) ?_
    change Quiet _ ((s.tickInc.tickAccount.wakeup1 b (some .ticks)).proc x)
    rw [wakeup1_proc]
    exact (quiet_tickProc _).trans (quiet_woken _ _)

end State

end Xv6.Ptable
