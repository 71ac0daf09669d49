/-
# Queue integrity of the MLFQ build

In every reachable state the queues hold exactly the runnable processes, except
for a process that is on its way out through `sched` with the lock held: its
state is already set, and the scheduler has not put it back yet. When the lock
is free there is no exception.

The invariant is proved label by label from what each queue operation does to
the set of queued processes; the pids that guard the duplicate checks are
distinct by the pid invariant.
-/

import Xv6.Ptable.Queues
import Xv6.Ptable.Pids

namespace Xv6.Ptable

open Function Xv6.Lib

namespace State

variable {s : State} {c : Cpu} {p : Slot} {l : Label}

/-- The process that has called `sched` and is not yet back in a queue. -/
def inHand (s : State) : Option Slot :=
  match s.lk with
  | .back c => s.procs c
  | _ => none

/-- The processes the queues have to hold. -/
def Queued (s : State) (p : Slot) : Prop :=
  (s.proc p).state = .runnable ∧ s.inHand ≠ some p

/-- The queues hold what they have to hold. -/
def QOk (s : State) : Prop := s.mlfq.QueuesOk s.Queued

theorem inHand_eq_none (h : ∀ c, s.lk ≠ .back c) : s.inHand = none := by
  unfold inHand
  split
  · next c hc => exact absurd hc (h c)
  · rfl

theorem queued_iff (h : s.inHand = none) : s.Queued p ↔ (s.proc p).state = .runnable := by
  simp [Queued, h]

theorem inHand_back (h : s.lk = .back c) : s.inHand = s.procs c := by
  simp only [inHand, h]

/-- Two live processes with the same pid are the same. -/
theorem PidOk.eq_of_pid (h : s.PidOk) {x : Slot} (hx : (s.proc x).state ≠ .unused)
    (hEq : (s.proc x).pid = (s.proc p).pid) : x = p :=
  h.inj x p hEq (h.pos x hx).ne'

/-- Queued processes have distinct pids. -/
theorem PidOk.queued_inj (h : s.PidOk) (x y : Slot) (hx : s.Queued x) (_ : s.Queued y)
    (hEq : s.pids x = s.pids y) : x = y :=
  h.eq_of_pid (by simp [hx.1]) hEq

theorem PidOk.queued_ne (h : s.PidOk) (hp : ¬ s.Queued p) (x : Slot) (hx : s.Queued x) :
    s.pids x ≠ s.pids p := by
  intro hEq
  have : x = p := h.eq_of_pid (by simp [hx.1]) hEq
  exact hp (this ▸ hx)

theorem PidOk.drift {s' : State} (h : s.PidOk) (hd : Drift s s') : s'.PidOk := by
  refine ⟨?_, ?_, ?_, ?_, ?_⟩
  · rw [hd.nextpid, hd.ghost]
    exact h.nextpid
  · intro x
    rw [hd.pid x]
    exact h.nonneg x
  · intro x
    rw [hd.pid x, hd.nextpid]
    exact h.lt x
  · intro x hx
    rw [hd.pid x]
    refine h.pos x fun hun => hx ?_
    rw [hd.state_of_ne_sleeping (by simp [hun]), hun]
  · intro x y
    rw [hd.pid x, hd.pid y]
    exact h.inj x y

theorem PidOk.setProc (h : s.PidOk) (f : Proc → Proc)
    (hpid : (f (s.proc p)).pid = (s.proc p).pid)
    (hstate : (f (s.proc p)).state = (s.proc p).state) : (s.setProc p f).PidOk := by
  have hpids : ∀ x, ((s.setProc p f).proc x).pid = (s.proc x).pid := by
    grind [setProc_proc_self, setProc_proc_of_ne]
  have hstates : (s.setProc p f).states = s.states := by
    rw [setProc_states, hstate]
    exact update_states_self s p
  refine ⟨h.nextpid, ?_, ?_, ?_, ?_⟩
  · exact fun x => by rw [hpids]; exact h.nonneg x
  · exact fun x => by rw [hpids]; exact h.lt x
  · intro x hx
    rw [hpids]
    exact h.pos x fun hun => hx ((congrFun hstates x).trans hun)
  · intro x y
    rw [hpids, hpids]
    exact h.inj x y

/-- The queues do not change and neither does what they have to hold. -/
theorem QOk.of_same {s' : State} (h : s.QOk) (hm : s'.mlfq = s.mlfq)
    (hq : ∀ x, s.Queued x ↔ s'.Queued x) : s'.QOk := by
  unfold QOk
  rw [hm]
  exact Mlfq.QueuesOk.congr h hq

/-- The same, when the table changes in members other than the state. -/
theorem QOk.of_states {s' : State} (h : s.QOk) (hm : s'.mlfq = s.mlfq)
    (hst : s'.states = s.states) (hhand : s'.inHand = s.inHand) : s'.QOk := by
  refine h.of_same hm fun x => ?_
  have : (s'.proc x).state = (s.proc x).state := congrFun hst x
  simp only [Queued, this, hhand]

/-- A slot changes between two states that are both not `RUNNABLE`. -/
theorem QOk.of_update {s' : State} (h : s.QOk) (hm : s'.mlfq = s.mlfq) {x : ProcState}
    (hst : s'.states = update s.states p x) (hhand : s'.inHand = s.inHand)
    (hold : (s.proc p).state ≠ .runnable) (hnew : x ≠ .runnable) : s'.QOk := by
  refine h.of_same hm fun y => ?_
  have hy : (s'.proc y).state = update s.states p x y := congrFun hst y
  by_cases hyp : y = p
  · subst hyp
    rw [update_self] at hy
    simp [Queued, hy, hold, hnew]
  · rw [update_of_ne hyp] at hy
    simp [Queued, hy, hhand, states]

/-- The process on processor `c` calls `sched` in whatever state: it was not
queued while it ran, and it is in hand afterwards. -/
theorem QOk.leave {s' : State} (h : s.QOk) (hm : s'.mlfq = s.mlfq) {x : ProcState}
    (hst : s'.states = update s.states p x) (hhand : s.inHand = none)
    (hhand' : s'.inHand = some p) (hrun : (s.proc p).state = .running) : s'.QOk := by
  refine h.of_same hm fun y => ?_
  have hy : (s'.proc y).state = update s.states p x y := congrFun hst y
  rw [queued_iff hhand]
  by_cases hyp : y = p
  · subst hyp
    simp [Queued, hhand', hrun]
  · rw [update_of_ne hyp] at hy
    simp [Queued, hy, hhand', Ne.symm hyp, states]

/-- A process becomes runnable and enters the queues. -/
theorem QOk.of_insert {s' : State} (hm : s'.mlfq.QueuesOk fun x => s.Queued x ∨ x = p)
    (hst : s'.states = update s.states p .runnable) (hhand : s.inHand = none)
    (hhand' : s'.inHand = none) : s'.QOk := by
  refine Mlfq.QueuesOk.congr hm fun x => ?_
  have hx : (s'.proc x).state = update s.states p .runnable x := congrFun hst x
  rw [queued_iff hhand, queued_iff hhand', hx]
  by_cases hxp : x = p
  · subst hxp
    simp
  · simp [hxp, states]

/-- Making a process runnable puts it into its queue. -/
theorem QOk.makeRunnable (h : s.QOk) (hpid : s.PidOk) (hhand : s.inHand = none)
    (hp : (s.proc p).state ≠ .runnable) : (s.makeRunnable .mlfq p).QOk := by
  have hnot : ¬ s.Queued p := fun hq => hp hq.1
  refine .of_insert (s := s) (p := p) ?_ ?_ hhand hhand
  · exact Mlfq.QueuesOk.enqueue h hnot (hpid.queued_ne hnot)
  · exact setProc_states s p fun x => { x with state := .runnable }

/-- The same for the first process. -/
theorem QOk.userinitPublish (h : s.QOk) (hpid : s.PidOk) (hhand : s.inHand = none)
    (hp : (s.proc p).state ≠ .runnable) : (s.userinitPublish .mlfq p).QOk := by
  have hnot : ¬ s.Queued p := fun hq => hp hq.1
  refine .of_insert (s := s) (p := p) ?_ ?_ hhand hhand
  · exact Mlfq.QueuesOk.enqueueFirst h hnot (hpid.queued_ne hnot)
  · exact setProc_states s p fun x => { x with state := .runnable }

/-- What the loops of `wakeup1` and `exit` carry along. -/
structure Waking (s : State) : Prop where
  queues : s.QOk
  pids : s.PidOk
  hand : s.inHand = none

theorem Waking.wakeSlot (h : s.Waking) (chan : Option Chan) (p : Slot) :
    (wakeSlot .mlfq chan s p).Waking := by
  have hd := drift_wakeSlot .mlfq chan s p
  refine ⟨?_, h.pids.drift hd, ?_⟩
  · unfold State.wakeSlot
    split
    · next hsleep =>
      have := h.queues.makeRunnable (p := p) h.pids h.hand (by simp [hsleep.1])
      exact Mlfq.QueuesOk.setInfo (f := fun x => { x with qtime := toInt32 s.ticks }) this rfl
    · exact h.queues
  · have hhand := h.hand
    unfold inHand procs at hhand ⊢
    rw [hd.lk, hd.cpu]
    exact hhand

theorem Waking.wakeup1 (h : s.Waking) (chan : Option Chan) : (s.wakeup1 .mlfq chan).Waking := by
  unfold State.wakeup1
  exact foldl_induction (I := Waking) h (fun s p hs => hs.wakeSlot chan p) _

/-- Members other than the state and the pid do not matter. -/
theorem Waking.setProc (h : s.Waking) (f : Proc → Proc)
    (hpid : (f (s.proc p)).pid = (s.proc p).pid)
    (hstate : (f (s.proc p)).state = (s.proc p).state) : (s.setProc p f).Waking := by
  have hstates : (s.setProc p f).states = s.states := by
    rw [setProc_states, hstate]
    exact update_states_self s p
  exact ⟨h.queues.of_states rfl hstates rfl, h.pids.setProc f hpid hstate, h.hand⟩

theorem Waking.abandonSlot (h : s.Waking) (cur p : Slot) :
    (abandonSlot .mlfq cur s p).Waking := by
  unfold State.abandonSlot
  split
  · dsimp only
    split
    · exact (h.setProc (fun x => { x with parent := s.initproc }) rfl rfl).wakeup1 _
    · exact h.setProc (fun x => { x with parent := s.initproc }) rfl rfl
  · exact h

theorem Waking.exitDrift (h : s.Waking) (cur : Slot) : (s.exitDrift .mlfq cur).Waking := by
  unfold State.exitDrift
  exact foldl_induction (I := Waking) (h.wakeup1 _) (fun s p hs => hs.abandonSlot cur p) _

/-! ## Every label keeps the invariant -/

theorem QOk.goToSleep (h : s.QOk) (hhand : s.inHand = none)
    (hc : (s.cpu c).proc = some p) (hrun : (s.proc p).state = .running) (chan : Chan)
    (r : Resume) : (s.goToSleep c p chan r).QOk :=
  h.leave rfl (goToSleep_states s c p chan r) hhand hc hrun

theorem QOk.yield (h : s.QOk) (hhand : s.inHand = none)
    (hc : (s.cpu c).proc = some p) (hrun : (s.proc p).state = .running) :
    (s.yield c p).QOk :=
  h.leave rfl (yield_states s c p) hhand hc hrun

theorem QOk.exit (h : s.Waking) (hc : (s.cpu c).proc = some p)
    (hrun : (s.proc p).state = .running) : (s.exit .mlfq c p).QOk := by
  have hd := drift_exitDrift s .mlfq p
  have hdrift := h.exitDrift p
  refine hdrift.queues.leave (p := p) (x := .zombie) rfl ?_ hdrift.hand ?_ ?_
  · exact setProc_states (s.exitDrift .mlfq p) p fun x =>
      { x with state := .zombie, etime := toInt32 (s.exitDrift .mlfq p).ticks }
  · change ((s.exitDrift .mlfq p).cpu c).proc = some p
    rw [hd.cpu, hc]
  · rw [hd.state_of_ne_sleeping (by simp [hrun]), hrun]

/-- The removal of `wait` finds nothing: the freed slot has pid `0`, and no
queued process has. -/
theorem reap_mlfq (h : s.Waking) (hp : (s.proc p).state = .zombie) :
    (s.reap .mlfq p).mlfq = s.mlfq := by
  refine Mlfq.QueuesOk.dequeue_eq h.queues fun x hx => ?_
  have hne : x ≠ p := by
    rintro rfl
    rw [hx.1] at hp
    cases hp
  have hpos := h.pids.pos x (by simp [hx.1])
  have hself : (s.setProc p Proc.freed).pids p = 0 := by
    simp [State.pids, Proc.freed]
  have hother : (s.setProc p Proc.freed).pids x = (s.proc x).pid := by
    simp [State.pids, setProc_proc_of_ne s _ hne]
  rw [hself, hother]
  exact hpos.ne'

theorem QOk.waitBody (h : s.Waking) (hc : (s.cpu c).proc = some p)
    (hrun : (s.proc p).state = .running) (x : Bool) : (s.waitBody .mlfq c p x).QOk := by
  unfold State.waitBody
  split
  · next child hchild =>
    have hzombie := (zombieChild_spec hchild).2
    have hm := reap_mlfq h hzombie
    have hst := reap_states s .mlfq child
    dsimp only
    split
    · exact h.queues.of_update hm hst h.hand.symm (by simp [hzombie]) (by simp)
    · exact h.queues.of_update hm hst h.hand.symm (by simp [hzombie]) (by simp)
  · split
    · exact h.queues.of_states rfl rfl h.hand.symm
    · exact h.queues.goToSleep h.hand hc hrun _ _

theorem QOk.kill (h : s.Waking) (pid : ℤ) : (s.kill .mlfq pid).QOk := by
  unfold State.kill
  split
  · exact h.queues
  · next p _ =>
    have hset := h.setProc (p := p) (fun x => { x with killed := true }) rfl rfl
    dsimp only
    split
    · next hsleep => exact hset.queues.makeRunnable hset.pids hset.hand (by rw [hsleep]; simp)
    · exact hset.queues

theorem QOk.setPriority (h : s.Waking) (t : Thread) (priority pid : ℤ) :
    (s.setPriority .mlfq t priority pid).QOk := by
  unfold State.setPriority
  split
  · exact h.queues
  · next p _ =>
    have hset := h.setProc (p := p) (fun x => { x with priority }) rfl rfl
    dsimp only
    split
    · exact hset.queues
    · exact hset.queues

theorem schedIdle_queued (s : State) (c : Cpu) (p : Slot) :
    (s.schedIdle c).Queued p ↔ (s.proc p).state = .runnable :=
  queued_iff (s := s.schedIdle c) rfl

theorem dispatch_queued (s : State) (c : Cpu) (p x : Slot) (hp : Option Slot) :
    (s.dispatch c p hp).Queued x ↔ (s.proc x).state = .runnable ∧ x ≠ p := by
  rw [queued_iff (s := s.dispatch c p hp) rfl]
  have hx : ((s.dispatch c p hp).proc x).state = update s.states p .running x :=
    congrFun (dispatch_states s c p hp) x
  rw [hx]
  by_cases hxp : x = p
  · subst hxp
    simp
  · simp [hxp, states]

/-- One scheduler iteration up to the switch: after aging, the process it picks
is taken out of its queue and runs. -/
theorem QOk.schedule (h : s.Waking) : (s.schedule .mlfq c).QOk := by
  have haged : (s.mlfq.age s.pids s.ticks).QueuesOk s.Queued :=
    Mlfq.QueuesOk.age h.queues h.pids.queued_inj
  have hstates : ∀ p, s.Queued p → s.states p = .runnable := fun p hp => hp.1
  unfold State.schedule
  dsimp only
  split
  · next i p hp =>
    have hrun : s.Queued p := ⟨pickHead_spec (s := s) hp, by simp [h.hand]⟩
    obtain ⟨j, q, hpick, -, hcur, -⟩ := haged.pickHead_some s.states hstates hrun
    have hEq : (i, p) = (j, q) := Option.some.inj (hp.symm.trans hpick)
    cases hEq
    have hcharge := haged.charge hrun hcur fun x hx => h.pids.queued_inj x p hx hrun
    refine Mlfq.QueuesOk.congr hcharge fun x => ?_
    rw [queued_iff h.hand, dispatch_queued]
  · refine Mlfq.QueuesOk.congr haged fun x => ?_
    rw [queued_iff h.hand, schedIdle_queued]

/-- The process in hand goes back to its queue if it is runnable. -/
theorem QOk.schedBack (h : s.QOk) (hpid : s.PidOk) (hlk : s.lk = .back c)
    (hc : (s.cpu c).proc = some p) : (s.schedBack .mlfq c p).QOk := by
  have hhand : s.inHand = some p := by rw [inHand_back hlk, procs, hc]
  have hnot : ¬ s.Queued p := fun hq => hq.2 hhand
  unfold State.schedBack
  dsimp only
  split
  · next hrun =>
    refine Mlfq.QueuesOk.congr (.requeue h hnot (hpid.queued_ne hnot)) fun x => ?_
    rw [schedIdle_queued, Queued, hhand]
    by_cases hx : x = p
    · subst hx
      simp [hrun]
    · simp [hx, Ne.symm hx]
  · next hrun =>
    refine h.of_same rfl fun x => ?_
    rw [schedIdle_queued, Queued, hhand]
    by_cases hx : x = p
    · subst hx
      simp [hrun]
    · simp [Ne.symm hx]

/-- The members of a new process are reset while nobody sees it. -/
theorem QOk.allocInit (h : s.QOk) (hp : (s.proc p).state = .embryo) {t : Thread} :
    (s.allocInit .mlfq t p).QOk := by
  have hnot : ¬ s.Queued p := fun hq => by
    rw [Queued, hp] at hq
    cases hq.1
  have hst : ∀ {s' : State}, s'.proc = (s.setProc p fun x =>
      { x with etime := 0, rtime := 0, iotime := 0, nRun := 0, priority := 60 }).proc →
      s'.inHand = s.inHand → ∀ x, s.Queued x ↔ s'.Queued x := by
    intro s' hproc hhand x
    rw [Queued, Queued, hproc, hhand]
    by_cases hx : x = p
    · subst hx
      rw [setProc_proc_self]
    · rw [setProc_proc_of_ne s _ hx]
  have hset := Mlfq.QueuesOk.setInfo_of_not h hnot (fun _ => {}) (Nat.zero_le 4)
  unfold State.allocInit
  dsimp only
  split
  · exact Mlfq.QueuesOk.congr hset (hst rfl rfl)
  · exact Mlfq.QueuesOk.congr hset (hst rfl rfl)

theorem QOk.resumed (h : s.Waking) (hc : (s.cpu c).proc = some p)
    (hrun : (s.proc p).state = .running) : (s.resumed .mlfq c p).QOk := by
  have hset := h.setProc (p := p) (fun x => { x with chan := none }) rfl rfl
  unfold State.resumed
  split
  · exact h.queues.of_states rfl rfl h.hand.symm
  · exact hset.queues.of_states rfl rfl hset.hand.symm
  · exact .waitBody hset hc (by rw [setProc_proc_self]; exact hrun) _

theorem QOk.timerTrap (h : s.QOk) (hhand : s.inHand = none) (hc : (s.cpu c).proc = some p)
    (hrun : (s.proc p).state = .running) : (s.timerTrap .mlfq c p).QOk := by
  have hset : ({ s with mlfq := s.mlfq.setInfo p Mlfq.ticked } : State).QOk := by
    refine Mlfq.QueuesOk.setInfo h Mlfq.ticked ?_
    unfold Mlfq.ticked
    split <;> rfl
  unfold State.timerTrap
  dsimp only
  split
  · exact hset.yield hhand hc hrun
  · exact hset

theorem Waking.tickAccount (h : s.Waking) : s.tickAccount.Waking := by
  have hstates : s.tickAccount.states = s.states := by
    funext p
    exact tickProc_state (s.proc p)
  have hpids : ∀ p, (tickProc (s.proc p)).pid = (s.proc p).pid := by
    intro p
    unfold tickProc
    split <;> rfl
  refine ⟨h.queues.of_states rfl hstates rfl, ?_, h.hand⟩
  refine ⟨h.pids.nextpid, ?_, ?_, ?_, ?_⟩
  · exact fun p => (hpids p).symm ▸ h.pids.nonneg p
  · exact fun p => (hpids p).symm ▸ h.pids.lt p
  · exact fun p hp => (hpids p).symm ▸ h.pids.pos p fun hun => hp ((congrFun hstates p).trans hun)
  · intro p q hEq hne
    exact h.pids.inj p q ((hpids p).symm.trans (hEq.trans (hpids q))) ((hpids p) ▸ hne)

/-- Every step of the MLFQ build keeps the queues right. -/
theorem QOk.next (h : s.QOk) (hok : s.Ok) (hpid : s.PidOk) (enabled : s.Enabled l) :
    (s.next .mlfq l).QOk := by
  have hfree : s.lk = .free → s.Waking := fun hlk =>
    ⟨h, hpid, inHand_eq_none (by simp [hlk])⟩
  -- A slot that is being set up is not runnable, whatever happens to it.
  have hembryo : ∀ {t stage np}, s.pc t = .alloc stage np → (s.proc np).state = .embryo :=
    fun hpc => TableOk.owns hok _ _ _ hpc
  have hfail : ∀ {t stage np}, s.pc t = .alloc stage np →
      ((s.setProc np fun x => { x with state := .unused }).setPc t .user).QOk := by
    intro t stage np hpc
    exact h.of_update rfl (setProc_states s np fun x => { x with state := .unused }) rfl
      (by simp [hembryo hpc]) (by simp)
  have hset : ∀ (f : Proc → Proc) (p : Slot), (f (s.proc p)).state = (s.proc p).state →
      (s.setProc p f).QOk := by
    intro f p hf
    refine h.of_states rfl ?_ rfl
    rw [setProc_states, hf]
    exact update_states_self s p
  cases l with
  | userinit np =>
    have hnp := unusedSlot_spec enabled.2.2
    exact h.of_update rfl
      (setProc_states s np fun x => { x with state := .embryo, pid := s.nextpid }) rfl
      (by simp [hnp]) (by simp)
  | fork c p np =>
    have hnp := unusedSlot_spec enabled.2.2
    exact h.of_update rfl
      (setProc_states s np fun x => { x with state := .embryo, pid := s.nextpid }) rfl
      (by simp [hnp]) (by simp)
  | allocKalloc c t np ok =>
    rw [State.next, State.allocKalloc]
    split
    · exact h
    · exact hfail enabled.2.1
  | allocCtime c t np => exact hset (fun x => { x with ctime := toInt32 s.ticks }) np rfl
  | allocInit c t np =>
    exact h.allocInit (hembryo enabled.2)
  | allocCopy c t np ok =>
    rw [State.next, State.allocCopy]
    split
    · dsimp only
      split
      · exact h
      · exact hset (fun x => { x with parent := t }) np rfl
    · exact hfail enabled.2.1
  | forkPublish c p np =>
    exact h.makeRunnable hpid (hfree enabled.1.1).hand (by simp [hembryo enabled.2])
  | userinitPublish np =>
    exact h.userinitPublish hpid (hfree enabled.1.lk_free).hand (by simp [hembryo enabled.2])
  | exit c p =>
    exact .exit (hfree enabled.1.1) enabled.1.2.1 (hok.running enabled.1.1 enabled.1.2.1)
  | wait c p x =>
    exact .waitBody (hfree enabled.1.1) enabled.1.2.1 (hok.running enabled.1.1 enabled.1.2.1) x
  | waitxStore c p child pid => exact h
  | kill c p pid => exact .kill (hfree enabled.1.1) pid
  | trapKill c p => exact hset (fun x => { x with killed := true }) p rfl
  | setPriority c p priority pid => exact .setPriority (hfree enabled.1.1) _ priority pid
  | yield c p =>
    exact QOk.yield (s := s.setPc (some p) .user) h (hfree enabled.1.1).hand enabled.1.2.1
      (hok.running enabled.1.1 enabled.1.2.1)
  | sleep c p chan =>
    exact h.goToSleep (hfree enabled.1.1).hand enabled.1.2.1
      (hok.running enabled.1.1 enabled.1.2.1) _ _
  | wakeup chan => exact ((hfree enabled.1).wakeup1 _).queues
  | schedule c => exact .schedule (hfree enabled.1)
  | resumed c p =>
    exact .resumed ⟨h, hpid, inHand_eq_none (by simp [enabled.1])⟩ enabled.2
      (TableOk.running hok c p enabled.2 (by simp [enabled.1]))
  | back c p => exact h.schedBack hpid enabled.1 enabled.2
  | timerTrap c p =>
    exact h.timerTrap (hfree enabled.1).hand enabled.2.1 (hok.running enabled.1 enabled.2.1)
  | tickInc => exact h
  | tickAccount => exact (hfree enabled.1).tickAccount.queues
  | tickWake => exact ((hfree enabled.1).wakeup1 _).queues
  | tick =>
    have hinc : s.tickInc.Waking :=
      ⟨(hfree enabled.1).queues, ⟨hpid.nextpid, hpid.nonneg, hpid.lt, hpid.pos, hpid.inj⟩,
        (hfree enabled.1).hand⟩
    exact (hinc.tickAccount.wakeup1 _).queues

theorem qOk_init : ({} : State).QOk := by
  apply Mlfq.QueuesOk.empty.congr
  intro p
  exact iff_of_false id fun hp => by cases hp.1

end State

/-- The queues are right in every reachable state before `nextpid` overflows. -/
theorem qOk_of_reachable {s : State} (h : (system .mlfq).Reachable s)
    (hbound : s.ghost.allocs < 2 ^ 31 - 1) : s.QOk := by
  have all : s.Ok ∧ s.PidOk ∧ s.QOk := by
    refine h.invariant_below (fun s => s.ghost.allocs) (2 ^ 31 - 1)
      (I := fun s => s.Ok ∧ s.PidOk ∧ s.QOk) ?_ ?_ ?_ hbound
    · exact fun s l _ => State.allocs_le_next .mlfq l
    · rintro s rfl
      exact ⟨State.ok_init, State.pidOk_init, State.qOk_init⟩
    · exact fun s l hs enabled hlt =>
        ⟨hs.1.next enabled, hs.2.1.next hs.1 enabled hlt, hs.2.2.next hs.1 hs.2.1 enabled⟩
  exact all.2.2

/-- Queue integrity: while the lock is free, a runnable process is exactly once
in the queue it belongs to and in no other, and no other process is in any
queue; at all times `q_index` stays within the arrays, and so has every append. -/
theorem mlfq_queues_hold_runnable {s : State} (h : (system .mlfq).Reachable s)
    (hbound : s.ghost.allocs < 2 ^ 31 - 1) :
    (s.lk = .free → ∀ p,
      ((s.proc p).state = .runnable → (s.mlfq.info p).curQ < 5 ∧
        ∀ i, (s.mlfq.qu i).contents.count (some p) =
          if i = (s.mlfq.info p).curQ then 1 else 0) ∧
      ((s.proc p).state ≠ .runnable → ∀ i, some p ∉ (s.mlfq.qu i).contents)) ∧
    ∀ i, -1 ≤ (s.mlfq.qu i).last ∧ (s.mlfq.qu i).last ≤ NPROC - 1 ∧
      (s.mlfq.qu i).peak ≤ NPROC - 1 := by
  have hq := qOk_of_reachable h hbound
  refine ⟨fun hlk p => ?_, fun i => ⟨hq.last_ge i, hq.last_le i, ?_⟩⟩
  · have hhand : s.inHand = none := State.inHand_eq_none (by simp [hlk])
    have hmem : ∀ i, some p ∈ (s.mlfq.qu i).contents ↔
        (s.proc p).state = .runnable ∧ (s.mlfq.info p).curQ = i := by
      intro i
      rw [hq.mem_some, State.queued_iff hhand]
    refine ⟨fun hrun => ⟨Nat.lt_succ_of_le (hq.curQ_le p), fun i => ?_⟩, fun hrun i hi => ?_⟩
    · split
      · next hi => exact List.count_eq_one_of_mem (hq.nodup i) ((hmem i).mpr ⟨hrun, hi.symm⟩)
      · next hi => exact List.count_eq_zero_of_not_mem fun hi' => hi ((hmem i).mp hi').2.symm
    · exact hrun ((hmem i).mp hi).1
  · have := hq.peak_lt i
    omega

/-- The first process has two children and uses up its time slice. -/
def twoChildren : List Label :=
  boot ++ [.schedule 0, .resumed 0 0] ++ forkLabels 0 0 1 ++ forkLabels 0 0 2 ++
    [.timerTrap 0 0, .timerTrap 0 0, .back 0 0]

set_option maxRecDepth 10000 in
/-- The children are in queue `0`, both once, and the first process is in queue `1` only. -/
theorem mlfq_queues_of_children : ∃ s, (system .mlfq).Reachable s ∧ s.lk = .free ∧
    (s.mlfq.qu 0).contents.count (some 1) = 1 ∧ (s.mlfq.qu 0).contents.count (some 2) = 1 ∧
    (s.mlfq.qu 0).contents.count (some 0) = 0 ∧ (s.mlfq.qu 1).contents.count (some 0) = 1 := by
  obtain ⟨s, hs, hbound, hlk, hrun, h₀, h₁, h₂⟩ := Machine.exists_reachable_of_exec
    (system .mlfq) twoChildren (s := {})
    (P := fun s => s.ghost.allocs < 2 ^ 31 - 1 ∧ s.lk = .free ∧
      (∀ p < 3, (s.proc p).state = .runnable) ∧ (s.mlfq.info 0).curQ = 1 ∧
      (s.mlfq.info 1).curQ = 0 ∧ (s.mlfq.info 2).curQ = 0) rfl (by decide +kernel)
  have hcount := fun p hp => (((mlfq_queues_hold_runnable hs hbound).1 hlk p).1 (hrun p hp)).2
  refine ⟨s, hs, hlk, ?_, ?_, ?_, ?_⟩
  · rw [hcount 1 (by decide), h₁, if_pos rfl]
  · rw [hcount 2 (by decide), h₂, if_pos rfl]
  · rw [hcount 0 (by decide), h₀, if_neg (by decide)]
  · rw [hcount 0 (by decide), h₀, if_pos rfl]

end Xv6.Ptable
