/-
# Time slices and demotion in the MLFQ build

What a step can do to `cur_q`, `q` and `flg` of a process. Two copies of the
limit table are compared with `q` in three places, and `flg` carries a verdict
from one place to another across sleeps and promotions. The invariant that makes
this sound is that a process has used up the slice of every queue above its own,
and of its own if it is marked. It needs no assumption about pids, only that a
queue entry is in the queue its process belongs to.
-/

import Xv6.Ptable.MlfqEntries
import Xv6.Ptable.MlfqDispatch

namespace Xv6.Ptable

open Function Xv6.Lib

/-- Two records that agree in everything the time slices depend on. -/
structure MlfqProc.Alike (x y : MlfqProc) : Prop where
  curQ : y.curQ = x.curQ
  q : y.q = x.q
  flg : y.flg = x.flg

namespace MlfqProc.Alike

theorem refl (x : MlfqProc) : Alike x x := ⟨rfl, rfl, rfl⟩

theorem trans {x y z : MlfqProc} (h : Alike x y) (h' : Alike y z) : Alike x z :=
  ⟨h'.curQ.trans h.curQ, h'.q.trans h.q, h'.flg.trans h.flg⟩

end MlfqProc.Alike

namespace Mlfq

open MlfqProc (Alike)

variable {m : Mlfq} {pid : Slot → ℤ} {ticks : ℕ} {p x : Slot}

theorem setInfo_self (m : Mlfq) (p : Slot) (f : MlfqProc → MlfqProc) :
    (m.setInfo p f).info p = f (m.info p) := by
  simp [setInfo]

theorem setInfo_of_ne (m : Mlfq) (f : MlfqProc → MlfqProc) (h : x ≠ p) :
    (m.setInfo p f).info x = m.info x := by
  simp [setInfo, h]

theorem alike_setInfo {f : MlfqProc → MlfqProc} (hf : Alike (m.info p) (f (m.info p)))
    (x : Slot) : Alike (m.info x) ((m.setInfo p f).info x) := by
  by_cases hx : x = p
  · subst hx
    rw [setInfo_self]
    exact hf
  · rw [setInfo_of_ne m f hx]
    exact .refl _

/-- `p->qtime = n`. -/
theorem alike_setQtime (m : Mlfq) (n : ℤ) (p x : Slot) :
    Alike (m.info x) ((m.setInfo p fun y => { y with qtime := n }).info x) :=
  alike_setInfo ⟨rfl, rfl, rfl⟩ x

theorem alike_append (m : Mlfq) (ticks k : ℕ) (p x : Slot) :
    Alike (m.info x) ((m.append ticks k p).info x) := by
  unfold append
  exact alike_setQtime m (toInt32 ticks) p x

theorem alike_enqueueAt (m : Mlfq) (k : ℕ) (p x : Slot) :
    Alike (m.info x) ((m.enqueueAt pid ticks k p).info x) := by
  unfold enqueueAt
  split
  · exact .refl _
  · exact alike_append m ticks k p x

theorem alike_enqueue (m : Mlfq) (p x : Slot) :
    Alike (m.info x) ((m.enqueue pid ticks p).info x) :=
  alike_enqueueAt m _ p x

theorem dequeue_info (m : Mlfq) (pid : Slot → ℤ) (p : Slot) : (m.dequeue pid p).info = m.info := by
  unfold dequeue
  split <;> rfl

theorem charge_info (m : Mlfq) (pid : Slot → ℤ) (i : ℕ) (p : Slot) :
    (m.charge pid i p).info = (m.setInfo p (charged i)).info := by
  unfold charge
  dsimp only
  split <;> rfl

end Mlfq

namespace State

open MlfqProc (Alike)

variable {s s' : State} {c : Cpu} {p x : Slot} {l : Label}

theorem alike_makeRunnable (s : State) (b : Build) (p x : Slot) :
    Alike (s.mlfq.info x) ((s.makeRunnable b p).mlfq.info x) := by
  unfold makeRunnable queues
  dsimp only
  split
  · exact Mlfq.alike_enqueue _ p x
  · exact .refl _

theorem alike_wakeSlot (b : Build) (chan : Option Chan) (s : State) (p x : Slot) :
    Alike (s.mlfq.info x) ((wakeSlot b chan s p).mlfq.info x) := by
  unfold wakeSlot
  split
  · refine (alike_makeRunnable s b p x).trans ?_
    unfold queues
    dsimp only
    split
    · exact Mlfq.alike_setQtime _ _ p x
    · exact .refl _
  · exact .refl _

theorem alike_wakeup1 (s : State) (b : Build) (chan : Option Chan) (x : Slot) :
    Alike (s.mlfq.info x) ((s.wakeup1 b chan).mlfq.info x) := by
  unfold wakeup1
  exact foldl_induction (I := fun s' => Alike (s.mlfq.info x) (s'.mlfq.info x)) (.refl _)
    (fun s' p h => h.trans (alike_wakeSlot b chan s' p x)) _

theorem alike_exitDrift (s : State) (b : Build) (cur x : Slot) :
    Alike (s.mlfq.info x) ((s.exitDrift b cur).mlfq.info x) := by
  unfold exitDrift
  refine foldl_induction (I := fun s' => Alike (s.mlfq.info x) (s'.mlfq.info x))
    (alike_wakeup1 s b _ x) (fun s' p h => h.trans ?_) _
  unfold abandonSlot
  split
  · dsimp only
    split
    · exact alike_wakeup1 (s'.setProc p fun y => { y with parent := s'.initproc }) b _ x
    · exact .refl _
  · exact .refl _

theorem alike_kill (s : State) (b : Build) (pid : ℤ) (x : Slot) :
    Alike (s.mlfq.info x) ((s.kill b pid).mlfq.info x) := by
  unfold kill
  split
  · exact .refl _
  · next p _ =>
    dsimp only
    split
    · exact alike_makeRunnable (s.setProc p fun y => { y with killed := true }) b p x
    · exact .refl _

theorem alike_waitBody (s : State) (b : Build) (c : Cpu) (cur : Slot) (w : Bool) (x : Slot) :
    Alike (s.mlfq.info x) ((s.waitBody b c cur w).mlfq.info x) := by
  have hreap : ∀ child, Alike (s.mlfq.info x) ((s.reap b child).mlfq.info x) := by
    intro child
    unfold reap queues
    dsimp only
    split
    · rw [Mlfq.dequeue_info]
      exact .refl _
    · exact .refl _
  unfold waitBody
  split
  · next child _ =>
    dsimp only
    split <;> exact hreap child
  · split <;> exact .refl _

theorem alike_resumed (s : State) (b : Build) (c : Cpu) (p x : Slot) :
    Alike (s.mlfq.info x) ((s.resumed b c p).mlfq.info x) := by
  unfold resumed
  split
  · exact .refl _
  · exact .refl _
  · exact alike_waitBody (s.setProc p fun y => { y with chan := none }) b c p _ x

/-- The new record of a process that an iteration of the scheduler may have
promoted, and may have dispatched afterwards. -/
structure Scheduled (s : State) (c : Cpu) (p : Slot) (y : MlfqProc) : Prop where
  curQ : y.curQ = (s.mlfq.info p).curQ ∨
    s.Queued p ∧ y.curQ + 1 = (s.mlfq.info p).curQ
  charged : (y.q = (s.mlfq.info p).q ∧ y.flg = (s.mlfq.info p).flg ∧
      ((s.schedule .mlfq c).cpu c).proc ≠ some p) ∨
    ((s.proc p).state = .runnable ∧ ((s.schedule .mlfq c).cpu c).proc = some p ∧
      y.q = update (s.mlfq.info p).q y.curQ ((s.mlfq.info p).q y.curQ + 1) ∧
      y.flg = ((s.mlfq.info p).flg || decide (maxQueueTicks y.curQ ≤ y.q y.curQ)))

/-- How label `l` of the MLFQ build may change the slices of process `p`. -/
inductive SliceStep (s : State) (l : Label) (p : Slot) (y : MlfqProc) : Prop
  | same (h : Alike (s.mlfq.info p) y) (hl : ∀ c, l ≠ .timerTrap c p)
  /-- A new process. -/
  | reset (hl : ∃ c t, l = .allocInit c t p) (h : y = {})
  /-- The first process is inserted into queue `0`. -/
  | first (hl : l = .userinitPublish p)
      (h : Alike (s.mlfq.info p) y ∨ Alike { s.mlfq.info p with curQ := 0 } y)
  | scheduled (c : Cpu) (hl : l = .schedule c) (h : Scheduled s c p y)
  /-- The process comes back from a run and can go on. -/
  | back (c : Cpu) (hl : l = .back c p) (hrun : (s.proc p).state = .runnable)
      (h : Alike (Mlfq.demoted (s.mlfq.info p)) y)
  /-- A timer interrupt while the process runs. -/
  | ticked (c : Cpu) (hl : l = .timerTrap c p) (h : y = Mlfq.ticked (s.mlfq.info p))

/-- Queue entries are runnable, not in hand, and in the right queue. -/
def EntriesOk (s : State) : Prop := s.mlfq.Entered s.Queued s.pids

theorem scheduled_schedule (h : s.EntriesOk) (c : Cpu) (p : Slot) :
    Scheduled s c p ((s.schedule .mlfq c).mlfq.info p) := by
  have haged := Mlfq.Aged.age h s.ticks
  have hcur : ∀ {y : MlfqProc}, y.curQ = ((s.mlfq.age s.pids s.ticks).info p).curQ →
      y.curQ = (s.mlfq.info p).curQ ∨ s.Queued p ∧ y.curQ + 1 = (s.mlfq.info p).curQ := by
    grind [haged.curQ]
  cases hpick : (s.mlfq.age s.pids s.ticks).pickHead s.states with
  | none =>
    have hs' := schedule_of_none (c := c) hpick
    refine ⟨?_, Or.inl ⟨?_, ?_, ?_⟩⟩
    · rw [hs']
      exact hcur rfl
    · rw [hs']
      exact haged.q p
    · rw [hs']
      exact haged.flg p
    · rw [hs']
      simp [schedIdle]
  | some pick =>
    obtain ⟨i, q⟩ := pick
    have hs' := schedule_of_pick (c := c) hpick
    have hcpu : ((s.schedule .mlfq c).cpu c).proc = some q := by
      rw [hs']
      simp [dispatch]
    have hinfo : (s.schedule .mlfq c).mlfq.info =
        ((s.mlfq.age s.pids s.ticks).setInfo q (Mlfq.charged i)).info := by
      rw [hs']
      exact Mlfq.charge_info _ _ i q
    by_cases hq : p = q
    · subst hq
      obtain ⟨hlast, harr⟩ := Mlfq.pickHead_entry hpick
      have hsize := ((s.mlfq.age s.pids s.ticks).qu i).last_eq_size (haged.entered.last_ge i)
      obtain ⟨q, hq, hR, hcurQ⟩ := haged.entered.mem i _
        ((ArrayQueue.mem_contents _).mpr ⟨0, by omega, harr⟩)
      cases hq
      rw [hinfo, Mlfq.setInfo_self]
      refine ⟨hcur rfl, Or.inr ⟨hR.1, hcpu, ?_, ?_⟩⟩
      · simp only [Mlfq.charged]
        rw [hcurQ, haged.q p]
      · simp only [Mlfq.charged, hcurQ, haged.flg p]
    · rw [hinfo, Mlfq.setInfo_of_ne _ _ hq]
      refine ⟨hcur rfl, Or.inl ⟨haged.q p, haged.flg p, ?_⟩⟩
      rw [hcpu]
      exact fun hEq => hq (Option.some.inj hEq).symm

/-! ## Entries stay in the right queue -/

/-- The queues do not change, and whoever may be queued still may. -/
theorem EntriesOk.of_same (h : s.EntriesOk) (hm : s'.mlfq = s.mlfq)
    (hq : ∀ x, s.Queued x → s'.Queued x ∧ s'.pids x = s.pids x) : s'.EntriesOk := by
  unfold EntriesOk
  rw [hm]
  refine ⟨h.last_ge, fun i x hx => ?_, (h.congr_pid fun x hx => (hq x hx).2).nodup⟩
  obtain ⟨p, rfl, hp, hcur⟩ := h.mem i x hx
  exact ⟨p, rfl, (hq p hp).1, hcur⟩

/-- A step changes one slot, which is not runnable or keeps its state and pid. -/
theorem queued_setProc {f : Proc → Proc} (hproc : s'.proc = (s.setProc p f).proc)
    (hhand : s'.inHand = s.inHand ∨ s'.inHand = some p ∧ (s.proc p).state ≠ .runnable)
    (hp : (s.proc p).state ≠ .runnable ∨
      (f (s.proc p)).state = (s.proc p).state ∧ (f (s.proc p)).pid = (s.proc p).pid)
    (x : Slot) (hx : s.Queued x) : s'.Queued x ∧ s'.pids x = s.pids x := by
  by_cases hxp : x = p
  · subst hxp
    obtain ⟨hstate, hpid⟩ := hp.resolve_left fun hne => hne hx.1
    have hnew : s'.proc x = f (s.proc x) := by rw [hproc, setProc_proc_self]
    refine ⟨⟨by rw [hnew, hstate, hx.1], ?_⟩, by rw [State.pids, hnew, hpid, State.pids]⟩
    rcases hhand with hsame | ⟨-, hne⟩
    · rw [hsame]
      exact hx.2
    · exact absurd hx.1 hne
  · have hnew : s'.proc x = s.proc x := by rw [hproc, setProc_proc_of_ne s f hxp]
    refine ⟨⟨by rw [hnew, hx.1], ?_⟩, by rw [State.pids, hnew, State.pids]⟩
    rcases hhand with hsame | ⟨hself, -⟩
    · rw [hsame]
      exact hx.2
    · rw [hself]
      exact fun hEq => hxp (Option.some.inj hEq).symm

theorem EntriesOk.of_setProc {f : Proc → Proc} (h : s.EntriesOk) (hm : s'.mlfq = s.mlfq)
    (hproc : s'.proc = (s.setProc p f).proc)
    (hhand : s'.inHand = s.inHand ∨ s'.inHand = some p ∧ (s.proc p).state ≠ .runnable)
    (hp : (s.proc p).state ≠ .runnable ∨
      (f (s.proc p)).state = (s.proc p).state ∧ (f (s.proc p)).pid = (s.proc p).pid) :
    s'.EntriesOk :=
  h.of_same hm (queued_setProc hproc hhand hp)

/-- A process that was not runnable becomes runnable with the lock free, and the
queues may have got an entry for it. -/
theorem EntriesOk.of_insert (hm : s'.mlfq.Entered (fun x => s.Queued x ∨ x = p) s.pids)
    (hproc : s'.proc = (s.setProc p fun x => { x with state := .runnable }).proc)
    (hhand' : s'.inHand = none) : s'.EntriesOk := by
  have hpid : ∀ x, s'.pids x = s.pids x := by
    intro x
    rw [State.pids, State.pids, hproc]
    by_cases hx : x = p
    · subst hx
      rw [setProc_proc_self]
    · rw [setProc_proc_of_ne s _ hx]
  refine (hm.mono (T := s'.Queued) fun x hx => ?_).congr_pid fun x _ => hpid x
  rw [queued_iff hhand', hproc]
  by_cases hxp : x = p
  · subst hxp
    rw [setProc_proc_self]
  · rw [setProc_proc_of_ne s _ hxp]
    exact (hx.resolve_right hxp).1

theorem EntriesOk.makeRunnable (h : s.EntriesOk) (hhand : s.inHand = none) (p : Slot) :
    (s.makeRunnable .mlfq p).EntriesOk := by
  refine .of_insert (s := s) (p := p) ?_ rfl hhand
  exact Mlfq.Entered.enqueue h

theorem inHand_drift (hd : Drift s s') : s'.inHand = s.inHand := by
  unfold inHand procs
  rw [hd.lk, hd.cpu]

section

variable (h : s.EntriesOk) (hhand : s.inHand = none)

include h hhand

theorem EntriesOk.wakeup1 (chan : Option Chan) :
    (s.wakeup1 .mlfq chan).EntriesOk ∧ (s.wakeup1 .mlfq chan).inHand = none := by
  unfold State.wakeup1
  refine foldl_induction (I := fun s => s.EntriesOk ∧ s.inHand = none) ⟨h, hhand⟩ ?_ _
  rintro s p ⟨hs, hnone⟩
  refine ⟨?_, by rw [inHand_drift (drift_wakeSlot .mlfq chan s p), hnone]⟩
  unfold wakeSlot
  split
  · have hrun := hs.makeRunnable hnone p
    exact Mlfq.Entered.setInfo (f := fun x => { x with qtime := toInt32 s.ticks }) hrun rfl
  · exact hs

theorem EntriesOk.exitDrift (cur : Slot) : (s.exitDrift .mlfq cur).EntriesOk := by
  unfold State.exitDrift
  refine (foldl_induction (I := fun s => s.EntriesOk ∧ s.inHand = none)
    (h.wakeup1 hhand _) ?_ _).1
  rintro s p ⟨hs, hnone⟩
  refine ⟨?_, by rw [inHand_drift (drift_abandonSlot .mlfq cur s p), hnone]⟩
  have hset : (s.setProc p fun x => { x with parent := s.initproc }).EntriesOk :=
    hs.of_setProc rfl rfl (Or.inl rfl) (Or.inr ⟨rfl, rfl⟩)
  unfold abandonSlot
  split
  · dsimp only
    split
    · exact (hset.wakeup1 hnone _).1
    · exact hset
  · exact hs

section

variable (hc : (s.cpu c).proc = some p) (hrun : (s.proc p).state = .running)

include hc hrun

theorem EntriesOk.exit : (s.exit .mlfq c p).EntriesOk := by
  have hd := drift_exitDrift s .mlfq p
  refine EntriesOk.of_setProc (p := p) (f := fun x =>
    { x with state := .zombie, etime := toInt32 (s.exitDrift .mlfq p).ticks })
    (h.exitDrift hhand p) rfl rfl (Or.inr ⟨?_, ?_⟩) (Or.inl ?_)
  · change ((s.exitDrift .mlfq p).cpu c).proc = some p
    rw [hd.cpu, hc]
  · rw [hd.state_of_ne_sleeping (by simp [hrun]), hrun]
    nofun
  · rw [hd.state_of_ne_sleeping (by simp [hrun]), hrun]
    nofun

theorem EntriesOk.waitBody (w : Bool) : (s.waitBody .mlfq c p w).EntriesOk := by
  unfold State.waitBody
  split
  · next child hchild =>
    have hne : (s.proc child).state ≠ .runnable := by
      rw [(zombieChild_spec hchild).2]
      nofun
    have hreap : ∀ {s' : State}, s'.mlfq = (s.reap .mlfq child).mlfq →
        s'.proc = (s.setProc child Proc.freed).proc → s'.inHand = none → s'.EntriesOk := by
      intro s' hm hproc hhand'
      have hdeq : ({ s with mlfq := (s.reap .mlfq child).mlfq } : State).EntriesOk :=
        Mlfq.Entered.dequeue h _
      exact hdeq.of_setProc hm hproc (Or.inl (hhand'.trans hhand.symm)) (Or.inl hne)
    dsimp only
    split
    · exact hreap rfl rfl rfl
    · exact hreap rfl rfl rfl
  · split
    · exact h.of_same rfl fun x hx => ⟨⟨hx.1, nofun⟩, rfl⟩
    · have hne : (s.proc p).state ≠ .runnable := by
        rw [hrun]
        nofun
      exact h.of_setProc (f := fun y => y.asleep (.proc p)) rfl rfl (Or.inr ⟨hc, hne⟩) (Or.inl hne)

theorem EntriesOk.resumed : (s.resumed .mlfq c p).EntriesOk := by
  have hset : (s.setProc p fun y => { y with chan := none }).EntriesOk :=
    h.of_setProc rfl rfl (Or.inl rfl) (Or.inr ⟨rfl, rfl⟩)
  unfold State.resumed
  split
  · exact h.of_same rfl fun x hx => ⟨⟨hx.1, nofun⟩, rfl⟩
  · exact hset.of_same rfl fun x hx => ⟨⟨hx.1, nofun⟩, rfl⟩
  · exact hset.waitBody hhand hc (by rw [setProc_proc_self]; exact hrun) _

end

theorem EntriesOk.kill (pid : ℤ) : (s.kill .mlfq pid).EntriesOk := by
  unfold State.kill
  split
  · exact h
  · next p _ =>
    have hset : (s.setProc p fun x => { x with killed := true }).EntriesOk :=
      h.of_setProc rfl rfl (Or.inl rfl) (Or.inr ⟨rfl, rfl⟩)
    dsimp only
    split
    · exact hset.makeRunnable hhand p
    · exact hset

end

theorem EntriesOk.schedule (h : s.EntriesOk) :
    (s.schedule .mlfq c).EntriesOk := by
  have haged := (Mlfq.Aged.age h s.ticks).entered
  cases hpick : (s.mlfq.age s.pids s.ticks).pickHead s.states with
  | none =>
    rw [schedule_of_none hpick]
    refine (haged.mono (T := State.Queued _) fun x hx => ?_).congr_pid fun x _ => rfl
    exact (schedIdle_queued _ c x).mpr hx.1
  | some pick =>
    obtain ⟨i, q⟩ := pick
    rw [schedule_of_pick hpick]
    obtain ⟨hlast, harr⟩ := Mlfq.pickHead_entry hpick
    have hsize := ((s.mlfq.age s.pids s.ticks).qu i).last_eq_size (haged.last_ge i)
    have hcharge := haged.charge (j := 0) (by omega) harr
    refine (hcharge.mono (T := State.Queued _) fun x hx => ?_).congr_pid fun x hx => ?_
    · exact (dispatch_queued _ c q x none).mpr ⟨hx.1.1, hx.2⟩
    · have hne := ((dispatch_queued _ c q x none).mp hx).2
      exact congrArg Proc.pid (setProc_proc_of_ne s
        (fun y => { y with nRun := y.nRun + 1, state := .running }) hne)

theorem EntriesOk.schedBack (h : s.EntriesOk) (hlk : s.lk = .back c)
    (hc : (s.cpu c).proc = some p) : (s.schedBack .mlfq c p).EntriesOk := by
  have hhand : s.inHand = some p := by rw [inHand_back hlk, procs, hc]
  have hnot : ¬ s.Queued p := fun hq => hq.2 hhand
  unfold State.schedBack
  dsimp only
  split
  · next hrun =>
    have hrequeue : (s.mlfq.requeue s.pids s.ticks p).Entered (fun x => s.Queued x ∨ x = p)
        s.pids := Mlfq.Entered.requeue h hnot
    refine hrequeue.mono (T := State.Queued _) fun x hx => ?_
    refine (schedIdle_queued _ c x).mpr ?_
    rcases hx with hx | rfl
    · exact hx.1
    · exact hrun
  · exact h.of_same rfl fun x hx => ⟨(schedIdle_queued s c x).mpr hx.1, rfl⟩

theorem EntriesOk.yield (h : s.EntriesOk) (hc : (s.cpu c).proc = some p)
    (hrun : (s.proc p).state = .running) : (s.yield c p).EntriesOk := by
  have hne : (s.proc p).state ≠ .runnable := by
    rw [hrun]
    nofun
  exact h.of_setProc (f := fun y => { y with state := .runnable }) rfl rfl (Or.inr ⟨hc, hne⟩)
    (Or.inl hne)

theorem EntriesOk.timerTrap (h : s.EntriesOk) (hc : (s.cpu c).proc = some p)
    (hrun : (s.proc p).state = .running) : (s.timerTrap .mlfq c p).EntriesOk := by
  have hset : ({ s with mlfq := s.mlfq.setInfo p Mlfq.ticked } : State).EntriesOk := by
    refine Mlfq.Entered.setInfo h Mlfq.ticked ?_
    unfold Mlfq.ticked
    split <;> rfl
  unfold State.timerTrap
  dsimp only
  split
  · exact hset.yield hc hrun
  · exact hset

theorem EntriesOk.tickAccount (h : s.EntriesOk) : s.tickAccount.EntriesOk := by
  refine h.of_same rfl fun x hx => ⟨⟨?_, hx.2⟩, ?_⟩
  · exact (tickProc_state (s.proc x)).trans hx.1
  · have hsame : tickProc (s.proc x) = s.proc x :=
      tickProc_of_ne (by simp [hx.1]) (by simp [hx.1])
    exact congrArg Proc.pid hsame

/-- Every step of the MLFQ build keeps entries in the right queue. -/
theorem EntriesOk.next (h : s.EntriesOk) (hok : s.Ok) (enabled : s.Enabled l) :
    (s.next .mlfq l).EntriesOk := by
  have hhand : s.lk = .free → s.inHand = none := fun hlk => inHand_eq_none (by simp [hlk])
  have hembryo : ∀ {t stage np}, s.pc t = .alloc stage np → (s.proc np).state ≠ .runnable := by
    intro t stage np hpc
    have : (s.proc np).state = .embryo := TableOk.owns hok _ _ _ hpc
    simp [this]
  have hunused : ∀ {np}, s.unusedSlot = some np → (s.proc np).state ≠ .runnable := by
    intro np hnp
    simp [unusedSlot_spec hnp]
  cases l with
  | userinit np =>
    exact h.of_setProc (f := fun x => { x with state := .embryo, pid := s.nextpid }) rfl rfl
      (Or.inl rfl) (Or.inl (hunused enabled.2.2))
  | fork c p np =>
    exact h.of_setProc (f := fun x => { x with state := .embryo, pid := s.nextpid }) rfl rfl
      (Or.inl rfl) (Or.inl (hunused enabled.2.2))
  | allocKalloc c t np ok =>
    cases ok with
    | true => exact h.of_same rfl fun x hx => ⟨hx, rfl⟩
    | false =>
      exact h.of_setProc (f := fun x => { x with state := .unused }) rfl rfl (Or.inl rfl)
        (Or.inl (hembryo enabled.2.1))
  | allocCtime c t np =>
    exact h.of_setProc (p := np) (f := fun x => { x with ctime := toInt32 s.ticks }) rfl rfl
      (Or.inl rfl) (Or.inl (hembryo enabled.2.1))
  | allocInit c t np =>
    have hnot : ¬ s.Queued np := fun hq => hembryo enabled.2 hq.1
    have hset : ({ s with mlfq := s.mlfq.setInfo np fun _ => {} } : State).EntriesOk :=
      Mlfq.Entered.setInfo_of_not h hnot fun _ => {}
    change (s.allocInit .mlfq t np).EntriesOk
    unfold State.allocInit
    dsimp only
    split
    · exact hset.of_setProc (p := np) (f := fun x =>
        { x with etime := 0, rtime := 0, iotime := 0, nRun := 0, priority := 60 }) rfl rfl
        (Or.inl rfl) (Or.inl (hembryo enabled.2))
    · exact hset.of_setProc (p := np) (f := fun x =>
        { x with etime := 0, rtime := 0, iotime := 0, nRun := 0, priority := 60 }) rfl rfl
        (Or.inl rfl) (Or.inl (hembryo enabled.2))
  | allocCopy c t np ok =>
    cases ok with
    | true =>
      cases t with
      | none => exact h.of_same rfl fun x hx => ⟨hx, rfl⟩
      | some q =>
        exact h.of_setProc (f := fun x => { x with parent := some q }) rfl rfl (Or.inl rfl)
          (Or.inl (hembryo enabled.2.1))
    | false =>
      exact h.of_setProc (f := fun x => { x with state := .unused }) rfl rfl (Or.inl rfl)
        (Or.inl (hembryo enabled.2.1))
  | forkPublish c p np => exact h.makeRunnable (hhand enabled.1.1) np
  | userinitPublish np =>
    refine .of_insert (s := s) (p := np) ?_ rfl (hhand enabled.1.1)
    exact Mlfq.Entered.enqueueFirst h fun hq => hembryo enabled.2 hq.1
  | exit c p =>
    exact h.exit (hhand enabled.1.1) enabled.1.2.1 (hok.running enabled.1.1 enabled.1.2.1)
  | wait c p w =>
    exact h.waitBody (hhand enabled.1.1) enabled.1.2.1 (hok.running enabled.1.1 enabled.1.2.1) w
  | waitxStore c p child pid => exact h.of_same rfl fun x hx => ⟨hx, rfl⟩
  | kill c p pid => exact h.kill (hhand enabled.1.1) pid
  | trapKill c p =>
    exact h.of_setProc (f := fun x => { x with killed := true }) rfl rfl (Or.inl rfl)
      (Or.inr ⟨rfl, rfl⟩)
  | setPriority c p priority pid =>
    rw [State.next, State.setPriority]
    split
    · exact h
    · next q _ =>
      have hset : (s.setProc q fun x => { x with priority }).EntriesOk :=
        h.of_setProc rfl rfl (Or.inl rfl) (Or.inr ⟨rfl, rfl⟩)
      simp [hset]
  | yield c p =>
    exact EntriesOk.yield (s := s.setPc (some p) .user)
      (h.of_same rfl fun x hx => ⟨hx, rfl⟩) enabled.1.2.1
      (hok.running enabled.1.1 enabled.1.2.1)
  | sleep c p chan =>
    have hne : (s.proc p).state ≠ .runnable := by
      rw [hok.running enabled.1.1 enabled.1.2.1]
      simp
    exact h.of_setProc (f := fun y => y.asleep chan) rfl rfl (Or.inr ⟨enabled.1.2.1, hne⟩)
      (Or.inl hne)
  | wakeup chan => exact (h.wakeup1 (hhand enabled.1) _).1
  | schedule c => exact h.schedule
  | resumed c p =>
    exact h.resumed (inHand_eq_none (by simp [enabled.1])) enabled.2
      (TableOk.running hok c p enabled.2 (by simp [enabled.1]))
  | back c p => exact h.schedBack enabled.1 enabled.2
  | timerTrap c p => exact h.timerTrap enabled.2.1 (hok.running enabled.1 enabled.2.1)
  | tickInc => exact h.of_same rfl fun x hx => ⟨hx, rfl⟩
  | tickAccount => exact h.tickAccount
  | tickWake =>
    exact (h.wakeup1 (hhand enabled.1) _).1.of_same rfl fun x hx => ⟨hx, rfl⟩
  | tick =>
    have hinc : s.tickInc.EntriesOk := h.of_same rfl fun x hx => ⟨hx, rfl⟩
    exact (hinc.tickAccount.wakeup1 (hhand enabled.1) _).1.of_same rfl fun x hx => ⟨hx, rfl⟩

/-! ## The inversion lemma -/

/-- The inversion lemma for time slices. -/
theorem sliceStep_next (h : s.EntriesOk) (l : Label) (p : Slot) :
    SliceStep s l p ((s.next .mlfq l).mlfq.info p) := by
  cases l with
  | schedule c => exact .scheduled c rfl (scheduled_schedule h c p)
  | allocInit c t np =>
    have hinfo : (s.next .mlfq (.allocInit c t np)).mlfq.info =
        (s.mlfq.setInfo np fun _ => {}).info := by
      rw [next, allocInit]
      split <;> rfl
    rw [hinfo]
    by_cases hp : p = np
    · subst hp
      rw [Mlfq.setInfo_self]
      exact .reset ⟨c, t, rfl⟩ rfl
    · rw [Mlfq.setInfo_of_ne _ _ hp]
      exact .same (.refl _) (by simp)
  | userinitPublish np =>
    change SliceStep s _ p ((s.mlfq.enqueueFirst s.pids s.ticks np).info p)
    unfold Mlfq.enqueueFirst
    split
    · exact .same (.refl _) (by simp)
    · have happend := Mlfq.alike_append (s.mlfq.setInfo np fun i => { i with curQ := 0 })
        s.ticks 0 np p
      by_cases hp : p = np
      · subst hp
        rw [Mlfq.setInfo_self] at happend
        exact .first rfl (Or.inr happend)
      · rw [Mlfq.setInfo_of_ne _ _ hp] at happend
        exact .same happend (by simp)
  | back c q =>
    change SliceStep s _ p ((s.schedBack .mlfq c q).mlfq.info p)
    unfold schedBack
    dsimp only
    split
    · next hrun =>
      have henqueue : Alike ((s.mlfq.setInfo q Mlfq.demoted).info p)
          ((s.mlfq.requeue s.pids s.ticks q).info p) := Mlfq.alike_enqueue _ q p
      by_cases hp : p = q
      · subst hp
        rw [Mlfq.setInfo_self] at henqueue
        exact .back c rfl hrun henqueue
      · rw [Mlfq.setInfo_of_ne _ _ hp] at henqueue
        exact .same henqueue (by simp)
    · exact .same (.refl _) (by simp)
  | timerTrap c q =>
    have hinfo : (s.next .mlfq (.timerTrap c q)).mlfq.info =
        (s.mlfq.setInfo q Mlfq.ticked).info := by
      rw [next, timerTrap]
      split <;> rfl
    rw [hinfo]
    by_cases hp : p = q
    · subst hp
      rw [Mlfq.setInfo_self]
      exact .ticked c rfl rfl
    · rw [Mlfq.setInfo_of_ne _ _ hp]
      exact .same (.refl _) fun c' hl => hp (by cases hl; rfl)
  | allocKalloc c t np ok =>
    refine .same ?_ (by simp)
    rw [next, allocKalloc]
    split <;> exact .refl _
  | allocCopy c t np ok =>
    refine .same ?_ (by simp)
    rw [next, allocCopy_frame]
    exact .refl _
  | forkPublish c q np => exact .same (alike_makeRunnable s .mlfq np p) (by simp)
  | exit c q => exact .same (alike_exitDrift s .mlfq q p) (by simp)
  | wait c q w => exact .same (alike_waitBody s .mlfq c q w p) (by simp)
  | kill c q pid => exact .same (alike_kill s .mlfq pid p) (by simp)
  | setPriority c q priority pid =>
    refine .same ?_ (by simp)
    rw [next, setPriority_frame]
    exact .refl _
  | wakeup chan => exact .same (alike_wakeup1 s .mlfq _ p) (by simp)
  | resumed c q => exact .same (alike_resumed s .mlfq c q p) (by simp)
  | tickWake => exact .same (alike_wakeup1 s .mlfq _ p) (by simp)
  | tick => exact .same (alike_wakeup1 s.tickInc.tickAccount .mlfq _ p) (by simp)
  | userinit np | fork c q np | allocCtime c t np | waitxStore c q child pid | trapKill c q
  | yield c q | sleep c q chan | tickInc | tickAccount => exact .same (.refl _) (by simp)

end State

/-! ## The invariant -/

/-- The slice of every queue above the process's own is used up, and that of its
own queue too if the process is marked. -/
structure MlfqProc.SliceOk (x : MlfqProc) : Prop where
  curQ_le : x.curQ ≤ 4
  used : ∀ j, j < x.curQ → maxQueueTicks j ≤ x.q j
  marked : x.flg = true → maxQueueTicks x.curQ ≤ x.q x.curQ

namespace MlfqProc.SliceOk

variable {x y : MlfqProc}

theorem congr (h : SliceOk x) (hxy : Alike x y) : SliceOk y := by
  obtain ⟨hcur, hq, hflg⟩ := hxy
  refine ⟨?_, ?_, ?_⟩
  · rw [hcur]
    exact h.curQ_le
  · rw [hcur, hq]
    exact h.used
  · rw [hcur, hq, hflg]
    exact h.marked

theorem fresh : SliceOk {} := ⟨Nat.zero_le 4, nofun, nofun⟩

/-- Moving up keeps the verdict right: the slices above were used up. -/
theorem up (h : SliceOk x) {k : ℕ} (hk : k ≤ x.curQ) : SliceOk { x with curQ := k } := by
  refine ⟨hk.trans h.curQ_le, fun j hj => h.used j (lt_of_lt_of_le hj hk), fun hflg => ?_⟩
  rcases hk.eq_or_lt with rfl | hlt
  · exact h.marked hflg
  · exact h.used k hlt

/-- A charge to the own queue, with the mark set when the limit is reached. -/
theorem charged (h : SliceOk x) (hcur : y.curQ = x.curQ)
    (hq : y.q = update x.q y.curQ (x.q y.curQ + 1))
    (hflg : y.flg = (x.flg || decide (maxQueueTicks y.curQ ≤ y.q y.curQ))) : SliceOk y := by
  have hself : y.q y.curQ = x.q x.curQ + 1 := by rw [hq, update_self, hcur]
  refine ⟨?_, ?_, ?_⟩
  · rw [hcur]
    exact h.curQ_le
  · intro j hj
    rw [hq, update_of_ne hj.ne]
    exact h.used j (hcur ▸ hj)
  · intro hmark
    rw [hflg, Bool.or_eq_true, decide_eq_true_eq] at hmark
    rcases hmark with hold | hnew
    · have := h.marked hold
      rw [hself, hcur]
      omega
    · exact hnew

theorem demoted (h : SliceOk x) : SliceOk (Mlfq.demoted x) := by
  unfold Mlfq.demoted
  split
  · next hcond =>
    have hused : maxQueueTicks x.curQ ≤ x.q x.curQ := by
      rw [Bool.or_eq_true, decide_eq_true_eq] at hcond
      exact hcond.elim h.marked id
    have hle := h.curQ_le
    refine ⟨?_, fun j hj => ?_, nofun⟩
    · dsimp only
      split <;> omega
    · dsimp only at hj
      have hj' : j < x.curQ ∨ j = x.curQ := by
        split at hj <;> omega
      rcases hj' with hlt | rfl
      · exact h.used j hlt
      · exact hused
  · exact h

theorem ticked (h : SliceOk x) : SliceOk (Mlfq.ticked x) := by
  unfold Mlfq.ticked
  split
  · next hused => exact ⟨h.curQ_le, h.used, fun _ => hused⟩
  · next hunused =>
    refine ⟨h.curQ_le, fun j hj => ?_, fun hflg => absurd (h.marked hflg) hunused⟩
    dsimp only at hj ⊢
    rw [update_of_ne hj.ne]
    exact h.used j hj

end MlfqProc.SliceOk

namespace State

variable {s : State} {p : Slot} {l : Label}

theorem Scheduled.sliceOk {c : Cpu} {y : MlfqProc} (h : Scheduled s c p y)
    (hold : (s.mlfq.info p).SliceOk) : y.SliceOk := by
  have hle : y.curQ ≤ (s.mlfq.info p).curQ := by
    rcases h.curQ with hsame | ⟨-, hup⟩ <;> omega
  have hup := hold.up hle
  rcases h.charged with ⟨hq, hflg, -⟩ | ⟨-, -, hq, hflg⟩
  · exact hup.congr ⟨rfl, hq, hflg⟩
  · exact hup.charged rfl hq hflg

theorem SliceStep.sliceOk {y : MlfqProc} (h : SliceStep s l p y)
    (hold : (s.mlfq.info p).SliceOk) : y.SliceOk := by
  cases h with
  | same h _ => exact hold.congr h
  | reset _ h =>
    rw [h]
    exact .fresh
  | first _ h =>
    rcases h with h | h
    · exact hold.congr h
    · exact (hold.up (Nat.zero_le _)).congr h
  | scheduled c _ h => exact h.sliceOk hold
  | back c _ _ h => exact hold.demoted.congr h
  | ticked c _ h =>
    rw [h]
    exact hold.ticked

end State

/-- Entries are in the right queue in every reachable state. -/
theorem entriesOk_of_reachable {s : State} (h : (system .mlfq).Reachable s) : s.EntriesOk := by
  refine h.invariant_of_reachable ?_ ?_
  · rintro s rfl
    exact ⟨fun _ => le_refl _, nofun, fun _ => List.nodup_nil⟩
  · exact fun s l hs he enabled => he.next (ok_of_reachable hs) enabled

/-- Time slices are in order in every reachable state. -/
theorem sliceOk_of_reachable {s : State} (h : (system .mlfq).Reachable s) (p : Slot) :
    (s.mlfq.info p).SliceOk := by
  refine h.invariant_of_reachable (I := fun s => (s.mlfq.info p).SliceOk) ?_ ?_
  · rintro s rfl
    exact .fresh
  · intro s l hs hp _
    exact (State.sliceStep_next (entriesOk_of_reachable hs) l p).sliceOk hp

/-- No premature demotion. A process that is not `EMBRYO` has used up the slice of
every queue above its own, and of its own if it is marked; a step changes its
queue only by one up in the aging pass or by one down when it comes back runnable
from a run; and a sleeping process stays in the queue it left and enters no other.
(For an `UNUSED` slot this is about the process that was there last.) -/
theorem no_premature_demotion {s : State} (h : (system .mlfq).Reachable s) {p : Slot}
    (hembryo : (s.proc p).state ≠ .embryo) :
    (∀ j < (s.mlfq.info p).curQ, maxQueueTicks j ≤ (s.mlfq.info p).q j) ∧
    (s.mlfq.info p).curQ ≤ 4 ∧
    ((s.mlfq.info p).flg = true →
      maxQueueTicks (s.mlfq.info p).curQ ≤ (s.mlfq.info p).q (s.mlfq.info p).curQ) ∧
    ∀ l, s.Enabled l →
      let s' := s.next .mlfq l
      ((s'.mlfq.info p).curQ = (s.mlfq.info p).curQ ∨
        (∃ c, l = .schedule c) ∧ (s'.mlfq.info p).curQ + 1 = (s.mlfq.info p).curQ ∨
        (∃ c, l = .back c p) ∧ (s.proc p).state = .runnable ∧
          (s'.mlfq.info p).curQ = (s.mlfq.info p).curQ + 1) ∧
      ((s.proc p).state = .sleeping → (s'.mlfq.info p).curQ = (s.mlfq.info p).curQ) ∧
      ∀ i, some p ∈ (s'.mlfq.qu i).contents → (s'.mlfq.info p).curQ = i := by
  have hslice := sliceOk_of_reachable h p
  refine ⟨hslice.used, hslice.curQ_le, hslice.marked, fun l enabled => ?_⟩
  have hentries : (s.next .mlfq l).EntriesOk := entriesOk_of_reachable (h.step enabled)
  have hok := ok_of_reachable h
  refine ⟨?_, ?_, ?_⟩
  · cases State.sliceStep_next (entriesOk_of_reachable h) l p with
    | same hsame _ => exact Or.inl hsame.curQ
    | reset hl _ =>
      obtain ⟨c, t, rfl⟩ := hl
      exact absurd (TableOk.owns hok t _ p enabled.2) hembryo
    | first hl _ =>
      subst hl
      exact absurd (TableOk.owns hok none _ p enabled.2) hembryo
    | scheduled c hl hs =>
      rcases hs.curQ with hsame | ⟨-, hup⟩
      · exact Or.inl hsame
      · exact Or.inr (Or.inl ⟨⟨c, hl⟩, hup⟩)
    | back c hl hrun hdem =>
      rw [hdem.curQ]
      unfold Mlfq.demoted
      split
      · dsimp only
        split
        · exact Or.inr (Or.inr ⟨⟨c, hl⟩, hrun, rfl⟩)
        · exact Or.inl rfl
      · exact Or.inl rfl
    | ticked c _ htick =>
      refine Or.inl ?_
      rw [htick]
      unfold Mlfq.ticked
      split <;> rfl
  · intro hsleep
    cases State.sliceStep_next (entriesOk_of_reachable h) l p with
    | same hsame _ => exact hsame.curQ
    | reset hl _ =>
      obtain ⟨c, t, rfl⟩ := hl
      exact absurd (TableOk.owns hok t _ p enabled.2) hembryo
    | first hl _ =>
      subst hl
      exact absurd (TableOk.owns hok none _ p enabled.2) hembryo
    | scheduled c _ hs =>
      rcases hs.curQ with hsame | ⟨hq, -⟩
      · exact hsame
      · exact absurd (hsleep.symm.trans hq.1) nofun
    | back c _ hrun _ =>
      rw [hsleep] at hrun
      cases hrun
    | ticked c hl _ =>
      subst hl
      rw [hok.running enabled.1 enabled.2.1] at hsleep
      cases hsleep
  · intro i hi
    obtain ⟨q, hq, -, hcur⟩ := hentries.mem i _ hi
    cases hq
    exact hcur

set_option maxRecDepth 10000 in
/-- The first process uses up the slice of queue `0` and is moved to queue `1`. -/
theorem first_process_demoted : ∃ s, (system .mlfq).Reachable s ∧
    (s.mlfq.info 0).curQ = 1 ∧ maxQueueTicks 0 ≤ (s.mlfq.info 0).q 0 := by
  obtain ⟨s, hs, hrun, hcur⟩ := Machine.exists_reachable_of_exec (system .mlfq)
    (boot ++ [.schedule 0, .resumed 0 0, .timerTrap 0 0, .timerTrap 0 0, .back 0 0]) (s := {})
    (P := fun s => (s.proc 0).state = .runnable ∧ (s.mlfq.info 0).curQ = 1) rfl
    (by decide +kernel)
  have hused := (no_premature_demotion hs (p := 0) (by simp [hrun])).1
  exact ⟨s, hs, hcur, hused 0 (by rw [hcur]; decide)⟩

end Xv6.Ptable
