/-
# Who owns which slot

The invariant that ties together process states, processors, the lock and the
threads in the middle of `fork`: a processor runs a `RUNNING` process and no two
run the same one; while a process is on its way out through `sched` it is the
only exception; and a slot that a thread is setting up is `EMBRYO` and belongs to
that thread alone.

The invariant depends on four views of the state only, and it is proved for the
few patterns in which a step changes them. Each label is then one pattern.
-/

import Xv6.Lib.Scan
import Xv6.Ptable.Frame
import Xv6.Ptable.System

namespace Xv6.Ptable

open Function Xv6.Lib

/-- Ownership of slots by processors and by threads. -/
structure TableOk (st : Slot → ProcState) (cpu : Cpu → Option Slot) (lk : Lk)
    (pc : Thread → Pc) : Prop where
  running : ∀ c p, cpu c = some p → lk ≠ .back c → st p = .running
  back : ∀ c, lk = .back c → ∃ p, cpu c = some p ∧
    (st p = .runnable ∨ st p = .sleeping ∨ st p = .zombie)
  inj : ∀ c c' p, cpu c = some p → cpu c' = some p → c = c'
  owns : ∀ t stage np, pc t = .alloc stage np → st np = .embryo
  owns_inj : ∀ t t' stage stage' np,
    pc t = .alloc stage np → pc t' = .alloc stage' np → t = t'

namespace TableOk

variable {st : Slot → ProcState} {cpu : Cpu → Option Slot} {lk : Lk} {pc : Thread → Pc}

/-- Processes on a processor are running or on their way out. -/
theorem state_of_cpu (h : TableOk st cpu lk pc) {c : Cpu} {p : Slot} (hc : cpu c = some p) :
    st p = .running ∨ lk = .back c ∧
      (st p = .runnable ∨ st p = .sleeping ∨ st p = .zombie) := by
  grind [h.back, h.running]

/-- A thread takes an unused slot. -/
theorem take (h : TableOk st cpu .free pc) {t : Thread} {np : Slot} (hnp : st np = .unused)
    (stage : AllocStage) :
    TableOk (update st np .embryo) cpu .free
      (update pc t (.alloc stage np)) := by
  have hother : ∀ p, st p ≠ .unused → update st np .embryo p = st p := by
    intro p hp
    have : p ≠ np := fun hEq => hp (hEq ▸ hnp)
    simp [this]
  refine ⟨?_, nofun, h.inj, ?_, ?_⟩
  · intro c p hc _
    have hrun := h.running c p hc nofun
    rw [hother p (by simp [hrun]), hrun]
  · grind [h.owns]
  · intro t₁ t₂ stage₁ stage₂ np' h₁ h₂
    have hfresh : ∀ t' stage', pc t' ≠ .alloc stage' np := by
      intro t' stage' hpc
      have := h.owns t' stage' np hpc
      rw [hnp] at this
      cases this
    grind [h.owns_inj]

/-- A thread goes on with the slot it owns. -/
theorem advance (h : TableOk st cpu lk pc) {t : Thread} {np : Slot}
    {stage : AllocStage} (hpc : pc t = .alloc stage np) (stage' : AllocStage) :
    TableOk st cpu lk (update pc t (.alloc stage' np)) := by
  have hwas : ∀ t' stage'' np', update pc t (.alloc stage' np) t' = .alloc stage'' np' →
      ∃ stage₀, pc t' = .alloc stage₀ np' := by
    grind
  refine ⟨h.running, h.back, h.inj, ?_, ?_⟩
  · grind [h.owns]
  · grind [h.owns_inj]

/-- A thread gives up the slot it owns, which leaves `EMBRYO`. -/
theorem giveUp (h : TableOk st cpu .free pc) {t : Thread} {np : Slot} {stage : AllocStage}
    {x : ProcState} (hpc : pc t = .alloc stage np) :
    TableOk (update st np x) cpu .free (update pc t .user) := by
  have hemb := h.owns t stage np hpc
  refine ⟨?_, nofun, h.inj, ?_, ?_⟩
  · grind [h.running]
  · grind [h.owns_inj, h.owns]
  · intro t₁ t₂ stage₁ stage₂ np' h₁ h₂
    grind [h.owns_inj]

section

variable (h : TableOk st cpu lk pc)

include h

/-- A thread that owns no slot moves to a place where it owns none. -/
theorem move {t : Thread} {x : Pc} (hx : ∀ stage np, x ≠ .alloc stage np) :
    TableOk st cpu lk (update pc t x) := by
  have hold : ∀ t' stage' np', update pc t x t' = .alloc stage' np' →
      pc t' = .alloc stage' np' := by
    grind
  refine ⟨h.running, h.back, h.inj, ?_, ?_⟩
  · intro t' stage' np' h'
    exact h.owns t' stage' np' (hold t' stage' np' h')
  · grind [h.owns_inj]

/-- States change only where nobody owns the slot. -/
theorem of_states {st' : Slot → ProcState}
    (hst : ∀ p, st p = .running ∨ st p = .embryo → st' p = st p)
    (hback : ∀ c p, lk = .back c → cpu c = some p → st' p = .runnable ∨ st' p = .sleeping ∨ st' p = .zombie) :
    TableOk st' cpu lk pc := by
  refine ⟨?_, ?_, h.inj, ?_, h.owns_inj⟩
  · intro c p hc hlk
    have hrun := h.running c p hc hlk
    rw [hst p (Or.inl hrun), hrun]
  · intro c hlk
    obtain ⟨p, hc, -⟩ := h.back c hlk
    exact ⟨p, hc, hback c p hlk hc⟩
  · intro t stage np hpc
    have hemb := h.owns t stage np hpc
    rw [hst np (Or.inr hemb), hemb]

/-- The process on processor `c` calls `sched`. -/
theorem leave (hlk : ∀ c', lk ≠ .back c') {c : Cpu} {p : Slot} (hc : cpu c = some p)
    {x : ProcState} (hx : x = .runnable ∨ x = .sleeping ∨ x = .zombie) :
    TableOk (update st p x) cpu (.back c) pc := by
  have hrun := h.running c p hc (hlk c)
  refine ⟨?_, ?_, h.inj, ?_, h.owns_inj⟩
  · grind [h.inj, h.running]
  · intro c' hEq
    cases hEq
    exact ⟨p, hc, by simpa using hx⟩
  · grind [h.owns]

/-- The scheduler on processor `c` switches to a runnable process. -/
theorem dispatch {c : Cpu} {p : Slot}
    (hlk : lk = .free ∧ cpu c = none ∨ lk = .back c ∧ cpu c ≠ some p) (hp : st p = .runnable) :
    TableOk (update st p .running) (update cpu c (some p)) (.resume c) pc := by
  have hfree : ∀ c', cpu c' ≠ some p := by
    intro c' hc'
    rcases h.state_of_cpu hc' with hrun | ⟨hback, -⟩
    · rw [hp] at hrun
      cases hrun
    · grind
  have hother : ∀ c', c' ≠ c → lk ≠ .back c' := by
    grind
  refine ⟨?_, (by simp), ?_, ?_, h.owns_inj⟩
  · grind [h.running]
  · grind [h.inj]
  · grind [h.owns]

/-- The scheduler on processor `c` releases the lock with nothing to run. -/
theorem idle {c : Cpu} (hlk : lk = .free ∨ lk = .back c) :
    TableOk st (update cpu c none) .free pc := by
  have hold : ∀ c' p', update cpu c none c' = some p' → c' ≠ c ∧ cpu c' = some p' := by
    grind
  refine ⟨?_, nofun, ?_, h.owns, h.owns_inj⟩
  · grind [h.running]
  · intro c₁ c₂ p' h₁ h₂
    exact h.inj c₁ c₂ p' (hold c₁ p' h₁).2 (hold c₂ p' h₂).2

/-- The resumed process releases the lock. -/
theorem release (hlk : ∀ c, lk ≠ .back c) : TableOk st cpu .free pc :=
  ⟨fun c p hc _ => h.running c p hc (hlk c), nofun, h.inj, h.owns, h.owns_inj⟩

end

end TableOk

namespace State

variable {s : State} {b : Build} {c : Cpu} {p : Slot}

/-- The ownership invariant of a kernel state. -/
def Ok (s : State) : Prop := TableOk s.states s.procs s.lk s.pc

theorem rrNext_spec {k : ℕ} (h : s.rrNext k = some p) :
    k ≤ p.val ∧ (s.proc p).state = .runnable := by
  simpa using List.find?_some h

theorem pbsNext_spec {hp : Slot} {k : ℕ} (h : s.pbsNext hp k = some p) :
    k ≤ p.val ∧ (s.proc p).state = .runnable := by
  unfold pbsNext at h
  grind

/-- The scan of FCFS prefers the process with the larger creation time. -/
theorem isScan_fcfsScan (s : State) : IsScan s.fcfsScan (fun p => (s.proc p).state = .runnable)
    fun p => -(s.proc p).ctime where
  skip best p hp := if_pos hp
  first p hp := if_neg (not_not.mpr hp)
  better y p hp hlt := by rw [fcfsScan, if_neg (not_not.mpr hp), if_pos (by omega)]
  keep y p hp hge := by rw [fcfsScan, if_neg (not_not.mpr hp), if_neg (by omega)]

theorem fcfsPick_spec (h : s.fcfsPick = some p) : (s.proc p).state = .runnable := by
  have hbest := s.isScan_fcfsScan.foldl (List.finRange NPROC)
  rw [← fcfsPick, h] at hbest
  exact hbest.1

theorem pickHead_spec {m : Mlfq} {i : ℕ} (h : m.pickHead s.states = some (i, p)) :
    (s.proc p).state = .runnable := by
  unfold Mlfq.pickHead at h
  split at h
  · cases h
  · split at h
    · cases h
    · split at h
      · next hrun =>
        cases h
        exact hrun
      · cases h

@[simp]
theorem dispatch_states (s : State) (c : Cpu) (p : Slot) (hp : Option Slot) :
    (s.dispatch c p hp).states = update s.states p .running :=
  setProc_states s p fun x => { x with nRun := x.nRun + 1, state := .running }

@[simp]
theorem goToSleep_states (s : State) (c : Cpu) (p : Slot) (chan : Chan) (r : Resume) :
    (s.goToSleep c p chan r).states = update s.states p .sleeping :=
  setProc_states s p fun x => x.asleep chan

@[simp]
theorem yield_states (s : State) (c : Cpu) (p : Slot) :
    (s.yield c p).states = update s.states p .runnable :=
  setProc_states s p fun x => { x with state := .runnable }

@[simp]
theorem reap_states (s : State) (b : Build) (p : Slot) :
    (s.reap b p).states = update s.states p .unused :=
  setProc_states s p Proc.freed

@[simp]
theorem dispatch_procs (s : State) (c : Cpu) (p : Slot) (hp : Option Slot) :
    (s.dispatch c p hp).procs = update s.procs c (some p) := by
  funext c'
  by_cases hc : c' = c
  · subst hc
    simp [procs, dispatch]
  · simp [procs, dispatch, setProc, hc]

@[simp]
theorem schedIdle_procs (s : State) (c : Cpu) :
    (s.schedIdle c).procs = update s.procs c none := by
  funext c'
  by_cases hc : c' = c
  · subst hc
    simp [procs, schedIdle]
  · simp [procs, schedIdle, hc]

theorem Ok.drift {s' : State} (h : s.Ok) (hd : Drift s s') : s'.Ok := by
  have hst : ∀ p, s.states p = .running ∨ s.states p = .embryo → s'.states p = s.states p := by
    intro p hp
    refine hd.state_of_ne_sleeping ?_
    rintro hsleep
    rcases hp with hp | hp <;>
    · rw [states, hsleep] at hp
      cases hp
  have := TableOk.of_states h hst (by
    intro c p hlk hc
    obtain ⟨q, hq, hcases⟩ := h.back c hlk
    rw [hc] at hq
    cases hq
    rcases hd.state p with hsame | ⟨-, hrun⟩
    · rw [states, hsame]
      exact hcases
    · exact Or.inl hrun)
  unfold Ok procs
  rw [hd.cpu, hd.lk, hd.pc]
  exact this

theorem Ok.dispatch (h : s.Ok) {hp : Option Slot}
    (hlk : s.lk = .free ∧ s.procs c = none ∨ s.lk = .back c ∧ s.procs c ≠ some p)
    (hrun : (s.proc p).state = .runnable) : (s.dispatch c p hp).Ok := by
  have := TableOk.dispatch h hlk hrun
  unfold Ok
  rw [dispatch_states, dispatch_procs]
  exact this

theorem Ok.schedIdle (h : s.Ok) (hlk : s.lk = .free ∨ s.lk = .back c) :
    (s.schedIdle c).Ok := by
  have := TableOk.idle h hlk
  unfold Ok
  rw [schedIdle_procs]
  exact this

/-- Processes on a processor are running while the lock is free. -/
theorem Ok.running (h : s.Ok) (hlk : s.lk = .free) (hc : (s.cpu c).proc = some p) :
    (s.proc p).state = .running :=
  TableOk.running h c p hc (by simp [hlk])

/-- Changing members of a process other than its state keeps the invariant. -/
theorem Ok.setProc (h : s.Ok) (f : Proc → Proc)
    (hf : (f (s.proc p)).state = (s.proc p).state) : (s.setProc p f).Ok := by
  unfold Ok
  rw [setProc_states, hf, update_states_self]
  exact h

theorem Ok.goToSleep (h : s.Ok) (hlk : ∀ c', s.lk ≠ .back c')
    (hc : (s.cpu c).proc = some p) (chan : Chan) (r : Resume) :
    (s.goToSleep c p chan r).Ok := by
  have := TableOk.leave h hlk (c := c) hc (x := .sleeping) (Or.inr (Or.inl rfl))
  unfold Ok
  rw [goToSleep_states]
  exact this

theorem Ok.yield (h : s.Ok) (hlk : s.lk = .free) (hc : (s.cpu c).proc = some p) :
    (s.yield c p).Ok := by
  have := TableOk.leave h (by simp [hlk]) (c := c) hc (x := .runnable) (Or.inl rfl)
  unfold Ok
  rw [yield_states]
  exact this

theorem zombieChild_spec {cur : Slot} (h : s.zombieChild cur = some p) :
    (s.proc p).parent = some cur ∧ (s.proc p).state = .zombie := by
  simpa using List.find?_some h

theorem Ok.waitBody (h : s.Ok) (hlk : ∀ c', s.lk ≠ .back c')
    (hc : (s.cpu c).proc = some p) (x : Bool) : (s.waitBody b c p x).Ok := by
  unfold State.waitBody
  split
  · next child hchild =>
    have hzombie := (zombieChild_spec hchild).2
    have hreap : TableOk (update s.states child .unused) s.procs .free s.pc := by
      refine (TableOk.release h hlk).of_states ?_ (by simp)
      intro q hq
      have hne : q ≠ child := by
        rintro rfl
        rcases hq with hq | hq <;>
        · rw [states, hzombie] at hq
          cases hq
      rw [update_of_ne hne]
    rw [← reap_states s b child] at hreap
    dsimp only
    split
    · exact TableOk.move hreap (by simp)
    · exact hreap
  · split
    · exact TableOk.release h hlk
    · exact h.goToSleep hlk hc _ _

/-! ## Every label keeps the invariant -/

theorem unusedSlot_spec (h : s.unusedSlot = some p) : (s.proc p).state = .unused := by
  simpa using List.find?_some h

theorem Executes.lk_free {t : Thread} (h : s.Executes c t) : s.lk = .free := by
  cases t with
  | none => exact h.1
  | some p => exact h.1

section

variable (h : s.Ok)

include h

theorem Ok.allocFound (hlk : s.lk = .free) {np : Slot} (hnp : (s.proc np).state = .unused)
    (t : Thread) : (s.allocFound t np).Ok := by
  have hfree : TableOk s.states s.procs .free s.pc := hlk ▸ h
  have := hfree.take (t := t) hnp .kalloc
  have hstates : (s.allocFound t np).states = update s.states np .embryo :=
    setProc_states s np fun x => { x with state := .embryo, pid := s.nextpid }
  unfold Ok
  rw [hstates]
  exact hlk ▸ this

/-- A thread drops the slot it was setting up, in a state that is not `EMBRYO`. -/
theorem Ok.giveUp (hlk : s.lk = .free) {t : Thread} {np : Slot} {stage : AllocStage}
    (hpc : s.pc t = .alloc stage np) (x : ProcState) :
    ((s.setProc np fun y => { y with state := x }).setPc t .user).Ok := by
  have hfree : TableOk s.states s.procs .free s.pc := hlk ▸ h
  have := hfree.giveUp (x := x) hpc
  unfold Ok
  change TableOk (s.setProc np fun y => { y with state := x }).states _ _ _
  rw [setProc_states]
  exact hlk ▸ this

theorem Ok.allocKalloc (hlk : s.lk = .free) {t : Thread} {np : Slot}
    (hpc : s.pc t = .alloc .kalloc np) (ok : Bool) : (s.allocKalloc t np ok).Ok := by
  unfold State.allocKalloc
  split
  · exact TableOk.advance h hpc .ctime
  · exact h.giveUp hlk hpc .unused

theorem Ok.allocCtime {t : Thread} {np : Slot} (hpc : s.pc t = .alloc .ctime np) :
    (s.allocCtime t np).Ok :=
  TableOk.advance
    (h.setProc (p := np) (fun x => { x with ctime := toInt32 s.ticks }) rfl) hpc .init

theorem Ok.allocInit {t : Thread} {np : Slot} (hpc : s.pc t = .alloc .init np) :
    (s.allocInit b t np).Ok := by
  have := TableOk.advance (h.setProc (p := np) (fun x =>
    { x with etime := 0, rtime := 0, iotime := 0, nRun := 0, priority := 60 }) rfl) hpc .copy
  unfold State.allocInit
  dsimp only
  split
  · exact this
  · exact this

theorem Ok.allocCopy (hlk : s.lk = .free) {t : Thread} {np : Slot}
    (hpc : s.pc t = .alloc .copy np) (ok : Bool) : (s.allocCopy t np ok).Ok := by
  unfold State.allocCopy
  split
  · dsimp only
    split
    · exact TableOk.advance h hpc .publish
    · exact TableOk.advance (h.setProc (p := np) (fun x => { x with parent := t }) rfl) hpc .publish
  · exact h.giveUp hlk hpc .unused

theorem Ok.makeRunnable (hp : (s.proc p).state = .sleeping) : (s.makeRunnable b p).Ok := by
  refine h.drift ⟨rfl, ?_, ?_⟩
  · intro x
    by_cases hx : x = p
    · subst hx
      simp [State.makeRunnable, queues]
    · simp [State.makeRunnable, queues, setProc_proc_of_ne s _ hx]
  · intro x
    by_cases hx : x = p
    · subst hx
      simp [State.makeRunnable, queues, hp]
    · simp [State.makeRunnable, queues, setProc_proc_of_ne s _ hx]

theorem Ok.kill (pid : ℤ) : (s.kill b pid).Ok := by
  unfold State.kill
  split
  · exact h
  · dsimp only
    split
    · next hsleep => exact (h.setProc (fun x => { x with killed := true }) rfl).makeRunnable hsleep
    · exact h.setProc (fun x => { x with killed := true }) rfl

theorem Ok.setPriority (t : Thread) (priority pid : ℤ) : (s.setPriority b t priority pid).Ok := by
  unfold State.setPriority
  split
  · exact h
  · dsimp only
    split
    · exact TableOk.move (h.setProc (fun x => { x with priority }) rfl) nofun
    · exact h.setProc (fun x => { x with priority }) rfl

theorem Ok.exit (hlk : s.lk = .free) (hc : (s.cpu c).proc = some p) : (s.exit b c p).Ok := by
  have hd := drift_exitDrift s b p
  have := TableOk.leave (h.drift hd) (by simp [hd.lk, hlk]) (c := c) (p := p)
    (by rw [procs, hd.cpu, hc]) (x := .zombie) (Or.inr (Or.inr rfl))
  have hstates : (s.exit b c p).states =
      update (s.exitDrift b p).states p .zombie :=
    setProc_states (s.exitDrift b p) p fun x =>
      { x with state := .zombie, etime := toInt32 (s.exitDrift b p).ticks }
  unfold Ok
  rw [hstates]
  exact this

theorem Ok.schedule (hlk : s.lk = .free) (hc : (s.cpu c).proc = none) : (s.schedule b c).Ok := by
  have hpick : ∀ {p : Slot} {hp : Option Slot}, (s.proc p).state = .runnable →
      (s.dispatch c p hp).Ok := fun hrun => h.dispatch (Or.inl ⟨hlk, hc⟩) hrun
  have hidle : (s.schedIdle c).Ok := h.schedIdle (Or.inl hlk)
  unfold State.schedule
  cases b with
  | rr =>
    dsimp only
    split
    · next p hp => exact hpick (rrNext_spec hp).2
    · exact hidle
  | fcfs =>
    dsimp only
    split
    · next p hp => exact hpick (fcfsPick_spec hp)
    · exact hidle
  | pbs =>
    dsimp only
    split
    · split
      · next p hp => exact hpick (pbsNext_spec hp).2
      · exact hidle
    · exact hidle
  | mlfq =>
    dsimp only
    split
    · next i p hp =>
      exact Ok.dispatch (s := { s with mlfq := _ }) h (Or.inl ⟨hlk, hc⟩)
        (pickHead_spec (s := s) hp)
    · exact hidle

theorem Ok.schedBack (hlk : s.lk = .back c) (hc : (s.cpu c).proc = some p) :
    (s.schedBack b c p).Ok := by
  have hpick : ∀ {p' : Slot} {hp : Option Slot}, p.val + 1 ≤ p'.val →
      (s.proc p').state = .runnable → (s.dispatch c p' hp).Ok := by
    intro p' hp hle hrun
    refine h.dispatch (Or.inr ⟨hlk, ?_⟩) hrun
    rw [procs, hc]
    rintro hEq
    cases hEq
    omega
  have hidle : (s.schedIdle c).Ok := h.schedIdle (Or.inr hlk)
  unfold State.schedBack
  cases b with
  | rr =>
    grind [rrNext_spec]
  | fcfs => exact hidle
  | pbs =>
    grind [pbsNext_spec]
  | mlfq =>
    dsimp only
    split
    · exact Ok.schedIdle (s := { s with mlfq := _ }) h (Or.inr hlk)
    · exact hidle

theorem Ok.resumed (hlk : s.lk = .resume c) (hc : (s.cpu c).proc = some p) :
    (s.resumed b c p).Ok := by
  unfold State.resumed
  split
  · exact TableOk.release h (by simp [hlk])
  · exact TableOk.release (h.setProc (p := p) (fun x => { x with chan := none }) rfl)
      (by simp [State.setProc, hlk])
  · exact (h.setProc (p := p) (fun x => { x with chan := none }) rfl).waitBody
      (by simp [State.setProc, hlk]) hc _

end

theorem tickProc_state (x : Proc) : (tickProc x).state = x.state := by
  unfold tickProc
  split <;> rfl

/-- A pass over a process that neither runs nor sleeps changes nothing. -/
theorem tickProc_of_ne {x : Proc} (hrun : x.state ≠ .running) (hsleep : x.state ≠ .sleeping) :
    tickProc x = x := by
  unfold tickProc
  split <;> simp_all

theorem Ok.tickAccount (h : s.Ok) : s.tickAccount.Ok := by
  have hstates : s.tickAccount.states = s.states := by
    funext p
    exact tickProc_state (s.proc p)
  unfold Ok
  rw [hstates]
  exact h

theorem Ok.tickWake (h : s.Ok) : (s.tickWake b).Ok := by
  have := h.drift (drift_wakeup1 s b (some .ticks))
  unfold State.tickWake
  exact this

theorem Ok.timerTrap (h : s.Ok) (hlk : s.lk = .free) (hc : (s.cpu c).proc = some p) :
    (s.timerTrap b c p).Ok := by
  unfold State.timerTrap
  cases b with
  | mlfq =>
    dsimp only
    split
    · exact Ok.yield (s := { s with mlfq := _ }) h hlk hc
    · exact h
  | fcfs => exact h
  | rr | pbs => exact h.yield hlk hc

/-- Every step keeps the ownership invariant. -/
theorem Ok.next (h : s.Ok) {l : Label} (enabled : s.Enabled l) : (s.next b l).Ok := by
  cases l with
  | userinit np => exact h.allocFound enabled.1.lk_free (unusedSlot_spec enabled.2.2) _
  | fork c p np => exact h.allocFound enabled.1.1 (unusedSlot_spec enabled.2.2) _
  | allocKalloc c t np ok => exact h.allocKalloc enabled.1.lk_free enabled.2.1 ok
  | allocCtime c t np => exact h.allocCtime enabled.2.1
  | allocInit c t np => exact h.allocInit enabled.2
  | allocCopy c t np ok => exact h.allocCopy enabled.1.lk_free enabled.2.1 ok
  | forkPublish c p np => exact h.giveUp enabled.1.1 enabled.2 .runnable
  | userinitPublish np => exact h.giveUp enabled.1.lk_free enabled.2 .runnable
  | exit c p => exact h.exit enabled.1.1 enabled.1.2.1
  | wait c p x => exact h.waitBody (by simp [enabled.1.1]) enabled.1.2.1 x
  | waitxStore c p child pid => exact TableOk.move h nofun
  | kill c p pid => exact h.kill pid
  | trapKill c p => exact h.setProc (fun x => { x with killed := true }) rfl
  | setPriority c p priority pid => exact h.setPriority _ priority pid
  | yield c p =>
    exact Ok.yield (s := s.setPc (some p) .user) (TableOk.move h nofun) enabled.1.1 enabled.1.2.1
  | sleep c p chan => exact h.goToSleep (by simp [enabled.1.1]) enabled.1.2.1 _ _
  | wakeup chan => exact h.drift (drift_wakeup1 s b _)
  | schedule c => exact h.schedule enabled.1 enabled.2.1
  | resumed c p => exact h.resumed enabled.1 enabled.2
  | back c p => exact h.schedBack enabled.1 enabled.2
  | timerTrap c p => exact h.timerTrap enabled.1 enabled.2.1
  | tickInc => exact h
  | tickAccount => exact h.tickAccount
  | tickWake => exact h.tickWake
  | tick => exact (Ok.tickAccount (s := s.tickInc) h).tickWake

theorem ok_init : ({} : State).Ok :=
  ⟨nofun, nofun, nofun, nofun, nofun⟩

end State

/-- Slots are properly owned in every reachable state of every build. -/
theorem ok_of_reachable {b : Build} {s : State} (h : (system b).Reachable s) : s.Ok := by
  refine h.invariant ?_ fun s l hs enabled => hs.next enabled
  rintro s rfl
  exact State.ok_init

/-- In every reachable state of every build no process is on two processors, and no slot is set
up by two threads. While `ptable.lock` is free, a process on a processor is `RUNNING`; a slot
that is set up is an `EMBRYO`, which no scheduler picks. -/
theorem one_processor_each {b : Build} {s : State} (h : (system b).Reachable s) :
    (∀ c c' p, (s.cpu c).proc = some p → (s.cpu c').proc = some p → c = c') ∧
    (s.lk = .free → ∀ c p, (s.cpu c).proc = some p → (s.proc p).state = .running) ∧
    ∀ t stage np, s.pc t = .alloc stage np → (s.proc np).state = .embryo ∧
      ∀ t' stage', s.pc t' = .alloc stage' np → t' = t := by
  have hok := ok_of_reachable h
  refine ⟨hok.inj, fun hlk c p hc => hok.running hlk hc, fun t stage np ht => ?_⟩
  exact ⟨hok.owns t stage np ht, fun t' stage' ht' => hok.owns_inj t' t _ _ np ht' ht⟩

theorem one_processor_each_two : ∃ s : State, (s.cpu 0).proc = some 1 ∧
    (s.proc 1).state = .running := by
  obtain ⟨s, hs, hlk, hcpu⟩ := Machine.exists_reachable_of_exec (system .rr)
    (boot ++ [.schedule 1, .resumed 1 0] ++ forkLabels 1 0 1 ++ [.schedule 0, .resumed 0 1])
    (s := {}) (P := fun s => s.lk = .free ∧ (s.cpu 0).proc = some 1) rfl (by decide +kernel)
  exact ⟨s, hcpu, (one_processor_each hs).2.1 hlk 0 1 hcpu⟩

end Xv6.Ptable
