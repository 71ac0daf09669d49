/-
# Time accounting

The clock interrupt counts a tick first and charges it to the processes later,
so while it is in between one tick is counted but not charged. `accounted` is the
number of ticks charged so far. Every process that is alive has been charged
every one of them since its `ctime` was taken, as run time, as sleep time, or not
at all, and the last kind is what the history variable `waitedSinceCtime` counts.
The bounds on the times and the exact waiting time both follow.
-/

import Xv6.Ptable.Steps

namespace Xv6.Ptable

open Xv6.Lib

/-- Processes that have left `EMBRYO` and not become `ZOMBIE`. -/
def Proc.Alive (x : Proc) : Prop :=
  x.state = .sleeping ∨ x.state = .runnable ∨ x.state = .running

/-- The stages of a new process after `ctime` has been stored. -/
def AllocStage.hasCtime : AllocStage → Bool
  | .init | .copy | .publish => true
  | _ => false

/-- The stages after the counters have been zeroed. -/
def AllocStage.hasCounters : AllocStage → Bool
  | .copy | .publish => true
  | _ => false

namespace State

variable {s : State} {b : Build} {c : Cpu} {p : Slot} {l : Label} {t : Thread}

/-- Ticks the accounting pass has been run for. -/
def accounted (s : State) : ℤ :=
  if s.tick = .account then s.ghost.tickCount - 1 else s.ghost.tickCount

theorem accounted_le (s : State) : s.accounted ≤ s.ghost.tickCount := by
  unfold accounted
  split <;> omega

/-- The times of a process with its uncharged ticks. -/
def span (s : State) (p : Slot) : ℤ :=
  (s.proc p).ctime + (s.proc p).rtime + (s.proc p).iotime + s.ghost.waitedSinceCtime p

/-- Labels that run the accounting pass. -/
def IsPass (l : Label) : Prop := l = .tickAccount ∨ l = .tick
  deriving Decidable

theorem accounted_next (enabled : s.Enabled l) (hl : ¬ IsPass l) (b : Build) :
    (s.next b l).accounted = s.accounted := by
  unfold accounted
  cases clockStep_next enabled b with
  | same _ _ _ hphase hcount => rw [hphase, hcount]
  | inc _ hidle _ hphase hcount => simp [hphase, hcount, hidle]
  | account hl' => exact absurd (Or.inl hl') hl
  | wake _ hwake _ hphase hcount => simp [hphase, hcount, hwake]
  | tick hl' => exact absurd (Or.inr hl') hl

theorem tickCount_le_next (enabled : s.Enabled l) (b : Build) :
    s.ghost.tickCount ≤ (s.next b l).ghost.tickCount := by
  cases clockStep_next enabled b <;> omega

/-- Only the store of `ctime` and the accounting pass write the count of uncharged
ticks. -/
theorem waited_next (hl : ¬ IsPass l) (hctime : ∀ c t, l ≠ .allocCtime c t p) (b : Build) :
    (s.next b l).ghost.waitedSinceCtime p = s.ghost.waitedSinceCtime p := by
  cases ghostStep_next s b l with
  | ctime c t np hl' h =>
    have hne : p ≠ np := by
      rintro rfl
      exact hctime c t hl'
    rw [h]
    exact Function.update_of_ne hne _ _
  | tickAccount hl' => exact absurd (Or.inl hl') hl
  | tick hl' => exact absurd (Or.inr hl') hl
  | same h => rw [h]
  | found np hl h => rw [h]
  | exited c p hl h => rw [h]
  | reaped f hl h => rw [h]
  | stored c p child pid hl h => rw [h]
  | dispatched c n hl h => rw [h]
  | tickInc hl h => rw [h]

/-- A slot that is not being set up is not given a `ctime`. -/
theorem waited_of_not_embryo (hok : s.Ok) (enabled : s.Enabled l) (hl : ¬ IsPass l)
    (hp : (s.proc p).state ≠ .embryo) (b : Build) :
    (s.next b l).ghost.waitedSinceCtime p = s.ghost.waitedSinceCtime p := by
  refine waited_next hl ?_ b
  rintro c t rfl
  exact hp (TableOk.owns hok t _ p enabled.2.1)

/-- What happens to the times of a slot while a thread sets it up. -/
theorem owned_next (hok : s.Ok) (enabled : s.Enabled l) (hl : ¬ IsPass l) (b : Build)
    {stage : AllocStage} (hpc : s.pc t = .alloc stage p) :
    (stage ≠ .ctime → ((s.next b l).proc p).ctime = (s.proc p).ctime ∧
      (s.next b l).ghost.waitedSinceCtime p = s.ghost.waitedSinceCtime p) ∧
    (stage ≠ .init → ((s.next b l).proc p).rtime = (s.proc p).rtime ∧
      ((s.next b l).proc p).iotime = (s.proc p).iotime) := by
  have hemb : (s.proc p).state = .embryo := TableOk.owns hok t _ p hpc
  -- Another thread at work on the slot is this one, at the same stage.
  have hsame : ∀ {t' stage'}, s.pc t' = .alloc stage' p → stage' = stage := by
    intro t' stage' hpc'
    have := TableOk.owns_inj hok t' t stage' stage p hpc' hpc
    rw [this, hpc] at hpc'
    cases hpc'
    rfl
  have hwaited : stage ≠ .ctime →
      (s.next b l).ghost.waitedSinceCtime p = s.ghost.waitedSinceCtime p := by
    intro hstage
    refine waited_next hl ?_ b
    rintro c t' rfl
    exact hstage (hsame enabled.2.1).symm
  have hstep := slotStep_next hok enabled b p
  generalize (s.next b l).proc p = y at hstep
  cases hstep with
  | drift hy => exact ⟨fun h => ⟨by rw [hy.1], hwaited h⟩, fun _ => ⟨by rw [hy.1], by rw [hy.1]⟩⟩
  | killed c q pid _ _ hy =>
    exact ⟨fun h => ⟨by rw [hy.1], hwaited h⟩, fun _ => ⟨by rw [hy.1], by rw [hy.1]⟩⟩
  | ctime c t' hl' hpc' =>
    exact ⟨fun h => absurd (hsame hpc').symm h, fun _ => ⟨rfl, rfl⟩⟩
  | init c t' hl' hpc' =>
    exact ⟨fun h => ⟨rfl, hwaited h⟩, fun h => absurd (hsame hpc').symm h⟩
  | ticked hl' => exact absurd hl' hl
  | failed | published | priority => exact ⟨fun h => ⟨rfl, hwaited h⟩, fun _ => ⟨rfl, rfl⟩⟩
  | found _ hst | exited _ _ hst | reaped hst | trapKilled hst | yielded hst | slept hst
  | dispatched hst | awake hst =>
    rw [hemb] at hst
    cases hst

theorem accounted_pass (enabled : s.Enabled l) (hl : IsPass l) (b : Build) :
    (s.next b l).accounted = s.accounted + 1 := by
  unfold accounted
  rcases hl with rfl | rfl
  · cases clockStep_next enabled b with
    | account _ hacc _ hphase hcount => simp [hphase, hcount, hacc]
    | same h => exact absurd rfl h
    | inc hl | wake hl | tick hl => cases hl
  · cases clockStep_next enabled b with
    | tick _ hidle _ hphase hcount => simp [hphase, hcount, hidle]
    | same _ h => exact absurd rfl h
    | inc hl | wake hl | account hl => cases hl

theorem waited_pass (hl : IsPass l) (b : Build) (p : Slot) :
    (s.next b l).ghost.waitedSinceCtime p =
      s.ghost.waitedSinceCtime p + if isWaiting (s.proc p) then 1 else 0 := by
  have hghost : (s.next b l).ghost.waitedSinceCtime p =
      if isWaiting (s.proc p) then s.ghost.waitedSinceCtime p + 1
      else s.ghost.waitedSinceCtime p := by
    rcases hl with rfl | rfl
    · rfl
    · rw [next, tickWake, wakeup1_frame]
      rfl
  rw [hghost]
  split <;> rfl

theorem proc_pass (hl : IsPass l) (b : Build) (p : Slot) :
    Drifted (tickProc (s.proc p)) ((s.next b l).proc p) := by
  rcases hl with rfl | rfl
  · exact .refl _
  · exact (drift_wakeup1 s.tickInc.tickAccount b (some .ticks)).drifted p

theorem pc_pass (hl : IsPass l) (b : Build) : (s.next b l).pc = s.pc := by
  rcases hl with rfl | rfl
  · rfl
  · rw [next, tickWake, wakeup1_frame]
    rfl

/-- Each pass charges a process that is alive in exactly one way. -/
theorem span_pass (hl : IsPass l) (b : Build) (hp : (s.proc p).Alive) :
    (s.next b l).span p = s.span p + 1 := by
  have hproc := (proc_pass hl b p (s := s)).1
  unfold span
  rw [hproc, waited_pass hl]
  rcases hp with hst | hst | hst <;> simp [tickProc, isWaiting, hst] <;> omega

/-- A pass changes nothing for a zombie. -/
theorem zombie_pass (hl : IsPass l) (b : Build)
    (hp : ((s.next b l).proc p).state = .zombie) :
    (s.proc p).state = .zombie ∧ (s.next b l).span p = s.span p ∧
      ((s.next b l).proc p).etime = (s.proc p).etime := by
  have hz : (s.proc p).state = .zombie := by
    rcases (proc_pass hl b p (s := s)).2 with hsame | ⟨-, hrun⟩
    · rw [← tickProc_state, ← hsame, hp]
    · rw [hp] at hrun
      cases hrun
  have hproc := (proc_pass hl b p (s := s)).1
  rw [tickProc_of_ne (by simp [hz]) (by simp [hz])] at hproc
  refine ⟨hz, ?_, by rw [hproc]⟩
  unfold span
  rw [waited_pass hl, hproc]
  simp [isWaiting, hz]

/-- A pass only adds an uncharged tick to a slot that is being set up. -/
theorem owned_pass (hok : s.Ok) (hl : IsPass l) (b : Build) {stage : AllocStage}
    (hpc : s.pc t = .alloc stage p) :
    ((s.next b l).proc p).ctime = (s.proc p).ctime ∧
      ((s.next b l).proc p).rtime = (s.proc p).rtime ∧
      ((s.next b l).proc p).iotime = (s.proc p).iotime ∧
      (s.next b l).ghost.waitedSinceCtime p = s.ghost.waitedSinceCtime p + 1 := by
  have hemb : (s.proc p).state = .embryo := TableOk.owns hok t stage p hpc
  have hproc := (proc_pass hl b p (s := s)).1
  rw [tickProc_of_ne (by simp [hemb]) (by simp [hemb])] at hproc
  refine ⟨by rw [hproc], by rw [hproc], by rw [hproc], ?_⟩
  rw [waited_pass hl]
  simp [isWaiting, hemb]

/-! ## The invariant -/

/-- Every process that is alive has been charged every accounted tick since its
`ctime`; a zombie stopped being charged at its `etime`. -/
structure TimeOk (s : State) : Prop where
  ticks : s.ticks = s.ghost.tickCount
  alive : ∀ p, (s.proc p).Alive → s.span p = s.accounted
  taken : ∀ t stage p, s.pc t = .alloc stage p → stage.hasCtime →
    (s.proc p).ctime + s.ghost.waitedSinceCtime p = s.accounted
  zeroed : ∀ t stage p, s.pc t = .alloc stage p → stage.hasCounters →
    (s.proc p).rtime = 0 ∧ (s.proc p).iotime = 0
  zombie : ∀ p, (s.proc p).state = .zombie →
    s.span p ≤ (s.proc p).etime ∧ (s.proc p).etime ≤ s.ghost.tickCount

theorem ticks_next (h : s.ticks = s.ghost.tickCount) (enabled : s.Enabled l) {b : Build}
    (hbound : (s.next b l).ghost.tickCount < 2 ^ 31) :
    (s.next b l).ticks = (s.next b l).ghost.tickCount := by
  cases clockStep_next enabled b with
  | same _ _ ht _ hcount | account _ _ ht _ hcount | wake _ _ ht _ hcount =>
    rw [ht, hcount, h]
  | inc _ _ ht _ hcount | tick _ _ ht _ hcount =>
    rw [hcount] at hbound
    rw [ht, hcount, h]
    omega

theorem Drifted.alive {x y : Proc} (h : Drifted x y) (hy : y.Alive) : x.Alive := by
  rcases h.2 with hsame | ⟨hsleep, -⟩
  · unfold Proc.Alive
    rwa [← hsame]
  · exact Or.inl hsleep

theorem TimeOk.toInt32_ticks (h : s.TimeOk) (hbound : s.ghost.tickCount < 2 ^ 31) :
    toInt32 s.ticks = s.ghost.tickCount := by
  rw [h.ticks]
  exact toInt32_of_range (by omega) (by omega)

/-- A process that is alive after a step that charges nothing has the same span as
before it, and was charged up to now. -/
theorem TimeOk.alive_other (h : s.TimeOk) (hok : s.Ok) (enabled : s.Enabled l)
    (hl : ¬ IsPass l) (b : Build) (hp : ((s.next b l).proc p).Alive) :
    (s.next b l).span p = s.accounted := by
  have hkeep : (s.proc p).Alive → ((s.next b l).proc p).ctime = (s.proc p).ctime →
      ((s.next b l).proc p).rtime = (s.proc p).rtime →
      ((s.next b l).proc p).iotime = (s.proc p).iotime → (s.next b l).span p = s.accounted := by
    intro halive hc hr hi
    have hw := waited_of_not_embryo hok enabled hl (p := p)
      (by rcases halive with hst | hst | hst <;> simp [hst]) b
    rw [← h.alive p halive, span, span, hc, hr, hi, hw]
  have hstep := slotStep_next hok enabled b p
  generalize hy : (s.next b l).proc p = y at hp hstep hkeep
  cases hstep with
  | drift hd => exact hkeep (hd.alive hp) (by rw [hd.1]) (by rw [hd.1]) (by rw [hd.1])
  | killed c q pid _ _ hd =>
    exact hkeep (hd.alive (x := { s.proc p with killed := true }) hp) (by rw [hd.1])
      (by rw [hd.1]) (by rw [hd.1])
  | published t hl' hpc =>
    have htaken := h.taken t _ p hpc rfl
    obtain ⟨hr, hi⟩ := h.zeroed t _ p hpc rfl
    have hw : (s.next b l).ghost.waitedSinceCtime p = s.ghost.waitedSinceCtime p := by
      refine waited_next hl ?_ b
      rcases hl' with ⟨c, q, rfl⟩ | rfl <;> nofun
    rw [span, hy, hw]
    dsimp only
    omega
  | ticked hl' => exact absurd hl' hl
  | priority n => exact hkeep hp rfl rfl rfl
  | ctime c t _ hpc | init c t _ hpc =>
    have hemb : (s.proc p).state = .embryo := TableOk.owns hok t _ p hpc
    simp [Proc.Alive, hemb] at hp
  | trapKilled hst | yielded hst | slept hst | awake hst =>
    exact hkeep (Or.inr (Or.inr hst)) rfl rfl rfl
  | dispatched hst => exact hkeep (Or.inr (Or.inl hst)) rfl rfl rfl
  | found | failed | exited | reaped => simp [Proc.Alive, Proc.freed] at hp

/-- A zombie after a step that charges nothing: either it was one before, or it
has just exited, charged up to now. -/
theorem TimeOk.zombie_other (h : s.TimeOk) (hok : s.Ok) (enabled : s.Enabled l)
    (hl : ¬ IsPass l) (b : Build) (hbound : s.ghost.tickCount < 2 ^ 31)
    (hp : ((s.next b l).proc p).state = .zombie) :
    ((s.proc p).state = .zombie ∧ (s.next b l).span p = s.span p ∧
      ((s.next b l).proc p).etime = (s.proc p).etime) ∨
    (s.next b l).span p = s.accounted ∧
      ((s.next b l).proc p).etime = s.ghost.tickCount := by
  have hkeep : (s.proc p).state = .zombie → ((s.next b l).proc p).ctime = (s.proc p).ctime →
      ((s.next b l).proc p).rtime = (s.proc p).rtime →
      ((s.next b l).proc p).iotime = (s.proc p).iotime →
      (s.next b l).span p = s.span p := by
    intro hz hc hr hi
    have hw := waited_of_not_embryo hok enabled hl (p := p) (by simp [hz]) b
    rw [span, span, hc, hr, hi, hw]
  have hstep := slotStep_next hok enabled b p
  generalize hy : (s.next b l).proc p = y at hp hstep hkeep
  have hdrift : ∀ {x : Proc}, Drifted x y → x.state = .zombie := by
    intro x hd
    rcases hd.2 with hsame | ⟨-, hrun⟩
    · rw [← hsame, hp]
    · rw [hp] at hrun
      cases hrun
  cases hstep with
  | drift hd =>
    exact Or.inl ⟨hdrift hd, hkeep (hdrift hd) (by rw [hd.1]) (by rw [hd.1]) (by rw [hd.1]),
      by rw [hd.1]⟩
  | killed c q pid _ _ hd =>
    have hz : (s.proc p).state = .zombie := hdrift (x := { s.proc p with killed := true }) hd
    exact Or.inl ⟨hz, hkeep hz (by rw [hd.1]) (by rw [hd.1]) (by rw [hd.1]), by rw [hd.1]⟩
  | exited c hl' hrun parent =>
    have hw := waited_of_not_embryo hok enabled hl (p := p) (by simp [hrun]) b
    have hticks := h.toInt32_ticks hbound
    refine Or.inr ⟨?_, ?_⟩
    · rw [← h.alive p (Or.inr (Or.inr hrun)), span, span, hy, hw]
    · dsimp only
      rw [hticks]
  | priority n => exact Or.inl ⟨hp, hkeep hp rfl rfl rfl, rfl⟩
  | ticked hl' => exact absurd hl' hl
  | ctime c t _ hpc | init c t _ hpc =>
    have hemb : (s.proc p).state = .embryo := TableOk.owns hok t _ p hpc
    simp [hemb] at hp
  | trapKilled hst | awake hst =>
    simp [hst] at hp
  | found | failed | published | reaped | yielded | slept | dispatched =>
    simp [Proc.freed, Proc.asleep] at hp

/-- The clock fields of a slot whose owner is past the store of `ctime`. -/
theorem TimeOk.taken_other (h : s.TimeOk) (hok : s.Ok) (enabled : s.Enabled l)
    (hl : ¬ IsPass l) (b : Build) (hbound : s.ghost.tickCount < 2 ^ 31) {stage : AllocStage}
    (hpc : (s.next b l).pc t = .alloc stage p) (hstage : stage.hasCtime) :
    ((s.next b l).proc p).ctime + (s.next b l).ghost.waitedSinceCtime p = s.accounted := by
  have hkeep : ∀ {stage'}, s.pc t = .alloc stage' p → stage'.hasCtime →
      ((s.next b l).proc p).ctime + (s.next b l).ghost.waitedSinceCtime p = s.accounted := by
    intro stage' hold hstage'
    obtain ⟨hc, hw⟩ := (owned_next hok enabled hl b hold).1 (by rintro rfl; cases hstage')
    rw [hc, hw]
    exact h.taken t stage' p hold hstage'
  cases pcStep_next hok enabled b t with
  | same hsame _ => exact hkeep (hsame ▸ hpc) hstage
  | away _ hno => exact absurd hpc (hno stage p)
  | ctime c np hl' hold hnew =>
    rw [hnew] at hpc
    cases hpc
    subst hl'
    have hidle : s.tick = .idle := enabled.2.2
    have hticks := h.toInt32_ticks hbound
    simp [next, allocCtime, setPc, setProc, accounted, hidle, hticks]
  | init c np hl' hold hnew =>
    rw [hnew] at hpc
    cases hpc
    exact hkeep hold rfl
  | copy np hold hnew =>
    rw [hnew] at hpc
    cases hpc
    exact hkeep hold rfl
  | found np _ hnew | kalloc np _ hnew =>
    rw [hnew] at hpc
    cases hpc
    cases hstage
  | reaped child _ _ hnew =>
    rw [hnew] at hpc
    cases hpc

/-- The counters of a slot whose owner has zeroed them. -/
theorem TimeOk.zeroed_other (h : s.TimeOk) (hok : s.Ok) (enabled : s.Enabled l)
    (hl : ¬ IsPass l) (b : Build) {stage : AllocStage}
    (hpc : (s.next b l).pc t = .alloc stage p) (hstage : stage.hasCounters) :
    ((s.next b l).proc p).rtime = 0 ∧ ((s.next b l).proc p).iotime = 0 := by
  have hkeep : ∀ {stage'}, s.pc t = .alloc stage' p → stage'.hasCounters →
      ((s.next b l).proc p).rtime = 0 ∧ ((s.next b l).proc p).iotime = 0 := by
    intro stage' hold hstage'
    obtain ⟨hr, hi⟩ := (owned_next hok enabled hl b hold).2 (by rintro rfl; cases hstage')
    rw [hr, hi]
    exact h.zeroed t stage' p hold hstage'
  cases pcStep_next hok enabled b t with
  | same hsame _ => exact hkeep (hsame ▸ hpc) hstage
  | away _ hno => exact absurd hpc (hno stage p)
  | init c np hl' hold hnew =>
    rw [hnew] at hpc
    cases hpc
    subst hl'
    rw [next, allocInit]
    split <;> simp [setPc, queues]
  | copy np hold hnew =>
    rw [hnew] at hpc
    cases hpc
    exact hkeep hold rfl
  | found np _ hnew | kalloc np _ hnew =>
    rw [hnew] at hpc
    cases hpc
    cases hstage
  | ctime c np _ _ hnew =>
    rw [hnew] at hpc
    cases hpc
    cases hstage
  | reaped child _ _ hnew =>
    rw [hnew] at hpc
    cases hpc

/-- Every step keeps the times consistent. -/
theorem TimeOk.next (h : s.TimeOk) (hok : s.Ok) (enabled : s.Enabled l) {b : Build}
    (hbound : (s.next b l).ghost.tickCount < 2 ^ 31) : (s.next b l).TimeOk := by
  have hmono := tickCount_le_next enabled b
  have hacc := s.accounted_le
  by_cases hl : IsPass l
  · have hpc : (s.next b l).pc = s.pc := pc_pass hl b
    have haccounted := accounted_pass enabled hl b
    refine ⟨ticks_next h.ticks enabled hbound, ?_, ?_, ?_, ?_⟩
    · intro p hp
      have halive : (s.proc p).Alive := by
        have := (proc_pass hl b p (s := s)).alive hp
        unfold Proc.Alive at this ⊢
        rwa [tickProc_state] at this
      rw [span_pass hl b halive, haccounted, h.alive p halive]
    · intro t stage p hnew hstage
      rw [hpc] at hnew
      grind [owned_pass, h.taken]
    · intro t stage p hnew hstage
      rw [hpc] at hnew
      grind [owned_pass, h.zeroed]
    · intro p hp
      obtain ⟨hz, hspan, hetime⟩ := zombie_pass hl b hp
      obtain ⟨hle, hlast⟩ := h.zombie p hz
      rw [hspan, hetime]
      exact ⟨hle, by omega⟩
  · have hbound' : s.ghost.tickCount < 2 ^ 31 := Nat.lt_of_le_of_lt hmono hbound
    have haccounted := accounted_next enabled hl b
    refine ⟨ticks_next h.ticks enabled hbound, ?_, ?_, ?_, ?_⟩
    · intro p hp
      rw [haccounted]
      exact h.alive_other hok enabled hl b hp
    · intro t stage p hnew hstage
      rw [haccounted]
      exact h.taken_other hok enabled hl b hbound' hnew hstage
    · exact fun t stage p => h.zeroed_other hok enabled hl b
    · intro p hp
      rcases h.zombie_other hok enabled hl b hbound' hp with ⟨hz, hspan, hetime⟩ | ⟨hspan, hetime⟩
      · obtain ⟨hle, hlast⟩ := h.zombie p hz
        rw [hspan, hetime]
        exact ⟨hle, by omega⟩
      · rw [hspan, hetime]
        exact ⟨hacc, by omega⟩

theorem timeOk_init : ({} : State).TimeOk where
  ticks := rfl
  alive p hp := by
    rcases hp with hp | hp | hp <;> cases hp
  taken := nofun
  zeroed := nofun
  zombie p hp := by cases hp

/-- The clock interrupt is taken as one step. -/
def AtomicTicks (_ : State) (l : Label) : Prop :=
  l ≠ .tickInc ∧ l ≠ .tickAccount ∧ l ≠ .tickWake
  deriving Decidable

/-- With atomic ticks, what a zombie has not been charged for is its waiting. -/
structure ExactOk (s : State) : Prop where
  idle : s.tick = .idle
  zombie : ∀ p, (s.proc p).state = .zombie → s.span p = (s.proc p).etime

theorem ExactOk.next (h : s.ExactOk) (htime : s.TimeOk) (hok : s.Ok) (enabled : s.Enabled l)
    (hatomic : s.AtomicTicks l) {b : Build} (hbound : (s.next b l).ghost.tickCount < 2 ^ 31) :
    (s.next b l).ExactOk := by
  have hidle : (s.next b l).tick = .idle := by
    cases clockStep_next enabled b with
    | same _ _ _ hphase => rw [hphase, h.idle]
    | inc hl => exact absurd hl hatomic.1
    | account hl => exact absurd hl hatomic.2.1
    | wake hl => exact absurd hl hatomic.2.2
    | tick _ _ _ hphase => exact hphase
  refine ⟨hidle, fun p hp => ?_⟩
  have hbound' : s.ghost.tickCount < 2 ^ 31 :=
    Nat.lt_of_le_of_lt (tickCount_le_next enabled b) hbound
  by_cases hl : IsPass l
  · obtain ⟨hz, hspan, hetime⟩ := zombie_pass hl b hp
    rw [hspan, hetime, h.zombie p hz]
  · rcases htime.zombie_other hok enabled hl b hbound' hp with ⟨hz, hspan, hetime⟩ | ⟨hspan, hetime⟩
    · rw [hspan, hetime, h.zombie p hz]
    · rw [hspan, hetime, accounted, h.idle]
      rfl

theorem exactOk_init : ({} : State).ExactOk := ⟨rfl, nofun⟩

end State

/-- Times are consistent in every reachable state before the clock overflows. -/
theorem timeOk_of_reachable {b : Build} {s : State} (h : (system b).Reachable s)
    (hbound : s.ghost.tickCount < 2 ^ 31) : s.TimeOk := by
  have both : s.Ok ∧ s.TimeOk := by
    refine h.invariant_below (fun s => s.ghost.tickCount) (2 ^ 31)
      (I := fun s => s.Ok ∧ s.TimeOk) ?_ ?_ ?_ hbound
    · exact fun s l enabled => State.tickCount_le_next enabled b
    · rintro s rfl
      exact ⟨State.ok_init, State.timeOk_init⟩
    · exact fun s l hs enabled hlt => ⟨hs.1.next enabled, hs.2.next hs.1 enabled hlt⟩
  exact both.2

/-- With atomic ticks the accounting is exact. -/
theorem exactOk_of_reachable {b : Build} {s : State}
    (h : ((system b).restrict State.AtomicTicks).Reachable s)
    (hbound : s.ghost.tickCount < 2 ^ 31) : s.ExactOk := by
  have all : s.Ok ∧ s.TimeOk ∧ s.ExactOk := by
    refine h.invariant_below (fun s => s.ghost.tickCount) (2 ^ 31)
      (I := fun s => s.Ok ∧ s.TimeOk ∧ s.ExactOk) ?_ ?_ ?_ hbound
    · exact fun s l enabled => State.tickCount_le_next enabled.1 b
    · rintro s rfl
      exact ⟨State.ok_init, State.timeOk_init, State.exactOk_init⟩
    · exact fun s l hs enabled hlt => ⟨hs.1.next enabled.1, hs.2.1.next hs.1 enabled.1 hlt,
        hs.2.2.next hs.2.1 hs.1 enabled.1 enabled.2 hlt⟩
  exact all.2.2

/-- Accounting is consistent: no process has more time on its account than has
passed since it was created, a zombie has its times before its `etime`, and with
atomic ticks the remainder is exactly the ticks since its `ctime` was taken at
which it was `EMBRYO` or `RUNNABLE`. -/
theorem cpu_time_consistent {b : Build} {s : State} (h : (system b).Reachable s)
    (hbound : s.ghost.tickCount < 2 ^ 31) :
    (∀ p, (s.proc p).state ≠ .unused → (s.proc p).state ≠ .embryo →
      (s.proc p).ctime + (s.proc p).rtime + (s.proc p).iotime ≤ s.ticks) ∧
    (∀ p, (s.proc p).state = .zombie →
      (s.proc p).ctime + (s.proc p).rtime + (s.proc p).iotime ≤ (s.proc p).etime ∧
        (s.proc p).etime ≤ s.ticks ∧ 0 ≤ (s.proc p).wtime) ∧
    (((system b).restrict State.AtomicTicks).Reachable s → ∀ p, (s.proc p).state = .zombie →
      (s.proc p).wtime = s.ghost.waitedSinceCtime p) := by
  have htime := timeOk_of_reachable h hbound
  have hticks := htime.ticks
  have hzombie : ∀ p, (s.proc p).state = .zombie →
      (s.proc p).ctime + (s.proc p).rtime + (s.proc p).iotime ≤ (s.proc p).etime ∧
        (s.proc p).etime ≤ s.ticks ∧ 0 ≤ (s.proc p).wtime := by
    intro p hp
    have hspan := htime.zombie p hp
    unfold State.span at hspan
    unfold Proc.wtime
    omega
  refine ⟨?_, hzombie, ?_⟩
  · intro p hused hemb
    by_cases hz : (s.proc p).state = .zombie
    · have := hzombie p hz
      omega
    · have halive : (s.proc p).Alive := by
        unfold Proc.Alive
        cases hst : (s.proc p).state <;> simp_all
      have hspan := htime.alive p halive
      have hacc := s.accounted_le
      unfold State.span at hspan
      omega
  · intro hatomic p hp
    have hexact := (exactOk_of_reachable hatomic hbound).zombie p hp
    unfold State.span at hexact
    unfold Proc.wtime
    omega

set_option maxRecDepth 10000 in
/-- A child that waits for one tick, runs for two and exits. -/
theorem cpu_time_of_first_child : ∃ s, (system .rr).Reachable s ∧
    (s.proc 1).state = .zombie ∧ (s.proc 1).rtime = 2 ∧ 0 ≤ (s.proc 1).wtime := by
  obtain ⟨s, hs, hbound, hz, hr⟩ := Machine.exists_reachable_of_exec
    (system .rr) (boot ++ [.schedule 1, .resumed 1 0] ++ forkLabels 1 0 1 ++
      [.tick, .schedule 0, .resumed 0 1, .tick, .tickInc, .tickAccount, .tickWake, .exit 0 1])
    (s := {}) (P := fun s => s.ghost.tickCount < 2 ^ 31 ∧ (s.proc 1).state = .zombie ∧
      (s.proc 1).rtime = 2) rfl (by decide +kernel)
  exact ⟨s, hs, hz, hr, ((cpu_time_consistent hs hbound).2.1 1 hz).2.2⟩

set_option maxRecDepth 10000 in
/-- A tick between the moment a slot becomes `EMBRYO` and the store of its `ctime`
is in neither the times nor the difference. -/
theorem waiting_before_ctime_uncounted :
    ∃ s, ((system .rr).restrict State.AtomicTicks).Reachable s ∧
      (s.proc 1).state = .zombie ∧ (s.proc 1).wtime = 0 ∧ s.ghost.waited 1 = 1 := by
  exact Machine.exists_reachable_of_exec ((system .rr).restrict State.AtomicTicks)
    (boot ++ [.schedule 1, .resumed 1 0, .fork 1 0 1, .tick,
      .allocKalloc 1 (some 0) 1 true, .allocCtime 1 (some 0) 1, .allocInit 1 (some 0) 1,
      .allocCopy 1 (some 0) 1 true, .forkPublish 1 0 1, .schedule 0, .resumed 0 1, .exit 0 1])
    (s := {}) (P := fun s => (s.proc 1).state = .zombie ∧ (s.proc 1).wtime = 0 ∧
      s.ghost.waited 1 = 1) rfl (by decide +kernel)

end Xv6.Ptable
