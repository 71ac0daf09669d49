/-
# What `waitx` reports

`waitx` frees the slot of the child, releases the lock, and only then reads the
times of the child out of the slot. Between the release and the reads another
process may be given the slot, and `allocproc` overwrites the times without
holding the lock; the caller then gets times of the wrong process.

The race is exactly that overwrite. In every run in which `allocproc` stores no
time into a slot that a `waitx` is about to read, each result is the one the
child had when it became `ZOMBIE`.
-/

import Xv6.Ptable.Steps
import Mathlib.Data.Fintype.Option

namespace Xv6.Ptable

open Xv6.Lib

/-- The slot a thread is about to read times from. -/
def Pc.reads : Pc → Option Slot
  | .waitxStore p _ => some p
  | _ => none

namespace State

variable {s : State} {b : Build} {c : Cpu} {p : Slot} {l : Label} {t : Thread}

/-- `exit` writes the obituary of the process that exits. -/
theorem obituary_exit (s : State) (b : Build) (c : Cpu) (p : Slot) :
    (s.next b (.exit c p)).ghost.obituary p = ((s.next b (.exit c p)).proc p).obituary := by
  simp [State.next, exit]

/-- No other label writes it. -/
theorem obituary_next (b : Build) (hl : ∀ c, l ≠ .exit c p) :
    (s.next b l).ghost.obituary p = s.ghost.obituary p := by
  cases ghostStep_next s b l with
  | exited c q hq h =>
    have hne : p ≠ q := by
      rintro rfl
      exact hl c hq
    rw [h]
    exact Function.update_of_ne hne _ _
  | same h => rw [h]
  | found np hl h => rw [h]
  | ctime c t np hl h => rw [h]
  | reaped f hl h => rw [h]
  | stored c p child pid hl h => rw [h]
  | dispatched c n hl h => rw [h]
  | tickInc hl h => rw [h]
  | tickAccount hl h => rw [h]; rfl
  | tick hl h => rw [h]; rfl

/-- Only the stores of `waitx` extend the log. -/
theorem waitxLog_next (b : Build) (l : Label) :
    (s.next b l).ghost.waitxLog = s.ghost.waitxLog ∨
      ∃ c p child pid, l = .waitxStore c p child pid ∧
        (s.next b l).ghost.waitxLog = s.ghost.waitxLog ++
          [(⟨pid, (s.proc child).rtime, (s.proc child).wtime⟩, s.ghost.reaped (some p))] := by
  cases ghostStep_next s b l with
  | stored c p child pid hl h => exact Or.inr ⟨c, p, child, pid, hl, by rw [h]⟩
  | same h => exact Or.inl (by rw [h])
  | found np hl h => exact Or.inl (by rw [h])
  | ctime c t np hl h => exact Or.inl (by rw [h])
  | exited c p hl h => exact Or.inl (by rw [h])
  | reaped f hl h => exact Or.inl (by rw [h])
  | dispatched c n hl h => exact Or.inl (by rw [h])
  | tickInc hl h => exact Or.inl (by rw [h])
  | tickAccount hl h => exact Or.inl (by rw [h]; rfl)
  | tick hl h => exact Or.inl (by rw [h]; rfl)

/-- The slot whose times a label stores into without holding the lock. -/
def storesTimes : Label → Option Slot
  | .allocCtime _ _ np | .allocInit _ _ np => some np
  | _ => none

/-- The label stores no time into a slot that a `waitx` is about to read. -/
def SparesWaitx (s : State) (l : Label) : Prop :=
  storesTimes l = none ∨ ∀ t, (s.pc t).reads ≠ storesTimes l
  deriving Decidable

theorem SparesWaitx.not_store (h : s.SparesWaitx l) (hl : storesTimes l = some p) {pid : ℤ} :
    s.pc t ≠ .waitxStore p pid := by
  intro hpc
  rcases h with hnone | hall
  · rw [hl] at hnone
    cases hnone
  · refine hall t ?_
    rw [hpc, hl]
    rfl

/-- Zombies match their obituaries, and slots about to be read match what their
readers have to report: nobody is further with them than the store of `ctime`. -/
structure WaitxOk (s : State) : Prop where
  zombie : ∀ p, (s.proc p).state = .zombie → s.ghost.obituary p = (s.proc p).obituary
  pending : ∀ t p pid, s.pc t = .waitxStore p pid →
    s.ghost.reaped t = ⟨pid, (s.proc p).rtime, (s.proc p).wtime⟩ ∧
      ((s.proc p).state = .unused ∨ (s.proc p).state = .embryo)
  owner : ∀ t t' p pid stage, s.pc t = .waitxStore p pid → s.pc t' = .alloc stage p →
    stage = .kalloc ∨ stage = .ctime
  log : ∀ e ∈ s.ghost.waitxLog, e.1 = e.2

/-- A zombie keeps its times until it is collected. -/
theorem WaitxOk.zombie_next (h : s.WaitxOk) (hok : s.Ok) (enabled : s.Enabled l) (b : Build)
    (p : Slot) (hp : ((s.next b l).proc p).state = .zombie) :
    (s.next b l).ghost.obituary p = ((s.next b l).proc p).obituary := by
  by_cases hexit : ∃ c, l = .exit c p
  · obtain ⟨c, rfl⟩ := hexit
    exact obituary_exit s b c p
  · rw [obituary_next b fun c hl => hexit ⟨c, hl⟩]
    have hstep := slotStep_next hok enabled b p
    generalize (s.next b l).proc p = y at hp hstep
    have hdrift : ∀ {x : Proc}, Drifted x y → x.state = .zombie ∧ y.obituary = x.obituary := by
      intro x hxy
      refine ⟨?_, ?_⟩
      · rcases hxy.2 with hsame | ⟨-, hrun⟩
        · rw [← hsame, hp]
        · rw [hp] at hrun
          cases hrun
      · rw [hxy.1]
        rfl
    cases hstep with
    | drift hy =>
      rw [(hdrift hy).2]
      exact h.zombie p (hdrift hy).1
    | killed c q pid hl ht hy =>
      rw [(hdrift hy).2]
      exact h.zombie p (hdrift hy).1
    | ticked hl hy =>
      grind [tickProc_state, tickProc_of_ne, h.zombie]
    | exited c hl => exact absurd ⟨c, hl⟩ hexit
    | ctime c t hl hpc =>
      have hemb : (s.proc p).state = .embryo := TableOk.owns hok t _ p hpc
      rw [show (s.proc p).state = .zombie from hp] at hemb
      cases hemb
    | init c t hl hpc =>
      have hemb : (s.proc p).state = .embryo := TableOk.owns hok t _ p hpc
      rw [show (s.proc p).state = .zombie from hp] at hemb
      cases hemb
    | trapKilled hr | awake hr =>
      rw [show (s.proc p).state = .zombie from hp] at hr
      cases hr
    | priority n => exact h.zombie p hp
    | found | failed | published | reaped | yielded | slept | dispatched => cases hp

/-- A slot that is about to be read keeps its times and stays unpublished. -/
theorem WaitxOk.pending_slot (h : s.WaitxOk) (hok : s.Ok) (enabled : s.Enabled l)
    (hspare : s.SparesWaitx l) (b : Build) {pid : ℤ} (hpc : s.pc t = .waitxStore p pid) :
    ((s.next b l).proc p).rtime = (s.proc p).rtime ∧
      ((s.next b l).proc p).wtime = (s.proc p).wtime ∧
      (((s.next b l).proc p).state = .unused ∨ ((s.next b l).proc p).state = .embryo) := by
  have hstate := (h.pending t p pid hpc).2
  have hstep := slotStep_next hok enabled b p
  generalize (s.next b l).proc p = y at hstep
  have hdrift : ∀ {x : Proc}, x.state = .unused ∨ x.state = .embryo → Drifted x y →
      y.rtime = x.rtime ∧ y.wtime = x.wtime ∧ (y.state = .unused ∨ y.state = .embryo) := by
    intro x hx hxy
    refine ⟨by rw [hxy.1], hxy.wtime, ?_⟩
    rcases hxy.2 with hsame | ⟨hsleep, -⟩
    · rwa [hsame]
    · rw [hsleep] at hx
      simp at hx
  cases hstep with
  | drift hy => exact hdrift hstate hy
  | killed c q pid hl ht hy => exact hdrift (x := { s.proc p with killed := true }) hstate hy
  | ticked hl hy =>
    grind [tickProc_of_ne]
  | ctime c t' hl => exact absurd hpc (hspare.not_store (by rw [hl]; rfl))
  | init c t' hl => exact absurd hpc (hspare.not_store (by rw [hl]; rfl))
  | published t' hl hpc' =>
    rcases h.owner t t' p pid _ hpc hpc' with hs | hs <;> cases hs
  | found => exact ⟨rfl, rfl, Or.inr rfl⟩
  | failed => exact ⟨rfl, rfl, Or.inl rfl⟩
  | priority n => exact ⟨rfl, rfl, hstate⟩
  | exited c hl hr | reaped hr | trapKilled hr | yielded hr | slept hr | dispatched hr
  | awake hr =>
    rw [hr] at hstate
    simp at hstate

/-- Every step that spares the readers keeps the invariant. -/
theorem WaitxOk.next (h : s.WaitxOk) (hok : s.Ok) (enabled : s.Enabled l)
    (hspare : s.SparesWaitx l) (b : Build) : (s.next b l).WaitxOk := by
  have hembryo : ∀ {t stage np}, s.pc t = .alloc stage np → (s.proc np).state = .embryo :=
    fun hpc => TableOk.owns hok _ _ _ hpc
  refine ⟨h.zombie_next hok enabled b, ?_, ?_, ?_⟩
  · intro t p pid hpc'
    cases pcStep_next hok enabled b t with
    | same hpc hreaped =>
      rw [hpc] at hpc'
      obtain ⟨hr, hw, hst⟩ := h.pending_slot hok enabled hspare b hpc'
      rw [hreaped, hr, hw]
      exact ⟨(h.pending t p pid hpc').1, hst⟩
    | away hstore => exact absurd hpc' (hstore p pid)
    | found np _ hpc | kalloc np _ hpc | ctime c np _ _ hpc | init c np _ _ hpc
    | copy np _ hpc =>
      rw [hpc] at hpc'
      cases hpc'
    | reaped child hz hfreed hpc hreaped =>
      rw [hpc] at hpc'
      cases hpc'
      rw [hreaped, hfreed, h.zombie p hz]
      exact ⟨rfl, Or.inl rfl⟩
  · intro t t' p pid stage hpc' halloc'
    cases pcStep_next hok enabled b t with
    | same hpc _ =>
      rw [hpc] at hpc'
      cases pcStep_next hok enabled b t' with
      | same hpc₂ _ =>
        rw [hpc₂] at halloc'
        exact h.owner t t' p pid stage hpc' halloc'
      | away _ hno => exact absurd halloc' (hno stage p)
      | found np _ hpc₂ =>
        rw [hpc₂] at halloc'
        cases halloc'
        exact Or.inl rfl
      | kalloc np _ hpc₂ =>
        rw [hpc₂] at halloc'
        cases halloc'
        exact Or.inr rfl
      | ctime c np hl _ hpc₂ =>
        rw [hpc₂] at halloc'
        cases halloc'
        exact absurd hpc' (hspare.not_store (by rw [hl]; rfl))
      | init c np _ hold hpc₂ =>
        grind [h.owner]
      | copy np hold hpc₂ =>
        grind [h.owner]
      | reaped child _ _ hpc₂ => rw [hpc₂] at halloc'; cases halloc'
    | away hstore => exact absurd hpc' (hstore p pid)
    | found np _ hpc | kalloc np _ hpc | ctime c np _ _ hpc | init c np _ _ hpc
    | copy np _ hpc =>
      rw [hpc] at hpc'
      cases hpc'
    | reaped child hz hfreed hpc _ =>
      rw [hpc] at hpc'
      cases hpc'
      have hemb : ((s.next b l).proc p).state = .embryo :=
        TableOk.owns (hok.next enabled) t' stage p halloc'
      rw [hfreed] at hemb
      cases hemb
  · rcases waitxLog_next (s := s) b l with hsame | ⟨c, p, child, pid, rfl, happ⟩
    · rw [hsame]
      exact h.log
    · rw [happ]
      intro e he
      rcases List.mem_append.mp he with hold | hnew
      · exact h.log e hold
      · rw [List.mem_singleton] at hnew
        subst hnew
        exact (h.pending (some p) child pid enabled.2).1.symm

theorem waitxOk_init : ({} : State).WaitxOk :=
  ⟨nofun, nofun, nofun, nofun⟩

end State

/-- In a run in which `allocproc` never stores times into a slot that some
`waitx` has freed and is about to read, every result of `waitx` is the pid, the
run time and the waiting time its child had when it became `ZOMBIE`. -/
theorem waitx_reports_child {b : Build} {s : State}
    (h : ((system b).restrict State.SparesWaitx).Reachable s) :
    ∀ e ∈ s.ghost.waitxLog, e.1 = e.2 := by
  have both : s.Ok ∧ s.WaitxOk := by
    refine h.invariant (I := fun s => s.Ok ∧ s.WaitxOk) ?_ ?_
    · rintro s rfl
      exact ⟨State.ok_init, State.waitxOk_init⟩
    · exact fun s l hs enabled =>
        ⟨hs.1.next enabled.1, hs.2.next hs.1 enabled.1 enabled.2 b⟩
  exact both.2.log

set_option maxRecDepth 10000 in
/-- A child that runs for a tick and exits is reported with that tick. -/
theorem waitx_reports_first_child :
    ∃ s, ((system .rr).restrict State.SparesWaitx).Reachable s ∧
      (∃ o, (⟨2, 1, 0⟩, o) ∈ s.ghost.waitxLog) ∧ ∀ e ∈ s.ghost.waitxLog, e.1 = e.2 := by
  obtain ⟨s, hs, hlog⟩ := Machine.exists_reachable_of_exec
    ((system .rr).restrict State.SparesWaitx)
    (boot ++ [.schedule 1, .resumed 1 0] ++ forkLabels 1 0 1 ++
      [.schedule 0, .resumed 0 1, .tick, .exit 0 1, .back 0 1, .wait 1 0 true,
        .waitxStore 1 0 1 2]) (s := {})
    (P := fun s => (s.ghost.waitxLog.map Prod.fst) = [⟨2, 1, 0⟩]) rfl (by decide +kernel)
  refine ⟨s, hs, ?_, waitx_reports_child hs⟩
  have hmem : (⟨2, 1, 0⟩ : Obituary) ∈ s.ghost.waitxLog.map Prod.fst := by simp [hlog]
  obtain ⟨⟨_, o⟩, hin, rfl⟩ := List.mem_map.mp hmem
  exact ⟨o, hin⟩

/-- Two children of the first process; one runs for a tick and exits. While the
first process is inside `waitx`, the other child forks into the freed slot. -/
def waitxRace : List Label :=
  boot ++ [.schedule 1, .resumed 1 0] ++ forkLabels 1 0 1 ++ forkLabels 1 0 2 ++
    [.schedule 0, .resumed 0 1, .tick, .exit 0 1, .back 0 1, .resumed 0 2,
      .wait 1 0 true, .fork 0 2 1, .allocKalloc 0 (some 2) 1 true,
      .allocCtime 0 (some 2) 1, .allocInit 0 (some 2) 1, .waitxStore 1 0 1 2]

set_option maxRecDepth 10000 in
/-- The default build can report times of the wrong process. -/
theorem waitx_reports_wrong_times : ∃ s, (system .rr).Reachable s ∧
    s.ghost.waitxLog = [(⟨2, 0, -1⟩, ⟨2, 1, 0⟩)] := by
  exact Machine.exists_reachable_of_exec (system .rr) waitxRace (s := {})
    (P := fun s => s.ghost.waitxLog = [(⟨2, 0, -1⟩, ⟨2, 1, 0⟩)]) rfl (by decide +kernel)

end Xv6.Ptable
