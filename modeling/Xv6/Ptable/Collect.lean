/-
# Every child is collected at most once

The pids that `wait` and `waitx` return, over a whole run. A call that finds a
zombie child frees the slot and returns the pid; no slot in use carries that pid
from then on, and `allocproc` never hands it out again before `nextpid`
overflows. So no pid is returned twice, and each is returned to the process that
is the parent at that moment.
-/

import Xv6.Ptable.Tree
import Xv6.Ptable.Pids

namespace Xv6.Ptable

open Xv6.Lib

/-- A call of `wait` or `waitx` that found a child: the caller, and the child as
it was when the scan met it. The call returns the child's pid. -/
structure Collection where
  caller : Slot
  child : Proc
  deriving DecidableEq, Repr

namespace State

variable {s : State} {b : Build} {p : Slot} {l : Label}

/-- The collection a scan of the table by `cur` makes. -/
def scanned (s : State) (cur : Slot) : Option Collection :=
  (s.zombieChild cur).map fun x => ⟨cur, s.proc x⟩

/-- The collection a step makes: the scan at the start of `wait` or `waitx`, or
one after a wake-up. -/
def collects (s : State) : Label → Option Collection
  | .wait _ cur _ => s.scanned cur
  | .resumed _ cur =>
    match s.resume cur with
    | .wait _ => s.scanned cur
    | _ => none
  | _ => none

theorem waitBody_freed {c : Cpu} {cur x : Slot} {w : Bool} (h : s.zombieChild cur = some x) :
    (s.waitBody b c cur w).proc x = (s.proc x).freed := by
  unfold waitBody
  rw [h]
  dsimp only
  split <;> exact setProc_proc_self s x Proc.freed

/-- What a collection collects: a zombie child of the caller, whose slot is free
afterwards. -/
theorem collects_spec (hok : s.Ok) (enabled : s.Enabled l) (b : Build) {e : Collection}
    (h : s.collects l = some e) :
    ∃ x, e.child = s.proc x ∧ (s.proc x).parent = some e.caller ∧ (s.proc x).state = .zombie ∧
      (s.next b l).proc x = (s.proc x).freed := by
  have hscan : ∀ {cur : Slot}, s.scanned cur = some e → ∃ x, s.zombieChild cur = some x ∧
      e.caller = cur ∧ e.child = s.proc x ∧ (s.proc x).parent = some cur ∧
      (s.proc x).state = .zombie := by
    intro cur hcur
    obtain ⟨x, hx, rfl⟩ := Option.map_eq_some_iff.mp hcur
    exact ⟨x, hx, rfl, rfl, zombieChild_spec hx⟩
  cases l with
  | wait c cur w =>
    obtain ⟨x, hx, rfl, hchild, hparent, hzombie⟩ := hscan h
    exact ⟨x, hchild, hparent, hzombie, waitBody_freed hx⟩
  | resumed c cur =>
    simp only [collects] at h
    split at h
    · next w hw =>
      obtain ⟨x, hx, rfl, hchild, hparent, hzombie⟩ := hscan h
      have hrun := TableOk.running hok c e.caller enabled.2 (by simp [enabled.1])
      have hne : x ≠ e.caller := by
        rintro rfl
        rw [states, hzombie] at hrun
        cases hrun
      have hsame : ∀ y, ((s.setProc e.caller fun y => { y with chan := none }).proc y).state =
          (s.proc y).state ∧
          ((s.setProc e.caller fun y => { y with chan := none }).proc y).parent =
            (s.proc y).parent := by
        grind [setProc_proc_self, setProc_proc_of_ne]
      have hx' : (s.setProc e.caller fun y => { y with chan := none }).zombieChild e.caller =
          some x := by
        rw [← hx, zombieChild, zombieChild]
        simp only [hsame]
      refine ⟨x, hchild, hparent, hzombie, ?_⟩
      rw [State.next, State.resumed, hw]
      dsimp only
      rw [waitBody_freed hx', setProc_proc_of_ne s _ hne]
    · cases h
  | _ => cases h

/-- The pids returned so far, against the table. -/
structure CollectOk (s : State) (es : List Collection) : Prop where
  nodup : (es.map fun e => e.child.pid).Nodup
  lt : ∀ e ∈ es, e.child.pid < s.nextpid
  gone : ∀ e ∈ es, ∀ p, (s.proc p).state ≠ .unused → (s.proc p).pid ≠ e.child.pid
  parent : ∀ e ∈ es, e.child.parent = some e.caller ∧ e.child.state = .zombie

theorem CollectOk.next {es : List Collection} (h : s.CollectOk es) (hok : s.Ok) (hpid : s.PidOk)
    (hpid' : (s.next b l).PidOk) (enabled : s.Enabled l) :
    (s.next b l).CollectOk (es ++ (s.collects l).toList) := by
  have hgrow : s.nextpid ≤ (s.next b l).nextpid := by
    rw [hpid.nextpid, hpid'.nextpid]
    have := allocs_le_next (s := s) b l
    omega
  -- A pid below the old `nextpid` that no slot in use has is gone for good.
  have hgone : ∀ n, n < s.nextpid → (∀ p, (s.proc p).state ≠ .unused → (s.proc p).pid ≠ n) →
      ∀ p, ((s.next b l).proc p).state ≠ .unused → ((s.next b l).proc p).pid ≠ n := by
    grind [pid_next]
  cases hc : s.collects l with
  | none =>
    rw [Option.toList_none, List.append_nil]
    refine ⟨h.nodup, ?_, ?_, h.parent⟩
    · exact fun e he => lt_of_lt_of_le (h.lt e he) hgrow
    · exact fun e he => hgone _ (h.lt e he) (h.gone e he)
  | some e =>
    obtain ⟨x, hchild, hparent, hzombie, hfreed⟩ := collects_spec hok enabled b hc
    have hused : (s.proc x).state ≠ .unused := by simp [hzombie]
    have hlt : e.child.pid < s.nextpid := by
      rw [hchild]
      exact hpid.lt x
    rw [Option.toList_some]
    refine ⟨?_, ?_, ?_, ?_⟩
    · rw [List.map_append, List.nodup_append]
      refine ⟨h.nodup, List.nodup_singleton _, ?_⟩
      rintro n hn m hm rfl
      obtain ⟨e', he', rfl⟩ := List.mem_map.mp hn
      rw [List.map_singleton, List.mem_singleton] at hm
      refine h.gone e' he' x hused ?_
      rw [hm, hchild]
    · intro e' he'
      rcases List.mem_append.mp he' with he' | he'
      · exact lt_of_lt_of_le (h.lt e' he') hgrow
      · rw [List.mem_singleton.mp he']
        exact lt_of_lt_of_le hlt hgrow
    · intro e' he' p hp
      rcases List.mem_append.mp he' with he' | he'
      · exact hgone _ (h.lt e' he') (h.gone e' he') p hp
      · rw [List.mem_singleton.mp he', hchild]
        rcases pid_next hok enabled b p with ⟨hsame, hunused⟩ | ⟨hnew, -⟩ | ⟨-, hunused⟩
        · rw [hsame]
          intro hEq
          have hpx : p = x := hpid.inj p x hEq (by rw [hEq]; exact (hpid.pos x hused).ne')
          rw [hpx, hfreed] at hp
          exact hp rfl
        · rw [hnew]
          have := hpid.lt x
          omega
        · exact absurd hunused hp
    · grind [h.parent]

end State

/-- The invariants of the process table hold together with the history of
collections. -/
theorem collectOk_of_run {b : Build} {labels : List Label} {s : State}
    (h : (system b).Run {} labels s) (hbound : s.ghost.allocs < 2 ^ 31 - 1) :
    s.CollectOk ((system b).log State.collects {} labels) := by
  have both : (system b).Reachable s ∧ (s.ghost.allocs < 2 ^ 31 - 1 →
      s.CollectOk ((system b).log State.collects {} labels)) := by
    refine h.invariant_log (f := State.collects) (I := fun s es => (system b).Reachable s ∧
      (s.ghost.allocs < 2 ^ 31 - 1 → s.CollectOk es)) ?_ ?_
    · refine ⟨.init rfl, fun _ => ⟨List.nodup_nil, ?_, ?_, ?_⟩⟩ <;> intro e he <;> cases he
    · intro u es l hu enabled
      refine ⟨hu.1.step enabled, fun hlt => ?_⟩
      have hlt' : u.ghost.allocs < 2 ^ 31 - 1 := lt_of_le_of_lt (State.allocs_le_next b l) hlt
      exact (hu.2 hlt').next (ok_of_reachable hu.1) (pidOk_of_reachable hu.1 hlt')
        (pidOk_of_reachable (hu.1.step enabled) hlt) enabled
  exact both.2 hbound

/-- The process tree is always reapable, as long as `nextpid` has not overflowed.
Every published process but `initproc` has a parent that can still run; slots in
use have distinct pids; and over the whole run no pid is returned by two calls
of `wait` or `waitx`, each call returning the pid of a zombie child of its
caller. -/
theorem process_tree_reapable {b : Build} {labels : List Label} {s : State}
    (h : (system b).Run {} labels s) (hbound : s.ghost.allocs < 2 ^ 31 - 1) :
    (∀ p, (s.proc p).state.live → s.initproc ≠ some p →
      ∃ q, (s.proc p).parent = some q ∧ (s.proc q).state.active) ∧
    (∀ p q, p ≠ q → (s.proc p).state ≠ .unused → (s.proc q).state ≠ .unused →
      (s.proc p).pid ≠ (s.proc q).pid) ∧
    (((system b).log State.collects {} labels).map fun e => e.child.pid).Nodup ∧
    ∀ e ∈ (system b).log State.collects {} labels,
      e.child.parent = some e.caller ∧ e.child.state = .zombie := by
  have hreach : (system b).Reachable s := ⟨{}, labels, rfl, h⟩
  have hpid := pidOk_of_reachable hreach hbound
  have hcollect := collectOk_of_run h hbound
  refine ⟨(treeOk_of_reachable hreach).live, ?_, hcollect.nodup, hcollect.parent⟩
  intro p q hne hp _ hEq
  exact hne (hpid.inj p q hEq (hpid.pos p hp).ne')

set_option maxRecDepth 10000 in
/-- The first process forks twice and collects both children. -/
theorem two_children_collected : ∃ labels s, (system .rr).Run {} labels s ∧
    ((system .rr).log State.collects {} labels).map (fun e => e.child.pid) = [2, 3] ∧
    (((system .rr).log State.collects {} labels).map fun e => e.child.pid).Nodup := by
  let labels : List Label := boot ++ [.schedule 0, .resumed 0 0] ++ forkLabels 0 0 1 ++
    forkLabels 0 0 2 ++ [.wait 0 0 false, .back 0 0, .resumed 0 1, .exit 0 1, .back 0 1,
      .resumed 0 2, .exit 0 2, .back 0 2, .schedule 0, .resumed 0 0, .wait 0 0 true]
  obtain ⟨s, hs, hbound, hlog⟩ := Machine.exists_run_of_exec (system .rr) labels (s := {})
    (P := fun s => s.ghost.allocs < 2 ^ 31 - 1 ∧
      ((system .rr).log State.collects {} labels).map (fun e => e.child.pid) = [2, 3])
    (by decide +kernel)
  exact ⟨labels, s, hs, hlog, (process_tree_reapable hs hbound).2.2.1⟩

end Xv6.Ptable
