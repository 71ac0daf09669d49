/-
# Pids

As long as `nextpid` has not overflowed, every pid `allocproc` has handed out is
below it, a slot that is in use has a positive pid, and no two slots share a pid
other than the `0` of slots that were never used or have been collected. A slot
whose `fork` failed keeps the pid it was given; that pid is still unique.
-/

import Xv6.Ptable.Steps

namespace Xv6.Ptable

open Xv6.Lib

namespace State

variable {s : State} {b : Build} {c : Cpu} {p : Slot} {l : Label}

/-- Pids are distinct and below `nextpid`. -/
structure PidOk (s : State) : Prop where
  nextpid : s.nextpid = s.ghost.allocs + 1
  nonneg : ∀ p, 0 ≤ (s.proc p).pid
  lt : ∀ p, (s.proc p).pid < s.nextpid
  pos : ∀ p, (s.proc p).state ≠ .unused → 0 < (s.proc p).pid
  inj : ∀ p q, (s.proc p).pid = (s.proc q).pid → (s.proc p).pid ≠ 0 → p = q

/-- Only `allocproc` advances `nextpid`. -/
theorem nextpid_next (hl : allocates l = none) : (s.next b l).nextpid = s.nextpid :=
  (next_leaves s b l).nextpid hl

/-- The count of allocations goes up with `allocproc` and not otherwise. -/
theorem allocs_next (s : State) (b : Build) (l : Label) :
    (s.next b l).ghost.allocs = s.ghost.allocs + if (allocates l).isSome then 1 else 0 := by
  have hstep := ghostStep_next s b l
  cases hstep with
  | same h =>
    rw [h]
    cases l with
    | userinit np | fork c p np => exact absurd (congrArg Ghost.allocs h) (Nat.succ_ne_self _)
    | _ => rfl
  | found np hl h =>
    rw [h]
    rcases hl with rfl | ⟨c, q, rfl⟩ <;> rfl
  | reaped f hl h =>
    rw [h]
    rcases hl with ⟨c, p, x, rfl⟩ | ⟨c, p, rfl⟩ <;> rfl
  | dispatched c n hl h =>
    rw [h]
    rcases hl with rfl | ⟨-, p, rfl⟩ <;> rfl
  | ctime c t np hl h => rw [h, hl]; rfl
  | exited c p hl h => rw [h, hl]; rfl
  | stored c p child pid hl h => rw [h, hl]; rfl
  | tickInc hl h => rw [h, hl]; rfl
  | tickAccount hl h => rw [h, hl]; rfl
  | tick hl h => rw [h, hl]; rfl

theorem allocs_le_next (b : Build) (l : Label) :
    s.ghost.allocs ≤ (s.next b l).ghost.allocs := by
  rw [allocs_next]
  exact Nat.le_add_right _ _

/-- How a step may change a pid. -/
theorem pid_next (hok : s.Ok) (enabled : s.Enabled l) (b : Build) (p : Slot) :
    (((s.next b l).proc p).pid = (s.proc p).pid ∧
      ((s.proc p).state = .unused → ((s.next b l).proc p).state = .unused)) ∨
    (((s.next b l).proc p).pid = s.nextpid ∧ allocates l = some p) ∨
    (((s.next b l).proc p).pid = 0 ∧ ((s.next b l).proc p).state = .unused) := by
  generalize hy : (s.next b l).proc p = y
  have hstep := slotStep_next hok enabled b p
  rw [hy] at hstep
  have hdrift : ∀ {x y : Proc}, Drifted x y → x.state = .unused → y.state = .unused := by
    intro x y h hx
    rcases h.2 with hsame | ⟨hsleep, -⟩
    · rw [hsame, hx]
    · rw [hx] at hsleep
      cases hsleep
  cases hstep with
  | drift h => exact Or.inl ⟨by rw [h.1], hdrift h⟩
  | found hl h =>
    refine Or.inr (Or.inl ⟨rfl, ?_⟩)
    rcases hl with rfl | ⟨c, q, rfl⟩ <;> rfl
  | reaped h => exact Or.inr (Or.inr ⟨rfl, rfl⟩)
  | killed c q pid hl h hy => exact Or.inl ⟨by rw [hy.1], fun hx => hdrift hy hx⟩
  | ticked hl hy =>
    refine Or.inl ⟨?_, fun hx => hdrift hy (by rw [tickProc_state, hx])⟩
    rw [hy.1]
    unfold tickProc
    split <;> rfl
  | failed c t hl h => exact Or.inl ⟨rfl, fun _ => rfl⟩
  | published t hl h =>
    have hemb : (s.proc p).state = .embryo := TableOk.owns hok t _ p h
    exact Or.inl ⟨rfl, fun hx => by rw [hx] at hemb; cases hemb⟩
  | exited c hl h parent => exact Or.inl ⟨rfl, fun hx => by rw [hx] at h; cases h⟩
  | yielded h => exact Or.inl ⟨rfl, fun hx => by rw [hx] at h; cases h⟩
  | slept h chan => exact Or.inl ⟨rfl, fun hx => by rw [hx] at h; cases h⟩
  | dispatched h => exact Or.inl ⟨rfl, fun hx => by rw [hx] at h; cases h⟩
  | ctime | init | trapKilled | priority | awake => exact Or.inl ⟨rfl, id⟩

theorem nextpid_allocates {np : Slot} (hl : allocates l = some np) :
    (s.next b l).nextpid = toInt32 (s.nextpid + 1) := by
  cases l with
  | userinit np | fork c p np => rfl
  | _ => cases hl

/-- Pids stay distinct while `nextpid` does not overflow. -/
theorem PidOk.next (h : s.PidOk) (hok : s.Ok) (enabled : s.Enabled l)
    (hbound : (s.next b l).ghost.allocs < 2 ^ 31 - 1) : (s.next b l).PidOk := by
  have hgrow : s.nextpid ≤ (s.next b l).nextpid ∧
      (s.next b l).nextpid = (s.next b l).ghost.allocs + 1 ∧
      ((allocates l).isSome → s.nextpid < (s.next b l).nextpid) := by
    have hpid := h.nextpid
    cases hl : allocates l with
    | none =>
      simp [allocs_next, hl, nextpid_next, hpid]
    | some np =>
      grind [allocs_next, toInt32_of_range, nextpid_allocates]
  obtain ⟨hle, hcount, hlt⟩ := hgrow
  refine ⟨hcount, ?_, ?_, ?_, ?_⟩
  · intro p
    have hold := h.nonneg p
    grind [h.nextpid, pid_next]
  · intro p
    have hold := h.lt p
    grind [pid_next]
  · intro p hstate
    have hnext := h.nextpid
    rcases pid_next hok enabled b p with ⟨hp, hun⟩ | ⟨hp, -⟩ | ⟨-, hun⟩
    · rw [hp]
      exact h.pos p fun hx => hstate (hun hx)
    · rw [hp]
      omega
    · exact absurd hun hstate
  · intro p q hEq hne
    have hp_lt := h.lt p
    have hq_lt := h.lt q
    grind [pid_next, h.inj]

theorem pidOk_init : ({} : State).PidOk where
  nextpid := rfl
  nonneg _ := le_refl _
  lt _ := Int.zero_lt_one
  pos _ h := absurd rfl h
  inj _ _ _ h := absurd rfl h

end State

/-- Pids are distinct in every reachable state before `nextpid` overflows. -/
theorem pidOk_of_reachable {b : Build} {s : State} (h : (system b).Reachable s)
    (hbound : s.ghost.allocs < 2 ^ 31 - 1) : s.PidOk := by
  have both : s.Ok ∧ s.PidOk := by
    refine h.invariant_below (fun s => s.ghost.allocs) (2 ^ 31 - 1)
      (I := fun s => s.Ok ∧ s.PidOk) ?_ ?_ ?_ hbound
    · exact fun s l _ => State.allocs_le_next b l
    · rintro s rfl
      exact ⟨State.ok_init, State.pidOk_init⟩
    · exact fun s l hs enabled hlt => ⟨hs.1.next enabled, hs.2.next hs.1 enabled hlt⟩
  exact both.2

end Xv6.Ptable
