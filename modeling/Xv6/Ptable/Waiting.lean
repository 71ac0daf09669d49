/-
# No lost exit notification

A process asleep in `wait` or `waitx` sleeps on the address of its own slot. It
went to sleep because it had a child and none was a zombie, and both stay true
for as long as it sleeps: `exit` wakes the parent before it makes the child a
`ZOMBIE`, and wakes `initproc` when it hands over a child that is one already,
all in one critical section.
-/

import Xv6.Ptable.Tree

namespace Xv6.Ptable

open Xv6.Lib

namespace State

variable {s : State} {b : Build} {p : Slot} {l : Label}

/-- A process that sleeps on a process sleeps on itself, has a child, and has no
child to collect. -/
def WaitersOk (s : State) : Prop :=
  ∀ p q, (s.proc p).state = .sleeping → (s.proc p).chan = some (.proc q) →
    q = p ∧ (∃ x, (s.proc x).parent = some p) ∧
      ∀ x, (s.proc x).parent = some p → (s.proc x).state ≠ .zombie

/-- Who sleeps on a process after a step did so before, or has just scanned the
table in `wait`. -/
theorem asleep_next (hok : s.Ok) (enabled : s.Enabled l) (b : Build) {q : Slot}
    (hsleep : ((s.next b l).proc p).state = .sleeping)
    (hchan : ((s.next b l).proc p).chan = some (.proc q)) :
    ((s.proc p).state = .sleeping ∧ (s.proc p).chan = some (.proc q) ∧
      ∀ c cur, l = .exit c cur → p ≠ cur) ∨
    (q = p ∧ (∀ x, x ≠ p → (s.next b l).proc x = s.proc x) ∧
      ((s.next b l).proc p).parent = (s.proc p).parent ∧
      (∃ x, (s.proc x).parent = some p) ∧
      ∀ x, (s.proc x).parent = some p → (s.proc x).state ≠ .zombie) := by
  cases familyStep_next hok enabled b p with
  | quiet hq hexit =>
    grind [hq.chan]
  | found _ hnew => simp [hnew] at hsleep
  | failed q' stage _ _ hnew => simp [hnew] at hsleep
  | copied c q' _ hpc hnew => simp [hnew, embryo_of_pc hok hpc] at hsleep
  | published t _ _ hnew => simp [hnew] at hsleep
  | exited c _ _ hnew => simp [hnew] at hsleep
  | abandoned c cur hl hne _ _ hstate hkept =>
    grind
  | reaped c cur _ _ _ _ hnew => simp [hnew, Proc.freed] at hsleep
  | waits _ _ _ hnew hparent hother hkids hnone =>
    rw [hnew] at hchan
    cases hchan
    exact Or.inr ⟨rfl, hother, hparent, hkids, hnone⟩

/-- A child of a sleeping process stays its child. -/
theorem child_kept (hok : s.Ok) (htree : s.TreeOk) (enabled : s.Enabled l) (b : Build) {x : Slot}
    (hsleep : (s.proc p).state = .sleeping) (hexit : ∀ c cur, l = .exit c cur → p ≠ cur)
    (hx : (s.proc x).parent = some p) : ((s.next b l).proc x).parent = some p := by
  cases familyStep_next hok enabled b x with
  | quiet hq _ => rw [hq.parent, hx]
  | found _ _ hparent => rw [hparent, hx]
  | failed q stage _ _ _ hparent => rw [hparent, hx]
  | copied c q _ hpc =>
    grind [htree.embryo, embryo_of_pc, same_owner]
  | published t _ _ _ hparent => rw [hparent, hx]
  | exited c _ _ _ hparent => rw [hparent, adopted, if_neg (htree.self x), hx]
  | abandoned c cur hl _ hold =>
    rw [hx] at hold
    cases hold
    exact absurd rfl (hexit c p hl)
  | reaped c cur _ hrun hold =>
    rw [hx] at hold
    cases hold
    simp [hrun] at hsleep
  | waits _ _ _ _ hparent => rw [hparent, hx]

/-- A process that is still asleep on itself after a step has got no zombie
child by it: whoever makes one has woken the parent. -/
theorem no_new_zombie (hok : s.Ok) (htree : s.TreeOk) (enabled : s.Enabled l) (b : Build)
    {x : Slot} (hsleep : ((s.next b l).proc p).state = .sleeping)
    (hchan : ((s.next b l).proc p).chan = some (.proc p))
    (hold : ∀ x, (s.proc x).parent = some p → (s.proc x).state ≠ .zombie)
    (hx : ((s.next b l).proc x).parent = some p) : ((s.next b l).proc x).state ≠ .zombie := by
  intro hzombie
  cases familyStep_next hok enabled b x with
  | quiet hq _ =>
    rcases hq.state with hsame | ⟨-, hnew⟩
    · exact hold x (hq.parent ▸ hx) (hsame ▸ hzombie)
    · simp [hzombie, ProcState.active] at hnew
  | found _ hnew => simp [hnew] at hzombie
  | failed q stage _ _ hnew => simp [hnew] at hzombie
  | copied c q _ hpc hnew => simp [hnew, embryo_of_pc hok hpc] at hzombie
  | published t _ _ hnew => simp [hnew] at hzombie
  | exited c _ _ _ hparent hawake =>
    rw [hparent, adopted, if_neg (htree.self x)] at hx
    rw [hx] at hawake
    exact hawake p hsleep hchan
  | abandoned c cur _ _ _ hparent hstate _ hawake =>
    rw [hparent] at hx
    rcases hstate with hsame | ⟨-, hrun⟩
    · have := hawake (hsame ▸ hzombie)
      rw [hx] at this
      exact this p hsleep hchan
    · simp [hrun] at hzombie
  | reaped c cur _ _ _ _ hnew => simp [hnew, Proc.freed] at hzombie
  | waits _ _ hstate => simp [hstate] at hzombie

theorem WaitersOk.next (h : s.WaitersOk) (hok : s.Ok) (htree : s.TreeOk) (enabled : s.Enabled l)
    (b : Build) : (s.next b l).WaitersOk := by
  intro p q hsleep hchan
  rcases asleep_next hok enabled b hsleep hchan with
    ⟨hold, hold', hexit⟩ | ⟨rfl, hother, hparent, ⟨x, hx⟩, hnone⟩
  · obtain ⟨rfl, ⟨x, hx⟩, hnone⟩ := h p q hold hold'
    refine ⟨rfl, ⟨x, child_kept hok htree enabled b hold hexit hx⟩, fun y hy => ?_⟩
    exact no_new_zombie hok htree enabled b hsleep hchan hnone hy
  · grind

end State

/-- No exit notification is lost: a process blocked in `wait` or `waitx` has a
child, and none of its children is waiting to be collected. -/
theorem blocked_parent_has_no_zombie {b : Build} {s : State} (h : (system b).Reachable s)
    {p : Slot} (hsleep : (s.proc p).state = .sleeping) (hchan : (s.proc p).chan = some (.proc p)) :
    (∃ x, (s.proc x).parent = some p ∧ (s.proc x).state ≠ .unused) ∧
    ∀ x, (s.proc x).parent = some p → (s.proc x).state ≠ .zombie := by
  have hwait : s.WaitersOk := by
    refine h.invariant_of_reachable ?_ ?_
    · rintro s rfl p q hp
      cases hp
    · intro s l hs hw enabled
      exact hw.next (ok_of_reachable hs) (treeOk_of_reachable hs) enabled b
  obtain ⟨-, ⟨x, hx⟩, hnone⟩ := hwait p p hsleep hchan
  refine ⟨⟨x, hx, fun hunused => ?_⟩, hnone⟩
  rw [(treeOk_of_reachable h).unused x hunused] at hx
  cases hx

set_option maxRecDepth 10000 in
/-- The first process forks and waits; its child exits only later. -/
theorem blocked_parent_after_fork : ∃ s, (system .rr).Reachable s ∧ s.lk = .free ∧
    (s.proc 0).state = .sleeping ∧ (s.proc 0).chan = some (.proc 0) ∧
    (s.proc 1).parent = some 0 ∧ (s.proc 1).state ≠ .zombie := by
  obtain ⟨s, hs, hlk, hsleep, hchan, hparent⟩ := Machine.exists_reachable_of_exec
    (system .rr) (boot ++ [.schedule 0, .resumed 0 0] ++ forkLabels 0 0 1 ++
      [.wait 0 0 false, .back 0 0, .resumed 0 1]) (s := {})
    (P := fun s => s.lk = .free ∧ (s.proc 0).state = .sleeping ∧
      (s.proc 0).chan = some (.proc 0) ∧ (s.proc 1).parent = some 0) rfl (by decide +kernel)
  exact ⟨s, hs, hlk, hsleep, hchan, hparent,
    (blocked_parent_has_no_zombie hs hsleep hchan).2 1 hparent⟩

end Xv6.Ptable
