/-
# Queue entries without distinct pids

`QueuesOk` says exactly who is queued, and needs pids to be distinct. What the
accounting of time slices needs is weaker and holds whatever the pids are: an
entry of queue `i` is a process that may be queued and has `cur_q = i`, and no
two entries of one queue have the same pid, because the duplicate check of every
insertion compares pids. Two processes with one pid can make an insertion fail;
they cannot put anybody into the wrong queue.
-/

import Xv6.Ptable.Queues

namespace Xv6.Ptable

open Xv6.Lib

namespace Mlfq

/-- Queue entries are processes in `R`, in the queue they belong to, and no two
entries of a queue have the same pid. -/
structure Entered (R : Slot → Prop) (pid : Slot → ℤ) (m : Mlfq) : Prop where
  last_ge : ∀ i, -1 ≤ (m.qu i).last
  mem : ∀ i, ∀ x ∈ (m.qu i).contents, ∃ p, x = some p ∧ R p ∧ (m.info p).curQ = i
  nodup : ∀ i, ((m.qu i).contents.map (Option.map pid)).Nodup

variable {R T : Slot → Prop} {m : Mlfq} {pid pid' : Slot → ℤ} {ticks : ℕ} {p : Slot}

namespace Entered

section

variable (h : Entered R pid m)

include h

theorem mono (hR : ∀ p, R p → T p) : Entered T pid m := by
  refine ⟨h.last_ge, fun i x hx => ?_, h.nodup⟩
  obtain ⟨p, rfl, hp, hcur⟩ := h.mem i x hx
  exact ⟨p, rfl, hR p hp, hcur⟩

/-- Only the pids of processes that may be queued matter. -/
theorem congr_pid (hpid : ∀ p, R p → pid' p = pid p) : Entered R pid' m := by
  refine ⟨h.last_ge, h.mem, fun i => ?_⟩
  have hmap : (m.qu i).contents.map (Option.map pid') =
      (m.qu i).contents.map (Option.map pid) := by
    grind [List.map_congr_left, h.mem]
  rw [hmap]
  exact h.nodup i

theorem setInfo (f : MlfqProc → MlfqProc) (hf : (f (m.info p)).curQ = (m.info p).curQ) :
    Entered R pid (m.setInfo p f) := by
  refine ⟨h.last_ge, fun i x hx => ?_, h.nodup⟩
  obtain ⟨q, rfl, hq, hcur⟩ := h.mem i x hx
  refine ⟨q, rfl, hq, ?_⟩
  by_cases hqp : q = p
  · subst hqp
    simpa [Mlfq.setInfo, hf] using hcur
  · simpa [Mlfq.setInfo, hqp] using hcur

theorem setInfo_of_not (hp : ¬ R p) (f : MlfqProc → MlfqProc) : Entered R pid (m.setInfo p f) := by
  refine ⟨h.last_ge, fun i x hx => ?_, h.nodup⟩
  obtain ⟨q, rfl, hq, hcur⟩ := h.mem i x hx
  have hqp : q ≠ p := fun hEq => hp (hEq ▸ hq)
  exact ⟨q, rfl, hq, by simpa [Mlfq.setInfo, hqp] using hcur⟩

/-- Appending a process whose pid the queue does not have. -/
theorem append (hnone : (m.qu (m.info p).curQ).search (samePid pid p) = none) (ticks : ℕ) :
    Entered (fun x => R x ∨ x = p) pid (m.append ticks (m.info p).curQ p) := by
  set k := (m.info p).curQ with hk
  have hcur : ∀ x, ((m.append ticks k p).info x).curQ = (m.info x).curQ := by
    intro x
    by_cases hx : x = p
    · subst hx
      simp [Mlfq.append]
    · simp [Mlfq.append, hx]
  have hat : ((m.append ticks k p).qu k).contents = (m.qu k).contents ++ [some p] := by
    simpa [Mlfq.append] using (m.qu k).contents_append (h.last_ge k) (some p)
  have haway : ∀ i, i ≠ k → (m.append ticks k p).qu i = m.qu i := by
    intro i hi
    simp [Mlfq.append, hi]
  have hold : ∀ i, ∀ x ∈ (m.qu i).contents, ∃ q, x = some q ∧ (R q ∨ q = p) ∧
      ((m.append ticks k p).info q).curQ = i := by
    grind [h.mem]
  refine ⟨fun i => ?_, fun i x hx => ?_, fun i => ?_⟩
  · by_cases hi : i = k
    · subst hi
      have := h.last_ge k
      simp only [Mlfq.append, Function.update_self, ArrayQueue.append_last]
      omega
    · rw [haway i hi]
      exact h.last_ge i
  · grind
  · by_cases hi : i = k
    · subst hi
      rw [hat, List.map_append, List.nodup_append]
      refine ⟨h.nodup k, List.nodup_singleton _, ?_⟩
      rintro a ha b hb rfl
      obtain ⟨x, hx, rfl⟩ := List.mem_map.mp ha
      obtain ⟨q, rfl, -, -⟩ := h.mem k x hx
      have hdiff := (ArrayQueue.search_eq_none _).mp hnone (some q) hx
      simp only [samePid, beq_eq_false_iff_ne] at hdiff
      grind
    · rw [haway i hi]
      exact h.nodup i

/-- The insertion of `fork`, `wakeup1`, `kill` and the end of a run. -/
theorem enqueue : Entered (fun x => R x ∨ x = p) pid (m.enqueue pid ticks p) := by
  unfold Mlfq.enqueue enqueueAt
  split
  · exact h.mono fun x hx => Or.inl hx
  · next hnone => exact h.append hnone ticks

/-- The insertion of `userinit`. -/
theorem enqueueFirst (hp : ¬ R p) :
    Entered (fun x => R x ∨ x = p) pid (m.enqueueFirst pid ticks p) := by
  unfold Mlfq.enqueueFirst
  split
  · exact h.mono fun x hx => Or.inl hx
  · next hnone =>
    have hset := h.setInfo_of_not hp fun i => { i with curQ := 0 }
    have hcur : ((m.setInfo p fun i => { i with curQ := 0 }).info p).curQ = 0 := by
      simp [Mlfq.setInfo]
    have happend := hset.append (by rw [hcur]; exact hnone) ticks
    rwa [hcur] at happend

/-- Closing a gap removes an entry and changes nothing else. -/
theorem removeAt {k ind : ℕ} (hind : (ind : ℤ) ≤ (m.qu k).last) :
    Entered R pid (m.removeAt k ind) := by
  have hat : ((m.removeAt k ind).qu k).contents = (m.qu k).contents.eraseIdx ind := by
    simpa [Mlfq.removeAt] using (m.qu k).contents_removeAt ind hind
  have haway : ∀ i, i ≠ k → (m.removeAt k ind).qu i = m.qu i := by
    intro i hi
    simp [Mlfq.removeAt, hi]
  refine ⟨fun i => ?_, fun i x hx => ?_, fun i => ?_⟩
  · by_cases hi : i = k
    · subst hi
      simp only [Mlfq.removeAt, Function.update_self, ArrayQueue.removeAt_last]
      omega
    · rw [haway i hi]
      exact h.last_ge i
  · by_cases hi : i = k
    · subst hi
      rw [hat] at hx
      exact h.mem i x (List.mem_of_mem_eraseIdx hx)
    · rw [haway i hi] at hx
      exact h.mem i x hx
  · grind [h.nodup, List.eraseIdx_sublist]

/-- Removing the entry of `p` takes `p` out of the queues. -/
theorem removeAt_self {k ind : ℕ} (hind : (ind : ℤ) ≤ (m.qu k).last)
    (harr : (m.qu k).arr ind = some p) : Entered (fun x => R x ∧ x ≠ p) pid (m.removeAt k ind) := by
  have hsize := (m.qu k).last_eq_size (h.last_ge k)
  have hmem : some p ∈ (m.qu k).contents := (m.qu k).mem_contents.mpr ⟨ind, by omega, harr⟩
  have hcur : (m.info p).curQ = k := by
    obtain ⟨q, hq, -, hcurq⟩ := h.mem k _ hmem
    cases hq
    exact hcurq
  have hremoved := h.removeAt hind
  have hgone : some p ∉ ((m.removeAt k ind).qu k).contents := by
    have hnodup : (m.qu k).contents.Nodup := List.Nodup.of_map _ (h.nodup k)
    have hat : ((m.removeAt k ind).qu k).contents = (m.qu k).contents.eraseIdx ind := by
      simpa [Mlfq.removeAt] using (m.qu k).contents_removeAt ind hind
    have hlt : ind < (m.qu k).contents.length := by
      rw [ArrayQueue.length_contents]
      omega
    have hget : (m.qu k).contents[ind] = some p := by
      have hopt := (m.qu k).getElem?_contents ind
      grind
    rw [hat, ← hnodup.erase_getElem ind hlt, hget]
    exact hnodup.not_mem_erase
  refine ⟨hremoved.last_ge, fun i x hx => ?_, hremoved.nodup⟩
  obtain ⟨q, rfl, hq, hcurq⟩ := hremoved.mem i x hx
  refine ⟨q, rfl, ⟨hq, ?_⟩, hcurq⟩
  rintro rfl
  have hik : k = i := hcur.symm.trans hcurq
  subst hik
  exact hgone hx

/-- The search for the pid of an entry finds that entry. -/
theorem search_entry {k j : ℕ} (hj : j < (m.qu k).size) (harr : (m.qu k).arr j = some p) :
    ∃ ind, (m.qu k).search (samePid pid p) = some ind ∧ (ind : ℤ) ≤ (m.qu k).last ∧
      (m.qu k).arr ind = some p := by
  have hmem : some p ∈ (m.qu k).contents := (m.qu k).mem_contents.mpr ⟨j, hj, harr⟩
  obtain ⟨ind, hind⟩ := ((m.qu k).search_isSome (samePid pid p)).mpr
    ⟨some p, hmem, by simp [samePid]⟩
  obtain ⟨hlt, htest⟩ := (m.qu k).search_eq_some hind
  have hsize := (m.qu k).last_eq_size (h.last_ge k)
  have hmem' : (m.qu k).arr ind ∈ (m.qu k).contents :=
    (m.qu k).mem_contents.mpr ⟨ind, hlt, rfl⟩
  obtain ⟨q, hq, -, -⟩ := h.mem k _ hmem'
  refine ⟨ind, hind, by omega, ?_⟩
  rw [hq] at htest hmem' ⊢
  have hpid : pid q = pid p := by simpa [samePid] using htest
  exact List.inj_on_of_nodup_map (h.nodup k) hmem' hmem (by simp [hpid])

/-- The removal of `wait` takes out at most an entry. -/
theorem dequeue (pid' : Slot → ℤ) : Entered R pid (m.dequeue pid' p) := by
  unfold Mlfq.dequeue
  split
  · next ind hind =>
    have hlt := ((m.qu _).search_eq_some hind).1
    have hsize := (m.qu (m.info p).curQ).last_eq_size (h.last_ge _)
    exact h.removeAt (by omega)
  · exact h

/-- Taking the process to be dispatched out of its queue. -/
theorem charge {i j : ℕ} (hj : j < (m.qu i).size) (harr : (m.qu i).arr j = some p) :
    Entered (fun x => R x ∧ x ≠ p) pid (m.charge pid i p) := by
  have hset := h.setInfo (p := p) (charged i) rfl
  obtain ⟨ind, hind, hle, hentry⟩ := hset.search_entry (k := i) hj harr
  simp only [Mlfq.charge, hind]
  exact hset.removeAt_self hle hentry

/-- Re-inserting the process that comes back from a run. -/
theorem requeue (hp : ¬ R p) : Entered (fun x => R x ∨ x = p) pid (m.requeue pid ticks p) :=
  (h.setInfo_of_not hp demoted).enqueue

end

end Entered

/-- What the aging pass has done to `m₀` once it is through with the queues up to
`n`: some processes that were in those queues are one queue up, and no member
other than `cur_q` and `qtime` has changed. -/
structure Aged (R : Slot → Prop) (pid : Slot → ℤ) (m₀ : Mlfq) (n : ℕ) (m : Mlfq) : Prop where
  entered : Entered R pid m
  q : ∀ x, (m.info x).q = (m₀.info x).q
  flg : ∀ x, (m.info x).flg = (m₀.info x).flg
  curQ : ∀ x, (m.info x).curQ = (m₀.info x).curQ ∨
    (R x ∧ (m₀.info x).curQ ≤ n ∧ (m.info x).curQ + 1 = (m₀.info x).curQ)

variable {m₀ : Mlfq} {n : ℕ}

theorem Aged.mono {n' : ℕ} (h : Aged R pid m₀ n m) (hn : n ≤ n') : Aged R pid m₀ n' m := by
  refine ⟨h.entered, h.q, h.flg, fun x => ?_⟩
  grind [h.curQ]

/-- One promotion, of an entry of the queue the pass is at. -/
theorem Aged.promote {a : Aging} {i j : ℕ} (hi : 1 ≤ i) (h : Aged R pid m₀ i a.m)
    (hj : j < (a.m.qu i).size) (harr : (a.m.qu i).arr j = some p) :
    Aged R pid m₀ i (Mlfq.promote pid ticks i a p).m := by
  obtain ⟨q, hq, hR, hcur⟩ := h.entered.mem i _ ((a.m.qu i).mem_contents.mpr ⟨j, hj, rfl⟩)
  rw [harr] at hq
  cases hq
  obtain ⟨ind, hind, hle, hentry⟩ := h.entered.search_entry hj harr
  have hremoved := h.entered.removeAt_self hle hentry
  have hold : (m₀.info p).curQ = i := by
    rcases h.curQ p with hsame | ⟨-, hmax, hup⟩
    · rw [← hsame, hcur]
    · omega
  simp only [Mlfq.promote, hind, Option.getD_some, Option.isSome_some, Bool.true_or, if_true]
  split
  · exact ⟨hremoved.mono fun x hx => hx.1, h.q, h.flg, h.curQ⟩
  · next hnone =>
    have hset := hremoved.setInfo_of_not (p := p) (by simp) fun x => { x with curQ := i - 1 }
    have hnew : ((Mlfq.setInfo (a.m.removeAt i ind) p
        fun x => { x with curQ := i - 1 }).info p).curQ = i - 1 := by simp [Mlfq.setInfo]
    have happend := hset.append (by rw [hnew]; exact hnone) ticks
    rw [hnew] at happend
    have hself : ∀ f : MlfqProc → MlfqProc,
        ((Mlfq.append ticks (Mlfq.setInfo (a.m.removeAt i ind) p f) (i - 1) p).info p) =
          { f (a.m.info p) with qtime := toInt32 ticks } := by
      intro f
      simp [Mlfq.append, Mlfq.setInfo, Mlfq.removeAt]
    have hother : ∀ x, x ≠ p → ∀ f : MlfqProc → MlfqProc,
        ((Mlfq.append ticks (Mlfq.setInfo (a.m.removeAt i ind) p f) (i - 1) p).info x) =
          a.m.info x := by
      intro x hx f
      simp [Mlfq.append, Mlfq.setInfo, Mlfq.removeAt, hx]
    refine ⟨happend.mono ?_, fun x => ?_, fun x => ?_, fun x => ?_⟩
    · rintro x (⟨hx, -⟩ | rfl)
      · exact hx
      · exact hR
    · grind [h.q]
    · grind [h.flg]
    · grind [h.curQ]

/-- The rounds of the aging pass over one queue. -/
theorem Aged.ageQueue {i : ℕ} (hi : 1 ≤ i) (fuel j : ℕ) {a : Aging}
    (h : Aged R pid m₀ i a.m) : Aged R pid m₀ i (Mlfq.ageQueue pid ticks i fuel j a).m := by
  induction fuel generalizing j a with
  | zero => exact h
  | succ fuel ih =>
    rw [Mlfq.ageQueue]
    split
    · next hj =>
      cases harr : (a.m.qu i).arr j with
      | none => exact ih (j + 1) h
      | some p =>
        have hsize := (a.m.qu i).last_eq_size (h.entered.last_ge i)
        dsimp only
        split
        · exact ih (j + 1) (h.promote hi (by omega) harr)
        · exact ih (j + 1) h
    · exact h

/-- The whole aging pass moves a process at most one queue up. -/
theorem Aged.age (h : Entered R pid m) (ticks : ℕ) : Aged R pid m 4 (m.age pid ticks) := by
  have hlevel : ∀ (a : Aging) (i : ℕ), 1 ≤ i → Aged R pid m (i - 1) a.m →
      Aged R pid m i (ageLevel pid ticks a i).m :=
    fun a i hi ha => (ha.mono (Nat.sub_le i 1)).ageQueue hi _ _
  have hstart : Aged R pid m 0 m :=
    ⟨h, fun _ => rfl, fun _ => rfl, fun _ => Or.inl rfl⟩
  simp only [Mlfq.age, List.foldl_cons, List.foldl_nil]
  grind

/-- The head that is picked is an entry. -/
theorem pickHead_entry {state : Slot → ProcState} {i : ℕ}
    (h : m.pickHead state = some (i, p)) :
    0 ≤ (m.qu i).last ∧ (m.qu i).arr 0 = some p := by
  unfold pickHead at h
  grind

end Mlfq

end Xv6.Ptable
