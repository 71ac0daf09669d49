/-
# What the queue operations do to the set of queued processes

`QueuesOk R m` says that the queues hold exactly the processes in `R`, each once
and in the queue its `cur_q` names, in the order in which they were appended, and
that no append ever wrote outside an array. Each operation is characterised by
how it changes `R`; the duplicate checks by pid are harmless because the pids of
queued processes are distinct.
-/

import Xv6.Ptable.Mlfq
import Mathlib.Data.Fintype.Card
import Mathlib.Data.Fintype.Option

namespace Xv6.Ptable

open Xv6.Lib

namespace Mlfq

/-- One queue entry was appended before another. -/
def Before (m : Mlfq) : Option Slot → Option Slot → Prop
  | some p, some q => m.stamp p < m.stamp q
  | _, _ => False

/-- The queues hold exactly the processes `R`. -/
structure QueuesOk (R : Slot → Prop) (m : Mlfq) : Prop where
  last_ge : ∀ i, -1 ≤ (m.qu i).last
  mem_iff : ∀ i x, x ∈ (m.qu i).contents ↔ ∃ p, x = some p ∧ R p ∧ (m.info p).curQ = i
  sorted : ∀ i, (m.qu i).contents.Pairwise m.Before
  stamp_lt : ∀ p, R p → m.stamp p < m.clock
  curQ_le : ∀ p, (m.info p).curQ ≤ 4
  peak_lt : ∀ i, (m.qu i).peak < NPROC

variable {R : Slot → Prop} {m : Mlfq} {pid : Slot → ℤ} {ticks : ℕ} {p : Slot}

theorem before_irrefl (m : Mlfq) (x : Option Slot) : ¬ m.Before x x := by
  cases x <;> simp [Before]

namespace QueuesOk

/-- The queues at the start. -/
theorem empty : QueuesOk (fun _ => False) {} where
  last_ge _ := le_refl _
  mem_iff i x := by
    constructor
    · intro hx
      cases hx
    · rintro ⟨p, -, hp, -⟩
      exact hp.elim
  sorted _ := List.Pairwise.nil
  stamp_lt p hp := hp.elim
  curQ_le _ := Nat.zero_le 4
  peak_lt _ := by simp [NPROC]

section

variable (h : QueuesOk R m)

include h

theorem congr {R' : Slot → Prop} (hR : ∀ p, R p ↔ R' p) : QueuesOk R' m := by
  have : R = R' := funext fun p => propext (hR p)
  exact this ▸ h

theorem mem_some (i : ℕ) : some p ∈ (m.qu i).contents ↔ R p ∧ (m.info p).curQ = i := by
  grind [h.mem_iff]

theorem none_notMem (i : ℕ) : none ∉ (m.qu i).contents := by
  intro hmem
  obtain ⟨q, hq, -⟩ := (h.mem_iff i none).mp hmem
  cases hq

theorem nodup (i : ℕ) : (m.qu i).contents.Nodup := by
  refine List.Pairwise.imp ?_ (h.sorted i)
  rintro x y hxy rfl
  exact m.before_irrefl x hxy

/-- A queue that misses a process has room for it. -/
theorem size_lt (hp : ¬ R p) (i : ℕ) : (m.qu i).size < NPROC := by
  have hnodup : (none :: some p :: (m.qu i).contents).Nodup := by
    refine List.nodup_cons.mpr ⟨?_, List.nodup_cons.mpr ⟨?_, h.nodup i⟩⟩
    · simp [h.none_notMem i]
    · intro hmem
      exact hp ((h.mem_some i).mp hmem).1
  grind [hnodup.length_le_card, ArrayQueue.length_contents, Fintype.card_option, Fintype.card_fin]

/-- Every queue fits its array. -/
theorem last_le (i : ℕ) : (m.qu i).last ≤ NPROC - 1 := by
  have hnodup : (none :: (m.qu i).contents).Nodup :=
    List.nodup_cons.mpr ⟨h.none_notMem i, h.nodup i⟩
  have hcard := hnodup.length_le_card
  simp only [List.length_cons, ArrayQueue.length_contents, Fintype.card_option,
    Fintype.card_fin] at hcard
  have := (m.qu i).last_eq_size (h.last_ge i)
  omega

/-- Members other than `cur_q` are invisible to the queues. -/
theorem setInfo (f : MlfqProc → MlfqProc) (hf : (f (m.info p)).curQ = (m.info p).curQ) :
    QueuesOk R (m.setInfo p f) := by
  have hcur : ∀ x, ((m.setInfo p f).info x).curQ = (m.info x).curQ := by
    intro x
    by_cases hx : x = p
    · subst hx
      simpa [Mlfq.setInfo] using hf
    · simp [Mlfq.setInfo, hx]
  refine ⟨h.last_ge, ?_, h.sorted, h.stamp_lt, ?_, h.peak_lt⟩
  · intro i x
    simp only [hcur]
    exact h.mem_iff i x
  · intro x
    rw [hcur]
    exact h.curQ_le x

/-- The queue of a process that is not queued may change. -/
theorem setInfo_of_not (hp : ¬ R p) (f : MlfqProc → MlfqProc) (hf : (f (m.info p)).curQ ≤ 4) :
    QueuesOk R (m.setInfo p f) := by
  have hother : ∀ x, x ≠ p → (m.setInfo p f).info x = m.info x := by
    intro x hx
    simp [Mlfq.setInfo, hx]
  refine ⟨h.last_ge, ?_, h.sorted, h.stamp_lt, ?_, h.peak_lt⟩
  · intro i x
    rw [show (m.setInfo p f).qu = m.qu from rfl, h.mem_iff]
    grind
  · intro x
    by_cases hx : x = p
    · subst hx
      simpa [Mlfq.setInfo] using hf
    · rw [hother x hx]
      exact h.curQ_le x

/-- Appending a process that is not queued, to its own queue, queues it. -/
theorem append (hp : ¬ R p) (ticks : ℕ) :
    QueuesOk (fun x => R x ∨ x = p) (m.append ticks (m.info p).curQ p) := by
  set k := (m.info p).curQ with hk
  have hinfo : ∀ x, ((m.append ticks k p).info x).curQ = (m.info x).curQ := by
    intro x
    by_cases hx : x = p
    · subst hx
      simp [Mlfq.append]
    · simp [Mlfq.append, hx]
  have hstamp : ∀ x, x ≠ p → (m.append ticks k p).stamp x = m.stamp x := by
    intro x hx
    simp [Mlfq.append, hx]
  have hself : (m.append ticks k p).stamp p = m.clock := by simp [Mlfq.append]
  have hat : ((m.append ticks k p).qu k).contents = (m.qu k).contents ++ [some p] := by
    simpa [Mlfq.append] using (m.qu k).contents_append (h.last_ge k) (some p)
  have haway : ∀ i, i ≠ k → (m.append ticks k p).qu i = m.qu i := by
    intro i hi
    simp [Mlfq.append, hi]
  have hqueued : ∀ i, ∀ x ∈ (m.qu i).contents, ∃ q, x = some q ∧ q ≠ p ∧ R q := by
    grind [h.mem_iff]
  have hsorted : ∀ i, (m.qu i).contents.Pairwise (m.append ticks k p).Before := by
    intro i
    refine (h.sorted i).imp_of_mem ?_
    intro x y hx hy hxy
    obtain ⟨q, rfl, hq, -⟩ := hqueued i x hx
    obtain ⟨r, rfl, hr, -⟩ := hqueued i y hy
    simpa [Before, hstamp q hq, hstamp r hr] using hxy
  refine ⟨?_, ?_, ?_, ?_, ?_, ?_⟩
  · intro i
    by_cases hi : i = k
    · subst hi
      have := h.last_ge k
      simp only [Mlfq.append, Function.update_self, ArrayQueue.append_last]
      omega
    · rw [haway i hi]
      exact h.last_ge i
  · grind [h.mem_iff]
  · intro i
    by_cases hi : i = k
    · subst hi
      rw [hat, List.pairwise_append]
      refine ⟨hsorted k, List.pairwise_singleton _ _, ?_⟩
      intro x hx y hy
      obtain ⟨q, rfl, hq, hR⟩ := hqueued k x hx
      rw [List.mem_singleton] at hy
      subst hy
      simpa [Before, hstamp q hq, hself] using h.stamp_lt q hR
    · rw [haway i hi]
      exact hsorted i
  · intro x hx
    by_cases hxp : x = p
    · subst hxp
      rw [hself]
      exact Nat.lt_succ_self _
    · rw [hstamp x hxp]
      exact Nat.lt_succ_of_lt (h.stamp_lt x (hx.resolve_right hxp))
  · intro x
    rw [hinfo]
    exact h.curQ_le x
  · intro i
    by_cases hi : i = k
    · subst hi
      have hsize := h.size_lt hp k
      have hlast := (m.qu k).last_eq_size (h.last_ge k)
      have hpeak := h.peak_lt k
      simp only [Mlfq.append, Function.update_self, ArrayQueue.append_peak]
      omega
    · rw [haway i hi]
      exact h.peak_lt i

/-- Inserting a process whose pid no queued process has, queues it. -/
theorem enqueue (hp : ¬ R p) (hpid : ∀ x, R x → pid x ≠ pid p) :
    QueuesOk (fun x => R x ∨ x = p) (m.enqueue pid ticks p) := by
  have hnone : (m.qu (m.info p).curQ).search (samePid pid p) = none := by
    rw [ArrayQueue.search_eq_none]
    intro x hx
    obtain ⟨q, rfl, hR, -⟩ := (h.mem_iff _ x).mp hx
    simpa [samePid] using hpid q hR
  simp only [Mlfq.enqueue, enqueueAt, hnone]
  exact h.append hp ticks

/-- The search for the pid of a queued process finds that process. -/
theorem search_queued (hp : R p) (hpid : ∀ x, R x → pid x = pid p → x = p) :
    ∃ ind, (m.qu (m.info p).curQ).search (samePid pid p) = some ind ∧
      (ind : ℤ) ≤ (m.qu (m.info p).curQ).last ∧
      (m.qu (m.info p).curQ).arr ind = some p := by
  set k := (m.info p).curQ with hk
  obtain ⟨ind, hind⟩ := ((m.qu k).search_isSome (samePid pid p)).mpr
    ⟨some p, (h.mem_some k).mpr ⟨hp, rfl⟩, by simp [samePid]⟩
  obtain ⟨hlt, htest⟩ := (m.qu k).search_eq_some hind
  have hmem : (m.qu k).arr ind ∈ (m.qu k).contents :=
    (m.qu k).mem_contents.mpr ⟨ind, hlt, rfl⟩
  obtain ⟨q, hq, hR, -⟩ := (h.mem_iff k _).mp hmem
  rw [hq] at htest
  have hEq : q = p := hpid q hR (by simpa [samePid] using htest)
  have hlast := (m.qu k).last_eq_size (h.last_ge k)
  exact ⟨ind, hind, by omega, by rw [hq, hEq]⟩

/-- Closing the gap of a process erases it from the list. -/
theorem contents_removeAt {k ind : ℕ} (hind : (ind : ℤ) ≤ (m.qu k).last)
    (harr : (m.qu k).arr ind = some p) :
    ((m.removeAt k ind).qu k).contents = (m.qu k).contents.erase (some p) := by
  have hat : ((m.removeAt k ind).qu k).contents = (m.qu k).contents.eraseIdx ind := by
    simpa [Mlfq.removeAt] using (m.qu k).contents_removeAt ind hind
  have hlt : ind < (m.qu k).contents.length := by
    have hlast := (m.qu k).last_eq_size (h.last_ge k)
    rw [ArrayQueue.length_contents]
    omega
  have hget : (m.qu k).contents[ind] = some p := by
    have hopt := (m.qu k).getElem?_contents ind
    grind
  rw [hat, ← hget]
  exact ((h.nodup k).erase_getElem ind hlt).symm

/-- Closing the gap of a queued process takes it out of the queues. -/
theorem removeAt {k ind : ℕ} (hk : (m.info p).curQ = k) (hind : (ind : ℤ) ≤ (m.qu k).last)
    (harr : (m.qu k).arr ind = some p) : QueuesOk (fun x => R x ∧ x ≠ p) (m.removeAt k ind) := by
  have herase := h.contents_removeAt hind harr
  have haway : ∀ i, i ≠ k → (m.removeAt k ind).qu i = m.qu i := by
    intro i hi
    simp [Mlfq.removeAt, hi]
  refine ⟨?_, ?_, ?_, ?_, h.curQ_le, ?_⟩
  · intro i
    by_cases hi : i = k
    · subst hi
      simp only [Mlfq.removeAt, Function.update_self, ArrayQueue.removeAt_last]
      omega
    · rw [haway i hi]
      exact h.last_ge i
  · intro i x
    rw [show (m.removeAt k ind).info = m.info from rfl]
    by_cases hi : i = k
    · subst hi
      rw [herase, (h.nodup i).mem_erase_iff, h.mem_iff]
      grind
    · grind [h.mem_iff]
  · intro i
    by_cases hi : i = k
    · subst hi
      rw [herase]
      exact (h.sorted i).sublist List.erase_sublist
    · rw [haway i hi]
      exact h.sorted i
  · intro x hx
    exact h.stamp_lt x hx.1
  · intro i
    by_cases hi : i = k
    · subst hi
      simpa [Mlfq.removeAt] using h.peak_lt i
    · rw [haway i hi]
      exact h.peak_lt i

/-- The removal in `wait` finds nothing: no queued process has the pid. -/
theorem dequeue_eq (hpid : ∀ x, R x → pid x ≠ pid p) : m.dequeue pid p = m := by
  have hnone : (m.qu (m.info p).curQ).search (samePid pid p) = none := by
    rw [ArrayQueue.search_eq_none]
    intro x hx
    obtain ⟨q, rfl, hR, -⟩ := (h.mem_iff _ x).mp hx
    simpa [samePid] using hpid q hR
  simp only [Mlfq.dequeue, hnone]

/-- The insertion of `userinit`. -/
theorem enqueueFirst (hp : ¬ R p) (hpid : ∀ x, R x → pid x ≠ pid p) :
    QueuesOk (fun x => R x ∨ x = p) (m.enqueueFirst pid ticks p) := by
  have hnone : (m.qu 0).search (samePid pid p) = none := by
    rw [ArrayQueue.search_eq_none]
    intro x hx
    obtain ⟨q, rfl, hR, -⟩ := (h.mem_iff _ x).mp hx
    simpa [samePid] using hpid q hR
  simp only [Mlfq.enqueueFirst, hnone]
  have hset := h.setInfo_of_not hp (fun i => { i with curQ := 0 }) (Nat.zero_le 4)
  have happend := hset.append hp ticks
  simpa [Mlfq.setInfo] using happend

end

/-- Moving an aged process one queue up keeps the set of queued processes. -/
theorem promote (i : ℕ) {a : Aging} (h : QueuesOk R a.m) (hp : R p)
    (hcur : (a.m.info p).curQ = i) (hpid : ∀ x, R x → pid x = pid p → x = p) :
    QueuesOk R (Mlfq.promote pid ticks i a p).m := by
  obtain ⟨ind, hind, hle, harr⟩ := h.search_queued hp hpid
  rw [hcur] at hind hle harr
  have hremoved := h.removeAt hcur hle harr
  have hnone : ((a.m.removeAt i ind).qu (i - 1)).search (samePid pid p) = none := by
    rw [ArrayQueue.search_eq_none]
    intro x hx
    obtain ⟨q, rfl, ⟨hR, hne⟩, -⟩ := (hremoved.mem_iff _ x).mp hx
    simpa [samePid] using fun hEq => hne (hpid q hR hEq)
  simp only [Mlfq.promote, hind, Option.getD_some, Option.isSome_some, Bool.true_or, if_true,
    hnone]
  have hbound : i - 1 ≤ 4 := by
    have := h.curQ_le p
    omega
  have hset := hremoved.setInfo_of_not (p := p) (by simp) (fun x => { x with curQ := i - 1 })
    hbound
  have happend := hset.append (p := p) (by simp) ticks
  have hinfo : ((Mlfq.setInfo (a.m.removeAt i ind) p
      fun x => { x with curQ := i - 1 }).info p).curQ = i - 1 := by simp [Mlfq.setInfo]
  rw [hinfo] at happend
  refine happend.congr fun x => ?_
  by_cases hx : x = p
  · subst hx
    simp [hp]
  · simp [hx]

/-- The rounds of the aging pass over one queue. -/
theorem ageQueue (i : ℕ) (hpid : ∀ x y, R x → R y → pid x = pid y → x = y) (fuel j : ℕ)
    {a : Aging} (h : QueuesOk R a.m) : QueuesOk R (Mlfq.ageQueue pid ticks i fuel j a).m := by
  induction fuel generalizing j a with
  | zero => exact h
  | succ fuel ih =>
    rw [Mlfq.ageQueue]
    split
    · next hj =>
      cases harr : (a.m.qu i).arr j with
      | none => exact ih (j + 1) h
      | some p =>
        have hlast := (a.m.qu i).last_eq_size (h.last_ge i)
        have hmem : some p ∈ (a.m.qu i).contents :=
          (a.m.qu i).mem_contents.mpr ⟨j, by omega, harr⟩
        obtain ⟨hR, hcur⟩ := (h.mem_some i).mp hmem
        dsimp only
        split
        · exact ih (j + 1) (h.promote i hR hcur fun x hx hEq => hpid x p hx hR hEq)
        · exact ih (j + 1) h
    · exact h

/-- The whole aging pass keeps the set of queued processes. -/
theorem age (h : QueuesOk R m) (hpid : ∀ x y, R x → R y → pid x = pid y → x = y) :
    QueuesOk R (m.age pid ticks) := by
  have hlevel : ∀ (a : Aging) (i : ℕ), QueuesOk R a.m →
      QueuesOk R (ageLevel pid ticks a i).m :=
    fun a i ha => ha.ageQueue i hpid _ _
  simp only [Mlfq.age, List.foldl_cons, List.foldl_nil]
  exact hlevel _ 4 (hlevel _ 3 (hlevel _ 2 (hlevel _ 1 h)))

/-- Taking the process to be dispatched out of its queue. -/
theorem charge (h : QueuesOk R m) (hp : R p) {i : ℕ} (hcur : (m.info p).curQ = i)
    (hpid : ∀ x, R x → pid x = pid p → x = p) :
    QueuesOk (fun x => R x ∧ x ≠ p) (m.charge pid i p) := by
  have hset := h.setInfo (p := p) (charged i) rfl
  have hcur' : ((m.setInfo p (charged i)).info p).curQ = i := by
    simpa [Mlfq.setInfo, charged] using hcur
  obtain ⟨ind, hind, hle, harr⟩ := hset.search_queued hp hpid
  rw [hcur'] at hind hle harr
  simp only [Mlfq.charge, hind]
  exact hset.removeAt hcur' hle harr

/-- Re-inserting the process that comes back from a run, demoted or not. -/
theorem requeue (h : QueuesOk R m) (hp : ¬ R p) (hpid : ∀ x, R x → pid x ≠ pid p) :
    QueuesOk (fun x => R x ∨ x = p) (m.requeue pid ticks p) := by
  refine (h.setInfo_of_not hp demoted ?_).enqueue hp hpid
  have := h.curQ_le p
  unfold demoted
  split
  · dsimp only
    split <;> omega
  · exact this

/-- An empty set of queued processes leaves nothing to pick. -/
theorem pickHead_none (h : QueuesOk R m) (state : Slot → ProcState) (hR : ∀ p, ¬ R p) :
    m.pickHead state = none := by
  have hempty : (List.range 5).find? (fun i => decide (0 ≤ (m.qu i).last)) = none := by
    rw [List.find?_eq_none]
    intro i _ hi
    have hlast := (m.qu i).last_eq_size (h.last_ge i)
    have hpos : 0 < (m.qu i).size := by
      have := of_decide_eq_true hi
      omega
    obtain ⟨q, -, hq, -⟩ := (h.mem_iff i _).mp ((m.qu i).mem_contents.mpr ⟨0, hpos, rfl⟩)
    exact hR q hq
  simp only [pickHead, hempty]

/-- With some process queued, the pick is the earliest appended process of the
lowest queue in use. -/
theorem pickHead_some (h : QueuesOk R m) (state : Slot → ProcState)
    (hstate : ∀ p, R p → state p = .runnable) {p₀ : Slot} (hp₀ : R p₀) :
    ∃ i p, m.pickHead state = some (i, p) ∧ R p ∧ (m.info p).curQ = i ∧
      ∀ x, R x → i ≤ (m.info x).curQ ∧
        ((m.info x).curQ = i → x ≠ p → m.stamp p < m.stamp x) := by
  have hnonempty : ∀ x, R x → 0 ≤ (m.qu (m.info x).curQ).last := by
    intro x hx
    obtain ⟨j, hj, -⟩ := (m.qu _).mem_contents.mp ((h.mem_some (m.info x).curQ).mpr ⟨hx, rfl⟩)
    have := (m.qu (m.info x).curQ).last_eq_size (h.last_ge _)
    omega
  cases hfind : (List.range 5).find? (fun i => decide (0 ≤ (m.qu i).last)) with
  | none =>
    grind [h.curQ_le]
  | some i =>
    have hi : 0 ≤ (m.qu i).last := of_decide_eq_true
      (List.find?_some (p := fun i => decide (0 ≤ (m.qu i).last)) hfind)
    have hlast := (m.qu i).last_eq_size (h.last_ge i)
    obtain ⟨p, harr, hR, hcur⟩ := (h.mem_iff i _).mp
      ((m.qu i).mem_contents.mpr ⟨0, by omega, rfl⟩)
    refine ⟨i, p, ?_, hR, hcur, ?_⟩
    · simp only [pickHead, hfind, harr, hstate p hR, if_true]
    · intro x hx
      constructor
      · by_contra hlt
        have hskip := List.find?_eq_some_iff_getElem.mp hfind
        grind
      · intro hxi hne
        obtain ⟨j, hj, hxj⟩ := (m.qu i).mem_contents.mp
          ((h.mem_some i).mpr ⟨hx, hxi⟩)
        have hj0 : 0 < j := by
          grind
        have hsorted := List.pairwise_iff_getElem.mp (h.sorted i) 0 j
          (by rw [ArrayQueue.length_contents]; omega)
          (by rw [ArrayQueue.length_contents]; exact hj) hj0
        simpa [ArrayQueue.contents, harr, hxj, Before] using hsorted

end QueuesOk

end Mlfq

end Xv6.Ptable
