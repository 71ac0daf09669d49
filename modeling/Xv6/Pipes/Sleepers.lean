/-
# Sleepers of a pipe

A process sleeps on `&p->nread` because the pipe was empty and on `&p->nwrite`
because it was full. Every region that changes this has to wake the sleepers. One
does not: a killed writer that fills the pipe returns from the middle of its loop
without a wake-up for the bytes it has just stored. Apart from that no sleeper is
forgotten.
-/

import Xv6.Pipes.Channel

namespace Xv6.Pipes

open Xv6.Lib

variable {N : ℕ}

namespace State

/-- A killed writer either finds the pipe full at once or has room for the rest of
its buffer. -/
def Spares (s : State N) : Option (Fin N × Call) → Prop
  | some (q, .write buf i) => (s.proc q).killed = true →
      s.pipe.ring.Full PIPESIZE ∨ s.pipe.ring.size + (buf.drop i).length ≤ PIPESIZE
  | some (_, .user) | some (_, .read _) | none => True

instance (s : State N) (current : Option (Fin N × Call)) : Decidable (s.Spares current) :=
  match current with
  | some (_, .write _ _) => inferInstanceAs (Decidable (_ → _))
  | some (_, .user) | some (_, .read _) | none => inferInstanceAs (Decidable True)

/-- No killed writer leaves the loop after storing bytes. -/
def SparesReaders (s : State N) (l : Label N) : Prop := s.Spares (s.current l)
  deriving Decidable

/-- Sleepers sleep for a reason, and calls use open ends. -/
structure SleepersOk (s : State N) : Prop where
  size_le : s.pipe.ring.size ≤ PIPESIZE
  reader : ∀ q, (s.proc q).chan = some .nread →
    (∃ n, (s.proc q).call = .read n) ∧ s.pipe.ring.Empty ∧ s.pipe.writeopen = true
  writer : ∀ q, (s.proc q).chan = some .nwrite →
    (∃ buf i, (s.proc q).call = .write buf i) ∧ s.pipe.ring.Full PIPESIZE ∧
      s.pipe.readopen = true
  reading : ∀ q n, (s.proc q).call = .read n → s.pipe.readopen = true
  writing : ∀ q buf i, (s.proc q).call = .write buf i → s.pipe.writeopen = true

variable {s : State N} {q x : Fin N} {call : Call} {l : Label N} {c : Chan}

/-- Nobody sleeps on a channel that was woken, and the others sleep as before. -/
theorem wakeup_chan {chan : Chan} (h : ((s.wakeup chan).proc x).chan = some c) :
    (s.proc x).chan = some c ∧ c ≠ chan := by
  have hproc : (s.wakeup chan).proc x = if (s.proc x).chan = some chan then
      { s.proc x with chan := none } else s.proc x := rfl
  grind

theorem perform_chan_of_ne (hx : x ≠ q) (h : ((s.perform q call).proc x).chan = some c) :
    (s.proc x).chan = some c ∧ (s.region q call).wakes ≠ some c := by
  rw [perform] at h
  grind [wakeup_chan]

theorem perform_chan_self (s : State N) (q : Fin N) (call : Call) :
    ((s.perform q call).proc q).chan = ((s.region q call).after call).2 := by
  rw [perform]
  dsimp only
  rw [Function.update_self]

theorem kill_chan (h : ((s.kill q).proc x).chan = some c) : (s.proc x).chan = some c := by
  have hproc : (s.kill q).proc x =
    Function.update s.proc q { s.proc q with killed := true, chan := none } x := rfl
  grind

section

variable (h : s.SleepersOk)

include h

/-- After a region the calls still use open ends. -/
theorem SleepersOk.open_of_region (call : Call) (hsame : s.pipe.SameEnds (s.region q call).pipe)
    (hend : (s.proc q).call = call ∨ (if call.uses true then s.pipe.writeopen else s.pipe.readopen) = true) :
    (∀ x n, ((s.perform q call).proc x).call = .read n →
      (s.perform q call).pipe.readopen = true) ∧
    ∀ x buf i, ((s.perform q call).proc x).call = .write buf i →
      (s.perform q call).pipe.writeopen = true := by
  have hread : (s.perform q call).pipe.readopen = s.pipe.readopen := hsame.readopen
  have hwrite : (s.perform q call).pipe.writeopen = s.pipe.writeopen := hsame.writeopen
  rw [hread, hwrite]
  constructor
  · intro x n hx
    by_cases hxq : x = q
    · subst hxq
      rw [perform_call_self, Region.after] at hx
      split at hx
      · cases hx
      · cases call with
        | user => cases hx
        | write buf i => cases hx
        | read m => exact hend.elim (h.reading x m) id
    · rw [perform_call_of_ne hxq] at hx
      exact h.reading x n hx
  · intro x buf i hx
    by_cases hxq : x = q
    · subst hxq
      rw [perform_call_self, Region.after] at hx
      split at hx
      · cases hx
      · cases call with
        | user => cases hx
        | write buf j => exact hend.elim (h.writing x buf j) id
        | read m => cases hx
    · rw [perform_call_of_ne hxq] at hx
      exact h.writing x buf i hx

theorem SleepersOk.write {buf : List UInt8} {i : ℕ}
    (hend : (s.proc q).call = .write buf i ∨ s.pipe.writeopen = true)
    (hspares : s.Spares (some (q, .write buf i))) : (s.perform q (.write buf i)).SleepersOk := by
  have hwrote := wrote_pipewrite h.size_le (s.proc q).killed buf i
  obtain ⟨hreading, hwriting⟩ := h.open_of_region (.write buf i) hwrote.same hend
  have hread : (s.perform q (.write buf i)).pipe.readopen = s.pipe.readopen :=
    hwrote.same.readopen
  have hwrite : (s.perform q (.write buf i)).pipe.writeopen = s.pipe.writeopen :=
    hwrote.same.writeopen
  refine ⟨hwrote.size_le, ?_, ?_, hreading, hwriting⟩
  · intro x hx
    have hxq : x ≠ q := by
      rintro rfl
      rw [perform_chan_self, Region.after] at hx
      split at hx <;> cases hx
    obtain ⟨hchan, hwakes⟩ := perform_chan_of_ne hxq hx
    obtain ⟨⟨n, hcall⟩, hempty, hopen⟩ := h.reader x hchan
    rw [perform_call_of_ne hxq, hwrite]
    cases hwrote.ends with
    | done _ _ hwakes' => exact absurd hwakes' hwakes
    | asleep _ _ _ hwakes' => exact absurd hwakes' hwakes
    | failed _ hmoved hcause _ _ =>
      refine ⟨⟨n, hcall⟩, ?_, hopen⟩
      rcases hcause with hclosed | hkilled
      · exact absurd ((h.reading x n hcall).symm.trans hclosed) (by simp)
      · rcases hspares hkilled with hfull | hroom
        · show (pipewrite s.pipe (s.proc q).killed buf i).pipe.ring.Empty
          rw [hwrote.still hfull]
          exact hempty
        · exact absurd (hwrote.all hroom) hmoved
  · intro x hx
    rw [hread]
    by_cases hxq : x = q
    · subst hxq
      rw [perform_chan_self] at hx
      cases hwrote.ends with
      | done _ hresult _ => simp [Region.after, region, hresult] at hx
      | failed _ _ _ hresult _ => simp [Region.after, region, hresult] at hx
      | asleep hfull hopen hresult _ =>
        have hresult : (s.region x (.write buf i)).result = none := hresult
        have hcall : ((s.perform x (.write buf i)).proc x).call =
            .write buf (i + (s.region x (.write buf i)).moved.length) := by
          rw [perform_call_self, Region.after, hresult]
          rfl
        exact ⟨⟨buf, _, hcall⟩, hfull, hopen⟩
    · obtain ⟨hchan, -⟩ := perform_chan_of_ne hxq hx
      obtain ⟨hcall, hfull, hopen⟩ := h.writer x hchan
      rw [perform_call_of_ne hxq]
      refine ⟨hcall, ?_, hopen⟩
      show (pipewrite s.pipe (s.proc q).killed buf i).pipe.ring.Full PIPESIZE
      rw [hwrote.still hfull]
      exact hfull

theorem SleepersOk.read {n : ℕ} (hend : (s.proc q).call = .read n ∨ s.pipe.readopen = true) :
    (s.perform q (.read n)).SleepersOk := by
  have hpipe : (s.perform q (.read n)).pipe = (piperead s.pipe (s.proc q).killed n).pipe := rfl
  cases readOut_piperead s.pipe (s.proc q).killed n with
  | nothing hempty hopen hsame _ hwakes hresult =>
    have hends : s.pipe.SameEnds (s.region q (.read n)).pipe := by
      show s.pipe.SameEnds (piperead s.pipe (s.proc q).killed n).pipe
      rw [hsame]
      exact ⟨rfl, rfl⟩
    obtain ⟨hreading, hwriting⟩ := h.open_of_region (.read n) hends hend
    rw [hpipe, hsame] at hreading hwriting
    refine ⟨?_, ?_, ?_, ?_, ?_⟩
    all_goals rw [hpipe, hsame]
    · exact h.size_le
    · intro x hx
      by_cases hxq : x = q
      · subst hxq
        refine ⟨⟨n, ?_⟩, hempty, hopen⟩
        rw [perform_chan_self, Region.after] at hx
        split at hx
        · cases hx
        · next hnone =>
          rw [perform_call_self, Region.after, hnone]
          rfl
      · rw [perform_call_of_ne hxq]
        exact h.reader x (perform_chan_of_ne hxq hx).1
    · intro x hx
      by_cases hxq : x = q
      · subst hxq
        rw [perform_chan_self, Region.after] at hx
        split at hx <;> cases hx
      · rw [perform_call_of_ne hxq]
        exact h.writer x (perform_chan_of_ne hxq hx).1
    · exact hreading
    · exact hwriting
  | taken hready hsame hcontents _ hresult hwakes =>
    obtain ⟨hreading, hwriting⟩ := h.open_of_region (.read n) hsame hend
    have hawake : ((s.perform q (.read n)).proc q).chan = none := by
      have hresult : (s.region q (.read n)).result = _ := hresult
      rw [perform_chan_self, Region.after, hresult]
    refine ⟨?_, ?_, ?_, hreading, hwriting⟩
    · have hlength := congrArg List.length hcontents
      rw [List.length_append, Pipe.contents, Pipe.contents, RingBuffer.length_contents,
        RingBuffer.length_contents] at hlength
      have := h.size_le
      rw [hpipe]
      omega
    · intro x hx
      have hxq : x ≠ q := by
        rintro rfl
        rw [hawake] at hx
        cases hx
      obtain ⟨-, hempty, hopen⟩ := h.reader x (perform_chan_of_ne hxq hx).1
      exact absurd ⟨hempty, hopen⟩ hready
    · intro x hx
      have hxq : x ≠ q := by
        rintro rfl
        rw [hawake] at hx
        cases hx
      exact absurd hwakes (perform_chan_of_ne hxq hx).2

/-- Closing an end wakes those who wait for the other side, and nobody is in a call
on that end. -/
theorem SleepersOk.pipeclose {writable : Bool}
    (hunused : ∀ q, (s.proc q).call.uses writable = false) : (s.pipeclose writable).SleepersOk := by
  cases writable with
  | true =>
    refine ⟨h.size_le, ?_, ?_, ?_, ?_⟩
    · intro x hx
      exact absurd rfl (wakeup_chan hx).2
    · intro x hx
      obtain ⟨⟨buf, i, hcall⟩, -, -⟩ := h.writer x (wakeup_chan hx).1
      exact absurd (hunused x) (by simp [hcall, Call.uses])
    · intro x n hx
      rw [pipeclose_call] at hx
      exact h.reading x n hx
    · intro x buf i hx
      rw [pipeclose_call] at hx
      exact absurd (hunused x) (by simp [hx, Call.uses])
  | false =>
    refine ⟨h.size_le, ?_, ?_, ?_, ?_⟩
    · intro x hx
      obtain ⟨⟨n, hcall⟩, -, -⟩ := h.reader x (wakeup_chan hx).1
      exact absurd (hunused x) (by simp [hcall, Call.uses])
    · intro x hx
      exact absurd rfl (wakeup_chan hx).2
    · intro x n hx
      rw [pipeclose_call] at hx
      exact absurd (hunused x) (by simp [hx, Call.uses])
    · intro x buf i hx
      rw [pipeclose_call] at hx
      exact h.writing x buf i hx

theorem SleepersOk.kill (q : Fin N) : (s.kill q).SleepersOk := by
  refine ⟨h.size_le, ?_, ?_, ?_, ?_⟩
  · intro x hx
    rw [kill_call]
    exact h.reader x (kill_chan hx)
  · intro x hx
    rw [kill_call]
    exact h.writer x (kill_chan hx)
  · intro x n hx
    rw [kill_call] at hx
    exact h.reading x n hx
  · intro x buf i hx
    rw [kill_call] at hx
    exact h.writing x buf i hx

theorem SleepersOk.next (enabled : s.Enabled l) (hl : s.SparesReaders l) :
    (s.next l).SleepersOk := by
  cases step_next enabled with
  | region q call hcurrent hcall _ hend hnext =>
    rw [SparesReaders, hcurrent] at hl
    rw [hnext]
    cases call with
    | user => exact absurd rfl hcall
    | write buf i => exact h.write hend hl
    | read n => exact h.read hend
  | closed writable _ hunused hnext =>
    rw [hnext]
    exact h.pipeclose hunused
  | killed q _ hnext =>
    rw [hnext]
    exact h.kill q

end

theorem Init.sleepersOk (h : s.Init) : s.SleepersOk := by
  refine ⟨h.accounted.size_le, ?_, ?_, ?_, ?_⟩
  all_goals
    obtain ⟨-, -, -, -, hproc⟩ := h
    intro x
    simp [(hproc x).1, (hproc x).2]

end State

set_option maxRecDepth 10000 in
/-- A forgotten reader. Process `0` waits for a byte; process `1`, killed on its way
into `pipewrite`, stores `PIPESIZE` bytes, finds the pipe full and returns `-1`.
The reader sleeps on, with a full pipe. -/
theorem killed_writer_forgets_reader :
    ∃ s, (system 2).Run (fresh 2)
        [.read 0 1, .kill 1, .write 1 (List.replicate (PIPESIZE + 1) 0)] s ∧
      (s.proc 0).chan = some .nread ∧ s.pipe.ring.nread ≠ s.pipe.ring.nwrite ∧
      s.pipe.ring.nwrite = s.pipe.ring.nread + 512 := by
  obtain ⟨s, hrun, hs⟩ := Machine.exists_run_of_exec (system 2)
    [.read 0 1, .kill 1, .write 1 (List.replicate (PIPESIZE + 1) 0)] (s := fresh 2)
    (P := fun s => (s.proc 0).chan = some .nread ∧ s.pipe.ring.nread ≠ s.pipe.ring.nwrite ∧
      s.pipe.ring.nwrite = s.pipe.ring.nread + 512) (by decide +kernel)
  exact ⟨s, hrun, hs⟩

/-- No sleeper of a pipe is forgotten, as long as no killed writer leaves its loop
after storing bytes. -/
theorem pipe_sleepers_wait_for_cause {s : State N}
    (h : ((system N).restrict State.SparesReaders).Reachable s) (q : Fin N) :
    ((s.proc q).chan = some .nread →
      s.pipe.ring.nread = s.pipe.ring.nwrite ∧ s.pipe.writeopen = true) ∧
    ((s.proc q).chan = some .nwrite →
      s.pipe.ring.nwrite = s.pipe.ring.nread + UInt32.ofNat PIPESIZE ∧
        s.pipe.readopen = true) := by
  have hok : s.SleepersOk := by
    apply h.invariant
    · exact fun u hu => hu.sleepersOk
    · exact fun u l hu enabled => hu.next enabled.1 enabled.2
  exact ⟨fun hchan => (hok.reader q hchan).2, fun hchan => (hok.writer q hchan).2⟩

/-- A reader that waits, is woken by a write, and waits again. -/
theorem pipe_sleepers_two :
    ∃ s, ((system 2).restrict State.SparesReaders).Reachable s ∧
      (s.proc 0).chan = some .nread ∧ s.pipe.ring.nread = s.pipe.ring.nwrite := by
  obtain ⟨s, hs, hchan⟩ := Machine.exists_reachable_of_exec
    ((system 2).restrict State.SparesReaders)
    [.read 0 1, .write 1 [5], .resume 0, .kill 1, .read 0 1] (s := fresh 2)
    (P := fun s => (s.proc 0).chan = some .nread) (init_fresh 2) (by decide +kernel)
  exact ⟨s, hs, hchan, ((pipe_sleepers_wait_for_cause hs 0).1 hchan).1⟩

end Xv6.Pipes
