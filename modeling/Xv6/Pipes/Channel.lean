/-
# A pipe is a FIFO channel

What the readers of a pipe get is what its writers have stored, in the same order,
and what they have not got yet is what lies in the buffer. The counters may wrap
any number of times.

A history lists the regions of a run in order. Everything below is about the
bytes moved in a history: those stored, those read, and those of one writer.
-/

import Xv6.Pipes.System

namespace Xv6.Pipes

open Function Xv6.Lib

variable {N : ℕ}

/-- The waiting bytes. -/
def Pipe.contents (p : Pipe) : List UInt8 := p.ring.contents PIPESIZE

/-- Neither end was closed or opened. -/
structure Pipe.SameEnds (p p' : Pipe) : Prop where
  readopen : p'.readopen = p.readopen
  writeopen : p'.writeopen = p.writeopen

/-- How `pipewrite` ends a region: all bytes stored, an error, or asleep. -/
inductive WriteEnds (p : Pipe) (killed : Bool) (buf : List UInt8) (i : ℕ) (r : Region) : Prop
  | done (hmoved : r.moved = buf.drop i) (hresult : r.result = some (buf.length : ℤ))
      (hwakes : r.wakes = some .nread)
  | failed (hfull : r.pipe.ring.Full PIPESIZE) (hmoved : r.moved ≠ buf.drop i)
      (hcause : p.readopen = false ∨ killed = true)
      (hresult : r.result = some (-1)) (hwakes : r.wakes = none)
  | asleep (hfull : r.pipe.ring.Full PIPESIZE) (hopen : p.readopen = true)
      (hresult : r.result = none) (hwakes : r.wakes = some .nread)

/-- The bytes a region of `pipewrite` stores are the next ones of the buffer. -/
structure Wrote (p : Pipe) (killed : Bool) (buf : List UInt8) (i : ℕ) (r : Region) : Prop where
  same : p.SameEnds r.pipe
  contents : r.pipe.contents = p.contents ++ r.moved
  part : r.moved <+: buf.drop i
  size_le : r.pipe.ring.size ≤ PIPESIZE
  still : p.ring.Full PIPESIZE → r.pipe.ring = p.ring
  all : p.ring.size + (buf.drop i).length ≤ PIPESIZE → r.moved = buf.drop i
  ends : WriteEnds p killed buf i r

theorem wrote_pipewrite {p : Pipe} (h : p.ring.size ≤ PIPESIZE) (killed : Bool)
    (buf : List UInt8) (i : ℕ) : Wrote p killed buf i (pipewrite p killed buf i) := by
  have hfill := RingBuffer.filled_fill (by decide) (by decide) h (buf.drop i)
  have hstill : p.ring.Full PIPESIZE → (p.ring.fill PIPESIZE (buf.drop i)).1 = p.ring :=
    fun hfull => congrArg Prod.fst (RingBuffer.fill_of_full hfull _)
  have hall := hfill.all (by decide)
  rw [pipewrite]
  split
  · next hmoved =>
    exact ⟨⟨rfl, rfl⟩, hfill.contents, hfill.part, hfill.size_le, hstill, hall,
      .done hmoved rfl rfl⟩
  · next hmore =>
    have hfull := hfill.stops.resolve_left hmore
    split
    · next hcause =>
      exact ⟨⟨rfl, rfl⟩, hfill.contents, hfill.part, hfill.size_le, hstill, hall,
        .failed hfull hmore hcause rfl rfl⟩
    · next hcause =>
      rw [not_or, Bool.not_eq_false] at hcause
      exact ⟨⟨rfl, rfl⟩, hfill.contents, hfill.part, hfill.size_le, hstill, hall,
        .asleep hfull hcause.1 rfl rfl⟩

/-- A region of `piperead` either finds nothing and leaves the pipe alone, or takes
bytes from the front. -/
inductive ReadOut (p : Pipe) (n : ℕ) (r : Region) : Prop
  | nothing (hempty : p.ring.Empty) (hopen : p.writeopen = true) (hpipe : r.pipe = p)
      (hmoved : r.moved = []) (hwakes : r.wakes = none)
      (hresult : r.result = some (-1) ∨ r.result = none)
  | taken (hready : ¬ (p.ring.Empty ∧ p.writeopen = true))
      (hsame : p.SameEnds r.pipe)
      (hcontents : p.contents = r.moved ++ r.pipe.contents)
      (hstops : r.moved.length = n ∨ r.pipe.ring.Empty)
      (hresult : r.result = some (r.moved.length : ℤ)) (hwakes : r.wakes = some .nwrite)

theorem readOut_piperead (p : Pipe) (killed : Bool) (n : ℕ) :
    ReadOut p n (piperead p killed n) := by
  have hdrain := RingBuffer.drained_drain (n := PIPESIZE) (by decide) p.ring n
  rw [piperead]
  split
  · next hwait =>
    split
    · exact .nothing hwait.1 hwait.2 rfl rfl rfl (Or.inl rfl)
    · exact .nothing hwait.1 hwait.2 rfl rfl rfl (Or.inr rfl)
  · next hready =>
    exact .taken hready ⟨rfl, rfl⟩ hdrain.contents hdrain.stops rfl rfl

/-- A region in the history of a run. -/
structure Event (N : ℕ) where
  proc : Fin N
  call : Call
  region : Region

namespace Event

/-- The bytes the region puts into the pipe. -/
def stored (e : Event N) : List UInt8 :=
  match e.call with
  | .write _ _ => e.region.moved
  | _ => []

/-- The bytes the region hands to a reader. -/
def returned (e : Event N) : List UInt8 :=
  match e.call with
  | .read _ => e.region.moved
  | _ => []

/-- The bytes the region puts into the pipe for process `q`. -/
def storedBy (q : Fin N) (e : Event N) : List UInt8 := if e.proc = q then e.stored else []

/-- If the region ends a `pipewrite` of process `q`: the part of its buffer that
the call has stored. -/
def finishedBy (q : Fin N) (e : Event N) : List UInt8 :=
  match e.call, e.region.result with
  | .write buf i, some _ => if e.proc = q then buf.take (i + e.region.moved.length) else []
  | _, _ => []

end Event

namespace State

/-- The region a step runs. -/
def event (s : State N) (l : Label N) : Option (Event N) :=
  (s.current l).map fun c => ⟨c.1, c.2, s.region c.1 c.2⟩

end State

/-- The regions of a run, in order. -/
def history (s : State N) (labels : List (Label N)) : List (Event N) :=
  (system N).log State.event s labels

/-- The part of the buffer that a call in progress has stored. -/
def Call.soFar : Call → List UInt8
  | .write buf i => buf.take i
  | _ => []

namespace State

variable {s s' : State N} {q x : Fin N} {call : Call} {l : Label N}

theorem wakeup_call (s : State N) (chan : Chan) (x : Fin N) :
    ((s.wakeup chan).proc x).call = (s.proc x).call := by
  show (if (s.proc x).chan = some chan then _ else _ : Proc).call = _
  split <;> rfl

/-- The call of process `q` after a region of it. -/
theorem perform_call_self (s : State N) (q : Fin N) (call : Call) :
    ((s.perform q call).proc q).call = ((s.region q call).after call).1 := by
  rw [perform]
  dsimp only
  rw [update_self]

theorem perform_call_of_ne (h : x ≠ q) : ((s.perform q call).proc x).call = (s.proc x).call := by
  rw [perform]
  dsimp only
  rw [update_of_ne h]
  split
  · exact wakeup_call s _ x
  · rfl

/-- The three kinds of steps: a region of a call that begins or goes on, the closing
of an end that no call uses, and `kill`. -/
inductive Step (s : State N) (l : Label N) (s' : State N) : Prop
  | region (q : Fin N) (call : Call) (hcurrent : s.current l = some (q, call))
      (hcall : call ≠ .user) (hsoFar : call.soFar = (s.proc q).call.soFar)
      (hend : (s.proc q).call = call ∨
        (if call.uses true then s.pipe.writeopen else s.pipe.readopen) = true)
      (h : s' = s.perform q call)
  | closed (writable : Bool) (hcurrent : s.current l = none)
      (hunused : ∀ q, (s.proc q).call.uses writable = false) (h : s' = s.pipeclose writable)
  | killed (q : Fin N) (hcurrent : s.current l = none) (h : s' = s.kill q)

theorem step_next (enabled : s.Enabled l) : Step s l (s.next l) := by
  cases l with
  | write q buf =>
    apply Step.region q (.write buf 0) rfl nofun _ (Or.inr enabled.2) rfl
    rw [enabled.1]
    rfl
  | read q n =>
    apply Step.region q (.read n) rfl nofun _ (Or.inr enabled.2) rfl
    rw [enabled.1]
    rfl
  | resume q => exact .region q _ rfl enabled.1 rfl (Or.inl rfl) rfl
  | pipeclose writable => exact .closed writable rfl enabled.2 rfl
  | kill q => exact .killed q rfl rfl

theorem event_eq (h : s.current l = some (q, call)) :
    s.event l = some ⟨q, call, s.region q call⟩ := by
  rw [event, h]
  rfl

theorem event_eq_none (h : s.current l = none) : s.event l = none := by
  rw [event, h]
  rfl

theorem pipeclose_call (s : State N) (writable : Bool) (x : Fin N) :
    ((s.pipeclose writable).proc x).call = (s.proc x).call := by
  cases writable with
  | true => exact wakeup_call { s with pipe := { s.pipe with writeopen := false } } .nread x
  | false => exact wakeup_call { s with pipe := { s.pipe with readopen := false } } .nwrite x

theorem pipeclose_ring (s : State N) (writable : Bool) :
    (s.pipeclose writable).pipe.ring = s.pipe.ring := by
  cases writable <;> rfl

theorem kill_call (s : State N) (q x : Fin N) :
    ((s.kill q).proc x).call = (s.proc x).call := by
  show (update s.proc q { s.proc q with killed := true, chan := none } x).call = _
  by_cases hx : x = q
  · rw [hx, update_self]
  · rw [update_of_ne hx]

/-- The bytes in the pipe and in the calls in progress account for what a history
has stored and not returned. -/
structure Accounted (s : State N) (es : List (Event N)) : Prop where
  size_le : s.pipe.ring.size ≤ PIPESIZE
  fifo : es.flatMap Event.stored = es.flatMap Event.returned ++ s.pipe.contents
  order : ∀ q, es.flatMap (Event.storedBy q) =
    es.flatMap (Event.finishedBy q) ++ (s.proc q).call.soFar

/-- A step that runs no region. -/
theorem Accounted.quiet {es : List (Event N)} (h : Accounted s es)
    (hring : s'.pipe.ring = s.pipe.ring) (hcall : ∀ q, (s'.proc q).call = (s.proc q).call) :
    Accounted s' es := by
  constructor
  · rw [hring]
    exact h.size_le
  · rw [Pipe.contents, hring]
    exact h.fifo
  · intro q
    rw [hcall q]
    exact h.order q

/-- A process that is not the one of the region. -/
theorem Accounted.order_of_ne {es : List (Event N)} (h : Accounted s es) (hx : x ≠ q)
    (r : Region) : (es ++ [Event.mk q call r]).flatMap (Event.storedBy x) =
      (es ++ [Event.mk q call r]).flatMap (Event.finishedBy x) ++
        ((s.perform q call).proc x).call.soFar := by
  have hstored : Event.storedBy x ⟨q, call, r⟩ = [] := if_neg (Ne.symm hx)
  have hfinished : Event.finishedBy x ⟨q, call, r⟩ = [] := by
    rw [Event.finishedBy]
    split
    · exact if_neg (Ne.symm hx)
    · rfl
  grind [perform_call_of_ne, h.order]

theorem Accounted.write {es : List (Event N)} (h : Accounted s es) {buf : List UInt8} {i : ℕ}
    (hsoFar : (Call.write buf i).soFar = (s.proc q).call.soFar) :
    Accounted (s.perform q (.write buf i))
      (es ++ [⟨q, .write buf i, s.region q (.write buf i)⟩]) := by
  have hwrote := wrote_pipewrite h.size_le (s.proc q).killed buf i
  constructor
  · exact hwrote.size_le
  · have hpipe : (s.perform q (.write buf i)).pipe.contents =
        s.pipe.contents ++ (s.region q (.write buf i)).moved := hwrote.contents
    rw [hpipe, List.flatMap_append, List.flatMap_append, h.fifo]
    simp [Event.stored, Event.returned]
  · intro x
    by_cases hx : x = q
    · subst hx
      obtain ⟨later, hlater⟩ := hwrote.part
      -- what the call has stored now is a longer part of the buffer
      have htake : buf.take i ++ (pipewrite s.pipe (s.proc x).killed buf i).moved =
          buf.take (i + (pipewrite s.pipe (s.proc x).killed buf i).moved.length) := by
        rw [List.take_add, ← hlater, List.take_left']
        rfl
      rw [List.flatMap_append, List.flatMap_append, h.order x, ← hsoFar, perform_call_self,
        List.append_assoc, List.append_assoc]
      congr 1
      cases hresult : (pipewrite s.pipe (s.proc x).killed buf i).result with
      | some r =>
        simpa [Event.storedBy, Event.stored, Event.finishedBy, Region.after, hresult,
          Call.soFar, region] using htake
      | none =>
        simpa [Event.storedBy, Event.stored, Event.finishedBy, Region.after, hresult,
          Call.soFar, Call.suspended, region] using htake
    · exact h.order_of_ne hx _

theorem Accounted.read {es : List (Event N)} (h : Accounted s es) {n : ℕ}
    (hsoFar : (Call.read n).soFar = (s.proc q).call.soFar) :
    Accounted (s.perform q (.read n)) (es ++ [⟨q, .read n, s.region q (.read n)⟩]) := by
  have horder : ∀ x, (es ++ [Event.mk q (.read n) (s.region q (.read n))]).flatMap
      (Event.storedBy x) = (es ++ [Event.mk q (.read n) (s.region q (.read n))]).flatMap
        (Event.finishedBy x) ++ ((s.perform q (.read n)).proc x).call.soFar := by
    intro x
    by_cases hx : x = q
    · subst hx
      have hnow : ((s.region x (.read n)).after (.read n)).1.soFar = [] := by
        rw [Region.after]
        split <;> rfl
      rw [List.flatMap_append, List.flatMap_append, h.order x, ← hsoFar, perform_call_self, hnow]
      simp [Event.storedBy, Event.stored, Event.finishedBy, Call.soFar]
    · exact h.order_of_ne hx _
  have hstored : (es ++ [Event.mk q (.read n) (s.region q (.read n))]).flatMap Event.stored =
      es.flatMap Event.stored := by
    simp [Event.stored]
  have hreturned : (es ++ [Event.mk q (.read n) (s.region q (.read n))]).flatMap Event.returned =
      es.flatMap Event.returned ++ (piperead s.pipe (s.proc q).killed n).moved := by
    simp [Event.returned, region]
  have hpipe : (s.perform q (.read n)).pipe = (piperead s.pipe (s.proc q).killed n).pipe := rfl
  cases readOut_piperead s.pipe (s.proc q).killed n with
  | nothing _ _ hsame hmoved _ _ =>
    apply Accounted.mk _ _ horder
    · rw [hpipe, hsame]
      exact h.size_le
    · rw [hstored, hreturned, hmoved, List.append_nil, hpipe, hsame]
      exact h.fifo
  | taken _ _ hcontents _ _ _ =>
    apply Accounted.mk _ _ horder
    · have hlength := congrArg List.length hcontents
      rw [List.length_append, Pipe.contents, Pipe.contents, RingBuffer.length_contents,
        RingBuffer.length_contents] at hlength
      have := h.size_le
      rw [hpipe]
      omega
    · rw [hstored, hreturned, h.fifo, hcontents, hpipe, List.append_assoc]

theorem Accounted.next {es : List (Event N)} (h : Accounted s es) (enabled : s.Enabled l) :
    Accounted (s.next l) (es ++ (s.event l).toList) := by
  cases step_next enabled with
  | region q call hcurrent hcall hsoFar _ hnext =>
    rw [hnext, event_eq hcurrent, Option.toList_some]
    cases call with
    | user => exact absurd rfl hcall
    | write buf i => exact h.write hsoFar
    | read n => exact h.read hsoFar
  | closed writable hcurrent _ hnext =>
    rw [hnext, event_eq_none hcurrent, Option.toList_none, List.append_nil]
    exact h.quiet (pipeclose_ring s writable) (pipeclose_call s writable)
  | killed q hcurrent hnext =>
    rw [hnext, event_eq_none hcurrent, Option.toList_none, List.append_nil]
    exact h.quiet rfl (kill_call s q)

theorem Init.accounted (h : s.Init) : Accounted s [] := by
  obtain ⟨hread, hwrite, -, -, hproc⟩ := h
  have hsize : s.pipe.ring.size = 0 := by
    apply RingBuffer.size_eq_zero.mpr
    rw [RingBuffer.Empty, hread, hwrite]
  constructor
  · rw [hsize]
    exact Nat.zero_le _
  · rw [Pipe.contents, RingBuffer.contents, hsize]
    rfl
  · intro q
    rw [(hproc q).1]
    rfl

/-- A region that returns `0` to a reader who asked for bytes leaves the pipe
empty, and it is closed for writing. -/
theorem region_read_zero {n : ℕ} (hn : 0 < n) (h : (s.region q (.read n)).result = some 0) :
    (s.region q (.read n)).pipe.ring.Empty ∧ (s.region q (.read n)).pipe.writeopen = false := by
  show (piperead s.pipe (s.proc q).killed n).pipe.ring.Empty ∧
    (piperead s.pipe (s.proc q).killed n).pipe.writeopen = false
  cases readOut_piperead s.pipe (s.proc q).killed n with
  | nothing _ _ _ _ _ hresult =>
    rcases hresult with hresult | hresult
    · exact absurd (hresult.symm.trans h) (by decide)
    · exact absurd (hresult.symm.trans h) nofun
  | taken hready hsame hcontents hstops hresult _ =>
    have hmoved : (piperead s.pipe (s.proc q).killed n).moved = [] := by
      apply List.eq_nil_of_length_eq_zero
      exact Int.ofNat.inj (Option.some.inj (hresult.symm.trans h))
    rw [hmoved] at hstops hcontents
    have hempty := hstops.resolve_left (Nat.ne_of_lt hn)
    -- nothing was taken, so the pipe was empty before
    have hbefore : s.pipe.ring.Empty := by
      apply RingBuffer.size_eq_zero.mp
      rw [← RingBuffer.length_contents (n := PIPESIZE), ← Pipe.contents, hcontents,
        List.nil_append, Pipe.contents, RingBuffer.length_contents,
        RingBuffer.size_eq_zero.mpr hempty]
    grind [hsame.writeopen]

/-- A `pipewrite` that ends has stored its whole buffer and returns its length, or
it returns `-1`. -/
theorem region_write_result (h : s.pipe.ring.size ≤ PIPESIZE) {buf : List UInt8} {i : ℕ} {r : ℤ}
    (hr : (s.region q (.write buf i)).result = some r) :
    r = buf.length ∧ buf.drop i = (s.region q (.write buf i)).moved ∨ r = -1 := by
  cases (wrote_pipewrite h (s.proc q).killed buf i).ends with
  | done hmoved hresult _ => exact Or.inl ⟨Option.some.inj (hr.symm.trans hresult), hmoved.symm⟩
  | failed _ _ _ hresult _ => exact Or.inr (Option.some.inj (hr.symm.trans hresult))
  | asleep _ _ hresult _ => exact absurd (hr.symm.trans hresult) nofun

end State

/-- Every event of a history is a region of a call, run in a state in which the
history so far is accounted for. -/
theorem mem_history {s₀ s : State N} {labels : List (Label N)} (hinit : s₀.Init)
    (h : (system N).Run s₀ labels s) {e : Event N} (he : e ∈ history s₀ labels) :
    ∃ u : State N, u.pipe.ring.size ≤ PIPESIZE ∧ e.region = u.region e.proc e.call := by
  have hinv := h.invariant_log (f := State.event)
    (I := fun u es => u.Accounted es ∧ ∀ e ∈ es, ∃ u : State N,
      u.pipe.ring.size ≤ PIPESIZE ∧ e.region = u.region e.proc e.call)
    ⟨hinit.accounted, nofun⟩ ?_
  · exact hinv.2 e he
  · intro u es l hu enabled
    refine ⟨hu.1.next enabled, fun e he => ?_⟩
    rcases List.mem_append.mp he with hold | hnew
    · exact hu.2 e hold
    · rw [State.event, Option.mem_toList, Option.map_eq_some_iff] at hnew
      obtain ⟨c, -, rfl⟩ := hnew
      exact ⟨u, hu.1.size_le, rfl⟩

/-- A pipe is a FIFO channel, for any number of writers and readers and however
often the counters wrap. At most `PIPESIZE` bytes are outstanding; what readers
have got, followed by the outstanding bytes, is what writers have stored; each
writer's bytes are stored in the order of its buffers, and a call that does not
fail has stored its whole buffer; and `piperead` with `n > 0` returns `0` only from
an empty pipe that is closed for writing. -/
theorem pipe_is_fifo {s₀ s : State N} {labels : List (Label N)} (hinit : s₀.Init)
    (h : (system N).Run s₀ labels s) :
    (s.pipe.ring.nwrite - s.pipe.ring.nread).toNat ≤ PIPESIZE ∧
    (∃ outstanding : List UInt8,
      (history s₀ labels).flatMap Event.stored =
        (history s₀ labels).flatMap Event.returned ++ outstanding ∧
      outstanding.length = (s.pipe.ring.nwrite - s.pipe.ring.nread).toNat) ∧
    (∀ q, (history s₀ labels).flatMap (Event.storedBy q) =
      (history s₀ labels).flatMap (Event.finishedBy q) ++ (s.proc q).call.soFar) ∧
    (∀ e ∈ history s₀ labels, ∀ buf i r, e.call = .write buf i → e.region.result = some r →
      r = buf.length ∧ buf.drop i = e.region.moved ∨ r = -1) ∧
    ∀ e ∈ history s₀ labels, ∀ n, e.call = .read n → 0 < n → e.region.result = some 0 →
      e.region.pipe.ring.nread = e.region.pipe.ring.nwrite ∧
        e.region.pipe.writeopen = false := by
  have hinv : s.Accounted (history s₀ labels) := by
    apply h.invariant_log hinit.accounted
    exact fun u es l hu enabled => hu.next enabled
  refine ⟨hinv.size_le, ⟨s.pipe.contents, hinv.fifo, ?_⟩, hinv.order, ?_, ?_⟩
  · exact RingBuffer.length_contents s.pipe.ring
  · intro e he buf i r hcall hresult
    obtain ⟨u, hsize, hregion⟩ := mem_history hinit h he
    rw [hregion, hcall] at hresult ⊢
    exact State.region_write_result hsize hresult
  · intro e he n hcall hn hzero
    obtain ⟨u, -, hregion⟩ := mem_history hinit h he
    rw [hregion, hcall] at hzero ⊢
    exact State.region_read_zero hn hzero

theorem init_fresh (N : ℕ) : (fresh N).Init := ⟨rfl, rfl, rfl, rfl, fun _ => ⟨rfl, rfl⟩⟩

/-- One process writes three bytes and another reads two of them. -/
theorem pipe_is_fifo_two : ∃ s, (system 2).Run (fresh 2) [.write 0 [7, 8, 9], .read 1 2] s ∧
    s.pipe.contents = [9] ∧ (s.pipe.ring.nwrite - s.pipe.ring.nread).toNat ≤ PIPESIZE := by
  obtain ⟨s, hrun, hcontents⟩ := Machine.exists_run_of_exec (system 2)
    [.write 0 [7, 8, 9], .read 1 2] (s := fresh 2) (P := fun s => s.pipe.contents = [9])
    (by decide +kernel)
  exact ⟨s, hrun, hcontents, (pipe_is_fifo (init_fresh 2) hrun).1⟩

end Xv6.Pipes
