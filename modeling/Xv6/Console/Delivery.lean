/-
# Every line is delivered once

The bytes that the calls of `consoleread` copy out, in the order in which they copy
them, are the text of a front part of the committed stream. If the calls do not
overlap, the results of the calls put together are such a part, too.

A call that has emptied the buffer in the middle of a line sleeps, and another call
may get the rest of the line first. Its result is then out of order.
-/

import Xv6.Console.Lines

namespace Xv6.Console

open Function Xv6.Lib

inductive Event
  | typed (es : List Edit)
  /-- A call copies some bytes, and has this result if it returns. -/
  | took (bytes : List UInt8) (result : Option (List UInt8))

namespace Event

def edits : Event → List Edit
  | .typed es => es
  | .took _ _ => []

def bytes : Event → List UInt8
  | .typed _ => []
  | .took bytes _ => bytes

def result : Event → List (List UInt8)
  | .typed _ => []
  | .took _ result => result.toList

end Event

/-- The accepted input. -/
def edits (evs : List Event) : List Edit := evs.flatMap Event.edits

/-- The bytes copied out. -/
def taken (evs : List Event) : List UInt8 := evs.flatMap Event.bytes

/-- The results of the calls, in the order in which they return. -/
def returned (evs : List Event) : List (List UInt8) := evs.flatMap Event.result

/-- The committed stream. -/
def committed (evs : List Event) : List UInt8 := (Stream.ofEdits (edits evs)).committed

theorem edits_append (evs : List Event) (ev : Event) :
    edits (evs ++ [ev]) = edits evs ++ ev.edits := by
  simp [edits]

theorem taken_append (evs : List Event) (ev : Event) :
    taken (evs ++ [ev]) = taken evs ++ ev.bytes := by
  simp [taken]

theorem returned_append (evs : List Event) (ev : Event) :
    returned (evs ++ [ev]) = returned evs ++ ev.result := by
  simp [returned]

def Input.Outcome.result : Input.Outcome → Option (List UInt8)
  | .returns _ dst => some dst
  | .sleeps _ _ | .killed _ => none

variable {P : Type}

def State.event (s : State P) (a : Label P) : Option Event :=
  match a with
  | .consoleintr cs => some (.typed (s.input.edits cs))
  | a => (s.readerOf a).map fun (_, rd) =>
    .took ((s.reads rd).2.dst.drop rd.dst.length) (s.reads rd).2.result

/-- A call between two steps: nothing it has copied ends a line. -/
structure Reader.Ok (rd : Reader) : Prop where
  pos : 0 < rd.n
  count : rd.n + rd.dst.length = rd.target
  line : newline ∉ rd.dst

/-- The ring holds what is left of the stream. -/
structure Inv (s : State P) (evs : List Event) : Prop where
  stream : ∃ done u p, s.input.Reps u p ∧ newline ∉ p ∧
    Stream.ofEdits (edits evs) = ⟨done ++ u, p⟩ ∧ text done = taken evs
  readers : ∀ q rd, s.reader q = some rd → rd.Ok
  lines : ∀ d ∈ returned evs, newline ∉ d.dropLast
  asleep : ∀ q rd, s.reader q = some rd → rd.asleep = true → s.input.r = s.input.w

theorem Input.reps_init : Reps {} [] [] where
  contents := by decide
  ahead := by decide
  size_le := by decide

theorem inv_init : Inv ({} : State P) [] where
  stream := ⟨[], [], [], Input.reps_init, List.not_mem_nil, rfl, rfl⟩
  readers := nofun
  lines := nofun
  asleep := nofun

variable {s : State P} {evs : List Event} {q : P} {rd : Reader}

theorem Inv.readerOf [DecidableEq P] (h : Inv s evs) {a : Label P} (ha : s.Allowed a)
    (hrd : s.readerOf a = some (q, rd)) : rd.Ok := by
  cases a with
  | consoleintr cs => cases hrd
  | consoleread p n =>
    cases hrd
    exact ⟨ha.2, rfl, List.not_mem_nil⟩
  | wakes p =>
    obtain ⟨rd', hrd', heq⟩ := Option.map_eq_some_iff.mp hrd
    cases heq
    exact h.readers q rd hrd'

namespace Input

theorem killLine_keeps (fuel : ℕ) (s : Input) :
    (s.killLine fuel).r = s.r ∧ (s.killLine fuel).w = s.w := by
  induction fuel generalizing s with
  | zero => exact ⟨rfl, rfl⟩
  | succ fuel ih =>
    rw [killLine]
    split
    · exact ih _
    · exact ⟨rfl, rfl⟩

/-- Only a commit moves `w`, and it calls `wakeup`. -/
theorem key_quiet {s : Input} {c : UInt8} (h : (s.key c).2 = false) :
    (s.key c).1.r = s.r ∧ (s.key c).1.w = s.w := by
  rw [key] at h ⊢
  split
  · exact ⟨rfl, rfl⟩
  split
  · exact killLine_keeps _ s
  split
  · split <;> exact ⟨rfl, rfl⟩
  split
  · next hp hu hh hroom =>
    rw [if_neg hp, if_neg hu, if_neg hh, if_pos hroom] at h
    dsimp only at h ⊢
    generalize (if c = carriageReturn then newline else c) = c' at h ⊢
    split
    · next hcommit =>
      rw [if_pos hcommit] at h
      cases h
    · exact ⟨rfl, rfl⟩
  · exact ⟨rfl, rfl⟩

theorem consoleintr_quiet {s : Input} {cs : List UInt8} (h : (s.consoleintr cs).2 = false) :
    (s.consoleintr cs).1.r = s.r ∧ (s.consoleintr cs).1.w = s.w := by
  induction cs generalizing s with
  | nil => exact ⟨rfl, rfl⟩
  | cons c rest ih =>
    obtain ⟨hkey, hrest⟩ := Bool.or_eq_false_iff.mp h
    obtain ⟨hr, hw⟩ := key_quiet hkey
    obtain ⟨hr', hw'⟩ := ih hrest
    exact ⟨hr'.trans hr, hw'.trans hw⟩

end Input

/-- Nothing is read where nothing is left. -/
theorem reads_of_empty (hrd : rd.Ok) (hempty : s.input.r = s.input.w) :
    (s.reads rd).1 = s.input := by
  obtain ⟨n, hn⟩ : ∃ n, rd.n = n + 1 := ⟨rd.n - 1, by have := hrd.pos; omega⟩
  rw [State.reads, hn, Input.consoleread, if_pos hempty]

variable [DecidableEq P]

theorem perform_consoleintr_input (s : State P) (cs : List UInt8) :
    (s.perform (.consoleintr cs)).input = (s.input.consoleintr cs).1 := by
  rw [State.perform]
  split <;> rfl

/-- An interrupt changes a reader at most by waking it, and wakes all of them if it commits. -/
theorem reader_consoleintr {cs : List UInt8}
    (h : (s.perform (.consoleintr cs)).reader q = some rd) :
    ∃ rd', s.reader q = some rd' ∧ rd'.n = rd.n ∧ rd'.target = rd.target ∧ rd'.dst = rd.dst ∧
      (rd.asleep = true → rd'.asleep = true ∧ (s.input.consoleintr cs).2 = false) := by
  rw [State.perform] at h
  dsimp only at h
  split at h
  · obtain ⟨rd', hrd', heq⟩ := Option.map_eq_some_iff.mp h
    subst heq
    exact ⟨rd', hrd', rfl, rfl, rfl, nofun⟩
  · next hquiet => exact ⟨rd, h, rfl, rfl, rfl, fun hasleep => ⟨hasleep, by simpa using hquiet⟩⟩

theorem Inv.consoleintr (h : Inv s evs) (cs : List UInt8) :
    Inv (s.perform (.consoleintr cs)) (evs ++ [.typed (s.input.edits cs)]) := by
  constructor
  · obtain ⟨done, u, p, hreps, hline, hstream, hdone⟩ := h.stream
    obtain ⟨u', p', hreps', hline', hedits⟩ := hreps.consoleintr hline cs
    refine ⟨done, u', p', ?_, hline', ?_, ?_⟩
    · rw [perform_consoleintr_input]
      exact hreps'
    · rw [edits_append, Stream.ofEdits, List.foldl_append, ← Stream.ofEdits, hstream]
      exact hedits done
    · rw [taken_append]
      exact hdone.trans (List.append_nil _).symm
  · intro q rd hrd
    obtain ⟨rd', hrd', hn, htarget, hdst, -⟩ := reader_consoleintr hrd
    obtain ⟨hpos, hcount, hline⟩ := h.readers q rd' hrd'
    rw [hn] at hpos
    rw [hn, hdst, htarget] at hcount
    rw [hdst] at hline
    exact ⟨hpos, hcount, hline⟩
  · intro d hd
    rw [returned_append] at hd
    exact h.lines d ((List.mem_append.mp hd).resolve_right List.not_mem_nil)
  · grind [reader_consoleintr, Input.consoleintr_quiet, perform_consoleintr_input, h.asleep]

/-- The readers after a step. -/
theorem reader_step {q' : P} {rd' : Reader} (h : (s.step q rd).reader q' = some rd') :
    (q' ≠ q ∧ s.reader q' = some rd') ∨
      q' = q ∧ ∃ n dst, (s.reads rd).2 = .sleeps n dst ∧
        rd' = { rd with n, dst, asleep := true } := by
  have h : update s.reader q (rd.after (s.reads rd).2) q' = some rd' := h
  by_cases hq : q' = q
  · right
    rw [hq, update_self] at h
    cases hout : (s.reads rd).2 with
    | sleeps n dst =>
      rw [hout] at h
      exact ⟨hq, n, dst, rfl, (Option.some.inj h).symm⟩
    | returns value dst =>
      rw [hout] at h
      cases h
    | killed dst =>
      rw [hout] at h
      cases h
  · left
    rw [update_of_ne hq] at h
    exact ⟨hq, h⟩

theorem Inv.step (h : Inv s evs) (hrd : rd.Ok) :
    Inv (s.step q rd)
      (evs ++ [.took ((s.reads rd).2.dst.drop rd.dst.length) (s.reads rd).2.result]) := by
  obtain ⟨done, u, p, hreps, hline, hstream, hdone⟩ := h.stream
  have hreads := hreps.reads hrd.count hrd.line
  constructor
  · obtain ⟨part, u', rfl, hreps', hdst⟩ := hreads.takes
    refine ⟨done ++ part, u', p, hreps', hline, ?_, ?_⟩
    · rw [edits_append, List.append_assoc]
      exact (congrArg Stream.ofEdits (List.append_nil _)).trans hstream
    · rw [taken_append, text, List.filter_append]
      have hbytes : (s.reads rd).2.dst.drop rd.dst.length = text part := by
        rw [State.reads, hdst, List.drop_left]
      exact congrArg₂ (· ++ ·) hdone hbytes.symm
  · intro q' rd' hrd'
    rcases reader_step hrd' with ⟨-, hother⟩ | ⟨-, n, dst, hout, rfl⟩
    · exact h.readers q' rd' hother
    · obtain ⟨-, hpos, hcount, hdst⟩ := hreads.sleeps n dst hout
      exact ⟨hpos, hcount, hdst⟩
  · intro d hd
    rw [returned_append] at hd
    rcases List.mem_append.mp hd with hd | hd
    · exact h.lines d hd
    · cases hout : (s.reads rd).2 with
      | sleeps n dst =>
        rw [hout] at hd
        cases hd
      | returns value dst =>
        rw [hout] at hd
        rw [List.mem_singleton.mp hd]
        exact (hreads.returns value dst hout).2
      | killed dst => exact absurd hout (hreads.spared dst)
  · intro q' rd' hrd' hasleep
    rcases reader_step hrd' with ⟨-, hother⟩ | ⟨-, n, dst, hout, -⟩
    · have hempty := h.asleep q' rd' hother hasleep
      show (s.reads rd).1.r = (s.reads rd).1.w
      rw [reads_of_empty hrd hempty]
      exact hempty
    · exact (hreads.sleeps n dst hout).1

/-- A step is an interrupt or the step of a reader. -/
theorem perform_cases {a : Label P} (ha : s.Allowed a) : (∃ cs, a = .consoleintr cs) ∨
    ∃ q rd, s.readerOf a = some (q, rd) ∧ s.perform a = s.step q rd ∧ s.event a =
      some (.took ((s.reads rd).2.dst.drop rd.dst.length) (s.reads rd).2.result) := by
  cases a with
  | consoleintr cs => exact .inl ⟨cs, rfl⟩
  | consoleread p n => exact .inr ⟨_, _, rfl, rfl, rfl⟩
  | wakes p =>
    right
    obtain ⟨rd, hrd, -⟩ := (Option.any_eq_true _ _).mp ha
    have hreader : s.readerOf (.wakes p) = some (p, rd) := by
      rw [State.readerOf, hrd]
      rfl
    refine ⟨p, rd, hreader, ?_, ?_⟩
    · simp only [State.perform, hreader]
    · show (s.readerOf (.wakes p)).map _ = _
      rw [hreader]
      rfl

theorem Inv.perform (h : Inv s evs) {a : Label P} (ha : s.Allowed a) :
    Inv (s.perform a) (evs ++ (s.event a).toList) := by
  rcases perform_cases ha with ⟨cs, rfl⟩ | ⟨q, rd, hrd, hperform, hevent⟩
  · exact h.consoleintr cs
  · rw [hperform, hevent]
    exact h.step (h.readerOf ha hrd)

theorem inv_of_run {labels : List (Label P)} (h : (system P).Run {} labels s) :
    Inv s ((system P).log State.event {} labels) :=
  h.invariant_log inv_init fun _ _ _ hinv ha => hinv.perform ha

/-- No wakeup is lost: a process sleeps in `consoleread` only while nothing is left to be
read. -/
theorem asleep_only_when_empty {labels : List (Label P)} (h : (system P).Run {} labels s)
    (hrd : s.reader q = some rd) (hasleep : rd.asleep = true) : s.input.unread = [] := by
  have hinv := inv_of_run h
  obtain ⟨done, u, p, hreps, -⟩ := hinv.stream
  rw [hreps.unread_eq]
  exact hreps.r_eq_w.mp (hinv.asleep q rd hrd hasleep)

/-- A process that has read a line sleeps when it calls `consoleread` again, although part of
the next line has been typed. -/
theorem asleep_only_when_empty_partial : ∃ s : State Unit,
    (s.reader ()).any Reader.asleep = true ∧ s.input.r = 2 ∧ s.input.e = 3 ∧
      s.input.unread = [] := by
  obtain ⟨s, hrun, hany, hr, he⟩ := Machine.exists_run_of_exec (system Unit)
    [.consoleintr [97, 10, 98], .consoleread () 10, .consoleread () 10] (s := {})
    (P := fun s => (s.reader ()).any Reader.asleep = true ∧ s.input.r = 2 ∧ s.input.e = 3)
    (by decide +kernel)
  obtain ⟨rd, hrd, hasleep⟩ := (Option.any_eq_true _ _).mp hany
  exact ⟨s, hany, hr, he, asleep_only_when_empty hrun hrd hasleep⟩

/-! ## Calls that do not overlap -/

/-- A call starts only when no other call is in progress. -/
def Alone (s : State P) : Label P → Prop
  | .consoleread _ _ => ∀ q, s.reader q = none
  | .consoleintr _ | .wakes _ => True

/-- What has been copied out is the results and what the call in progress has. -/
structure Sequential (s : State P) (evs : List Event) : Prop where
  only : ∀ q q' rd rd', s.reader q = some rd → s.reader q' = some rd' → q = q'
  idle : (∀ q, s.reader q = none) → taken evs = (returned evs).flatten
  busy : ∀ q rd, s.reader q = some rd → taken evs = (returned evs).flatten ++ rd.dst

omit [DecidableEq P] in
/-- The results are at the front of what has been copied out. -/
theorem Sequential.returned_le (h : Sequential s evs) : (returned evs).flatten <+: taken evs := by
  by_cases hidle : ∀ q, s.reader q = none
  · exact ⟨[], by rw [List.append_nil, h.idle hidle]⟩
  · obtain ⟨q, hq⟩ := not_forall.mp hidle
    obtain ⟨rd, hrd⟩ := Option.ne_none_iff_exists'.mp hq
    rw [h.busy q rd hrd]
    exact List.prefix_append ..

theorem Sequential.consoleintr (h : Sequential s evs) (cs : List UInt8) (es : List Edit) :
    Sequential (s.perform (.consoleintr cs)) (evs ++ [.typed es]) := by
  have htaken : taken (evs ++ [.typed es]) = taken evs := by
    rw [taken_append]
    exact List.append_nil _
  have hreturned : returned (evs ++ [.typed es]) = returned evs := by
    rw [returned_append]
    exact List.append_nil _
  constructor
  · grind [reader_consoleintr, h.only]
  · intro hidle
    rw [htaken, hreturned]
    apply h.idle
    intro q
    have hq := hidle q
    rw [State.perform] at hq
    dsimp only at hq
    split at hq
    · exact Option.map_eq_none_iff.mp hq
    · exact hq
  · grind [reader_consoleintr, h.busy]

/-- The only call in progress takes a step. -/
theorem sequential_step {bytes : List UInt8} (hbytes : (s.reads rd).2.dst = rd.dst ++ bytes)
    (hspared : ∀ dst, (s.reads rd).2 ≠ .killed dst)
    (hbefore : taken evs = (returned evs).flatten ++ rd.dst)
    (hothers : ∀ q', q' ≠ q → s.reader q' = none) :
    Sequential (s.step q rd) (evs ++ [.took bytes (s.reads rd).2.result]) := by
  have hself : ∀ q' rd', (s.step q rd).reader q' = some rd' → q' = q ∧
      (s.reads rd).2.result = none ∧ rd'.dst = (s.reads rd).2.dst := by
    intro q' rd' hrd'
    rcases reader_step hrd' with ⟨hne, hother⟩ | ⟨rfl, n, dst, hout, rfl⟩
    · rw [hothers q' hne] at hother
      cases hother
    · rw [hout]
      exact ⟨rfl, rfl, rfl⟩
  have htaken : taken (evs ++ [.took bytes (s.reads rd).2.result]) =
      (returned evs).flatten ++ (s.reads rd).2.dst := by
    rw [taken_append, hbefore, hbytes, List.append_assoc]
    rfl
  constructor
  · intro q₁ q₂ rd₁ rd₂ h₁ h₂
    rw [(hself q₁ rd₁ h₁).1, (hself q₂ rd₂ h₂).1]
  · intro hidle
    rw [htaken, returned_append]
    cases hout : (s.reads rd).2 with
    | sleeps n dst =>
      have hq := hidle q
      rw [State.step, hout] at hq
      have hq : update s.reader q (rd.after (.sleeps n dst)) q = none := hq
      rw [update_self] at hq
      cases hq
    | returns value dst => simp [Event.result, Input.Outcome.result, Input.Outcome.dst]
    | killed dst => exact absurd hout (hspared dst)
  · intro q' rd' hrd'
    obtain ⟨-, hresult, hdst⟩ := hself q' rd' hrd'
    rw [htaken, returned_append, hresult, hdst]
    simp [Event.result]

theorem Sequential.perform (h : Sequential s evs) (hinv : Inv s evs) {a : Label P}
    (ha : s.Allowed a) (halone : Alone s a) :
    Sequential (s.perform a) (evs ++ (s.event a).toList) := by
  rcases perform_cases ha with ⟨cs, rfl⟩ | ⟨q, rd, hrd, hperform, hevent⟩
  · exact h.consoleintr cs _
  · have hok := hinv.readerOf ha hrd
    obtain ⟨done, u, p, hreps, -⟩ := hinv.stream
    have hreads := hreps.reads hok.count hok.line
    rw [hperform, hevent]
    apply sequential_step
    · obtain ⟨part, u', -, -, hdst⟩ := hreads.takes
      rw [State.reads, hdst, List.drop_left]
    · exact hreads.spared
    · cases a with
      | consoleintr cs => cases hrd
      | consoleread p n =>
        cases hrd
        rw [h.idle halone]
        exact (List.append_nil _).symm
      | wakes p =>
        obtain ⟨rd', hrd', heq⟩ := Option.map_eq_some_iff.mp hrd
        cases heq
        exact h.busy q rd hrd'
    · intro q' hne
      cases a with
      | consoleintr cs => cases hrd
      | consoleread p n => exact halone q'
      | wakes p =>
        obtain ⟨rd', hrd', heq⟩ := Option.map_eq_some_iff.mp hrd
        cases heq
        by_contra hq
        obtain ⟨other, hother⟩ := Option.ne_none_iff_exists'.mp hq
        exact hne (h.only q' q other rd hother hrd')

theorem sequential_of_run {labels : List (Label P)}
    (h : ((system P).restrict Alone).Run {} labels s) :
    Sequential s ((system P).log State.event {} labels) := by
  have hboth : Inv s (((system P).restrict Alone).log State.event {} labels) ∧
      Sequential s (((system P).restrict Alone).log State.event {} labels) := by
    apply h.invariant_log (I := fun s evs => Inv s evs ∧ Sequential s evs)
    · exact ⟨inv_init, nofun, fun _ => rfl, nofun⟩
    · intro u es a hu ha
      exact ⟨hu.1.perform ha.1, hu.2.perform hu.1 ha.1 ha.2⟩
  rw [Machine.log_restrict] at hboth
  exact hboth.2

/-- The indices are in order and at most `INPUT_BUF` apart. The bytes copied out, in the order in
which they are copied, are the text of a front part of the committed stream. The result of a call
has a newline at most at its end. A call returns 0 if and only if it has copied nothing and a
Control-D is next, and then it takes the Control-D. If the calls do not overlap, their results
put together are the text of a front part of the committed stream. -/
theorem console_delivers_lines :
    (∀ (labels : List (Label P)) (s : State P), (system P).Run {} labels s →
      let evs := (system P).log State.event {} labels
      (s.input.w - s.input.r).toNat ≤ (s.input.e - s.input.r).toNat ∧
      (s.input.e - s.input.r).toNat ≤ INPUT_BUF ∧
      taken evs <+: text (committed evs) ∧
      (∀ d ∈ returned evs, newline ∉ d.dropLast) ∧
      ∀ a q rd, s.Allowed a → s.readerOf a = some (q, rd) →
        ((∃ d, (s.reads rd).2 = .returns 0 d) ↔
          rd.dst = [] ∧ s.input.unread.head? = some (ctrl 'D')) ∧
        ((∃ d, (s.reads rd).2 = .returns 0 d) →
          (s.reads rd).1.unread = s.input.unread.tail) ∧
        ∀ v d, (s.reads rd).2 = .returns v d → v = d.length) ∧
    ∀ (labels : List (Label P)) (s : State P), ((system P).restrict Alone).Run {} labels s →
      let evs := (system P).log State.event {} labels
      (returned evs).flatten <+: text (committed evs) := by
  have hpart : ∀ {s : State P} {evs}, Inv s evs → taken evs <+: text (committed evs) := by
    intro s evs hinv
    obtain ⟨done, u, p, -, -, hstream, hdone⟩ := hinv.stream
    rw [committed, hstream, ← hdone, text, text, List.filter_append]
    exact List.prefix_append ..
  constructor
  · intro labels s h evs
    have hinv := inv_of_run h
    obtain ⟨done, u, p, hreps, hline, hstream, hdone⟩ := hinv.stream
    have hsize : (s.input.e - s.input.r).toNat = u.length + p.length := hreps.size_eq
    refine ⟨?_, ?_, hpart hinv, hinv.lines, ?_⟩
    · rw [hreps.ahead, hsize]
      omega
    · rw [hsize]
      exact hreps.size_le
    · intro a q rd ha hrd
      have hok := hinv.readerOf ha hrd
      have hreads := hreps.reads hok.count hok.line
      rw [hreps.unread_eq]
      refine ⟨⟨?_, ?_⟩, ?_, fun v d hd => (hreads.returns v d hd).1⟩
      · rintro ⟨d, hd⟩
        obtain ⟨hdst, hnext⟩ := hreads.zero d hd
        exact ⟨hdst, (hnext hok.pos).1⟩
      · rintro ⟨hdst, hhead⟩
        obtain ⟨rest, rfl⟩ := List.head?_eq_some_iff.mp hhead
        have hreturns := hreps.returns_of_ctrlD hok.count hok.pos
        rw [State.reads, hreturns, hdst]
        exact ⟨[], rfl⟩
      · rintro ⟨d, hd⟩
        exact ((hreads.zero d hd).2 hok.pos).2.unread_eq
  · intro labels s h evs
    exact (sequential_of_run h).returned_le.trans (hpart (inv_of_run h.of_restrict))

/-- A line of 130 characters fills the buffer before it ends. Process `p` takes what is there and
sleeps; the rest of the line goes to process `q`, whose call returns first. -/
def overtake {P : Type} (p q : P) : List (Label P) :=
  [.consoleintr (List.replicate INPUT_BUF 97), .consoleread p 200, .consoleintr [98, newline],
    .consoleread q 200]

theorem reader_is_overtaken : ∃ s, (system (Fin 2)).Run {} (overtake 0 1) s ∧
    ¬ (returned ((system (Fin 2)).log State.event {} (overtake 0 1))).flatten <+:
      text (committed ((system (Fin 2)).log State.event {} (overtake 0 1))) := by
  obtain ⟨s, hrun, -⟩ := Machine.exists_run_of_exec (system (Fin 2)) (overtake 0 1) (s := {})
    (P := fun _ => True) (by decide +kernel)
  exact ⟨s, hrun, by decide +kernel⟩

end Xv6.Console
