/-
# The line discipline of the console

What the user types is edited until it is committed, by a newline, by Control-D or
because the buffer is full. `Stream` says this on lists, without a buffer. The ring
of `console.c` represents a stream whose front part has been read, and every step
of the code is a step of the stream.
-/

import Mathlib.Data.List.Induction
import Xv6.Console.Input

namespace Xv6.Console

open Xv6.Lib

/-- What an accepted character does. -/
inductive Edit
  /-- It is added to the line; `full` tells that it takes the last cell of the buffer. -/
  | put (c : UInt8) (full : Bool)
  | erase
  | kill

/-- All that has been committed, and the line being edited. -/
structure Stream where
  committed : List UInt8 := []
  pending : List UInt8 := []

namespace Stream

def apply (t : Stream) : Edit → Stream
  | .put c full =>
    if c = newline ∨ c = ctrl 'D' ∨ full = true then ⟨t.committed ++ t.pending ++ [c], []⟩
    else { t with pending := t.pending ++ [c] }
  | .erase => { t with pending := t.pending.dropLast }
  | .kill => { t with pending := [] }

/-- The stream after some edits. -/
def ofEdits (es : List Edit) : Stream := es.foldl apply {}

end Stream

/-- Without the Control-Ds. -/
def text (cs : List UInt8) : List UInt8 := cs.filter (· ≠ ctrl 'D')

namespace Input

/-- The ring between `r` and `e`. -/
def ring (s : Input) : RingBuffer UInt8 := ⟨s.buf, s.r, s.e⟩

/-- The committed characters that have not been read. -/
def unread (s : Input) : List UInt8 := (s.ring.contents INPUT_BUF).take (s.w - s.r).toNat

/-- The edit a character stands for; a NUL and a character that finds the buffer full are
dropped. -/
def accept (s : Input) (c : UInt8) : Option Edit :=
  if c = ctrl 'P' then none
  else if c = ctrl 'U' then some .kill
  else if c = ctrl 'H' ∨ c = 0x7f then some .erase
  else if c = 0 ∨ s.ring.size = INPUT_BUF then none
  else some (.put (if c = carriageReturn then newline else c) (s.ring.size + 1 = INPUT_BUF))

/-- The edits of an interrupt. -/
def edits : List UInt8 → Input → List Edit
  | [], _ => []
  | c :: rest, s => (s.accept c).toList ++ edits rest (s.key c).1

/-- The ring holds the unread characters `u` and the line `p` being edited. -/
structure Reps (s : Input) (u p : List UInt8) : Prop where
  contents : s.ring.contents INPUT_BUF = u ++ p
  ahead : (s.w - s.r).toNat = u.length
  size_le : u.length + p.length ≤ INPUT_BUF

theorem dvd_wrap : INPUT_BUF ∣ 2 ^ 32 := by decide

theorem inputBuf_lt : INPUT_BUF < 2 ^ 32 := by decide

variable {s : Input} {u p : List UInt8} {c : UInt8}

namespace Reps

section

variable (h : Reps s u p)

include h

theorem size_eq : s.ring.size = u.length + p.length := by
  grind [h.contents, RingBuffer.length_contents]

theorem unread_eq : s.unread = u := by
  rw [unread, h.contents, h.ahead, List.take_left]

theorem r_eq_w : s.r = s.w ↔ u = [] := by
  grind [h.ahead, s.r.toNat_lt, s.w.toNat_lt, UInt32.toNat_sub, UInt32.toNat_inj,
    List.length_eq_zero_iff]

theorem size_pending : (s.e - s.w).toNat = p.length := by
  have hahead := h.ahead
  have hsize : (s.e - s.r).toNat = _ := h.size_eq
  grind [s.w.toNat_lt, UInt32.toNat_sub]

theorem e_eq_w : s.e = s.w ↔ p = [] := by
  grind [h.size_pending, s.w.toNat_lt, s.e.toNat_lt, UInt32.toNat_sub, UInt32.toNat_inj,
    List.length_eq_zero_iff]

/-- The test for room in `consoleintr`. -/
theorem room_iff : s.e - s.r < UInt32.ofNat INPUT_BUF ↔ u.length + p.length < INPUT_BUF := by
  rw [← h.size_eq, UInt32.lt_iff_toNat_lt]
  rfl

theorem put (hroom : u.length + p.length < INPUT_BUF) (c : UInt8) :
    Reps { s with
      buf := Function.update s.buf (s.e.toNat % INPUT_BUF) c
      e := s.e + 1 } u (p ++ [c]) where
  contents := by
    show (s.ring.push INPUT_BUF c).contents INPUT_BUF = _
    rw [RingBuffer.contents_push dvd_wrap (by rwa [h.size_eq]) inputBuf_lt, h.contents,
      List.append_assoc]
  ahead := h.ahead
  size_le := by
    rw [List.length_append, List.length_singleton]
    omega

/-- The test for a full buffer in `consoleintr`. -/
theorem full_iff : s.e = s.r + UInt32.ofNat INPUT_BUF ↔ u.length + p.length = INPUT_BUF := by
  rw [← h.size_eq]
  exact RingBuffer.size_eq_of_full inputBuf_lt (r := s.ring)

theorem commit : Reps { s with w := s.e } (u ++ p) [] where
  contents := by
    rw [List.append_nil]
    exact h.contents
  ahead := by
    rw [List.length_append]
    exact h.size_eq
  size_le := by
    rw [List.length_append, List.length_nil]
    exact h.size_le

end

theorem erase (h : Reps s u (p ++ [c])) :
    Reps { s with e := s.e - 1 } u p ∧ s.buf ((s.e - 1).toNat % INPUT_BUF) = c := by
  have hsize := h.size_eq
  rw [List.length_append, List.length_singleton] at hsize
  have hne : ¬ s.ring.Empty := by
    rw [← RingBuffer.size_eq_zero]
    omega
  have hlast := h.contents
  rw [RingBuffer.contents_unpush dvd_wrap hne, ← List.append_assoc] at hlast
  obtain ⟨hfront, hc⟩ := List.append_inj' hlast rfl
  refine ⟨⟨hfront, h.ahead, ?_⟩, List.singleton_injective hc⟩
  have hle := h.size_le
  rw [List.length_append] at hle
  omega

/-- Control-U removes the whole line, since there is no newline in it. -/
theorem killLine (hline : newline ∉ p) (h : Reps s u p) :
    Reps (s.killLine p.length) u [] := by
  induction p using List.reverseRecOn generalizing s with
  | nil => exact h
  | append_singleton p c ih =>
    obtain ⟨hcell, hc⟩ := h.erase
    have hne : s.e ≠ s.w := by
      rw [ne_eq, h.e_eq_w]
      exact List.append_ne_nil_of_right_ne_nil p nofun
    have hnewline : c ≠ newline := by
      rintro rfl
      exact hline (by simp)
    rw [List.length_append, List.length_singleton, Input.killLine, hc, if_pos ⟨hne, hnewline⟩]
    exact ih (fun hmem => hline (List.mem_append_left _ hmem)) hcell

theorem pop (h : Reps s (c :: u) p) :
    Reps { s with r := s.r + 1 } u p ∧ s.buf (s.r.toNat % INPUT_BUF) = c := by
  have hsize := h.size_eq
  rw [List.length_cons] at hsize
  have hne : ¬ s.ring.Empty := by
    rw [← RingBuffer.size_eq_zero]
    omega
  have hfirst := h.contents
  rw [RingBuffer.contents_pop dvd_wrap hne] at hfirst
  obtain ⟨hc, hrest⟩ := List.cons.inj hfirst
  refine ⟨⟨hrest, ?_, ?_⟩, hc⟩
  · grind [h.ahead, s.r.toNat_lt, UInt32.toNat_sub, UInt32.toNat_add]
  · have hle := h.size_le
    rw [List.length_cons] at hle
    omega

end Reps

/-- What a character does to the line, with any characters read before. -/
def Types (s' : Input) (es : List Edit) (u p : List UInt8) : Prop :=
  ∃ u' p', Reps s' u' p' ∧ newline ∉ p' ∧
    ∀ done, es.foldl Stream.apply ⟨done ++ u, p⟩ = ⟨done ++ u', p'⟩

/-- A character that is neither a command nor dropped. -/
theorem Reps.key_put (h : Reps s u p) (hline : newline ∉ p)
    (hroom : u.length + p.length < INPUT_BUF) {full : Bool}
    (hfull : full = decide (u.length + p.length + 1 = INPUT_BUF)) (c : UInt8) :
    let s' : Input := { s with
      buf := Function.update s.buf (s.e.toNat % INPUT_BUF) c
      e := s.e + 1 }
    Types (if c = newline ∨ c = ctrl 'D' ∨ s'.e = s'.r + UInt32.ofNat INPUT_BUF then
        ({ s' with w := s'.e }, true) else (s', false)).1 [.put c full] u p := by
  intro s'
  have hput : Reps s' u (p ++ [c]) := h.put hroom c
  have htest : (c = newline ∨ c = ctrl 'D' ∨ s'.e = s'.r + UInt32.ofNat INPUT_BUF) ↔
      c = newline ∨ c = ctrl 'D' ∨ full = true := by
    grind [hput.full_iff]
  by_cases hcommit : c = newline ∨ c = ctrl 'D' ∨ full = true
  · refine ⟨u ++ (p ++ [c]), [], ?_, List.not_mem_nil, ?_⟩
    · rw [if_pos (htest.mpr hcommit)]
      exact hput.commit
    · intro done
      rw [List.foldl_cons, Stream.apply, if_pos hcommit]
      simp
  · refine ⟨u, p ++ [c], ?_, ?_, ?_⟩
    · rw [if_neg fun hnow => hcommit (htest.mp hnow)]
      exact hput
    · grind
    · intro done
      rw [List.foldl_cons, Stream.apply, if_neg hcommit, List.foldl_nil]

theorem Reps.key (h : Reps s u p) (hline : newline ∉ p) (c : UInt8) :
    Types (s.key c).1 (s.accept c).toList u p := by
  rw [Input.key, accept]
  split
  · exact ⟨u, p, h, hline, fun _ => rfl⟩
  split
  · have hkill := h.killLine hline
    rw [← h.size_pending] at hkill
    exact ⟨u, [], hkill, List.not_mem_nil, fun _ => rfl⟩
  split
  · cases p using List.reverseRecOn with
    | nil =>
      have heq := h.e_eq_w.mpr rfl
      rw [if_neg (not_not.mpr heq)]
      exact ⟨u, [], h, List.not_mem_nil, fun _ => rfl⟩
    | append_singleton p c =>
      have hne : s.e ≠ s.w := by
        rw [ne_eq, h.e_eq_w]
        exact List.append_ne_nil_of_right_ne_nil p nofun
      rw [if_pos hne]
      refine ⟨u, p, h.erase.1, fun hmem => hline (List.mem_append_left _ hmem), ?_⟩
      intro done
      show Stream.mk (done ++ u) (p ++ [c]).dropLast = _
      rw [List.dropLast_concat]
  have hle := h.size_le
  by_cases haccept : c ≠ 0 ∧ u.length + p.length < INPUT_BUF
  · grind [h.room_iff.mpr, h.size_eq, h.key_put]
  · have hdrop : c = 0 ∨ u.length + p.length = INPUT_BUF := by
      by_contra hnot
      exact haccept ⟨fun hzero => hnot (.inl hzero), by omega⟩
    rw [if_neg fun hroom => haccept ⟨hroom.1, h.room_iff.mp hroom.2⟩, h.size_eq, if_pos hdrop]
    exact ⟨u, p, h, hline, fun _ => rfl⟩

theorem Reps.consoleintr (h : Reps s u p) (hline : newline ∉ p) (cs : List UInt8) :
    Types (s.consoleintr cs).1 (s.edits cs) u p := by
  induction cs generalizing s u p with
  | nil => exact ⟨u, p, h, hline, fun _ => rfl⟩
  | cons c rest ih =>
    obtain ⟨u', p', h', hline', hedit⟩ := h.key hline c
    obtain ⟨u'', p'', h'', hline'', hedits⟩ := ih h' hline'
    refine ⟨u'', p'', h'', hline'', ?_⟩
    intro done
    rw [edits, List.foldl_append, hedit, hedits]

/-- What a step of `consoleread` does: it takes a front part of the unread characters, copies
its text, and stops after a newline, at a Control-D or where nothing is left. It returns 0 only
at a Control-D, which it takes. -/
structure Reads (target n : ℕ) (dst u p : List UInt8) (out : Input × Outcome) : Prop where
  takes : ∃ taken u', u = taken ++ u' ∧ Reps out.1 u' p ∧ out.2.dst = dst ++ text taken
  sleeps : ∀ n dst', out.2 = .sleeps n dst' →
    out.1.r = out.1.w ∧ 0 < n ∧ n + dst'.length = target ∧ newline ∉ dst'
  returns : ∀ value dst', out.2 = .returns value dst' →
    value = dst'.length ∧ newline ∉ dst'.dropLast
  zero : ∀ dst', out.2 = .returns 0 dst' → dst = [] ∧
    (0 < n → u.head? = some (ctrl 'D') ∧ Reps out.1 u.tail p)
  spared : ∀ dst', out.2 ≠ .killed dst'

theorem text_cons (hc : c ≠ ctrl 'D') (cs : List UInt8) : text (c :: cs) = c :: text cs :=
  List.filter_cons_of_pos (by simpa using hc)

/-- The put-back of a Control-D. -/
theorem put_back (s : Input) : { s with r := s.r + 1 - 1 } = s := by
  rw [UInt32.add_sub_cancel]

/-- Nothing is left to be read. -/
theorem Reps.reads_nil (h : Reps s [] p) {target n : ℕ} {dst : List UInt8}
    (hn : n + 1 + dst.length = target) (hdst : newline ∉ dst) :
    Reads target (n + 1) dst [] p (s, .sleeps (n + 1) dst) := by
  constructor
  · exact ⟨[], [], rfl, h, (List.append_nil _).symm⟩
  · rintro _ _ ⟨⟩
    exact ⟨h.r_eq_w.mpr rfl, by omega, hn, hdst⟩
  · exact nofun
  · exact nofun
  · exact nofun

/-- A Control-D stops the call. It is taken if it comes first. -/
theorem Reps.reads_ctrlD (h : Reps s (ctrl 'D' :: u) p) {target n : ℕ} {dst : List UInt8}
    (hn : n + 1 + dst.length = target) (hdst : newline ∉ dst) :
    Reads target (n + 1) dst (ctrl 'D' :: u) p
      (if n + 1 < target then { s with r := s.r + 1 - 1 } else { s with r := s.r + 1 },
        .returns (target - (n + 1)) dst) := by
  have hpop := h.pop.1
  constructor
  · split
    · rw [put_back]
      exact ⟨[], _, rfl, h, (List.append_nil _).symm⟩
    · exact ⟨[ctrl 'D'], u, rfl, hpop, (List.append_nil _).symm⟩
  · exact nofun
  · rintro _ _ ⟨⟩
    exact ⟨by omega, fun hmem => hdst (List.dropLast_subset _ hmem)⟩
  · intro dst' hreturns
    have hzero : target - (n + 1) = 0 := (Outcome.returns.inj hreturns).1
    refine ⟨List.eq_nil_of_length_eq_zero (by omega), fun _ => ⟨rfl, ?_⟩⟩
    rw [if_neg (by omega)]
    exact hpop
  · exact nofun

theorem Reps.reads (h : Reps s u p) {target n : ℕ} {dst : List UInt8}
    (hn : n + dst.length = target) (hdst : newline ∉ dst) :
    Reads target n dst u p (s.consoleread false target n dst) := by
  induction n generalizing s u dst with
  | zero =>
    rw [Input.consoleread]
    constructor
    · exact ⟨[], u, rfl, h, (List.append_nil _).symm⟩
    · exact nofun
    · rintro _ _ ⟨⟩
      exact ⟨by omega, fun hmem => hdst (List.dropLast_subset _ hmem)⟩
    · rintro _ ⟨⟩
      exact ⟨List.eq_nil_of_length_eq_zero (by omega), nofun⟩
    · exact nofun
  | succ n ih =>
    cases u with
    | nil =>
      rw [Input.consoleread, if_pos (h.r_eq_w.mpr rfl)]
      exact h.reads_nil hn hdst
    | cons c u =>
      obtain ⟨hpop, hc⟩ := h.pop
      have hlen : (dst ++ [c]).length = dst.length + 1 := by simp
      rw [Input.consoleread, if_neg (fun heq => nomatch h.r_eq_w.mp heq)]
      simp only [hc]
      by_cases hctrl : c = ctrl 'D'
      · rw [if_pos hctrl]
        subst hctrl
        exact h.reads_ctrlD hn hdst
      rw [if_neg hctrl]
      by_cases hnewline : c = newline
      · rw [if_pos hnewline]
        constructor
        · refine ⟨[c], u, rfl, hpop, ?_⟩
          rw [text_cons hctrl]
          rfl
        · exact nofun
        · grind
        · grind
        · exact nofun
      · rw [if_neg hnewline]
        have hmem : newline ∉ dst ++ [c] := by
          grind
        have hrest : Reads target n (dst ++ [c]) u p _ := ih hpop (by omega) hmem
        obtain ⟨taken, u', rfl, hreps, htext⟩ := hrest.takes
        refine ⟨⟨c :: taken, u', rfl, hreps, ?_⟩, hrest.sleeps, hrest.returns, ?_,
          hrest.spared⟩
        · rw [htext, text_cons hctrl, List.append_assoc]
          rfl
        · grind [hrest.zero]

/-- A call that finds a Control-D returns what it has copied so far. -/
theorem Reps.returns_of_ctrlD (h : Reps s (ctrl 'D' :: u) p) {target n : ℕ} {dst : List UInt8}
    (hn : n + dst.length = target) (hpos : 0 < n) :
    (s.consoleread false target n dst).2 = .returns dst.length dst := by
  obtain ⟨m, rfl⟩ : ∃ m, n = m + 1 := ⟨n - 1, by omega⟩
  rw [Input.consoleread, if_neg (fun heq => nomatch h.r_eq_w.mp heq)]
  simp only [h.pop.2]
  show Outcome.returns (target - (m + 1)) dst = _
  rw [← hn, Nat.add_sub_cancel_left]

end Input

end Xv6.Console
