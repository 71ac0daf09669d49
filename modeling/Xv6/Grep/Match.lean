/-
# The matcher of grep

`match`, `matchhere` and `matchstar` of `grep.c`, and the language of a pattern. A C string is
the list of its bytes before the terminator.
-/

import Mathlib.Computability.Language

namespace Xv6.Grep

/-- A string without its terminator. -/
abbrev Str := List UInt8

/-- The bytes `^`, `$`, `.` and `*`. -/
def caret : UInt8 := 94
def dollar : UInt8 := 36
def dot : UInt8 := 46
def star : UInt8 := 42

/-- `matchstar(c, re, text)`, where `here` is `matchhere` with the rest `re` of the pattern. -/
def matchstar (here : Str → Bool) (c : UInt8) : Str → Bool
  | [] => here []
  | t :: text => here (t :: text) || ((t == c || c == dot) && matchstar here c text)

def matchhere : Str → Str → Bool
  | [], _ => true
  | [c], text =>
    if c == dollar then text.isEmpty
    else
      match text with
      | [] => false
      | t :: _ => c == dot || c == t
  | c :: c' :: re, text =>
    if c' == star then matchstar (matchhere re) c text
    else
      match text with
      | [] => false
      | t :: text => (c == dot || c == t) && matchhere (c' :: re) text

/-- The loop of `match`. -/
def matchLoop (re : Str) : Str → Bool
  | [] => matchhere re []
  | t :: text => matchhere re (t :: text) || matchLoop re text

def «match» (re text : Str) : Bool :=
  match re with
  | [] => matchLoop [] text
  | c :: rest => if c == caret then matchhere rest text else matchLoop (c :: rest) text

/-- What `c` stands for. -/
def Accepts (c t : UInt8) : Prop := c = dot ∨ c = t

/-- The parts of a pattern: a character, or `c*`. -/
inductive Item
  | one (c : UInt8)
  | many (c : UInt8)

/-- The words of one character. -/
def letters (c : UInt8) : Language UInt8 := {w | ∃ t, Accepts c t ∧ w = [t]}

def Item.language : Item → Language UInt8
  | .one c => letters c
  | .many c => KStar.kstar (letters c)

/-- A pattern as its items, and whether it ends with `$`. -/
def items : Str → List Item × Bool
  | [] => ([], false)
  | [c] => if c = dollar then ([], true) else ([.one c], false)
  | c :: c' :: re =>
    if c' = star then (.many c :: (items re).1, (items re).2)
    else (.one c :: (items (c' :: re)).1, (items (c' :: re)).2)

def language (l : List Item) : Language UInt8 := (l.map Item.language).prod

/-- A beginning of `text` is in the language, and is all of `text` if `e` says so. -/
def Begins (L : Language UInt8) (e : Bool) (text : Str) : Prop :=
  ∃ w rest, w ++ rest = text ∧ w ∈ L ∧ (e = true → rest = [])

variable {re text : Str} {c : UInt8} {e : Bool}

theorem mem_letters_mul {L : Language UInt8} {w : Str} :
    w ∈ letters c * L ↔ ∃ t v, Accepts c t ∧ v ∈ L ∧ w = t :: v := by
  rw [Language.mem_mul]
  constructor
  · rintro ⟨_, ⟨t, ht, rfl⟩, v, hv, rfl⟩
    exact ⟨t, v, ht, hv, rfl⟩
  · rintro ⟨t, v, ht, hv, rfl⟩
    exact ⟨[t], ⟨t, ht, rfl⟩, v, hv, rfl⟩

theorem begins_cons {L L' : Language UInt8} {t : UInt8}
    (h : ∀ w, w ∈ L ↔ ∃ t v, Accepts c t ∧ v ∈ L' ∧ w = t :: v) :
    Begins L e (t :: text) ↔ Accepts c t ∧ Begins L' e text := by
  constructor
  · rintro ⟨w, rest, hsplit, hw, hend⟩
    obtain ⟨t', v, ht, hv, rfl⟩ := (h w).mp hw
    obtain ⟨rfl, rfl⟩ := List.cons.inj hsplit
    exact ⟨ht, v, rest, rfl, hv, hend⟩
  · rintro ⟨ht, v, rest, rfl, hv, hend⟩
    exact ⟨t :: v, rest, rfl, (h _).mpr ⟨t, v, ht, hv, rfl⟩, hend⟩

theorem not_begins_nil {L L' : Language UInt8}
    (h : ∀ w, w ∈ L ↔ ∃ t v, Accepts c t ∧ v ∈ L' ∧ w = t :: v) : ¬ Begins L e [] := by
  rintro ⟨w, rest, hsplit, hw, -⟩
  obtain ⟨t, v, -, -, rfl⟩ := (h w).mp hw
  cases hsplit

theorem begins_or {L L₁ L₂ : Language UInt8} (h : ∀ w, w ∈ L ↔ w ∈ L₁ ∨ w ∈ L₂) :
    Begins L e text ↔ Begins L₁ e text ∨ Begins L₂ e text := by
  simp only [Begins, h]
  grind

theorem accepts_iff {t : UInt8} : (c == dot || c == t) = true ↔ Accepts c t := by
  simp [Accepts]

theorem matchstar_iff {here : Str → Bool} {L : Language UInt8}
    (h : ∀ text, here text = true ↔ Begins L e text) :
    matchstar here c text = true ↔ Begins (KStar.kstar (letters c) * L) e text := by
  -- a word of `c*L` is in `L`, or begins with a character and goes on as a word of `c*L`
  have hsplit : ∀ w, w ∈ KStar.kstar (letters c) * L ↔
      w ∈ L ∨ w ∈ letters c * (KStar.kstar (letters c) * L) := by
    intro w
    nth_rewrite 1 [← Language.one_add_self_mul_kstar_eq_kstar]
    rw [add_mul, one_mul, mul_assoc, Language.mem_add]
  induction text with
  | nil =>
    rw [matchstar, h, begins_or hsplit, or_iff_left (not_begins_nil fun _ => mem_letters_mul)]
  | cons t text ih =>
    rw [matchstar, Bool.or_eq_true, Bool.and_eq_true, h, begins_or hsplit,
      begins_cons fun _ => mem_letters_mul, ← accepts_iff]
    grind

/-- `matchhere` looks for a word of the pattern's language at the beginning of the text. -/
theorem matchhere_iff : ∀ re text : Str,
    matchhere re text = true ↔ Begins (language (items re).1) (items re).2 text
  | [], text => by
    simp [matchhere, Begins, items, language, Language.mem_one]
  | [c], text => by
    have hone : ∀ w, w ∈ language [.one c] ↔ ∃ t v, Accepts c t ∧ v ∈ language [] ∧ w = t :: v :=
      fun w => mem_letters_mul
    by_cases hc : c = dollar
    · simp [matchhere, Begins, items, language, Language.mem_one, hc]
    · cases text with
      | nil => simp [matchhere, items, hc, not_begins_nil hone]
      | cons t text =>
        simp only [matchhere, items, beq_iff_eq, hc, if_false]
        rw [begins_cons hone, accepts_iff]
        simp [Begins, language, Language.mem_one]
  | c :: c' :: re, text => by
    have hone : ∀ w, w ∈ language (.one c :: (items (c' :: re)).1) ↔
        ∃ t v, Accepts c t ∧ v ∈ language (items (c' :: re)).1 ∧ w = t :: v :=
      fun w => mem_letters_mul
    by_cases hstar : c' = star
    · simp only [matchhere, items, beq_iff_eq, hstar, if_true]
      exact matchstar_iff (matchhere_iff re)
    · simp only [matchhere, items, beq_iff_eq, hstar, if_false]
      cases text with
      | nil => simp [not_begins_nil hone]
      | cons t text =>
        rw [begins_cons hone, Bool.and_eq_true, accepts_iff, matchhere_iff (c' :: re) text]

theorem matchLoop_iff :
    matchLoop re text = true ↔ ∃ part, part <:+ text ∧ matchhere re part = true := by
  induction text with
  | nil => simp [matchLoop]
  | cons t text ih => simp [matchLoop, ih, List.suffix_cons_iff, or_and_right, exists_or]

/-- The pattern after `^`. -/
def body (re : Str) : Str := if re.head? = some caret then re.tail else re

/-- `match` finds out whether a part of the text is in the language of the pattern: one at its
beginning if the pattern starts with `^`, and one at its end if it ends with `$`. -/
theorem match_iff (re text : Str) : «match» re text = true ↔
    ∃ skipped w rest, skipped ++ (w ++ rest) = text ∧ (re.head? = some caret → skipped = []) ∧
      w ∈ language (items (body re)).1 ∧ ((items (body re)).2 = true → rest = []) := by
  have hbegins : «match» re text = true ↔ ∃ part, part <:+ text ∧
      (re.head? = some caret → part = text) ∧ matchhere (body re) part = true := by
    cases re with
    | nil => simp [«match», matchLoop_iff, body]
    | cons c rest =>
      by_cases hc : c = caret
      · simp [«match», body, hc]
      · simp [«match», body, hc, matchLoop_iff]
  rw [hbegins]
  simp only [matchhere_iff, Begins]
  constructor
  · rintro ⟨_, ⟨skipped, rfl⟩, hanchor, w, rest, rfl, hw, hend⟩
    exact ⟨skipped, w, rest, rfl, fun h => by simpa using hanchor h, hw, hend⟩
  · rintro ⟨skipped, w, rest, rfl, hanchor, hw, hend⟩
    exact ⟨w ++ rest, ⟨skipped, rfl⟩, fun h => by simp [hanchor h], w, rest, rfl, hw, hend⟩

end Xv6.Grep
