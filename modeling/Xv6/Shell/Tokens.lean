/-
# The tokens of a line

`tokens` says what the tokens of a line are: the symbols, with `>>` for two `>` in a
row, and the longest runs of other characters that are not whitespace. `peek` looks
at the first token, and `gettoken` takes it.
-/

import Mathlib.Data.Bool.AllAny
import Mathlib.Data.List.TakeWhile
import Xv6.Shell.Parser

namespace Xv6.Shell

inductive Tok
  | bar | lparen | rparen | semi | amp | lt | gt | gtgt
  | word (w : List Char)
  deriving DecidableEq

/-- The characters of words. -/
def IsWordChar (c : Char) : Prop := c ∉ whitespace ∧ c ∉ symbols
  deriving Decidable

/-- The token of a symbol that stands alone. -/
def symbolTok : Char → Tok
  | '|' => .bar
  | '(' => .lparen
  | ')' => .rparen
  | ';' => .semi
  | '&' => .amp
  | '<' => .lt
  | _ => .gt

/-- A character of a word in front of the tokens of the rest: it extends the first word if the
rest starts with one. -/
def joinWord (c : Char) (rest : List Char) (ts : List Tok) : List Tok :=
  match ts with
  | .word w :: ts' => if IsWordChar (deref rest) ∧ rest ≠ [] then .word (c :: w) :: ts'
      else .word [c] :: ts
  | ts => .word [c] :: ts

def tokens : List Char → List Tok
  | [] => []
  | c :: rest =>
    if c ∈ whitespace then tokens rest
    else if c ∈ symbols then
      match c, rest with
      | '>', '>' :: rest => .gtgt :: tokens rest
      | c, rest => symbolTok c :: tokens rest
    else joinWord c rest (tokens rest)

/-- What `gettoken` returns for a token. -/
def Tok.code : Tok → Char
  | .bar => '|'
  | .lparen => '('
  | .rparen => ')'
  | .semi => ';'
  | .amp => '&'
  | .lt => '<'
  | .gt => '>'
  | .gtgt => '+'
  | .word _ => 'a'

/-- The symbol a token starts with; there is none for a word. -/
def Tok.symbol : Tok → Option Char
  | .gtgt => some '>'
  | .word _ => none
  | t => some t.code

theorem tokens_cons (c : Char) (rest : List Char) :
    tokens (c :: rest) = if c ∈ whitespace then tokens rest
      else if c ∈ symbols then
        match c, rest with
        | '>', '>' :: rest => .gtgt :: tokens rest
        | c, rest => symbolTok c :: tokens rest
      else joinWord c rest (tokens rest) := by
  rw [tokens.eq_def]

theorem tokens_space {c : Char} (hc : c ∈ whitespace) (rest : List Char) :
    tokens (c :: rest) = tokens rest := by
  rw [tokens_cons, if_pos hc]

theorem tokens_skip (s : Ptr) : tokens (skip s) = tokens s := by
  induction s with
  | nil => rfl
  | cons c rest ih =>
    rw [skip, List.dropWhile_cons]
    split
    · next hc =>
      rw [tokens_space (of_decide_eq_true hc)]
      exact ih
    · rfl

theorem not_space_of_symbol {c : Char} (hc : c ∈ symbols) : c ∉ whitespace := by
  have hall : ∀ c ∈ symbols, c ∉ whitespace := List.all_iff_forall_prop.mp (by decide)
  exact hall c hc

theorem tokens_gtgt (rest : List Char) : tokens ('>' :: '>' :: rest) = .gtgt :: tokens rest := by
  rw [tokens_cons, if_neg (by decide), if_pos (by decide)]
  rfl

theorem tokens_symbol {c : Char} (hc : c ∈ symbols) {rest : List Char}
    (hgt : c = '>' → deref rest ≠ '>') : tokens (c :: rest) = symbolTok c :: tokens rest := by
  rw [tokens_cons, if_neg (not_space_of_symbol hc), if_pos hc]
  split
  · exact absurd rfl (hgt rfl)
  · rfl

/-- A longest run of word characters is a word. -/
theorem tokens_word {w rest : List Char} (hne : w ≠ []) (hw : ∀ c ∈ w, IsWordChar c)
    (hrest : ∀ c ∈ rest.head?, ¬ IsWordChar c) : tokens (w ++ rest) = .word w :: tokens rest := by
  induction w with
  | nil => exact absurd rfl hne
  | cons c w ih =>
    have hc := hw c List.mem_cons_self
    rw [List.cons_append, tokens_cons, if_neg hc.1, if_neg hc.2]
    cases w with
    | nil =>
      rw [List.nil_append, joinWord.eq_def]
      split
      · rw [if_neg]
        rintro ⟨hword, hnil⟩
        cases rest with
        | nil => exact hnil rfl
        | cons d rest => exact hrest d rfl hword
      · rfl
    | cons d w =>
      rw [ih nofun fun c' hc' => hw c' (List.mem_cons_of_mem c hc'), joinWord, if_pos]
      exact ⟨hw d (by simp), nofun⟩

/-- `q` and `eq` delimit the word `w` in the line. -/
structure IsWord (line q eq : Ptr) (w : List Char) : Prop where
  split : q = w ++ eq
  suffix : q <:+ line
  word : ∀ c ∈ w, IsWordChar c
  stops : ∀ c ∈ eq.head?, ¬ IsWordChar c

theorem IsWord.mono {line line' q eq : Ptr} {w : List Char} (h : IsWord line q eq w)
    (hle : line <:+ line') : IsWord line' q eq w :=
  ⟨h.split, h.suffix.trans hle, h.word, h.stops⟩

theorem skip_suffix (s : Ptr) : skip s <:+ s := List.dropWhile_suffix _

theorem head_skip {s : Ptr} {c : Char} (h : c ∈ (skip s).head?) : c ∉ whitespace := by
  have hhead := List.head?_dropWhile_not (fun c => decide (c ∈ whitespace)) s
  rw [skip] at h
  rw [Option.mem_def.mp h] at hhead
  simpa using hhead

theorem gettoken_of_skip_nil {s : Ptr} (h : skip s = []) :
    tokens s = [] ∧ (gettoken s).ret = Char.ofNat 0 ∧ (gettoken s).ps = [] := by
  refine ⟨?_, ?_, ?_⟩
  · rw [← tokens_skip, h]
    rfl
  · rw [gettoken, h]
    rfl
  · rw [gettoken, h]
    rfl

/-- The `switch` at a token. -/
structure Switches (s : Ptr) (t : Tok) (out : Char × Ptr) : Prop where
  tokens : tokens s = t :: Shell.tokens out.2
  ret : out.1 = t.code
  suffix : out.2 <:+ s
  shorter : out.2.length < s.length
  symbol : t.symbol = s.head?.filter (· ∈ symbols)
  word : ∀ w, t = .word w → IsWord s s out.2 w

theorem symbolTok_facts : ∀ c ∈ ['|', '(', ')', ';', '&', '<'], c ∈ symbols ∧ c ≠ '>' ∧
    c ≠ Char.ofNat 0 ∧ (symbolTok c).code = c ∧ (symbolTok c).symbol = some c :=
  List.all_iff_forall_prop.mp (by decide)

theorem switch_cons (c : Char) (rest : Ptr) : switch (c :: rest) =
    if c = Char.ofNat 0 then (Char.ofNat 0, c :: rest)
    else if c ∈ ['|', '(', ')', ';', '&', '<'] then (c, rest)
    else if c = '>' then if deref rest = '>' then ('+', rest.tail) else ('>', rest)
    else ('a', skipWord (c :: rest)) := rfl

theorem switches_symbol {c : Char} (hc : c ∈ ['|', '(', ')', ';', '&', '<']) (rest : Ptr) :
    Switches (c :: rest) (symbolTok c) (switch (c :: rest)) := by
  obtain ⟨hsymbol, hgt, hnul, hcode, hword⟩ := symbolTok_facts c hc
  have hswitch : switch (c :: rest) = (c, rest) := by
    rw [switch_cons, if_neg hnul, if_pos hc]
  rw [hswitch]
  constructor
  · exact tokens_symbol hsymbol fun heq => absurd heq hgt
  · exact hcode.symm
  · exact List.suffix_cons ..
  · exact Nat.lt_succ_self _
  · rw [hword, List.head?_cons, Option.filter_some_pos (by simpa using hsymbol)]
  · intro w hw
    rw [hw] at hword
    cases hword

theorem switches_gt (rest : Ptr) :
    ∃ t, Switches ('>' :: rest) t (switch ('>' :: rest)) := by
  by_cases hrest : deref rest = '>'
  · obtain ⟨rest, rfl⟩ : ∃ rest', rest = '>' :: rest' := by
      cases rest with
      | nil => exact absurd hrest (by decide)
      | cons c rest => exact ⟨rest, congrArg (· :: rest) hrest⟩
    refine ⟨.gtgt, tokens_gtgt rest, rfl, ?_, ?_, rfl, nofun⟩
    · exact (List.suffix_cons _ rest).trans (List.suffix_cons ..)
    · show rest.length < rest.length + 1 + 1
      omega
  · have hswitch : switch ('>' :: rest) = ('>', rest) := by
      rw [switch_cons, if_neg (by decide), if_neg (by decide), if_pos rfl, if_neg hrest]
    rw [hswitch]
    exact ⟨.gt, tokens_symbol (by decide) fun _ => hrest, rfl, List.suffix_cons ..,
      Nat.lt_succ_self _, rfl, nofun⟩

theorem switches_word {c : Char} (hc : IsWordChar c) (hnul : c ≠ Char.ofNat 0) (rest : Ptr) :
    ∃ t, Switches (c :: rest) t (switch (c :: rest)) := by
  let p : Char → Bool := fun c => c ∉ whitespace ∧ c ∉ symbols
  have hp : ∀ c, p c = true ↔ IsWordChar c := fun c => decide_eq_true_iff
  have hswitch : switch (c :: rest) = ('a', (c :: rest).dropWhile p) := by
    have hsymbol : c ∉ ['|', '(', ')', ';', '&', '<'] :=
      fun hmem => hc.2 ((symbolTok_facts c hmem).1)
    have hgt : c ≠ '>' := by
      rintro rfl
      exact hc.2 (by decide)
    rw [switch_cons, if_neg hnul, if_neg hsymbol, if_neg hgt]
    rfl
  have hsplit : (c :: rest).takeWhile p ++ (c :: rest).dropWhile p = c :: rest :=
    List.takeWhile_append_dropWhile
  have hne : (c :: rest).takeWhile p ≠ [] := by
    rw [List.takeWhile_cons_of_pos ((hp c).mpr hc)]
    exact nofun
  have hword : ∀ c' ∈ (c :: rest).takeWhile p, IsWordChar c' :=
    fun c' hmem => (hp c').mp (List.mem_takeWhile_imp hmem)
  have hstops : ∀ c' ∈ ((c :: rest).dropWhile p).head?, ¬ IsWordChar c' := by
    intro c' hmem hword
    have hhead := List.head?_dropWhile_not p (c :: rest)
    rw [Option.mem_def.mp hmem] at hhead
    exact absurd ((hp c').mpr hword) (by rw [hhead]; exact nofun)
  rw [hswitch]
  refine ⟨.word ((c :: rest).takeWhile p), ?_, rfl, List.dropWhile_suffix _, ?_, ?_, ?_⟩
  · have htokens := tokens_word hne hword hstops
    rw [hsplit] at htokens
    exact htokens
  · have hlen := congrArg List.length hsplit
    rw [List.length_append] at hlen
    have hpos := List.length_pos_iff.mpr hne
    show ((c :: rest).dropWhile p).length < _
    omega
  · rw [List.head?_cons, Option.filter_some_neg (by simpa using hc.2)]
    rfl
  · rintro w ⟨⟩
    exact ⟨hsplit.symm, List.suffix_rfl, hword, hstops⟩

/-- What `gettoken` reads from a line. -/
structure Reads (s : Ptr) (t : Tok) (tok : Token) : Prop where
  tokens : tokens s = t :: Shell.tokens tok.ps
  ret : tok.ret = t.code
  suffix : tok.ps <:+ s
  shorter : tok.ps.length < s.length
  symbol : t.symbol = (skip s).head?.filter (· ∈ symbols)
  word : ∀ w, t = .word w → IsWord s tok.q tok.eq w

theorem Switches.reads {s : Ptr} {t : Tok} (h : Switches (skip s) t (switch (skip s))) :
    Reads s t (gettoken s) := by
  have hskip := skip_suffix (switch (skip s)).2
  have hs := skip_suffix s
  constructor
  · rw [← tokens_skip s, h.tokens, ← tokens_skip (switch (skip s)).2]
    rfl
  · exact h.ret
  · exact hskip.trans (h.suffix.trans hs)
  · exact Nat.lt_of_lt_of_le (Nat.lt_of_le_of_lt hskip.length_le h.shorter) hs.length_le
  · exact h.symbol
  · intro w hw
    exact (h.word w hw).mono hs

theorem exists_reads {s : Ptr} (hs : Char.ofNat 0 ∉ s) (hne : skip s ≠ []) :
    ∃ t, Reads s t (gettoken s) := by
  obtain ⟨c, rest, hskip⟩ := List.exists_cons_of_ne_nil hne
  have hspace : c ∉ whitespace := head_skip (s := s) (by rw [hskip]; rfl)
  have hnul : c ≠ Char.ofNat 0 := by
    rintro rfl
    exact hs ((skip_suffix s).subset (by rw [hskip]; exact List.mem_cons_self))
  have hswitch : ∃ t, Switches (c :: rest) t (switch (c :: rest)) := by
    by_cases hsymbol : c ∈ ['|', '(', ')', ';', '&', '<']
    · exact ⟨_, switches_symbol hsymbol rest⟩
    by_cases hgt : c = '>'
    · rw [hgt]
      exact switches_gt rest
    · refine switches_word ⟨hspace, fun hmem => ?_⟩ hnul rest
      simp only [symbols, List.mem_cons, List.not_mem_nil, or_false] at hmem hsymbol
      grind
  obtain ⟨t, ht⟩ := hswitch
  rw [← hskip] at ht
  exact ⟨t, ht.reads⟩

/-- `gettoken` takes the first token. -/
theorem gettoken_reads {s : Ptr} (hs : Char.ofNat 0 ∉ s) {t : Tok} {ts : List Tok}
    (h : tokens s = t :: ts) : Reads s t (gettoken s) ∧ tokens (gettoken s).ps = ts := by
  have hne : skip s ≠ [] := by
    intro hskip
    rw [(gettoken_of_skip_nil hskip).1] at h
    cases h
  obtain ⟨t', ht'⟩ := exists_reads hs hne
  have heq := ht'.tokens
  rw [h] at heq
  obtain ⟨rfl, rfl⟩ := List.cons.inj heq
  exact ⟨ht', rfl⟩

/-- At the end of the line there is only whitespace. -/
theorem skip_of_tokens_nil {s : Ptr} (hs : Char.ofNat 0 ∉ s) (h : tokens s = []) :
    skip s = [] := by
  by_contra hne
  obtain ⟨t, ht⟩ := exists_reads hs hne
  rw [ht.tokens] at h
  cases h

/-- `peek` looks at the first token. -/
theorem peek_eq {s : Ptr} (hs : Char.ofNat 0 ∉ s) {toks : List Char} (htoks : toks ⊆ symbols) :
    (peek s toks).1 = (tokens s).head?.any fun t => t.symbol.any (· ∈ toks) := by
  cases hskip : skip s with
  | nil =>
    rw [(gettoken_of_skip_nil hskip).1, peek, hskip]
    rfl
  | cons c rest =>
    obtain ⟨t, ht⟩ := exists_reads hs (by rw [hskip]; exact nofun)
    rw [ht.tokens, List.head?_cons, Option.any_some, ht.symbol, hskip, List.head?_cons, peek,
      hskip]
    show decide (c ≠ Char.ofNat 0 ∧ c ∈ toks) = _
    by_cases hc : c ∈ symbols
    · have hnul : c ≠ Char.ofNat 0 := by
        rintro rfl
        exact absurd hc (by decide)
      rw [Option.filter_some_pos (by simpa using hc), Option.any_some]
      simp [hnul]
    · grind

end Xv6.Shell
