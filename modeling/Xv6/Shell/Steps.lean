/-
# What the parser does at a token

The loops of the parser, told by the first token that is left. From here on the
characters of the line play no role.
-/

import Mathlib.Data.List.DropRight
import Xv6.Shell.Grammar

namespace Xv6.Shell

open Xv6.Lib

/-- A pointer into a line without NULs. -/
structure At (line s : Ptr) : Prop where
  suffix : s <:+ line
  nul : Char.ofNat 0 ∉ line

namespace At

variable {line s : Ptr}

theorem not_mem (h : At line s) : Char.ofNat 0 ∉ s := fun hmem => h.nul (h.suffix.subset hmem)

theorem mono (h : At line s) {s' : Ptr} (hs' : s' <:+ s) : At line s' :=
  ⟨hs'.trans h.suffix, h.nul⟩

theorem skip (h : At line s) : At line (skip s) := h.mono (skip_suffix s)

end At

/-- The cursor has moved past one token. -/
structure Moves (s s' : Ptr) (ts : List Tok) : Prop where
  tokens : tokens s' = ts
  suffix : s' <:+ s
  shorter : s'.length < s.length

variable {line s : Ptr} {t : Tok} {ts : List Tok}

theorem gettoken_skip (s : Ptr) : gettoken (skip s) = gettoken s := by
  have hskip : skip (skip s) = skip s := List.dropWhile_idempotent _ s
  rw [gettoken, gettoken, hskip]

theorem At.gettoken (h : At line s) (hs : tokens s = t :: ts) :
    (gettoken s).ret = t.code ∧ Moves s (gettoken s).ps ts ∧
      ∀ w, t = .word w → IsWord line (gettoken s).q (gettoken s).eq w := by
  obtain ⟨hreads, hrest⟩ := gettoken_reads h.not_mem hs
  exact ⟨hreads.ret, ⟨hrest, hreads.suffix, hreads.shorter⟩,
    fun w hw => (hreads.word w hw).mono h.suffix⟩

theorem At.gettoken_nil (h : At line s) (hs : tokens s = []) :
    (Shell.gettoken s).ret = Char.ofNat 0 ∧ (Shell.gettoken s).ps = [] :=
  (gettoken_of_skip_nil (skip_of_tokens_nil h.not_mem hs)).2

theorem At.peek_cons (h : At line s) (hs : tokens s = t :: ts) {toks : List Char}
    (htoks : toks ⊆ symbols) : (peek s toks).1 = t.symbol.any (· ∈ toks) := by
  rw [peek_eq h.not_mem htoks, hs]
  rfl

theorem At.peek_nil (h : At line s) (hs : tokens s = []) {toks : List Char}
    (htoks : toks ⊆ symbols) : (peek s toks).1 = false := by
  rw [peek_eq h.not_mem htoks, hs]
  rfl

variable (fuel : ℕ) (cmd : Cmd)

theorem parseredirs_succ (fuel : ℕ) (cmd : Cmd) (s : Ptr) : parseredirs (fuel + 1) cmd s =
    if (peek s ['<', '>']).1 = true then
      if (gettoken (gettoken s).ps).ret ≠ 'a' then .error .missingFile
      else parseredirs fuel (cmd.addRedir (gettoken s) (gettoken (gettoken s).ps))
        (gettoken (gettoken s).ps).ps
    else .ok (cmd, skip s) := by
  rw [parseredirs, ← gettoken_skip s]
  rfl

theorem parseredirs_stop (h : At line s) (hstop : ∀ (d : Dir) ts, tokens s ≠ d.tok :: ts) :
    parseredirs (fuel + 1) cmd s = .ok (cmd, skip s) := by
  rw [parseredirs_succ, if_neg]
  cases hs : tokens s with
  | nil =>
    rw [h.peek_nil hs (by decide)]
    exact nofun
  | cons t ts =>
    rw [h.peek_cons hs (by decide)]
    cases t with
    | lt => exact absurd hs (hstop .lt ts)
    | gt => exact absurd hs (hstop .gt ts)
    | gtgt => exact absurd hs (hstop .gtgt ts)
    | word w => exact nofun
    | _ => decide

theorem At.peek_redir (h : At line s) {d : Dir} (hs : tokens s = d.tok :: ts) :
    (peek s ['<', '>']).1 = true := by
  rw [h.peek_cons hs (by decide)]
  cases d <;> decide

theorem parseredirs_more (h : At line s) {d : Dir} {w : List Char}
    (hs : tokens s = d.tok :: .word w :: ts) : ∃ file efile s',
    parseredirs (fuel + 1) cmd s = parseredirs fuel (.redir cmd file efile d.mode d.fd) s' ∧
    IsWord line file efile w ∧ Moves s s' ts := by
  obtain ⟨hret, hmoves, -⟩ := h.gettoken hs
  obtain ⟨hfile, hmoves', hword⟩ := (h.mono hmoves.suffix).gettoken hmoves.tokens
  refine ⟨_, _, (gettoken (gettoken s).ps).ps, ?_, hword w rfl, hmoves'.tokens,
    hmoves'.suffix.trans hmoves.suffix, hmoves'.shorter.trans hmoves.shorter⟩
  have hfile : (gettoken (gettoken s).ps).ret = 'a' := hfile
  rw [parseredirs_succ, if_pos (h.peek_redir hs), if_neg (not_not.mpr hfile), Cmd.addRedir, hret]
  cases d <;> rfl

theorem parseredirs_missing (h : At line s) {d : Dir} (hs : tokens s = d.tok :: ts)
    (hmissing : ∀ w ts', ts ≠ .word w :: ts') :
    parseredirs (fuel + 1) cmd s = .error .missingFile := by
  obtain ⟨-, hmoves, -⟩ := h.gettoken hs
  have hafter := h.mono hmoves.suffix
  rw [parseredirs_succ, if_pos (h.peek_redir hs), if_pos]
  cases hts : tokens (gettoken s).ps with
  | nil =>
    rw [(hafter.gettoken_nil hts).1]
    decide
  | cons t ts' =>
    rw [(hafter.gettoken hts).1]
    rw [hmoves.tokens] at hts
    cases t with
    | word w => exact absurd hts (hmissing w ts')
    | _ => decide

/-- The tokens that end a command. -/
def Tok.endsExec : Tok → Bool
  | .bar | .rparen | .amp | .semi => true
  | _ => false

theorem Tok.code_ne_nul (t : Tok) : t.code ≠ Char.ofNat 0 := by
  cases t with
  | word w =>
    show 'a' ≠ Char.ofNat 0
    decide
  | _ => decide

theorem Tok.endsExec_eq (t : Tok) : t.symbol.any (· ∈ ['|', ')', '&', ';']) = t.endsExec := by
  cases t with
  | word w => rfl
  | _ => decide

theorem At.peek_ends (h : At line s) (hs : tokens s = t :: ts) :
    (peek s ['|', ')', '&', ';']).1 = t.endsExec := by
  rw [h.peek_cons hs (by decide), t.endsExec_eq]

variable (argc : ℕ)

theorem parseargs_succ (fuel : ℕ) (ret : Cmd) (argc : ℕ) (s : Ptr) :
    parseargs (fuel + 1) ret argc s =
      if (peek s ['|', ')', '&', ';']).1 = true then .ok (ret, skip s)
      else if (gettoken s).ret = Char.ofNat 0 then .ok (ret, (gettoken s).ps)
      else if (gettoken s).ret ≠ 'a' then .error .notAWord
      else if argc + 1 ≥ MAXARGS then .error .tooManyArgs
      else parseredirs fuel (ret.addArg (gettoken s).q (gettoken s).eq) (gettoken s).ps >>=
        fun out => parseargs fuel out.1 (argc + 1) out.2 := by
  rw [parseargs, ← gettoken_skip s]
  rfl

/-- The arguments end where a command ends or at the end of the line. -/
theorem parseargs_stop (h : At line s) (hstop : ∀ t ts, tokens s = t :: ts → t.endsExec = true) :
    ∃ s', parseargs (fuel + 1) cmd argc s = .ok (cmd, s') ∧ tokens s' = tokens s ∧ s' <:+ s := by
  rw [parseargs_succ]
  cases hs : tokens s with
  | nil =>
    rw [if_neg (by rw [h.peek_nil hs (by decide)]; exact nofun), if_pos (h.gettoken_nil hs).1,
      (h.gettoken_nil hs).2]
    exact ⟨[], rfl, rfl, List.nil_suffix⟩
  | cons t ts =>
    rw [if_pos]
    · exact ⟨skip s, rfl, by rw [tokens_skip, hs], skip_suffix s⟩
    · rw [h.peek_ends hs]
      exact hstop t ts hs

theorem parseargs_word (h : At line s) {w : List Char} (hs : tokens s = .word w :: ts) :
    ∃ q eq s', IsWord line q eq w ∧ Moves s s' ts ∧ parseargs (fuel + 1) cmd argc s =
      if argc + 1 ≥ MAXARGS then .error .tooManyArgs
      else parseredirs fuel (cmd.addArg q eq) s' >>=
        fun out => parseargs fuel out.1 (argc + 1) out.2 := by
  obtain ⟨hret, hmoves, hword⟩ := h.gettoken hs
  refine ⟨_, _, _, hword w rfl, hmoves, ?_⟩
  have hret : (gettoken s).ret = 'a' := hret
  rw [parseargs_succ, if_neg (by rw [h.peek_ends hs]; exact nofun),
    if_neg (by rw [hret]; decide), if_neg (not_not.mpr hret)]

theorem parseargs_other (h : At line s) (hs : tokens s = t :: ts) (hends : t.endsExec = false)
    (hword : ∀ w, t ≠ .word w) : parseargs (fuel + 1) cmd argc s = .error .notAWord := by
  obtain ⟨hret, -, -⟩ := h.gettoken hs
  rw [parseargs_succ, if_neg (by rw [h.peek_ends hs, hends]; exact nofun),
    if_neg (by rw [hret]; exact t.code_ne_nul), if_pos]
  rw [hret]
  cases t with
  | word w => exact absurd rfl (hword w)
  | _ => decide

/-- `peek` for a symbol that is a token. -/
theorem At.peek_symbol (h : At line s) {c : Char} (hc : c ∈ ['|', '(', ')', ';', '&']) :
    (peek s [c]).1 = true ↔ (tokens s).head? = some (symbolTok c) := by
  have hfacts : ∀ c ∈ ['|', '(', ')', ';', '&'], [c] ⊆ symbols ∧
      (∀ t ∈ [Tok.bar, .lparen, .rparen, .semi, .amp, .lt, .gt, .gtgt],
        t.symbol.any (· ∈ [c]) = true ↔ t = symbolTok c) ∧ (symbolTok c).code ≠ 'a' :=
    List.all_iff_forall_prop.mp (by decide)
  obtain ⟨hsub, htok, hword⟩ := hfacts c hc
  cases hs : tokens s with
  | nil =>
    rw [h.peek_nil hs hsub]
    exact ⟨nofun, nofun⟩
  | cons t ts =>
    rw [h.peek_cons hs hsub, List.head?_cons, Option.some.injEq]
    cases t with
    | word w =>
      refine ⟨nofun, ?_⟩
      intro heq
      rw [← heq] at hword
      exact absurd rfl hword
    | _ => exact htok _ (by decide)

/-- After `peek` has found it, `gettoken` takes the symbol. -/
theorem At.take_symbol (h : At line s) {c : Char} (hc : c ∈ ['|', '(', ')', ';', '&'])
    (hs : tokens s = symbolTok c :: ts) :
    (peek s [c]).1 = true ∧ Moves s (Shell.gettoken (Shell.skip s)).ps ts := by
  rw [gettoken_skip]
  refine ⟨(h.peek_symbol hc).mpr (by rw [hs]; rfl), (h.gettoken hs).2.1⟩

theorem At.take_peeked (h : At line s) {c : Char} (hpeek : (peek s [c]).1 = true)
    (hc : c ∈ ['|', '(', ')', ';', '&']) :
    ∃ ts, tokens s = symbolTok c :: ts ∧ Moves s (Shell.gettoken (Shell.skip s)).ps ts := by
  obtain ⟨ts, hs⟩ := List.head?_eq_some_iff.mp ((h.peek_symbol hc).mp hpeek)
  exact ⟨ts, hs, (h.take_symbol hc hs).2⟩

theorem parseback_succ (fuel : ℕ) (cmd : Cmd) (s : Ptr) : parseback (fuel + 1) cmd s =
    if (peek s ['&']).1 = true then parseback fuel (.back cmd) (gettoken (skip s)).ps
    else .ok (cmd, skip s) := by
  rw [parseback]
  rfl

theorem parseline_succ (fuel : ℕ) (s : Ptr) : parseline (fuel + 1) s =
    (parsepipe fuel s >>= fun out => parseback fuel out.1 out.2) >>= fun out =>
      if (peek out.2 [';']).1 = true then
        parseline fuel (gettoken (skip out.2)).ps >>= fun right =>
          pure (.list out.1 right.1, right.2)
      else pure (out.1, skip out.2) := by
  rw [parseline]
  cases parsepipe fuel s with
  | error e => rfl
  | ok out => rfl

theorem parsepipe_succ (fuel : ℕ) (s : Ptr) : parsepipe (fuel + 1) s =
    parseexec fuel s >>= fun out =>
      if (peek out.2 ['|']).1 = true then
        parsepipe fuel (gettoken (skip out.2)).ps >>= fun right =>
          pure (.pipe out.1 right.1, right.2)
      else pure (out.1, skip out.2) := by
  rw [parsepipe]
  rfl

theorem parseexec_succ (fuel : ℕ) (s : Ptr) : parseexec (fuel + 1) s =
    if (peek s ['(']).1 = true then parseblock fuel (skip s)
    else parseredirs fuel (.exec []) (skip s) >>= fun out => parseargs fuel out.1 0 out.2 := by
  rw [parseexec]
  rfl

theorem parseblock_succ (fuel : ℕ) (s : Ptr) : parseblock (fuel + 1) s =
    if (!(peek s ['(']).1) = true then .error .parseblock
    else parseline fuel (gettoken (skip s)).ps >>= fun out =>
      if (!(peek out.2 [')']).1) = true then .error .missingParen
      else parseredirs fuel out.1 (gettoken (skip out.2)).ps := by
  rw [parseblock]
  rfl

end Xv6.Shell
