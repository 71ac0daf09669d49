/-
# The parser accepts the grammar

Soundness follows the recursion of the parser: what it returns has been derived, and
it does not run out of fuel. Completeness follows the derivation: a loop goes on as
long as the derivation does, because the token after a phrase is none that the
phrase could start again with.
-/

import Xv6.Shell.Steps

namespace Xv6.Shell

open Xv6.Lib

/-- The parser has moved over the tokens `ts`, and its command shows the tree `t`. -/
structure Parsed (line s : Ptr) (ts : List Tok) (t : Tree) (out : Cmd × Ptr) : Prop where
  tokens : tokens s = ts ++ Shell.tokens out.2
  suffix : out.2 <:+ s
  shows : Shows line out.1 t

variable {line s : Ptr} {ts rest : List Tok} {t : Tree} {cmd : Cmd} {fuel : ℕ}

/-- The panics. -/
def Panics (e : Stop) : Prop := e ≠ .fuel

/-- No outcome but a command. -/
def Never (_ : Stop) : Prop := False

theorem Parsed.rest_eq {out : Cmd × Ptr} (h : Parsed line s ts t out)
    (hs : Shell.tokens s = ts ++ rest) : Shell.tokens out.2 = rest :=
  List.append_cancel_left (h.tokens.symm.trans hs)

/-- The part after a token. -/
theorem Parsed.after {s' : Ptr} {t₀ : Tok} {out : Cmd × Ptr} (h : Parsed line s' ts t out)
    (hs : Shell.tokens s = t₀ :: Shell.tokens s') (hsuffix : s' <:+ s) :
    Parsed line s (t₀ :: ts) t out :=
  ⟨by rw [hs, h.tokens]; rfl, h.suffix.trans hsuffix, h.shows⟩

theorem redirs_sound (h : At line s) (hfuel : s.length < fuel) (hcmd : Shows line cmd t) :
    Ends Panics (parseredirs fuel cmd s) fun out =>
      ∃ ts l, Redirs ts l ∧ Parsed line s ts (t.wrap l) out := by
  induction fuel generalizing s cmd t with
  | zero => omega
  | succ fuel ih =>
    by_cases hmore : ∃ (d : Dir) (ts : List Tok), tokens s = d.tok :: ts
    · obtain ⟨d, ts, hs⟩ := hmore
      by_cases hword : ∃ w ts', ts = .word w :: ts'
      · obtain ⟨w, ts', rfl⟩ := hword
        obtain ⟨file, efile, s', heq, hfile, hmoves⟩ := parseredirs_more fuel cmd h hs
        rw [heq]
        have hshort := hmoves.shorter
        apply (ih (h.mono hmoves.suffix) (by omega) (.redir hcmd hfile)).mono
        rintro out ⟨ts, l, hredirs, hout⟩
        refine ⟨_, _, .cons d w hredirs, ?_, hout.suffix.trans hmoves.suffix, hout.shows⟩
        rw [hs, ← hmoves.tokens, hout.tokens]
        rfl
      · rw [parseredirs_missing fuel cmd h hs fun w ts' hts => hword ⟨w, ts', hts⟩]
        exact Ends.error nofun
    · rw [parseredirs_stop fuel cmd h fun d ts hs => hmore ⟨d, ts, hs⟩]
      exact Ends.ok ⟨[], [], .nil, by rw [tokens_skip]; rfl, skip_suffix s, hcmd⟩

theorem redirs_complete {l : List (Dir × List Char)} (hredirs : Redirs ts l) (h : At line s)
    (hfuel : s.length < fuel) (hcmd : Shows line cmd t) (hs : tokens s = ts ++ rest)
    (hrest : ∀ (d : Dir) ts', rest ≠ d.tok :: ts') :
    Ends Never (parseredirs fuel cmd s) (Parsed line s ts (t.wrap l)) := by
  obtain ⟨fuel, rfl⟩ : ∃ n, fuel = n + 1 := ⟨fuel - 1, by omega⟩
  induction hredirs generalizing s cmd t fuel with
  | nil =>
    rw [parseredirs_stop fuel cmd h fun d ts' hts => hrest d ts' (hs.symm.trans hts)]
    exact Ends.ok ⟨by rw [tokens_skip]; rfl, skip_suffix s, hcmd⟩
  | @cons ts l d w _ ih =>
    obtain ⟨file, efile, s', heq, hfile, hmoves⟩ := parseredirs_more fuel cmd h hs
    rw [heq]
    have hshort := hmoves.shorter
    obtain ⟨fuel, rfl⟩ : ∃ n, fuel = n + 1 := ⟨fuel - 1, by omega⟩
    apply (ih (h.mono hmoves.suffix) (.redir hcmd hfile) hmoves.tokens fuel (by omega)).mono
    intro out hout
    refine ⟨?_, hout.suffix.trans hmoves.suffix, hout.shows⟩
    rw [hs, hout.rest_eq hmoves.tokens]

theorem args_sound {ws : List (List Char)} {l : List (Dir × List Char)} (h : At line s)
    (hfuel : s.length < fuel) (hcmd : Shows line cmd ((Tree.exec ws).wrap l))
    (hws : ws.length < MAXARGS) :
    Ends Panics (parseargs fuel cmd ws.length s) fun out => ∃ ts ws' l', Args ts ws' l' ∧
      (ws ++ ws').length < MAXARGS ∧
      Parsed line s ts ((Tree.exec (ws ++ ws')).wrap (l ++ l')) out := by
  induction fuel generalizing s cmd ws l with
  | zero => omega
  | succ fuel ih =>
    by_cases hstop : ∀ t ts, tokens s = t :: ts → t.endsExec = true
    · obtain ⟨s', heq, hs', hsuffix⟩ := parseargs_stop fuel cmd ws.length h hstop
      rw [heq]
      refine Ends.ok ⟨[], [], [], .nil, by rwa [List.append_nil], by rw [hs']; rfl, hsuffix, ?_⟩
      rw [List.append_nil, List.append_nil]
      exact hcmd
    · simp only [not_forall] at hstop
      obtain ⟨t, ts, hs, hends⟩ := hstop
      by_cases hword : ∃ w, t = .word w
      · obtain ⟨w, rfl⟩ := hword
        obtain ⟨q, eq, s', hisWord, hmoves, heq⟩ := parseargs_word fuel cmd ws.length h hs
        rw [heq]
        apply Ends.ite (fun _ => Ends.error nofun)
        intro hfew
        have hshort := hmoves.shorter
        have hshorter : s'.length < fuel := by omega
        apply (redirs_sound (h.mono hmoves.suffix) hshorter (hcmd.addArg hisWord)).bind
        rintro out ⟨ts₁, l₁, hredirs, hout⟩
        rw [← Tree.wrap_append] at hout
        have hlen : (ws ++ [w]).length = ws.length + 1 := by simp
        have hrest := ih ((h.mono hmoves.suffix).mono hout.suffix)
          (by have := hout.suffix.length_le; omega) hout.shows (by omega)
        rw [hlen] at hrest
        apply hrest.mono
        rintro out' ⟨ts₂, ws₂, l₂, hargs, hmax, hout'⟩
        rw [List.append_assoc] at hmax hout'
        rw [List.append_assoc] at hout'
        refine ⟨_, _, _, .cons w hredirs hargs, hmax, ?_,
          hout'.suffix.trans (hout.suffix.trans hmoves.suffix), hout'.shows⟩
        rw [hs, ← hmoves.tokens, hout.tokens, hout'.tokens, List.cons_append, List.append_assoc]
      · rw [parseargs_other fuel cmd ws.length h hs (by simpa using hends)
          fun w hw => hword ⟨w, hw⟩]
        exact Ends.error nofun

/-- Arguments start with a word. -/
theorem Args.head {ws : List (List Char)} {l : List (Dir × List Char)} (h : Args ts ws l) :
    ts = [] ∨ ∃ w ts', ts = .word w :: ts' := by
  cases h with
  | nil => exact .inl rfl
  | cons w => exact .inr ⟨w, _, rfl⟩

/-- What comes after arguments and the end of a command is no redirection. -/
theorem Args.no_redir {ws : List (List Char)} {l : List (Dir × List Char)} (h : Args ts ws l)
    (hrest : ∀ t ts', rest = t :: ts' → t.endsExec = true) (d : Dir) (ts' : List Tok) :
    ts ++ rest ≠ d.tok :: ts' := by
  intro heq
  rcases h.head with rfl | ⟨w, ts'', rfl⟩
  · have hends := hrest _ _ heq
    cases d <;> cases hends
  · have hword : Tok.word w = d.tok := (List.cons.inj heq).1
    cases d <;> cases hword

theorem args_complete {ws ws' : List (List Char)} {l l' : List (Dir × List Char)}
    (hargs : Args ts ws' l') (h : At line s) (hfuel : s.length < fuel)
    (hcmd : Shows line cmd ((Tree.exec ws).wrap l)) (hws : (ws ++ ws').length < MAXARGS)
    (hs : tokens s = ts ++ rest) (hrest : ∀ t ts', rest = t :: ts' → t.endsExec = true) :
    Ends Never (parseargs fuel cmd ws.length s)
      (Parsed line s ts ((Tree.exec (ws ++ ws')).wrap (l ++ l'))) := by
  obtain ⟨fuel, rfl⟩ : ∃ n, fuel = n + 1 := ⟨fuel - 1, by omega⟩
  induction hargs generalizing s cmd ws l fuel with
  | nil =>
    obtain ⟨s', heq, hs', hsuffix⟩ := parseargs_stop fuel cmd ws.length h
      fun t ts' ht => hrest t ts' (hs.symm.trans ht)
    rw [heq, List.append_nil, List.append_nil]
    exact Ends.ok ⟨by rw [hs']; rfl, hsuffix, hcmd⟩
  | @cons ts₁ ts₂ ws₂ l₁ l₂ w hredirs hargs ih =>
    rw [List.cons_append, List.append_assoc] at hs
    obtain ⟨q, eq, s', hisWord, hmoves, heq⟩ := parseargs_word fuel cmd ws.length h hs
    have hlen : (ws ++ w :: ws₂).length = ws.length + 1 + ws₂.length := by simp; omega
    rw [heq, if_neg (by omega)]
    have hshort := hmoves.shorter
    have hs₁ := hmoves.tokens
    obtain ⟨fuel, rfl⟩ : ∃ n, fuel = n + 1 := ⟨fuel - 1, by omega⟩
    have hshorter : s'.length < fuel + 1 := by omega
    apply (redirs_complete hredirs (h.mono hmoves.suffix) hshorter (hcmd.addArg hisWord) hs₁
      (hargs.no_redir hrest)).bind
    intro out hout
    have hs₂ := hout.rest_eq hs₁
    rw [← Tree.wrap_append] at hout
    have hle := hout.suffix.length_le
    have hnext := ih ((h.mono hmoves.suffix).mono hout.suffix) hout.shows
      (by rw [List.append_assoc]; exact hws) hs₂ fuel (by omega)
    rw [List.append_assoc, List.append_assoc, List.length_append] at hnext
    apply hnext.mono
    intro out' hout'
    refine ⟨?_, hout'.suffix.trans (hout.suffix.trans hmoves.suffix), hout'.shows⟩
    rw [hs, hout'.rest_eq hs₂, List.cons_append, List.append_assoc]

theorem back_iterate (k : ℕ) (t : Tree) : Tree.back^[k] (.back t) = Tree.back^[k + 1] t := rfl

theorem back_sound (h : At line s) (hfuel : s.length < fuel) (hcmd : Shows line cmd t) :
    Ends Panics (parseback fuel cmd s) fun out =>
      ∃ k, Parsed line s (List.replicate k .amp) (Tree.back^[k] t) out := by
  induction fuel generalizing s cmd t with
  | zero => omega
  | succ fuel ih =>
    rw [parseback_succ]
    apply Ends.ite
    · intro hpeek
      obtain ⟨ts, hs, hmoves⟩ := h.take_peeked hpeek (by decide)
      have hshort := hmoves.shorter
      apply (ih (h.mono hmoves.suffix) (by omega) (.back hcmd)).mono
      rintro out ⟨k, hout⟩
      refine ⟨k + 1, ?_⟩
      rw [List.replicate_succ, ← back_iterate]
      rw [← hmoves.tokens] at hs
      exact hout.after hs hmoves.suffix
    · intro _
      exact ⟨0, by rw [tokens_skip]; rfl, skip_suffix s, hcmd⟩

theorem back_complete (k : ℕ) (h : At line s) (hfuel : s.length < fuel)
    (hcmd : Shows line cmd t) (hs : tokens s = List.replicate k .amp ++ rest)
    (hrest : rest.head? ≠ some .amp) :
    Ends Never (parseback fuel cmd s)
      (Parsed line s (List.replicate k .amp) (Tree.back^[k] t)) := by
  obtain ⟨fuel, rfl⟩ : ∃ n, fuel = n + 1 := ⟨fuel - 1, by omega⟩
  induction k generalizing s cmd t fuel with
  | zero =>
    have hs : tokens s = rest := hs
    rw [parseback_succ, if_neg]
    · exact Ends.ok ⟨by rw [tokens_skip]; rfl, skip_suffix s, hcmd⟩
    · rw [h.peek_symbol (by decide), hs]
      exact hrest
  | succ k ih =>
    rw [List.replicate_succ, List.cons_append] at hs
    obtain ⟨hpeek, hmoves⟩ := h.take_symbol (by decide : '&' ∈ _) hs
    rw [parseback_succ, if_pos hpeek]
    have hshort := hmoves.shorter
    obtain ⟨fuel, rfl⟩ : ∃ n, fuel = n + 1 := ⟨fuel - 1, by omega⟩
    apply (ih (h.mono hmoves.suffix) (.back hcmd) hmoves.tokens fuel (by omega)).mono
    intro out hout
    rw [List.replicate_succ, ← back_iterate]
    rw [← hmoves.tokens] at hs
    exact hout.after hs hmoves.suffix

/-- What is returned has been derived. -/
def Sound (line s : Ptr) (k : Nonterminal) (out : Cmd × Ptr) : Prop :=
  ∃ ts t, Derives k ts t ∧ Parsed line s ts t out

/-- What the parsing functions return with this much fuel has been derived. -/
structure SoundAt (line : Ptr) (fuel : ℕ) : Prop where
  onLine : ∀ s, At line s → 4 * s.length + 4 ≤ fuel →
    Ends Panics (parseline fuel s) (Sound line s .line)
  onPipe : ∀ s, At line s → 4 * s.length + 3 ≤ fuel →
    Ends Panics (parsepipe fuel s) (Sound line s .pipe)
  onExec : ∀ s, At line s → 4 * s.length + 2 ≤ fuel →
    Ends Panics (parseexec fuel s) (Sound line s .exec)
  onBlock : ∀ s, At line s → 4 * s.length + 1 ≤ fuel →
    Ends Panics (parseblock fuel s) (Sound line s .exec)

/-- A pipe and the `&`s after it. -/
theorem SoundAt.pipe_back (ih : SoundAt line fuel) (h : At line s)
    (hfuel : 4 * s.length + 3 ≤ fuel) :
    Ends Panics (parsepipe fuel s >>= fun out => parseback fuel out.1 out.2) fun out =>
      ∃ ts t k, Derives .pipe ts t ∧
        Parsed line s (ts ++ List.replicate k .amp) (Tree.back^[k] t) out := by
  apply (ih.onPipe s h hfuel).bind
  rintro out ⟨ts, t, hpipe, hout⟩
  have hle := hout.suffix.length_le
  have hback : out.2.length < fuel := by omega
  apply (back_sound (h.mono hout.suffix) hback hout.shows).mono
  rintro out' ⟨k, hout'⟩
  refine ⟨ts, t, k, hpipe, ?_, hout'.suffix.trans hout.suffix, hout'.shows⟩
  rw [hout.tokens, hout'.tokens, List.append_assoc]

theorem SoundAt.parseline (ih : SoundAt line fuel) (h : At line s)
    (hfuel : 4 * s.length + 4 ≤ fuel + 1) :
    Ends Panics (parseline (fuel + 1) s) (Sound line s .line) := by
  rw [parseline_succ]
  apply (ih.pipe_back h (by omega)).bind
  rintro out ⟨ts, t, k, hpipe, hout⟩
  have h' := h.mono hout.suffix
  have hle := hout.suffix.length_le
  apply Ends.ite
  · intro hpeek
    obtain ⟨rest, hs, hmoves⟩ := h'.take_peeked hpeek (by decide)
    have hshort := hmoves.shorter
    apply (ih.onLine _ (h'.mono hmoves.suffix) (by omega)).bind
    rintro right ⟨ts', t', hline, hright⟩
    refine Ends.pure ⟨_, _, .list k hpipe hline, ?_, ?_, .list hout.shows hright.shows⟩
    · rw [hout.tokens, hs, ← hmoves.tokens, hright.tokens]
      exact (List.append_assoc _ (.semi :: ts') _).symm
    · exact hright.suffix.trans (hmoves.suffix.trans hout.suffix)
  · intro _
    refine Ends.pure ⟨_, _, .line k hpipe, ?_, (skip_suffix _).trans hout.suffix, hout.shows⟩
    rw [hout.tokens, tokens_skip]

theorem SoundAt.parsepipe (ih : SoundAt line fuel) (h : At line s)
    (hfuel : 4 * s.length + 3 ≤ fuel + 1) :
    Ends Panics (parsepipe (fuel + 1) s) (Sound line s .pipe) := by
  rw [parsepipe_succ]
  apply (ih.onExec s h (by omega)).bind
  rintro out ⟨ts, t, hexec, hout⟩
  have h' := h.mono hout.suffix
  have hle := hout.suffix.length_le
  apply Ends.ite
  · intro hpeek
    obtain ⟨rest, hs, hmoves⟩ := h'.take_peeked hpeek (by decide)
    have hshort := hmoves.shorter
    apply (ih.onPipe _ (h'.mono hmoves.suffix) (by omega)).bind
    rintro right ⟨ts', t', hpipe, hright⟩
    refine Ends.pure ⟨_, _, .pipe hexec hpipe, ?_, ?_, .pipe hout.shows hright.shows⟩
    · rw [hout.tokens, hs, ← hmoves.tokens, hright.tokens]
      exact (List.append_assoc _ (.bar :: ts') _).symm
    · exact hright.suffix.trans (hmoves.suffix.trans hout.suffix)
  · intro _
    refine Ends.pure ⟨_, _, .single hexec, ?_, (skip_suffix _).trans hout.suffix, hout.shows⟩
    rw [hout.tokens, tokens_skip]

/-- A function that first skips whitespace. -/
theorem Sound.of_skip {k : Nonterminal} {out : Cmd × Ptr} (h : Sound line (skip s) k out) :
    Sound line s k out := by
  obtain ⟨ts, t, hderives, hout⟩ := h
  exact ⟨ts, t, hderives, by rw [← tokens_skip, hout.tokens], hout.suffix.trans (skip_suffix s),
    hout.shows⟩

theorem SoundAt.parseexec (ih : SoundAt line fuel) (h : At line s)
    (hfuel : 4 * s.length + 2 ≤ fuel + 1) :
    Ends Panics (parseexec (fuel + 1) s) (Sound line s .exec) := by
  have hle := (skip_suffix s).length_le
  rw [parseexec_succ]
  apply Ends.ite
  · intro _
    exact (ih.onBlock _ h.skip (by omega)).mono fun _ => Sound.of_skip
  · intro _
    have hfuel' : (skip s).length < fuel := by omega
    apply (redirs_sound h.skip hfuel' (.exec .nil)).bind
    rintro out ⟨ts, l, hredirs, hout⟩
    have hle' := hout.suffix.length_le
    have hfuel'' : out.2.length < fuel := by omega
    have hargs := args_sound (h.skip.mono hout.suffix) hfuel'' hout.shows (by decide)
    apply hargs.mono
    rintro out' ⟨ts', ws, l', hargs, hfew, hout'⟩
    apply Sound.of_skip
    exact ⟨_, _, .exec hredirs hargs hfew,
      by rw [hout.tokens, hout'.tokens, List.append_assoc], hout'.suffix.trans hout.suffix,
      hout'.shows⟩

theorem SoundAt.parseblock (ih : SoundAt line fuel) (h : At line s)
    (hfuel : 4 * s.length + 1 ≤ fuel + 1) :
    Ends Panics (parseblock (fuel + 1) s) (Sound line s .exec) := by
  rw [parseblock_succ]
  apply Ends.ite (fun _ => Ends.error nofun)
  intro hpeek
  have hpeek : (peek s ['(']).1 = true := by simpa using hpeek
  obtain ⟨rest, hs, hmoves⟩ := h.take_peeked hpeek (by decide)
  have hshort := hmoves.shorter
  apply (ih.onLine _ (h.mono hmoves.suffix) (by omega)).bind
  rintro out ⟨ts, t, hline, hout⟩
  have h' := (h.mono hmoves.suffix).mono hout.suffix
  have hle := hout.suffix.length_le
  apply Ends.ite (fun _ => Ends.error nofun)
  intro hclose
  have hclose : (peek out.2 [')']).1 = true := by simpa using hclose
  obtain ⟨rest', hs', hmoves'⟩ := h'.take_peeked hclose (by decide)
  have hshort' := hmoves'.shorter
  have hfuel' : (gettoken (skip out.2)).ps.length < fuel := by omega
  apply (redirs_sound (h'.mono hmoves'.suffix) hfuel' hout.shows).mono
  rintro out' ⟨ts', l, hredirs, hout'⟩
  refine ⟨_, _, .block hline hredirs, ?_, ?_, hout'.shows⟩
  · rw [hs, ← hmoves.tokens, hout.tokens, hs', ← hmoves'.tokens, hout'.tokens, List.cons_append,
      List.append_assoc]
    rfl
  · exact hout'.suffix.trans (hmoves'.suffix.trans (hout.suffix.trans hmoves.suffix))

theorem soundAt (line : Ptr) (fuel : ℕ) : SoundAt line fuel := by
  induction fuel with
  | zero => exact ⟨fun _ _ h => by omega, fun _ _ h => by omega, fun _ _ h => by omega,
      fun _ _ h => by omega⟩
  | succ fuel ih => exact ⟨fun _ => ih.parseline, fun _ => ih.parsepipe, fun _ => ih.parseexec,
      fun _ => ih.parseblock⟩

/-! ## Completeness -/

/-- The tokens that may follow a phrase. -/
def Follows : Nonterminal → Tok → Bool
  | .line, t => t = .rparen
  | .pipe, t => t = .rparen ∨ t = .amp ∨ t = .semi
  | .exec, t => t.endsExec

/-- The function that parses a phrase. -/
def parse : Nonterminal → ℕ → Ptr → Except Stop (Cmd × Ptr)
  | .line => parseline
  | .pipe => parsepipe
  | .exec => parseexec

/-- The fuel it needs at the end of the line. -/
def need : Nonterminal → ℕ
  | .line => 4
  | .pipe => 3
  | .exec => 2

/-- The phrase is found in front of whatever may follow it. -/
def Complete (line : Ptr) (k : Nonterminal) (ts : List Tok) (t : Tree) : Prop :=
  ∀ fuel s rest, At line s → 4 * s.length + need k ≤ fuel → tokens s = ts ++ rest →
    (∀ t' ts', rest = t' :: ts' → Follows k t' = true) →
    Ends Never (parse k fuel s) (Parsed line s ts t)

variable {ts' : List Tok} {t' : Tree} {l l' : List (Dir × List Char)}

/-- A pipe and the `&`s after it. -/
theorem complete_pipe_back (k : ℕ) (hpipe : Complete line .pipe ts t) (h : At line s)
    (hfuel : 4 * s.length + 3 ≤ fuel) (hs : tokens s = ts ++ (List.replicate k .amp ++ rest))
    (hrest : ∀ t' ts', rest = t' :: ts' → t' = .rparen ∨ t' = .semi) :
    Ends Never (parsepipe fuel s >>= fun out => parseback fuel out.1 out.2)
      (Parsed line s (ts ++ List.replicate k .amp) (Tree.back^[k] t)) := by
  have hfollow : ∀ t' ts', List.replicate k .amp ++ rest = t' :: ts' →
      Follows .pipe t' = true := by
    intro t' ts' heq
    cases k with
    | zero => rcases hrest t' ts' heq with rfl | rfl <;> rfl
    | succ k =>
      rw [List.replicate_succ, List.cons_append] at heq
      rw [← (List.cons.inj heq).1]
      rfl
  have hamp : rest.head? ≠ some .amp := by
    intro heq
    obtain ⟨ts', rfl⟩ := List.head?_eq_some_iff.mp heq
    rcases hrest _ _ rfl with heq | heq <;> cases heq
  apply (hpipe fuel s _ h hfuel hs hfollow).bind
  intro out hout
  have hle := hout.suffix.length_le
  have hback : out.2.length < fuel := by omega
  apply (back_complete k (h.mono hout.suffix) hback hout.shows (hout.rest_eq hs) hamp).mono
  intro out' hout'
  refine ⟨?_, hout'.suffix.trans hout.suffix, hout'.shows⟩
  rw [hout.tokens, hout'.tokens, List.append_assoc]

theorem complete_line (k : ℕ) (hpipe : Complete line .pipe ts t) :
    Complete line .line (ts ++ List.replicate k .amp) (Tree.back^[k] t) := by
  intro fuel s rest h hfuel hs hrest
  obtain ⟨fuel, rfl⟩ : ∃ n, fuel = n + 1 := ⟨fuel - 1, by rw [need] at hfuel; omega⟩
  show Ends Never (parseline (fuel + 1) s) _
  rw [need] at hfuel
  rw [List.append_assoc] at hs
  rw [parseline_succ]
  apply (complete_pipe_back k hpipe h (by omega) hs
    fun t' ts' heq => .inl (of_decide_eq_true (hrest t' ts' heq))).bind
  intro out hout
  rw [← List.append_assoc] at hs
  rw [if_neg]
  · exact Ends.pure ⟨by rw [hout.tokens, tokens_skip], (skip_suffix _).trans hout.suffix,
      hout.shows⟩
  · rw [(h.mono hout.suffix).peek_symbol (by decide), hout.rest_eq hs]
    intro heq
    obtain ⟨ts', rfl⟩ := List.head?_eq_some_iff.mp heq
    exact absurd (of_decide_eq_true (hrest _ _ rfl)) (by decide)

theorem complete_list (k : ℕ) (hpipe : Complete line .pipe ts t)
    (hline : Complete line .line ts' t') :
    Complete line .line (ts ++ List.replicate k .amp ++ .semi :: ts')
      (.list (Tree.back^[k] t) t') := by
  intro fuel s rest h hfuel hs hrest
  obtain ⟨fuel, rfl⟩ : ∃ n, fuel = n + 1 := ⟨fuel - 1, by rw [need] at hfuel; omega⟩
  show Ends Never (parseline (fuel + 1) s) _
  rw [need] at hfuel
  rw [List.append_assoc, List.cons_append, List.append_assoc] at hs
  rw [parseline_succ]
  apply (complete_pipe_back k hpipe h (by omega) hs
    fun t' ts' heq => .inr (List.cons.inj heq).1.symm).bind
  intro out hout
  rw [← List.append_assoc] at hs
  have h' := h.mono hout.suffix
  have hle := hout.suffix.length_le
  obtain ⟨hpeek, hmoves⟩ := h'.take_symbol (by decide : ';' ∈ _) (hout.rest_eq hs)
  have hshort := hmoves.shorter
  rw [if_pos hpeek]
  apply (hline fuel _ rest (h'.mono hmoves.suffix) (by rw [need]; omega) hmoves.tokens hrest).bind
  intro right hright
  refine Ends.pure ⟨?_, hright.suffix.trans (hmoves.suffix.trans hout.suffix),
    .list hout.shows hright.shows⟩
  rw [hs, hright.rest_eq hmoves.tokens]
  exact (List.append_assoc _ (.semi :: ts') _).symm

theorem complete_single (hexec : Complete line .exec ts t) : Complete line .pipe ts t := by
  intro fuel s rest h hfuel hs hrest
  obtain ⟨fuel, rfl⟩ : ∃ n, fuel = n + 1 := ⟨fuel - 1, by rw [need] at hfuel; omega⟩
  show Ends Never (parsepipe (fuel + 1) s) _
  rw [need] at hfuel
  rw [parsepipe_succ]
  have hfollow : ∀ t' ts', rest = t' :: ts' → Follows .exec t' = true := by
    intro t' ts' heq
    rcases of_decide_eq_true (hrest t' ts' heq) with rfl | rfl | rfl <;> rfl
  apply (hexec fuel s rest h (by rw [need]; omega) hs hfollow).bind
  intro out hout
  rw [if_neg]
  · exact Ends.pure ⟨by rw [hout.tokens, tokens_skip], (skip_suffix _).trans hout.suffix,
      hout.shows⟩
  · rw [(h.mono hout.suffix).peek_symbol (by decide), hout.rest_eq hs]
    intro heq
    obtain ⟨ts', rfl⟩ := List.head?_eq_some_iff.mp heq
    exact absurd (of_decide_eq_true (hrest _ _ rfl)) (by decide)

theorem complete_pipe (hexec : Complete line .exec ts t) (hpipe : Complete line .pipe ts' t') :
    Complete line .pipe (ts ++ .bar :: ts') (.pipe t t') := by
  intro fuel s rest h hfuel hs hrest
  obtain ⟨fuel, rfl⟩ : ∃ n, fuel = n + 1 := ⟨fuel - 1, by rw [need] at hfuel; omega⟩
  show Ends Never (parsepipe (fuel + 1) s) _
  rw [need] at hfuel
  rw [List.append_assoc] at hs
  rw [parsepipe_succ]
  apply (hexec fuel s _ h (by rw [need]; omega) hs
    fun t' ts' heq => by rw [← (List.cons.inj heq).1]; rfl).bind
  intro out hout
  have h' := h.mono hout.suffix
  have hle := hout.suffix.length_le
  obtain ⟨hpeek, hmoves⟩ := h'.take_symbol (by decide : '|' ∈ _) (hout.rest_eq hs)
  have hshort := hmoves.shorter
  rw [if_pos hpeek]
  apply (hpipe fuel _ rest (h'.mono hmoves.suffix) (by rw [need]; omega) hmoves.tokens hrest).bind
  intro right hright
  refine Ends.pure ⟨?_, hright.suffix.trans (hmoves.suffix.trans hout.suffix),
    .pipe hout.shows hright.shows⟩
  rw [hs, hright.rest_eq hmoves.tokens]
  exact (List.append_assoc _ (.bar :: ts') _).symm

/-- No redirection comes after a command. -/
theorem not_redir_of_ends (hrest : ∀ t ts', rest = t :: ts' → Follows .exec t = true)
    (d : Dir) (ts' : List Tok) : rest ≠ d.tok :: ts' := by
  intro heq
  have hends := hrest _ _ heq
  cases d <;> cases hends

theorem complete_block (hline : Complete line .line ts t) (hredirs : Redirs ts' l) :
    Complete line .exec (.lparen :: (ts ++ .rparen :: ts')) (t.wrap l) := by
  intro fuel s rest h hfuel hs hrest
  obtain ⟨fuel, rfl⟩ : ∃ n, fuel = n + 2 := ⟨fuel - 2, by rw [need] at hfuel; omega⟩
  show Ends Never (parseexec (fuel + 2) s) _
  rw [need] at hfuel
  rw [List.cons_append, List.append_assoc, List.cons_append] at hs
  have hskip : tokens (skip s) = _ := (tokens_skip s).trans hs
  have hle := (skip_suffix s).length_le
  obtain ⟨hpeek, -⟩ := h.take_symbol (by decide : '(' ∈ _) hs
  obtain ⟨hpeek', hmoves⟩ := h.skip.take_symbol (by decide : '(' ∈ _) hskip
  have hshort := hmoves.shorter
  rw [parseexec_succ, if_pos hpeek, parseblock_succ, hpeek']
  show Ends Never (parseline fuel _ >>= _) _
  have h₁ := h.skip.mono hmoves.suffix
  apply (hline fuel _ _ h₁ (by rw [need]; omega) hmoves.tokens
    fun t' ts' heq => by rw [← (List.cons.inj heq).1]; rfl).bind
  intro out hout
  have h₂ := h₁.mono hout.suffix
  have hle' := hout.suffix.length_le
  obtain ⟨hclose, hmoves'⟩ := h₂.take_symbol (by decide : ')' ∈ _) (hout.rest_eq hmoves.tokens)
  have hshort' := hmoves'.shorter
  have hfuel' : (gettoken (skip out.2)).ps.length < fuel := by omega
  rw [hclose]
  show Ends Never (parseredirs fuel out.1 _) _
  apply (redirs_complete hredirs (h₂.mono hmoves'.suffix) hfuel' hout.shows hmoves'.tokens
    (not_redir_of_ends hrest)).mono
  intro out' hout'
  refine ⟨?_, ?_, hout'.shows⟩
  · rw [hs, hout'.rest_eq hmoves'.tokens, List.cons_append, List.append_assoc]
    rfl
  · exact hout'.suffix.trans (hmoves'.suffix.trans (hout.suffix.trans
      (hmoves.suffix.trans (skip_suffix s))))

/-- A command without a block does not start with a parenthesis. -/
theorem not_block {ws : List (List Char)} (hredirs : Redirs ts l) (hargs : Args ts' ws l')
    (hrest : ∀ t ts', rest = t :: ts' → Follows .exec t = true) :
    (ts ++ (ts' ++ rest)).head? ≠ some .lparen := by
  cases hredirs with
  | nil =>
    rcases hargs.head with rfl | ⟨w, ts'', rfl⟩
    · intro heq
      obtain ⟨ts', hts'⟩ := List.head?_eq_some_iff.mp heq
      exact absurd (hrest _ _ hts') (by decide)
    · exact nofun
  | cons d w => cases d <;> exact nofun

theorem complete_exec {ws : List (List Char)} (hredirs : Redirs ts l) (hargs : Args ts' ws l')
    (hfew : ws.length < MAXARGS) :
    Complete line .exec (ts ++ ts') ((Tree.exec ws).wrap (l ++ l')) := by
  intro fuel s rest h hfuel hs hrest
  obtain ⟨fuel, rfl⟩ : ∃ n, fuel = n + 1 := ⟨fuel - 1, by rw [need] at hfuel; omega⟩
  show Ends Never (parseexec (fuel + 1) s) _
  rw [need] at hfuel
  rw [List.append_assoc] at hs
  have hle := (skip_suffix s).length_le
  have hfuel' : (skip s).length < fuel := by omega
  have hpeek : ¬ (peek s ['(']).1 = true := by
    rw [h.peek_symbol (by decide), hs]
    exact not_block hredirs hargs hrest
  rw [parseexec_succ, if_neg hpeek]
  have hskip := (tokens_skip s).trans hs
  apply (redirs_complete hredirs h.skip hfuel' (.exec .nil) hskip (hargs.no_redir hrest)).bind
  intro out hout
  have hle' := hout.suffix.length_le
  have hfuel'' : out.2.length < fuel := by omega
  have hs' := hout.rest_eq hskip
  apply (args_complete hargs (h.skip.mono hout.suffix) hfuel'' hout.shows hfew hs' hrest).mono
  intro out' hout'
  refine ⟨?_, hout'.suffix.trans (hout.suffix.trans (skip_suffix s)), hout'.shows⟩
  rw [hs, hout'.rest_eq hs', List.append_assoc]

theorem complete_of_derives {k : Nonterminal} (h : Derives k ts t) : Complete line k ts t := by
  induction h with
  | line k _ ih => exact complete_line k ih
  | list k _ _ ih ih' => exact complete_list k ih ih'
  | single _ ih => exact complete_single ih
  | pipe _ _ ih ih' => exact complete_pipe ih ih'
  | block _ redirs ih => exact complete_block ih redirs
  | exec redirs args few => exact complete_exec redirs args few

theorem parsecmd_eq (fuel : ℕ) (s : Ptr) : parsecmd fuel s = parseline fuel s >>= fun out =>
    if skip out.2 ≠ [] then .error .leftovers else pure (out.1, nulterminate out.1) := rfl

theorem Shows.tree_nulterminate (h : Shows line cmd t) : cmd.tree (nulterminate cmd) = t :=
  h.tree_eq h.between fun _ => id

theorem parsecmd_sound (h : Char.ofNat 0 ∉ line) (hfuel : 4 * line.length + 4 ≤ fuel) :
    Ends Panics (parsecmd fuel line) fun out =>
      Derives .line (tokens line) (out.1.tree out.2) := by
  have hat : At line line := ⟨List.suffix_rfl, h⟩
  rw [parsecmd_eq]
  apply ((soundAt line fuel).onLine line hat hfuel).bind
  rintro out ⟨ts, t, hline, hout⟩
  apply Ends.ite (fun _ => Ends.error nofun)
  intro hend
  have htokens := hout.tokens
  rw [← tokens_skip out.2, not_not.mp hend] at htokens
  rw [htokens]
  apply Ends.pure
  rw [hout.shows.tree_nulterminate]
  exact (List.append_nil ts).symm ▸ hline

theorem parsecmd_complete (h : Char.ofNat 0 ∉ line) (hfuel : 4 * line.length + 4 ≤ fuel)
    (hline : Derives .line (tokens line) t) :
    Ends Never (parsecmd fuel line) fun out => out.1.tree out.2 = t := by
  have hat : At line line := ⟨List.suffix_rfl, h⟩
  have hs : tokens line = tokens line ++ [] := (List.append_nil _).symm
  rw [parsecmd_eq]
  apply (complete_of_derives hline fuel line [] hat hfuel hs nofun).bind
  intro out hout
  have hend : skip out.2 = [] :=
    skip_of_tokens_nil (hat.mono hout.suffix).not_mem (hout.rest_eq hs)
  rw [if_neg (not_not.mpr hend)]
  exact Ends.pure hout.shows.tree_nulterminate

/-- For a line without NULs `parsecmd` terminates: it does not run out of fuel, however much more
it gets than it needs. It succeeds if and only if the tokens of the line can be derived, and then
the tree it returns is the tree of the only derivation. -/
theorem parsecmd_accepts_grammar (line : Ptr) (h : Char.ofNat 0 ∉ line) (fuel : ℕ)
    (hfuel : 4 * line.length + 4 ≤ fuel) :
    parsecmd fuel line ≠ .error .fuel ∧
    ((∃ out, parsecmd fuel line = .ok out) ↔ ∃ t, Derives .line (tokens line) t) ∧
    ∀ cmd nuls, parsecmd fuel line = .ok (cmd, nuls) →
      Derives .line (tokens line) (cmd.tree nuls) ∧
      ∀ t, Derives .line (tokens line) t → t = cmd.tree nuls := by
  have hsound := parsecmd_sound h hfuel
  refine ⟨fun herror => hsound.of_error herror rfl, ⟨?_, ?_⟩, ?_⟩
  · rintro ⟨out, hout⟩
    exact ⟨_, hsound.of_ok hout⟩
  · rintro ⟨t, ht⟩
    obtain ⟨out, hout, -⟩ := (parsecmd_complete h hfuel ht).returns
    exact ⟨out, hout⟩
  · intro cmd nuls hout
    refine ⟨hsound.of_ok hout, ?_⟩
    intro t ht
    exact ((parsecmd_complete h hfuel ht).of_ok hout).symm

/-- The line `(ls -l; cat <f) >>g | wc &`. -/
def sampleLine : Ptr := "(ls -l; cat <f) >>g | wc &".toList

theorem parsecmd_accepts_sample : ∃ cmd nuls, parsecmd 200 sampleLine = .ok (cmd, nuls) ∧
    Derives .line (tokens sampleLine) (cmd.tree nuls) := by
  have hgrammar := parsecmd_accepts_grammar sampleLine (by decide +kernel) 200 (by decide +kernel)
  obtain ⟨⟨cmd, nuls⟩, hout⟩ := exists_of_completes
    (x := parsecmd 200 sampleLine) (by decide +kernel)
  exact ⟨cmd, nuls, hout, (hgrammar.2.2 cmd nuls hout).1⟩

/-- In every `argv` there is a place left after the words: the null pointer at `argc`, for which
the end of the list stands, is stored inside the array. -/
def Tree.Ended : Tree → Prop
  | .exec argv => argv.length < MAXARGS
  | .redir cmd _ _ _ | .back cmd => cmd.Ended
  | .pipe left right | .list left right => left.Ended ∧ right.Ended

theorem Tree.Ended.wrap (h : t.Ended) (l : List (Dir × List Char)) : (t.wrap l).Ended := by
  induction l generalizing t with
  | nil => exact h
  | cons r l ih => exact ih (t := .redir t r.2 r.1.mode r.1.fd) h

theorem Tree.Ended.back (h : t.Ended) (k : ℕ) : (Tree.back^[k] t).Ended := by
  induction k generalizing t with
  | zero => exact h
  | succ k ih => exact ih (t := .back t) h

theorem Derives.ended {k : Nonterminal} (h : Derives k ts t) : t.Ended := by
  induction h with
  | line k _ ih => exact ih.back k
  | list k _ _ ih ih' => exact ⟨ih.back k, ih'⟩
  | single _ ih => exact ih
  | pipe _ _ ih ih' => exact ⟨ih, ih'⟩
  | block _ _ ih => exact ih.wrap _
  | exec _ _ few => exact Tree.Ended.wrap (t := .exec _) few _

/-- For every line that `parsecmd` accepts: after `nulterminate` the string at each pointer to an
argument or a file name is the word that `gettoken` delimited there, and every `argv` has its
null pointer. -/
theorem nulterminate_keeps_words (h : Char.ofNat 0 ∉ line) (hfuel : 4 * line.length + 4 ≤ fuel)
    {nuls : List ℕ} (hout : parsecmd fuel line = .ok (cmd, nuls)) :
    Shows line cmd (cmd.tree nuls) ∧ (cmd.tree nuls).Ended := by
  have hshows : Ends Panics (parsecmd fuel line) fun out =>
      Shows line out.1 (out.1.tree out.2) ∧ (out.1.tree out.2).Ended := by
    rw [parsecmd_eq]
    apply ((soundAt line fuel).onLine line ⟨List.suffix_rfl, h⟩ hfuel).bind
    rintro out ⟨ts, t, hline, hout⟩
    apply Ends.ite (fun _ => Ends.error nofun)
    intro _
    apply Ends.pure
    rw [hout.shows.tree_nulterminate]
    exact ⟨hout.shows, hline.ended⟩
  exact hshows.of_ok hout

theorem nulterminate_keeps_sample : ∃ cmd nuls, parsecmd 200 sampleLine = .ok (cmd, nuls) ∧
    Shows sampleLine cmd (cmd.tree nuls) := by
  obtain ⟨⟨cmd, nuls⟩, hout⟩ := exists_of_completes
    (x := parsecmd 200 sampleLine) (by decide +kernel)
  exact ⟨cmd, nuls, hout,
    (nulterminate_keeps_words (by decide +kernel) (by decide +kernel) hout).1⟩

end Xv6.Shell
