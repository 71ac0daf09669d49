/-
# The grammar of the shell

    line  ::= pipe {'&'} [';' line]
    pipe  ::= exec ['|' pipe]
    exec  ::= '(' line ')' {redir}  |  {redir} {word {redir}}
    redir ::= ('<' | '>' | '>>') word

with fewer than `MAXARGS` words in an `exec`. A derivation has a tree: lists and
pipes nest to the right, each `&` is a node, and redirections are wrapped around the
command with the last one outermost.

The commands of `sh.c` hold pointers into the line. `Shows` relates them to trees, and
after `nulterminate` the strings at the pointers are the words of the tree.
-/

import Mathlib.Data.List.Forall2
import Mathlib.Data.List.Induction
import Mathlib.Logic.Function.Iterate
import Xv6.Shell.Tokens

namespace Xv6.Shell

inductive Tree
  | exec (argv : List (List Char))
  | redir (cmd : Tree) (file : List Char) (mode fd : ℕ)
  | pipe (left right : Tree)
  | list (left right : Tree)
  | back (cmd : Tree)
  deriving DecidableEq

/-- The directions of redirections. -/
inductive Dir
  | lt | gt | gtgt
  deriving DecidableEq

namespace Dir

def tok : Dir → Tok
  | .lt => .lt
  | .gt => .gt
  | .gtgt => .gtgt

def mode : Dir → ℕ
  | .lt => O_RDONLY
  | .gt | .gtgt => O_WRONLY ||| O_CREATE

def fd : Dir → ℕ
  | .lt => 0
  | .gt | .gtgt => 1

end Dir

/-- Wrap redirections around a command, the last one outermost. -/
def Tree.wrap (redirs : List (Dir × List Char)) (t : Tree) : Tree :=
  redirs.foldl (fun t r => .redir t r.2 r.1.mode r.1.fd) t

theorem Tree.wrap_append (l l' : List (Dir × List Char)) (t : Tree) :
    t.wrap (l ++ l') = (t.wrap l).wrap l' := List.foldl_append

/-- `{redir}` -/
inductive Redirs : List Tok → List (Dir × List Char) → Prop
  | nil : Redirs [] []
  | cons {ts : List Tok} {l : List (Dir × List Char)} (d : Dir) (w : List Char)
      (rest : Redirs ts l) : Redirs (d.tok :: .word w :: ts) ((d, w) :: l)

/-- `{word {redir}}`, with the words and the redirections. -/
inductive Args : List Tok → List (List Char) → List (Dir × List Char) → Prop
  | nil : Args [] [] []
  | cons {ts ts' : List Tok} {ws : List (List Char)} {l l' : List (Dir × List Char)}
      (w : List Char) (redirs : Redirs ts l) (rest : Args ts' ws l') :
      Args (.word w :: (ts ++ ts')) (w :: ws) (l ++ l')

inductive Nonterminal
  | line | pipe | exec

inductive Derives : Nonterminal → List Tok → Tree → Prop
  | line {ts : List Tok} {t : Tree} (k : ℕ) (pipe : Derives .pipe ts t) :
      Derives .line (ts ++ List.replicate k .amp) (Tree.back^[k] t)
  | list {ts ts' : List Tok} {t t' : Tree} (k : ℕ) (pipe : Derives .pipe ts t)
      (rest : Derives .line ts' t') :
      Derives .line (ts ++ List.replicate k .amp ++ .semi :: ts') (.list (Tree.back^[k] t) t')
  | single {ts : List Tok} {t : Tree} (exec : Derives .exec ts t) : Derives .pipe ts t
  | pipe {ts ts' : List Tok} {t t' : Tree} (exec : Derives .exec ts t)
      (rest : Derives .pipe ts' t') : Derives .pipe (ts ++ .bar :: ts') (.pipe t t')
  | block {ts ts' : List Tok} {t : Tree} {l : List (Dir × List Char)} (line : Derives .line ts t)
      (redirs : Redirs ts' l) : Derives .exec (.lparen :: (ts ++ .rparen :: ts')) (t.wrap l)
  | exec {ts ts' : List Tok} {ws : List (List Char)} {l l' : List (Dir × List Char)}
      (redirs : Redirs ts l) (args : Args ts' ws l') (few : ws.length < MAXARGS) :
      Derives .exec (ts ++ ts') ((Tree.exec ws).wrap (l ++ l'))

/-- The command has the shape of the tree, and its pointers delimit the words of the tree. -/
inductive Shows (line : Ptr) : Cmd → Tree → Prop
  | exec {argv : List (Ptr × Ptr)} {ws : List (List Char)}
      (words : List.Forall₂ (fun arg w => IsWord line arg.1 arg.2 w) argv ws) :
      Shows line (.exec argv) (.exec ws)
  | redir {cmd : Cmd} {t : Tree} {file efile : Ptr} {w : List Char} {mode fd : ℕ}
      (shows : Shows line cmd t) (word : IsWord line file efile w) :
      Shows line (.redir cmd file efile mode fd) (.redir t w mode fd)
  | pipe {left right : Cmd} {l r : Tree} (showsLeft : Shows line left l)
      (showsRight : Shows line right r) : Shows line (.pipe left right) (.pipe l r)
  | list {left right : Cmd} {l r : Tree} (showsLeft : Shows line left l)
      (showsRight : Shows line right r) : Shows line (.list left right) (.list l r)
  | back {cmd : Cmd} {t : Tree} (shows : Shows line cmd t) : Shows line (.back cmd) (.back t)

variable {line : Ptr} {cmd : Cmd} {t : Tree}

/-- A new argument goes to the innermost command. -/
theorem Shows.addArg {ws : List (List Char)} {l : List (Dir × List Char)} {q eq : Ptr}
    {w : List Char} (h : Shows line cmd ((Tree.exec ws).wrap l)) (hw : IsWord line q eq w) :
    Shows line (cmd.addArg q eq) ((Tree.exec (ws ++ [w])).wrap l) := by
  induction l using List.reverseRecOn generalizing cmd with
  | nil =>
    cases h with
    | exec words => exact .exec (List.rel_append words (.cons hw .nil))
  | append_singleton l r ih =>
    rw [Tree.wrap_append] at h ⊢
    cases h with
    | redir cmd word => exact .redir (ih cmd) word

/-- The string at a pointer, in a line with NULs at some places. -/
def cstring (nuls : List ℕ) : Ptr → List Char
  | [] => []
  | c :: rest => if rest.length + 1 ∈ nuls then [] else c :: cstring nuls rest

/-- The tree a command stands for, in a line with NULs at some places. -/
def Cmd.tree (nuls : List ℕ) : Cmd → Tree
  | .exec argv => .exec (argv.map fun arg => cstring nuls arg.1)
  | .redir cmd file _ mode fd => .redir (cmd.tree nuls) (cstring nuls file) mode fd
  | .pipe left right => .pipe (left.tree nuls) (right.tree nuls)
  | .list left right => .list (left.tree nuls) (right.tree nuls)
  | .back cmd => .back (cmd.tree nuls)

/-- No place is inside a word. -/
def Between (line : Ptr) (nuls : List ℕ) : Prop :=
  ∀ n ∈ nuls, ∃ p : Ptr, p <:+ line ∧ p.length = n ∧ ∀ c ∈ p.head?, ¬ IsWordChar c

theorem IsWord.cstring_eq {q eq : Ptr} {w : List Char} {nuls : List ℕ} (h : IsWord line q eq w)
    (hnuls : Between line nuls) (hend : eq.length ∈ nuls) : cstring nuls q = w := by
  obtain ⟨rfl, hsuffix, hword, hstops⟩ := h
  induction w with
  | nil =>
    cases eq with
    | nil => rfl
    | cons c rest => exact if_pos hend
  | cons c w ih =>
    have hplace : (w ++ eq).length + 1 ∉ nuls := by
      intro hmem
      obtain ⟨p, hp, hlen, hnot⟩ := hnuls _ hmem
      have heq : p = c :: (w ++ eq) := List.IsSuffix.eq_of_length
        (List.suffix_of_suffix_length_le hp hsuffix (by rw [hlen]; rfl)) hlen
      rw [heq] at hnot
      exact hnot c rfl (hword c List.mem_cons_self)
    rw [List.cons_append, cstring, if_neg hplace]
    grind [List.suffix_cons]

/-- After `nulterminate` the strings of the command are the words of the tree. -/
theorem Shows.tree_eq {nuls : List ℕ} (h : Shows line cmd t) (hnuls : Between line nuls)
    (hends : nulterminate cmd ⊆ nuls) : cmd.tree nuls = t := by
  induction h with
  | exec words =>
    rw [Cmd.tree]
    congr 1
    induction words with
    | nil => rfl
    | cons word _ ih =>
      rw [nulterminate, List.map_cons, List.cons_subset] at hends
      rw [List.map_cons, word.cstring_eq hnuls hends.1, ih hends.2]
  | redir _ word ih =>
    rw [nulterminate, List.append_subset] at hends
    rw [Cmd.tree, ih hends.1, word.cstring_eq hnuls (hends.2 List.mem_cons_self)]
  | pipe _ _ ihl ihr =>
    rw [nulterminate, List.append_subset] at hends
    rw [Cmd.tree, ihl hends.1, ihr hends.2]
  | list _ _ ihl ihr =>
    rw [nulterminate, List.append_subset] at hends
    rw [Cmd.tree, ihl hends.1, ihr hends.2]
  | back _ ih => rw [Cmd.tree, ih hends]

/-- `nulterminate` writes between words only. -/
theorem Shows.between (h : Shows line cmd t) : Between line (nulterminate cmd) := by
  have hword : ∀ {q eq : Ptr} {w : List Char}, IsWord line q eq w →
      ∃ p : Ptr, p <:+ line ∧ p.length = eq.length ∧ ∀ c ∈ p.head?, ¬ IsWordChar c := by
    intro q eq w h
    refine ⟨eq, ?_, rfl, h.stops⟩
    rw [h.split] at h
    exact (List.suffix_append w eq).trans h.suffix
  induction h with
  | exec words =>
    induction words with
    | nil => exact nofun
    | cons word _ ih =>
      intro n hn
      rcases List.mem_cons.mp hn with rfl | hn
      · exact hword word
      · exact ih n hn
  | redir _ word ih =>
    intro n hn
    rcases List.mem_append.mp hn with hn | hn
    · exact ih n hn
    · rw [List.mem_singleton.mp hn]
      exact hword word
  | pipe _ _ ihl ihr =>
    intro n hn
    exact (List.mem_append.mp hn).elim (ihl n) (ihr n)
  | list _ _ ihl ihr =>
    intro n hn
    exact (List.mem_append.mp hn).elim (ihl n) (ihr n)
  | back _ ih => exact ih

end Xv6.Shell
