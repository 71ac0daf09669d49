/-
# The parser of the shell

The functions of `sh.c` from `gettoken` to `nulterminate`. A pointer into the line is
what is left of the line from there, so `es` is the empty list, and reading through
`es` gives the NUL at the end of the line.

The parsing functions call one another and have loops; both are counted by `fuel`,
and running out of it is an outcome of its own, `Stop.fuel`, that the program does
not have. The messages of `panic` are the other outcomes.
-/

import Mathlib.Data.Nat.Notation
import Xv6.Lib.Outcome

namespace Xv6.Shell

inductive Stop
  /-- "syntax", after the leftovers have been printed -/
  | leftovers
  /-- "missing file for redirection" -/
  | missingFile
  /-- "parseblock" -/
  | parseblock
  /-- "syntax - missing )" -/
  | missingParen
  /-- "syntax", at something that is no word -/
  | notAWord
  /-- "too many args" -/
  | tooManyArgs
  | fuel
  deriving DecidableEq, Repr

def MAXARGS : ℕ := 10

def O_RDONLY : ℕ := 0x000
def O_WRONLY : ℕ := 0x001
def O_CREATE : ℕ := 0x200

/-- A pointer into the line. -/
abbrev Ptr := List Char

/-- What a pointer points to. -/
def deref (s : Ptr) : Char := s.headD (Char.ofNat 0)

def whitespace : List Char := [' ', Char.ofNat 9, Char.ofNat 13, Char.ofNat 10, Char.ofNat 11]

def symbols : List Char := ['<', '|', '>', '&', ';', '(', ')']

/-- The loop that skips whitespace. -/
def skip (s : Ptr) : Ptr := s.dropWhile (· ∈ whitespace)

/-- The loop of `gettoken` for a word. -/
def skipWord (s : Ptr) : Ptr := s.dropWhile fun c => c ∉ whitespace ∧ c ∉ symbols

/-- What `gettoken` returns and stores. -/
structure Token where
  ret : Char
  q : Ptr
  eq : Ptr
  ps : Ptr

/-- The `switch` of `gettoken`: the value to return and the end of the token. -/
def switch (s : Ptr) : Char × Ptr :=
  if deref s = Char.ofNat 0 then (Char.ofNat 0, s)
  else if deref s ∈ ['|', '(', ')', ';', '&', '<'] then (deref s, s.tail)
  else if deref s = '>' then
    if deref s.tail = '>' then ('+', s.tail.tail) else ('>', s.tail)
  else ('a', skipWord s)

def gettoken (ps : Ptr) : Token where
  ret := (switch (skip ps)).1
  q := skip ps
  eq := (switch (skip ps)).2
  ps := skip (switch (skip ps)).2

/-- `peek`, with the new value of `*ps`. -/
def peek (ps : Ptr) (toks : List Char) : Bool × Ptr :=
  (deref (skip ps) ≠ Char.ofNat 0 ∧ deref (skip ps) ∈ toks, skip ps)

/-- `struct cmd`. A command has its arguments with the ends of them, `argv` and `eargv`. The list
is what `parseexec` has stored in these arrays of `MAXARGS` places; its end stands for the null
pointers that are stored last, at `argc`. -/
inductive Cmd
  | exec (argv : List (Ptr × Ptr))
  | redir (cmd : Cmd) (file efile : Ptr) (mode fd : ℕ)
  | pipe (left right : Cmd)
  | list (left right : Cmd)
  | back (cmd : Cmd)
  deriving DecidableEq, Repr

/-- Store an argument in the `execcmd` that the redirections are wrapped around. -/
def Cmd.addArg (q eq : Ptr) : Cmd → Cmd
  | .exec argv => .exec (argv ++ [(q, eq)])
  | .redir cmd file efile mode fd => .redir (cmd.addArg q eq) file efile mode fd
  | cmd => cmd

/-- The `switch` of `parseredirs`, for a redirection `tok` to or from `file`. -/
def Cmd.addRedir (cmd : Cmd) (tok file : Token) : Cmd :=
  match tok.ret with
  | '<' => .redir cmd file.q file.eq O_RDONLY 0
  | '>' => .redir cmd file.q file.eq (O_WRONLY ||| O_CREATE) 1
  | '+' => .redir cmd file.q file.eq (O_WRONLY ||| O_CREATE) 1
  | _ => cmd

def parseredirs : ℕ → Cmd → Ptr → Except Stop (Cmd × Ptr)
  | 0, _, _ => .error .fuel
  | fuel + 1, cmd, ps =>
    let (more, ps) := peek ps ['<', '>']
    if more then
      let tok := gettoken ps
      let file := gettoken tok.ps
      if file.ret ≠ 'a' then .error .missingFile
      else parseredirs fuel (cmd.addRedir tok file) file.ps
    else .ok (cmd, ps)

/-- The loop of `parseexec`, and `cmd->argv[argc] = 0` and `cmd->eargv[argc] = 0` after it, which
leave the list as it is. -/
def parseargs : ℕ → Cmd → ℕ → Ptr → Except Stop (Cmd × Ptr)
  | 0, _, _, _ => .error .fuel
  | fuel + 1, ret, argc, ps =>
    let (stop, ps) := peek ps ['|', ')', '&', ';']
    if stop then .ok (ret, ps)
    else
      let tok := gettoken ps
      if tok.ret = Char.ofNat 0 then .ok (ret, tok.ps)
      else if tok.ret ≠ 'a' then .error .notAWord
      else if argc + 1 ≥ MAXARGS then .error .tooManyArgs
      else do
        let (ret, ps) ← parseredirs fuel (ret.addArg tok.q tok.eq) tok.ps
        parseargs fuel ret (argc + 1) ps

/-- The loop of `parseline`. -/
def parseback : ℕ → Cmd → Ptr → Except Stop (Cmd × Ptr)
  | 0, _, _ => .error .fuel
  | fuel + 1, cmd, ps =>
    let (more, ps) := peek ps ['&']
    if more then parseback fuel (.back cmd) (gettoken ps).ps else .ok (cmd, ps)

mutual

def parseline : ℕ → Ptr → Except Stop (Cmd × Ptr)
  | 0, _ => .error .fuel
  | fuel + 1, ps => do
      let (cmd, ps) ← parsepipe fuel ps
      let (cmd, ps) ← parseback fuel cmd ps
      let (more, ps) := peek ps [';']
      if more then
        let (right, ps) ← parseline fuel (gettoken ps).ps
        return (.list cmd right, ps)
      else return (cmd, ps)

def parsepipe : ℕ → Ptr → Except Stop (Cmd × Ptr)
  | 0, _ => .error .fuel
  | fuel + 1, ps => do
      let (cmd, ps) ← parseexec fuel ps
      let (more, ps) := peek ps ['|']
      if more then
        let (right, ps) ← parsepipe fuel (gettoken ps).ps
        return (.pipe cmd right, ps)
      else return (cmd, ps)

def parseexec : ℕ → Ptr → Except Stop (Cmd × Ptr)
  | 0, _ => .error .fuel
  | fuel + 1, ps => do
      let (block, ps) := peek ps ['(']
      if block then parseblock fuel ps
      else
        let (ret, ps) ← parseredirs fuel (.exec []) ps
        parseargs fuel ret 0 ps

def parseblock : ℕ → Ptr → Except Stop (Cmd × Ptr)
  | 0, _ => .error .fuel
  | fuel + 1, ps => do
      let (isBlock, ps) := peek ps ['(']
      if !isBlock then .error .parseblock
      else
        let (cmd, ps) ← parseline fuel (gettoken ps).ps
        let (closed, ps) := peek ps [')']
        if !closed then .error .missingParen
        else parseredirs fuel cmd (gettoken ps).ps

end

/-- `nulterminate` overwrites the ends of the arguments and file names with NULs. A place in the
line is given by how much of the line is left there. -/
def nulterminate : Cmd → List ℕ
  | .exec argv => argv.map fun arg => arg.2.length
  | .redir cmd _ efile _ _ => nulterminate cmd ++ [efile.length]
  | .pipe left right => nulterminate left ++ nulterminate right
  | .list left right => nulterminate left ++ nulterminate right
  | .back cmd => nulterminate cmd

/-- `parsecmd`, with the places that hold a NUL afterwards. -/
def parsecmd (fuel : ℕ) (s : Ptr) : Except Stop (Cmd × List ℕ) := do
  let (cmd, ps) ← parseline fuel s
  let (_, ps) := peek ps []
  if ps ≠ [] then .error .leftovers
  else return (cmd, nulterminate cmd)

end Xv6.Shell
