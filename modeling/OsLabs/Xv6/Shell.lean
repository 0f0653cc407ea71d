/-
# The shell's parser

`sh.c`: `gettoken`, `peek` and the `parse` functions, which call each other along the grammar, and `nulterminate`, which ends
the strings of the command in the line itself.

A `char*` into the line is what is left of it, so that `es` is the empty list, and a string of the command is where it starts and
where it ends (`Slice`). The line has no NUL inside: `es` is at its first one. Loops take the number of their passes as an
argument, and so do the functions that call each other.

Key definitions: `gettoken`, `peek`, `Cmd`, `parsecmd`, `nulterminate`.
-/
import OsLabs.Lib.Except

namespace OsLabs
namespace Xv6
namespace Shell

abbrev MAXARGS : ℕ := 10

abbrev O_RDONLY : ℕ := 0x000
abbrev O_WRONLY : ℕ := 0x001
abbrev O_CREATE : ℕ := 0x200

abbrev NUL : Char := '\x00'

/-- `q` and `eq` of a token. -/
structure Slice where
  q : List Char
  eq : List Char
  deriving DecidableEq, Repr

/-- The characters from `q` up to `eq`. -/
def Slice.text (f : Slice) : List Char := f.q.take (f.q.length - f.eq.length)

/-- A redirection to or from the file `S`. -/
structure Redir (S : Type) where
  file : S
  mode : ℕ
  fd : ℕ
  deriving DecidableEq, Repr

/-- A command whose strings are of type `S`. -/
inductive Cmd (S : Type)
  | exec (argv : List S)
  | redir (cmd : Cmd S) (r : Redir S)
  | pipe (left right : Cmd S)
  | list (left right : Cmd S)
  | back (cmd : Cmd S)
  deriving DecidableEq, Repr

namespace Cmd

variable {S T : Type}

def map (f : S → T) : Cmd S → Cmd T
  | exec argv => .exec (argv.map f)
  | redir cmd r => .redir (cmd.map f) ⟨f r.file, r.mode, r.fd⟩
  | pipe left right => .pipe (left.map f) (right.map f)
  | list left right => .list (left.map f) (right.map f)
  | back cmd => .back (cmd.map f)

/-- The strings of a command. -/
def strings : Cmd S → List S
  | exec argv => argv
  | redir cmd r => cmd.strings ++ [r.file]
  | pipe left right => left.strings ++ right.strings
  | list left right => left.strings ++ right.strings
  | back cmd => cmd.strings

end Cmd

inductive Fault
  /-- `leftovers: %s`, and then `syntax`. -/
  | leftovers (s : List Char)
  /-- `missing file for redirection`. -/
  | missingFile
  /-- `parseblock`. -/
  | parseblock
  /-- `syntax - missing )`. -/
  | missingParen
  /-- `syntax`. -/
  | badToken
  /-- `too many args`. -/
  | tooManyArgs
  /-- Out of passes. -/
  | fuel
  deriving DecidableEq, Repr

/-! ### Tokens -/

def whitespace : List Char := [' ', '\t', '\r', '\n', '\x0b']

def symbols : List Char := ['<', '|', '>', '&', ';', '(', ')']

def isBlank (c : Char) : Bool := c ∈ whitespace

def isWord (c : Char) : Bool := !isBlank c && c ∉ symbols

/-- `while(s < es && strchr(whitespace, *s)) s++`. -/
def skip (s : List Char) : List Char := s.dropWhile isBlank

/-- The `switch` of `gettoken`: what it returns, and where `s` is after it. -/
def token : List Char → Char × List Char
  | [] => (NUL, [])
  | c :: s =>
    if c = NUL then (NUL, c :: s)
    else if c ∈ ['|', '(', ')', ';', '&', '<'] then (c, s)
    else if c = '>' then
      match s with
      | [] => ('>', [])
      | d :: s' => if d = '>' then ('+', s') else ('>', d :: s')
    else ('a', (c :: s).dropWhile isWord)

/-- What it returns, `q` and `eq`, and where `*ps` is after it. -/
def gettoken (s : List Char) : Char × Slice × List Char :=
  let q := skip s
  let (ret, eq) := token q
  (ret, ⟨q, eq⟩, skip eq)

def peek (s : List Char) (toks : List Char) : Bool × List Char :=
  let s := skip s
  (match s with
    | [] => false
    | c :: _ => c ≠ NUL && c ∈ toks, s)

/-! ### The grammar's functions -/

/-- The cases of the `switch` in `parseredirs`: the mode and the descriptor. -/
def redirOf (tok : Char) : Option (ℕ × ℕ) :=
  if tok = '<' then some (O_RDONLY, 0)
  else if tok = '>' then some (O_WRONLY ||| O_CREATE, 1)
  else if tok = '+' then some (O_WRONLY ||| O_CREATE, 1)
  else none

/-- The redirections that `parseredirs` puts around its command. -/
def parseredirs : ℕ → List Char → Except Fault (List (Redir Slice) × List Char)
  | 0, _ => .error .fuel
  | n + 1, s => do
    let (more, s) := peek s ['<', '>']
    if more then
      let (tok, _, s) := gettoken s
      let (file, f, s) := gettoken s
      if file ≠ 'a' then .error .missingFile
      else
        let (rs, s) ← parseredirs n s
        match redirOf tok with
        | some (mode, fd) => .ok (⟨f, mode, fd⟩ :: rs, s)
        | none => .ok (rs, s)
    else .ok ([], s)

def redircmds {S : Type} (cmd : Cmd S) (rs : List (Redir S)) : Cmd S := rs.foldl .redir cmd

/-- The loop over the arguments in `parseexec`. -/
def parseargs : ℕ → ℕ → List Char → Except Fault (List Slice × List (Redir Slice) × List Char)
  | 0, _, _ => .error .fuel
  | n + 1, argc, s => do
    let (stop, s) := peek s ['|', ')', '&', ';']
    if stop then .ok ([], [], s)
    else
      let (tok, f, s) := gettoken s
      if tok = NUL then .ok ([], [], s)
      else if tok ≠ 'a' then .error .badToken
      else if argc + 1 ≥ MAXARGS then .error .tooManyArgs
      else
        let (rs, s) ← parseredirs (s.length + 1) s
        let (args, rs', s) ← parseargs n (argc + 1) s
        .ok (f :: args, rs ++ rs', s)

/-- `while(peek(ps, es, "&"))` of `parseline`. -/
def parsebacks {S : Type} : ℕ → Cmd S → List Char → Cmd S × List Char
  | 0, cmd, s => (cmd, s)
  | n + 1, cmd, s =>
    let (more, s) := peek s ['&']
    if more then
      let (_, _, s) := gettoken s
      parsebacks n (.back cmd) s
    else (cmd, s)

mutual

def parseline : ℕ → List Char → Except Fault (Cmd Slice × List Char)
  | 0, _ => .error .fuel
  | n + 1, s => do
    let (cmd, s) ← parsepipe n s
    let (cmd, s) := parsebacks (s.length + 1) cmd s
    let (more, s) := peek s [';']
    if more then
      let (_, _, s) := gettoken s
      let (right, s) ← parseline n s
      .ok (.list cmd right, s)
    else .ok (cmd, s)

def parsepipe : ℕ → List Char → Except Fault (Cmd Slice × List Char)
  | 0, _ => .error .fuel
  | n + 1, s => do
    let (cmd, s) ← parseexec n s
    let (more, s) := peek s ['|']
    if more then
      let (_, _, s) := gettoken s
      let (right, s) ← parsepipe n s
      .ok (.pipe cmd right, s)
    else .ok (cmd, s)

/-- The redirections are put around the command before it has all of its arguments. -/
def parseexec : ℕ → List Char → Except Fault (Cmd Slice × List Char)
  | 0, _ => .error .fuel
  | n + 1, s => do
    let (block, s) := peek s ['(']
    if block then parseblock n s
    else
      let (rs, s) ← parseredirs (s.length + 1) s
      let (args, rs', s) ← parseargs (s.length + 1) 0 s
      .ok (redircmds (.exec args) (rs ++ rs'), s)

def parseblock : ℕ → List Char → Except Fault (Cmd Slice × List Char)
  | 0, _ => .error .fuel
  | n + 1, s => do
    let (block, s) := peek s ['(']
    if !block then .error .parseblock
    else
      let (_, _, s) := gettoken s
      let (cmd, s) ← parseline n s
      let (close, s) := peek s [')']
      if !close then .error .missingParen
      else
        let (_, _, s) := gettoken s
        let (rs, s) ← parseredirs (s.length + 1) s
        .ok (redircmds cmd rs, s)

end

/-- `parsecmd`, up to the call of `nulterminate`. -/
def parsecmd (s : List Char) : Except Fault (Cmd Slice) := do
  let (cmd, s') ← parseline (4 * s.length + 4) s
  let (_, s') := peek s' []
  if s' ≠ [] then .error (.leftovers s') else .ok cmd

/-! ### The strings -/

/-- The offset in the line of what is left of it. -/
def offset (line q : List Char) : ℕ := line.length - q.length

/-- `*e = 0`; behind the line there is a NUL already. -/
def putNul (line : List Char) (e : List Char) (buf : List Char) : List Char := buf.set (offset line e) NUL

/-- The buffer after `nulterminate`. -/
def nulterminate (line : List Char) : Cmd Slice → List Char → List Char
  | .exec argv, buf => argv.foldl (fun buf f => putNul line f.eq buf) buf
  | .redir cmd r, buf => putNul line r.file.eq (nulterminate line cmd buf)
  | .pipe left right, buf => nulterminate line right (nulterminate line left buf)
  | .list left right, buf => nulterminate line right (nulterminate line left buf)
  | .back cmd, buf => nulterminate line cmd buf

/-- The C string at `q`. -/
def readString (line buf : List Char) (f : Slice) : List Char := (buf.drop (offset line f.q)).takeWhile (· ≠ NUL)

example : (parsecmd "ls -l > f | (a ; b &) >> g &".toList).map (Cmd.map fun f => String.ofList f.text) =
    .ok (.back (.pipe (.redir (.exec ["ls", "-l"]) ⟨"f", 0x201, 1⟩)
      (.redir (.list (.exec ["a"]) (.back (.exec ["b"]))) ⟨"g", 0x201, 1⟩))) := by decide +kernel

end Shell
end Xv6
end OsLabs
