import Msboss.Lib.Tally

/-!
# The parser of the shell

`gettoken`, `peek` and the parser of `sh.c`. A pointer into the line that is parsed is what stands
there, up to the NUL at the end, so that `es` is the empty list, and a loop that moves a pointer on
is `dropWhile`. A word is a pair of pointers into the line; `nulterminate` puts a NUL where a word
ends.

The five functions that call each other, and the loops, have the number of nested calls they may
make as their first argument; `Stop.fuel` is the end of it. `malloc` does not fail.
-/

namespace Msboss.Sh

/-- The size of `argv`, with the null pointer at its end. -/
def MAXARGS : Nat := 10

def O_RDONLY : Nat := 0x000

def O_WRONLY : Nat := 0x001

def O_CREATE : Nat := 0x200

/-- What the parser panics with. -/
inductive Panic
  /-- `syntax` -/
  | unexpected
  /-- `missing file for redirection` -/
  | missingFile
  /-- `parseblock` -/
  | parseblock
  /-- `syntax - missing )` -/
  | missingParen
  /-- `too many args` -/
  | tooManyArgs
  deriving DecidableEq, Repr

inductive Stop
  | panic (p : Panic)
  | fuel
  deriving DecidableEq, Repr

/-! ## Commands -/

/-- `struct cmd`, with the words of type `σ`: of an `execcmd` those of `argv` before the null
pointer, of a `redircmd` the file. -/
inductive Cmd (σ : Type)
  | exec (argv : List σ)
  | redir (cmd : Cmd σ) (file : σ) (mode fd : Nat)
  | pipe (left right : Cmd σ)
  | list (left right : Cmd σ)
  | back (cmd : Cmd σ)
  deriving DecidableEq, Repr

/-- `cmd->argv[argc] = w`, where the `execcmd` is below the redirections that `parseexec` has put
around it. -/
def Cmd.push {σ : Type} (w : σ) : Cmd σ → Cmd σ
  | .exec argv => .exec (argv ++ [w])
  | .redir cmd file mode fd => .redir (cmd.push w) file mode fd
  | cmd => cmd

def Cmd.map {σ τ : Type} (f : σ → τ) : Cmd σ → Cmd τ
  | .exec argv => .exec (argv.map f)
  | .redir cmd file mode fd => .redir (cmd.map f) (f file) mode fd
  | .pipe left right => .pipe (left.map f) (right.map f)
  | .list left right => .list (left.map f) (right.map f)
  | .back cmd => .back (cmd.map f)

/-! ## Tokens -/

/-- `strchr(whitespace, c)`. -/
def whitespace (c : UInt8) : Bool := [32, 9, 13, 10, 11].contains c

/-- `strchr(symbols, c)`. -/
def symbols (c : UInt8) : Bool := [60, 124, 62, 38, 59, 40, 41].contains c

/-- A byte that a word goes on with. -/
def wordChar (c : UInt8) : Bool := !whitespace c && !symbols c

/-- A pointer into the line. -/
abbrev Ptr := List UInt8

/-- A word, from `q` to `eq`. -/
structure Span where
  q : Ptr
  eq : Ptr
  deriving DecidableEq, Repr

/-- What `gettoken` returns. -/
inductive Tok
  | nul
  | pipe
  | lparen
  | rparen
  | semi
  | amp
  | lt
  | gt
  /-- `+`, for `>>` -/
  | append
  /-- `a` -/
  | word
  deriving DecidableEq, Repr

/-- The `switch` of `gettoken`: the token at `s`, and where it ends. -/
def lexeme : Ptr → Tok × Ptr
  | [] => (.nul, [])
  | c :: s =>
    if c = 124 then (.pipe, s)
    else if c = 40 then (.lparen, s)
    else if c = 41 then (.rparen, s)
    else if c = 59 then (.semi, s)
    else if c = 38 then (.amp, s)
    else if c = 60 then (.lt, s)
    else if c = 62 then if s.head? = some 62 then (.append, s.tail) else (.gt, s)
    else (.word, (c :: s).dropWhile wordChar)

/-- `gettoken(&ps, es, &q, &eq)`, with what it leaves in `ps`. -/
def gettoken (ps : Ptr) : Tok × Span × Ptr :=
  let q := ps.dropWhile whitespace
  let (ret, s) := lexeme q
  (ret, ⟨q, s⟩, s.dropWhile whitespace)

/-- `peek(&ps, es, toks)`, with what it leaves in `ps`. -/
def peek (ps : Ptr) (toks : List UInt8) : Bool × Ptr :=
  let s := ps.dropWhile whitespace
  (s.head?.any toks.contains, s)

/-! ## The parser -/

/-- `redircmd` as `parseredirs` calls it for the token. -/
def redircmd (cmd : Cmd Span) (file : Span) : Tok → Cmd Span
  | .lt => .redir cmd file O_RDONLY 0
  | .gt | .append => .redir cmd file (O_WRONLY ||| O_CREATE) 1
  | _ => cmd

/-- `parseredirs(cmd, &ps, es)`. -/
def parseredirs : Nat → Cmd Span → Ptr → Except Stop (Cmd Span × Ptr)
  | 0, _, _ => .error .fuel
  | n + 1, cmd, ps =>
    let (more, ps) := peek ps [60, 62]
    if more then
      let (tok, _, ps) := gettoken ps
      let (w, file, ps) := gettoken ps
      if w ≠ .word then .error (.panic .missingFile)
      else parseredirs n (redircmd cmd file tok) ps
    else .ok (cmd, ps)

/-- The loop of `parseexec` over the arguments. -/
def parseargs : Nat → Nat → Cmd Span → Ptr → Except Stop (Cmd Span × Ptr)
  | 0, _, _, _ => .error .fuel
  | n + 1, argc, ret, ps =>
    let (stop, ps) := peek ps [124, 41, 38, 59]
    if stop then .ok (ret, ps)
    else
      let (tok, w, ps) := gettoken ps
      if tok = .nul then .ok (ret, ps)
      else if tok ≠ .word then .error (.panic .unexpected)
      else if argc + 1 ≥ MAXARGS then .error (.panic .tooManyArgs)
      else do
        let (ret, ps) ← parseredirs n (ret.push w) ps
        parseargs n (argc + 1) ret ps

/-- The loop of `parseline` over the `&`. -/
def parseamps : Nat → Cmd Span → Ptr → Except Stop (Cmd Span × Ptr)
  | 0, _, _ => .error .fuel
  | n + 1, cmd, ps =>
    let (more, ps) := peek ps [38]
    if more then
      let (_, _, ps) := gettoken ps
      parseamps n (.back cmd) ps
    else .ok (cmd, ps)

mutual

/-- `parseline(&ps, es)`. -/
def parseline : Nat → Ptr → Except Stop (Cmd Span × Ptr)
  | 0, _ => .error .fuel
  | n + 1, ps => do
    let (cmd, ps) ← parsepipe n ps
    let (cmd, ps) ← parseamps n cmd ps
    let (more, ps) := peek ps [59]
    if more then
      let (_, _, ps) := gettoken ps
      let (right, ps) ← parseline n ps
      .ok (.list cmd right, ps)
    else .ok (cmd, ps)

/-- `parsepipe(&ps, es)`. -/
def parsepipe : Nat → Ptr → Except Stop (Cmd Span × Ptr)
  | 0, _ => .error .fuel
  | n + 1, ps => do
    let (cmd, ps) ← parseexec n ps
    let (more, ps) := peek ps [124]
    if more then
      let (_, _, ps) := gettoken ps
      let (right, ps) ← parsepipe n ps
      .ok (.pipe cmd right, ps)
    else .ok (cmd, ps)

/-- `parseblock(&ps, es)`. -/
def parseblock : Nat → Ptr → Except Stop (Cmd Span × Ptr)
  | 0, _ => .error .fuel
  | n + 1, ps => do
    let (more, ps) := peek ps [40]
    if more then
      let (_, _, ps) := gettoken ps
      let (cmd, ps) ← parseline n ps
      let (more, ps) := peek ps [41]
      if more then
        let (_, _, ps) := gettoken ps
        parseredirs n cmd ps
      else .error (.panic .missingParen)
    else .error (.panic .parseblock)

/-- `parseexec(&ps, es)`. -/
def parseexec : Nat → Ptr → Except Stop (Cmd Span × Ptr)
  | 0, _ => .error .fuel
  | n + 1, ps => do
    let (more, ps) := peek ps [40]
    if more then parseblock n ps
    else
      let (ret, ps) ← parseredirs n (.exec []) ps
      parseargs n 0 ret ps

end

/-- `nulterminate(cmd)` on a line of `n` bytes. -/
def nulterminate (n : Nat) : Cmd Span → List UInt8 → List UInt8
  | .exec argv, line => argv.foldl (fun line w => line.set (n - w.eq.length) 0) line
  | .redir cmd file _ _, line => (nulterminate n cmd line).set (n - file.eq.length) 0
  | .pipe left right, line => nulterminate n right (nulterminate n left line)
  | .list left right, line => nulterminate n right (nulterminate n left line)
  | .back cmd, line => nulterminate n cmd line

/-- `parsecmd(s)`: the command, and what it has made of the line. -/
def parsecmd (fuel : Nat) (line : List UInt8) : Except Stop (Cmd Span × List UInt8) := do
  let (cmd, s) ← parseline fuel line
  let (_, s) := peek s []
  if s ≠ [] then .error (.panic .unexpected)
  else .ok (cmd, nulterminate line.length cmd line)

/-- The string that `q` points to, in a line of `n` bytes. -/
def Span.str (n : Nat) (line : List UInt8) (w : Span) : List UInt8 :=
  (line.drop (n - w.q.length)).takeWhile (· != 0)

/-- `a < b | (c; d) > e &` -/
example : (parsecmd 100 [97, 32, 60, 32, 98, 124, 40, 99, 59, 100, 41, 62, 101, 38]).toOption.map
    (fun (cmd, line) => cmd.map (Span.str 14 line)) =
      some (.back (.pipe (.redir (.exec [[97]]) [98] O_RDONLY 0)
        (.redir (.list (.exec [[99]]) (.exec [[100]])) [101] (O_WRONLY ||| O_CREATE) 1))) := by
  decide +kernel

end Msboss.Sh
