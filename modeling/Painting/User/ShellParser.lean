import Painting.Core.Strings

/-!
# The parser of the shell

`parsecmd` of `sh.c` and all that it calls.  A pointer into the line is what is left of the line
from there on, so that it is at the end when it is empty.  The nodes of the tree come from `malloc`,
which is taken to succeed.

`parseexec` fills the node it has made after redirections have been put around it.

Each call and each round of a loop takes one unit of fuel.
-/

namespace Painting.Shell

open Painting.Strings

/-- The bytes of an ASCII text. -/
def chars (text : String) : List UInt8 := text.toList.map fun c => UInt8.ofNat c.toNat

/-! ## Trees -/

def oRdonly : ℕ := 0x000
def oWronly : ℕ := 0x001
def oCreate : ℕ := 0x200
def oTrunc : ℕ := 0x400

def maxArgs : ℕ := 10

/-- `struct cmd`, with words of any kind. -/
inductive Cmd (Word : Type)
  | exec (argv : List Word)
  | redir (cmd : Cmd Word) (file : Word) (mode fd : ℕ)
  | pipe (left right : Cmd Word)
  | list (left right : Cmd Word)
  | back (cmd : Cmd Word)
  deriving DecidableEq

def Cmd.map {Word Word' : Type} (f : Word → Word') : Cmd Word → Cmd Word'
  | .exec argv => .exec (argv.map f)
  | .redir cmd file mode fd => .redir (cmd.map f) (f file) mode fd
  | .pipe left right => .pipe (left.map f) (right.map f)
  | .list left right => .list (left.map f) (right.map f)
  | .back cmd => .back (cmd.map f)

/-- The words of a tree. -/
def Cmd.words {Word : Type} : Cmd Word → List Word
  | .exec argv => argv
  | .redir cmd file _ _ => cmd.words ++ [file]
  | .pipe left right => left.words ++ right.words
  | .list left right => left.words ++ right.words
  | .back cmd => cmd.words

/-! ## Characters -/

/-- What is left of the line. -/
abbrev Ptr := List UInt8

/-- The two pointers `q` and `eq` of a token. -/
structure Span where
  q : Ptr
  eq : Ptr

def whitespace : List UInt8 := chars " \t\r\n\x0b"

def symbols : List UInt8 := chars "<|>&;()"

def skipWhitespace (s : Ptr) : Ptr := s.dropWhile (· ∈ whitespace)

/-- A character of a word. -/
def IsPlain (c : UInt8) : Prop := c ∉ whitespace ∧ c ∉ symbols

instance (c : UInt8) : Decidable (IsPlain c) := inferInstanceAs (Decidable (_ ∧ _))

/-- What `gettoken` returns: 0, a symbol, `'+'` or `'a'`. -/
inductive Tok
  | eof
  | symbol (c : UInt8)
  | append
  | word
  deriving DecidableEq

/-- The `switch` of `gettoken`: the token at `s` and where it ends. -/
def token (s : Ptr) : Tok × Ptr :=
  match s with
  | [] => (.eof, s)
  | c :: rest =>
      if c ∈ chars "|();&<" then (.symbol c, rest)
      else if c ∈ chars ">" then
        match rest with
        | d :: rest' => if d ∈ chars ">" then (.append, rest') else (.symbol c, rest)
        | [] => (.symbol c, rest)
      else (.word, s.dropWhile fun c => IsPlain c)

/-- `gettoken`: the token, its place and the pointer behind it. -/
def gettoken (ps : Ptr) : Tok × Span × Ptr :=
  let s := skipWhitespace ps
  let (ret, eq) := token s
  (ret, ⟨s, eq⟩, skipWhitespace eq)

/-- `peek`. -/
def peek (ps : Ptr) (toks : List UInt8) : Bool × Ptr :=
  let s := skipWhitespace ps
  (match s with
    | [] => false
    | c :: _ => decide (c ∈ toks), s)

/-! ## Commands -/

inductive Panic
  | syntaxError
  | missingFile
  | parseblock
  | missingParen
  | tooManyArgs
  deriving DecidableEq

/-- A tree and the pointer behind it, or a panic, or that the fuel was not enough. -/
inductive Outcome
  | done (cmd : Cmd Span) (ps : Ptr)
  | panic (message : Panic)
  | outOfFuel

def Outcome.andThen : Outcome → (Cmd Span → Ptr → Outcome) → Outcome
  | .done cmd ps, next => next cmd ps
  | .panic message, _ => .panic message
  | .outOfFuel, _ => .outOfFuel

/-- The `switch` of `parseredirs`. -/
def redircmd (tok : Tok) (cmd : Cmd Span) (file : Span) : Cmd Span :=
  if tok = .symbol (UInt8.ofNat '<'.toNat) then .redir cmd file oRdonly 0
  else if tok = .symbol (UInt8.ofNat '>'.toNat) then .redir cmd file (oWronly ||| oCreate ||| oTrunc) 1
  else if tok = .append then .redir cmd file (oWronly ||| oCreate) 1
  else cmd

/-- `parseredirs`. -/
def parseredirs : ℕ → Cmd Span → Ptr → Outcome
  | 0, _, _ => .outOfFuel
  | fuel + 1, cmd, ps =>
      let (found, ps) := peek ps (chars "<>")
      if found then
        let (tok, _, ps) := gettoken ps
        let (next, file, ps) := gettoken ps
        if next ≠ .word then .panic .missingFile
        else parseredirs fuel (redircmd tok cmd file) ps
      else .done cmd ps

/-- An argument for the command inside the redirections. -/
def Cmd.addArg {Word : Type} : Cmd Word → Word → Cmd Word
  | .exec argv, word => .exec (argv ++ [word])
  | .redir cmd file mode fd, word => .redir (cmd.addArg word) file mode fd
  | cmd, _ => cmd

/-- The loop of `parseexec`. -/
def parseargs : ℕ → ℕ → Cmd Span → Ptr → Outcome
  | 0, _, _, _ => .outOfFuel
  | fuel + 1, argc, ret, ps =>
      let (stop, ps) := peek ps (chars "|)&;")
      if stop then .done ret ps
      else
        let (tok, word, ps) := gettoken ps
        if tok = .eof then .done ret ps
        else if tok ≠ .word then .panic .syntaxError
        else if maxArgs ≤ argc + 1 then .panic .tooManyArgs
        else (parseredirs fuel (ret.addArg word) ps).andThen (parseargs fuel (argc + 1))

/-- The loop of `parseline` over the ampersands. -/
def parsebacks : ℕ → Cmd Span → Ptr → Outcome
  | 0, _, _ => .outOfFuel
  | fuel + 1, cmd, ps =>
      let (found, ps) := peek ps (chars "&")
      if found then parsebacks fuel (.back cmd) (gettoken ps).2.2 else .done cmd ps

mutual

/-- `parseline`. -/
def parseline : ℕ → Ptr → Outcome
  | 0, _ => .outOfFuel
  | fuel + 1, ps =>
      (parsepipe fuel ps).andThen fun cmd ps => (parsebacks fuel cmd ps).andThen fun cmd ps =>
        let (found, ps) := peek ps (chars ";")
        if found then (parseline fuel (gettoken ps).2.2).andThen fun right ps => .done (.list cmd right) ps
        else .done cmd ps

/-- `parsepipe`. -/
def parsepipe : ℕ → Ptr → Outcome
  | 0, _ => .outOfFuel
  | fuel + 1, ps =>
      (parseexec fuel ps).andThen fun cmd ps =>
        let (found, ps) := peek ps (chars "|")
        if found then (parsepipe fuel (gettoken ps).2.2).andThen fun right ps => .done (.pipe cmd right) ps
        else .done cmd ps

/-- `parseblock`. -/
def parseblock : ℕ → Ptr → Outcome
  | 0, _ => .outOfFuel
  | fuel + 1, ps =>
      let (found, ps) := peek ps (chars "(")
      if ¬ found then .panic .parseblock
      else
        (parseline fuel (gettoken ps).2.2).andThen fun cmd ps =>
          let (found, ps) := peek ps (chars ")")
          if ¬ found then .panic .missingParen else parseredirs fuel cmd (gettoken ps).2.2

/-- `parseexec`. -/
def parseexec : ℕ → Ptr → Outcome
  | 0, _ => .outOfFuel
  | fuel + 1, ps =>
      let (found, ps) := peek ps (chars "(")
      if found then parseblock fuel ps
      else (parseredirs fuel (.exec []) ps).andThen (parseargs fuel 0)

end

/-! ## Lines -/

/-- Where a pointer into the line points. -/
def position (line : Ptr) (p : Ptr) : ℕ := line.length - p.length

/-- `nulterminate`, on the buffer with the line. -/
def nulterminate (line : Ptr) : Cmd Span → Buffer → Buffer
  | .exec argv, buf =>
      argv.foldl (fun buf word => Function.update buf (position line word.eq) 0) buf
  | .redir cmd file _ _, buf =>
      Function.update (nulterminate line cmd buf) (position line file.eq) 0
  | .pipe left right, buf => nulterminate line right (nulterminate line left buf)
  | .list left right, buf => nulterminate line right (nulterminate line left buf)
  | .back cmd, buf => nulterminate line cmd buf

/-- The fuel for a line of some length. -/
def fuelFor (length : ℕ) : ℕ := 4 * length + 4

/-- `parsecmd`: the tree and the buffer, or a panic; `none` when the fuel is not enough. -/
def parsecmd (line : Ptr) : Option (Except Panic (Cmd Span × Buffer)) :=
  match parseline (fuelFor line.length) line with
  | .done cmd s =>
      let (_, s) := peek s []
      if s ≠ [] then some (.error .syntaxError)
      else some (.ok (cmd, nulterminate line cmd (ofList line)))
  | .panic message => some (.error message)
  | .outOfFuel => none

end Painting.Shell
