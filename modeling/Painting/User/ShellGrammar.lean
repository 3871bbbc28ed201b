import Painting.User.ShellParser

/-!
# The language of the shell

The grammar of command lines over tokens, with the tree of each derivation.  `parsecmd` returns a
tree for exactly the lines whose tokens derive from `line`, and it is the tree of the derivation.

The parser never looks further than the next token.  So a phrase is parsed in the same way whatever
comes after it, as long as that is no token that could continue it.
-/

namespace Painting.Shell

open Painting.Strings

/-! ## Tokens -/

inductive Token
  | word (text : List UInt8)
  | bar
  | lparen
  | rparen
  | semi
  | amp
  | less
  | greater
  | append
  deriving DecidableEq

/-- The token of a symbol. -/
def Token.ofSymbol (c : UInt8) : Token :=
  if c ∈ chars "|" then .bar else if c ∈ chars "(" then .lparen else if c ∈ chars ")" then .rparen
  else if c ∈ chars ";" then .semi else if c ∈ chars "&" then .amp else .less

/-- The tokens of a line: words of plain characters, `>>`, and the other symbols. -/
def tokens : List UInt8 → List Token
  | [] => []
  | c :: rest =>
      if c ∈ whitespace then tokens rest
      else if c ∈ chars ">" then
        match rest with
        | [] => [.greater]
        | d :: rest' => if d ∈ chars ">" then .append :: tokens rest' else .greater :: tokens (d :: rest')
      else if c ∈ symbols then .ofSymbol c :: tokens rest
      else
        match rest, tokens rest with
        | d :: _, .word text :: ts =>
            if IsPlain d then .word (c :: text) :: ts else .word [c] :: .word text :: ts
        | _, ts => .word [c] :: ts

/-! ## The grammar -/

inductive Direction
  | input
  | output
  | append
  deriving DecidableEq

def Direction.token : Direction → Token
  | .input => .less
  | .output => .greater
  | .append => .append

def Direction.mode : Direction → ℕ
  | .input => oRdonly
  | .output => oWronly ||| oCreate ||| oTrunc
  | .append => oWronly ||| oCreate

def Direction.fd : Direction → ℕ
  | .input => 0
  | .output => 1
  | .append => 1

abbrev Tree := Cmd (List UInt8)

/-- A redirection and its file. -/
structure Redirection where
  direction : Direction
  file : List UInt8

def Redirection.wrap (cmd : Tree) (redirection : Redirection) : Tree :=
  .redir cmd redirection.file redirection.direction.mode redirection.direction.fd

/-- The last redirection is the outermost. -/
def wrapAll (redirections : List Redirection) (cmd : Tree) : Tree :=
  redirections.foldl Redirection.wrap cmd

def redirTokens (redirections : List Redirection) : List Token :=
  redirections.flatMap fun redirection => [redirection.direction.token, .word redirection.file]

/-- A word of a simple command and the redirections after it. -/
structure Argument where
  word : List UInt8
  redirections : List Redirection

def argTokens (args : List Argument) : List Token :=
  args.flatMap fun arg => .word arg.word :: redirTokens arg.redirections

/-- The tree of a simple command. -/
def simple (first : List Redirection) (args : List Argument) : Tree :=
  wrapAll (first ++ args.flatMap Argument.redirections) (.exec (args.map Argument.word))

inductive Phrase
  | line
  | pipe
  | item

/-- The derivations from a nonterminal, with the tokens and the tree. -/
inductive Derives : Phrase → List Token → Tree → Prop
  | line {ts : List Token} {cmd : Tree} (count : ℕ) :
      Derives .pipe ts cmd → Derives .line (ts ++ List.replicate count .amp) (Cmd.back^[count] cmd)
  | list {ts ts' : List Token} {left right : Tree} (count : ℕ) :
      Derives .pipe ts left → Derives .line ts' right →
      Derives .line (ts ++ List.replicate count .amp ++ .semi :: ts')
        (.list (Cmd.back^[count] left) right)
  | single {ts : List Token} {cmd : Tree} : Derives .item ts cmd → Derives .pipe ts cmd
  | pipe {ts ts' : List Token} {left right : Tree} :
      Derives .item ts left → Derives .pipe ts' right →
      Derives .pipe (ts ++ .bar :: ts') (.pipe left right)
  | block {ts : List Token} {cmd : Tree} (redirections : List Redirection) :
      Derives .line ts cmd →
      Derives .item (.lparen :: ts ++ .rparen :: redirTokens redirections)
        (wrapAll redirections cmd)
  | simple (first : List Redirection) (args : List Argument) : args.length ≤ 9 →
      Derives .item (redirTokens first ++ argTokens args) (simple first args)

/-! ## The scanner -/

/-- The first character of a token that is no word. -/
def Token.first : Token → Option UInt8
  | .word _ => none
  | .bar => some (UInt8.ofNat '|'.toNat)
  | .lparen => some (UInt8.ofNat '('.toNat)
  | .rparen => some (UInt8.ofNat ')'.toNat)
  | .semi => some (UInt8.ofNat ';'.toNat)
  | .amp => some (UInt8.ofNat '&'.toNat)
  | .less => some (UInt8.ofNat '<'.toNat)
  | .greater => some (UInt8.ofNat '>'.toNat)
  | .append => some (UInt8.ofNat '>'.toNat)

/-- What `gettoken` returns for a token. -/
def Token.tok (t : Token) : Tok :=
  if t = .append then .append
  else
    match t.first with
    | some c => .symbol c
    | none => .word

/-- What `peek` answers when these tokens come. -/
def seen (ts : List Token) (toks : List UInt8) : Bool :=
  match ts.head?.bind Token.first with
  | some c => decide (c ∈ toks)
  | none => false

/-- The text between the two pointers. -/
def Span.text (span : Span) : List UInt8 := span.q.take (span.q.length - span.eq.length)

/-- The two pointers enclose a whole word of the line. -/
def SpanOk (line : Ptr) (span : Span) : Prop :=
  ∃ before text, line = before ++ (text ++ span.eq) ∧ span.q = text ++ span.eq ∧
    (∀ c ∈ text, IsPlain c) ∧ ∀ c ∈ span.eq.head?, ¬ IsPlain c

section Scanner

variable {ps line : Ptr} {ts : List Token} {t : Token} {c : UInt8} {rest : List UInt8}

theorem tokens_whitespace (hc : c ∈ whitespace) : tokens (c :: rest) = tokens rest := by
  rw [tokens.eq_def]
  exact if_pos hc

theorem tokens_greater (hc : c ∈ chars ">") : tokens (c :: rest) =
    match rest with
    | [] => [.greater]
    | d :: rest' =>
        if d ∈ chars ">" then .append :: tokens rest' else .greater :: tokens (d :: rest') := by
  have hwhite : c ∉ whitespace := by
    have hnot : ∀ d ∈ chars ">", d ∉ whitespace := by simp [chars, whitespace]
    exact hnot c hc
  rw [tokens.eq_def]
  dsimp only
  rw [if_neg hwhite, if_pos hc]

theorem tokens_symbol (hc : c ∈ symbols) (hgreater : c ∉ chars ">") :
    tokens (c :: rest) = .ofSymbol c :: tokens rest := by
  have hwhite : c ∉ whitespace := by
    have hnot : ∀ d ∈ symbols, d ∉ whitespace := by simp [chars, symbols, whitespace]
    exact hnot c hc
  rw [tokens.eq_def]
  dsimp only
  rw [if_neg hwhite, if_neg hgreater, if_pos hc]

theorem IsPlain.not_greater (hc : IsPlain c) : c ∉ chars ">" := fun hmem => by
  have hsub : ∀ d ∈ chars ">", d ∈ symbols := by simp [chars, symbols]
  exact hc.2 (hsub c hmem)

/-- A plain character starts a word. -/
theorem tokens_plain (hc : IsPlain c) :
    tokens (c :: rest) = .word (c :: rest.takeWhile fun d => IsPlain d) ::
      tokens (rest.dropWhile fun d => IsPlain d) := by
  induction rest generalizing c with
  | nil =>
      rw [tokens.eq_def]
      dsimp only
      rw [if_neg hc.1, if_neg hc.not_greater, if_neg hc.2]
      rfl
  | cons d rest ih =>
      rw [tokens.eq_def]
      dsimp only
      rw [if_neg hc.1, if_neg hc.not_greater, if_neg hc.2]
      by_cases hd : IsPlain d
      · rw [ih hd, List.takeWhile_cons_of_pos (by simpa using hd),
          List.dropWhile_cons_of_pos (by simpa using hd)]
        exact if_pos hd
      · rw [List.takeWhile_cons_of_neg (by simpa using hd),
          List.dropWhile_cons_of_neg (by simpa using hd)]
        rcases tokens (d :: rest) with _ | ⟨t, ts⟩
        · rfl
        · cases t with
          | word text => exact if_neg hd
          | _ => rfl

theorem tokens_skipWhitespace (s : Ptr) : tokens (skipWhitespace s) = tokens s := by
  induction s with
  | nil => rfl
  | cons c rest ih =>
      by_cases hc : c ∈ whitespace
      · rw [skipWhitespace, List.dropWhile_cons_of_pos (by simpa using hc), tokens_whitespace hc]
        exact ih
      · rw [skipWhitespace, List.dropWhile_cons_of_neg (by simpa using hc)]

theorem head_skipWhitespace (s : Ptr) : ∀ c ∈ (skipWhitespace s).head?, c ∉ whitespace := by
  intro c hhead
  have hnot := List.head?_dropWhile_not (fun c => decide (c ∈ whitespace)) s
  rw [show (s.dropWhile fun c => decide (c ∈ whitespace)).head? = some c from hhead] at hnot
  simpa using hnot

theorem not_isPlain_dropWhile (s : Ptr) :
    ∀ d ∈ (s.dropWhile fun c => IsPlain c).head?, ¬ IsPlain d := by
  intro d hhead
  have hnot := List.head?_dropWhile_not (fun c => decide (IsPlain c)) s
  rw [hhead] at hnot
  simpa using hnot

/-- What the scanner sees at a character: the first token, and the rest of the line behind it. -/
structure Scanned (s : Ptr) (t : Token) : Prop where
  tok : (token s).1 = t.tok
  tokens : Shell.tokens s = t :: Shell.tokens (token s).2
  first : t.first = if IsPlain (s.headD 0) then none else s.head?
  suffix : (token s).2 <:+ s.tail
  text : ∀ text, t = .word text → s = text ++ (token s).2 ∧ (∀ d ∈ text, IsPlain d) ∧
    ∀ d ∈ (token s).2.head?, ¬ IsPlain d

theorem token_symbol (hc : c ∈ symbols) (hgreater : c ∉ chars ">") :
    token (c :: rest) = (.symbol c, rest) := by
  have hin : ∀ d ∈ symbols, d ∉ chars ">" → d ∈ chars "|();&<" := by simp [chars, symbols]
  exact if_pos (hin c hc hgreater)

theorem token_plain (hc : IsPlain c) :
    token (c :: rest) = (.word, rest.dropWhile fun d => IsPlain d) := by
  have hin : ∀ d ∈ chars "|();&<", d ∈ symbols := by simp [chars, symbols]
  rw [token.eq_def]
  dsimp only
  rw [if_neg fun hmem => hc.2 (hin c hmem), if_neg hc.not_greater,
    List.dropWhile_cons_of_pos (by simpa using hc)]

theorem scanned_symbol (hc : c ∈ symbols) (hgreater : c ∉ chars ">") :
    Scanned (c :: rest) (.ofSymbol c) := by
  have htoken := @token_symbol c rest hc hgreater
  have hplain : ¬ IsPlain c := fun h => h.2 hc
  constructor
  · rw [htoken]
    have htok : ∀ d ∈ symbols, d ∉ chars ">" → Tok.symbol d = (Token.ofSymbol d).tok := by
      simp [chars, symbols, Token.ofSymbol, Token.tok, Token.first]
    exact htok c hc hgreater
  · rw [htoken]
    exact tokens_symbol hc hgreater
  · rw [List.headD_cons, if_neg hplain]
    have hfirst : ∀ d ∈ symbols, d ∉ chars ">" → (Token.ofSymbol d).first = some d := by
      simp [chars, symbols, Token.ofSymbol, Token.first]
    exact hfirst c hc hgreater
  · rw [htoken]
    exact List.suffix_rfl
  · intro text heq
    have hno : ∀ d ∈ symbols, (Token.ofSymbol d).first ≠ none := by
      simp [chars, symbols, Token.ofSymbol, Token.first]
    exact absurd (by rw [heq]; rfl) (hno c hc)

theorem scanned_greater (hc : c ∈ chars ">") : ∃ t, Scanned (c :: rest) t := by
  obtain rfl : c = UInt8.ofNat '>'.toNat := by
    have honly : ∀ d ∈ chars ">", d = UInt8.ofNat '>'.toNat := by simp [chars]
    exact honly c hc
  cases rest with
  | nil =>
      exact ⟨.greater, rfl, rfl, rfl, List.suffix_rfl, fun text heq => by cases heq⟩
  | cons d rest =>
      by_cases hd : d ∈ chars ">"
      · have htoken : token (UInt8.ofNat '>'.toNat :: d :: rest) = (.append, rest) := if_pos hd
        refine ⟨.append, by rw [htoken]; rfl, ?_, rfl, ?_, fun text heq => by cases heq⟩
        · rw [htoken, tokens_greater hc]
          exact if_pos hd
        · rw [htoken]
          exact List.suffix_cons d rest
      · have htoken : token (UInt8.ofNat '>'.toNat :: d :: rest) =
            (.symbol (UInt8.ofNat '>'.toNat), d :: rest) := if_neg hd
        refine ⟨.greater, by rw [htoken]; rfl, ?_, rfl, ?_, fun text heq => by cases heq⟩
        · rw [htoken, tokens_greater hc]
          exact if_neg hd
        · rw [htoken]
          exact List.suffix_rfl

theorem scanned_plain (hc : IsPlain c) :
    Scanned (c :: rest) (.word (c :: rest.takeWhile fun d => IsPlain d)) := by
  have htoken := @token_plain c rest hc
  constructor
  · rw [htoken]
    rfl
  · rw [htoken, tokens_plain hc]
  · exact (if_pos hc).symm
  · rw [htoken]
    exact List.dropWhile_suffix _
  · intro text heq
    obtain rfl := Token.word.inj heq
    rw [htoken]
    refine ⟨?_, ?_, not_isPlain_dropWhile rest⟩
    · rw [List.cons_append, List.takeWhile_append_dropWhile]
    · intro d hd
      obtain rfl | hd := List.mem_cons.mp hd
      · exact hc
      · simpa using List.mem_takeWhile_imp hd

/-- There is a token at every character that is no white space. -/
theorem exists_scanned (hc : c ∉ whitespace) : ∃ t, Scanned (c :: rest) t := by
  by_cases hsymbol : c ∈ symbols
  · by_cases hgreater : c ∈ chars ">"
    · exact scanned_greater hgreater
    · exact ⟨_, scanned_symbol hsymbol hgreater⟩
  · exact ⟨_, scanned_plain ⟨hc, hsymbol⟩⟩

/-- A line has no more tokens than characters. -/
theorem length_tokens_le (s : Ptr) : (tokens s).length ≤ s.length := by
  suffices hbound : ∀ n (s : Ptr), s.length ≤ n → (tokens s).length ≤ s.length from
    hbound s.length s le_rfl
  intro n
  induction n with
  | zero =>
      intro s hs
      rw [List.length_eq_zero_iff.mp (Nat.le_zero.mp hs)]
      exact le_rfl
  | succ n ih =>
      intro s hs
      cases s with
      | nil => exact Nat.zero_le _
      | cons c rest =>
          have hrest : rest.length ≤ n := Nat.le_of_succ_le_succ hs
          rw [List.length_cons]
          by_cases hc : c ∈ whitespace
          · rw [tokens_whitespace hc]
            exact (ih rest hrest).trans (Nat.le_succ _)
          · obtain ⟨t, hscanned⟩ := @exists_scanned c rest hc
            have hshorter : (token (c :: rest)).2.length ≤ rest.length :=
              hscanned.suffix.length_le
            rw [hscanned.tokens, List.length_cons]
            exact Nat.succ_le_succ ((ih _ (hshorter.trans hrest)).trans hshorter)

theorem tokens_eq_nil_iff (s : Ptr) : tokens s = [] ↔ skipWhitespace s = [] := by
  rw [← tokens_skipWhitespace]
  cases hskip : skipWhitespace s with
  | nil => exact iff_of_true rfl rfl
  | cons c rest =>
      obtain ⟨t, hscanned⟩ := @exists_scanned c rest
        (head_skipWhitespace s c (by rw [hskip]; rfl))
      refine iff_of_false ?_ (List.cons_ne_nil _ _)
      rw [hscanned.tokens]
      exact List.cons_ne_nil _ _

theorem skipWhitespace_suffix (s : Ptr) : skipWhitespace s <:+ s := List.dropWhile_suffix _

/-- `peek` looks at the next token. -/
theorem peek_eq (ps : Ptr) {toks : List UInt8} (htoks : ∀ c ∈ toks, c ∈ symbols) :
    peek ps toks = (seen (tokens ps) toks, skipWhitespace ps) := by
  rw [← tokens_skipWhitespace, peek]
  cases hskip : skipWhitespace ps with
  | nil => rfl
  | cons c rest =>
      obtain ⟨t, hscanned⟩ := @exists_scanned c rest
        (head_skipWhitespace ps c (by rw [hskip]; rfl))
      have hfirst := hscanned.first
      rw [List.headD_cons, List.head?_cons] at hfirst
      dsimp only
      congr 1
      rw [seen, hscanned.tokens, List.head?_cons, Option.bind_some, hfirst]
      by_cases hc : IsPlain c
      · rw [if_pos hc]
        exact decide_eq_false fun hmem => hc.2 (htoks c hmem)
      · rw [if_neg hc]

/-- `gettoken` takes the next token. -/
theorem gettoken_cons (hts : tokens ps = t :: ts) : ∃ span ps', gettoken ps = (t.tok, span, ps') ∧
    tokens ps' = ts ∧ ps' <:+ ps ∧ ∀ text, t = .word text → span.text = text ∧ SpanOk ps span := by
  rw [← tokens_skipWhitespace] at hts
  obtain ⟨before, hbefore⟩ := skipWhitespace_suffix ps
  cases hskip : skipWhitespace ps with
  | nil =>
      rw [hskip] at hts
      cases hts
  | cons c rest =>
      obtain ⟨t', hscanned⟩ := @exists_scanned c rest
        (head_skipWhitespace ps c (by rw [hskip]; rfl))
      obtain ⟨rfl, hrest⟩ := List.cons.inj (hscanned.tokens.symm.trans (hskip ▸ hts))
      rw [gettoken, hskip]
      refine ⟨⟨c :: rest, (token (c :: rest)).2⟩, skipWhitespace (token (c :: rest)).2, ?_, ?_, ?_, ?_⟩
      · dsimp only
        rw [hscanned.tok]
      · rw [tokens_skipWhitespace, hrest]
      · rw [← hbefore, hskip]
        exact ((skipWhitespace_suffix _).trans
          (hscanned.suffix.trans (List.tail_suffix _))).trans (List.suffix_append _ _)
      · intro text heq
        obtain ⟨hline, hplain, hend⟩ := hscanned.text text heq
        refine ⟨?_, before, text, ?_, hline, hplain, hend⟩
        · rw [Span.text]
          dsimp only
          generalize (token (c :: rest)).2 = rest' at hline
          rw [hline, List.length_append, Nat.add_sub_cancel, List.take_left]
        · rw [← hbefore, hskip]
          exact congrArg _ hline

theorem gettoken_nil (hts : tokens ps = []) : gettoken ps = (.eof, ⟨[], []⟩, []) := by
  rw [gettoken, (tokens_eq_nil_iff ps).mp hts]
  rfl

end Scanner

/-! ## Soundness -/

/-- Every word of the tree is a word of the line. -/
def WordsOk (line : Ptr) (cmd : Cmd Span) : Prop := ∀ span ∈ cmd.words, SpanOk line span

/-- With the fuel, the parser either panics or has read some tokens with this tree. -/
def Sound (line ps : Ptr) (reads : List Token → Tree → Prop) : Outcome → Prop
  | .outOfFuel => False
  | .panic _ => True
  | .done cmd ps' => ps' <:+ line ∧ WordsOk line cmd ∧
      ∃ ts, tokens ps = ts ++ tokens ps' ∧ reads ts (cmd.map Span.text)

section Soundness

variable {line ps : Ptr} {ts : List Token} {t : Token} {cmd : Cmd Span}
  {reads reads' : List Token → Tree → Prop}

theorem SpanOk.mono {span : Span} (hok : SpanOk ps span) (hsuffix : ps <:+ line) :
    SpanOk line span := by
  obtain ⟨before, text, rfl, hq, hplain, hend⟩ := hok
  obtain ⟨start, rfl⟩ := hsuffix
  exact ⟨start ++ before, text, (List.append_assoc _ _ _).symm, hq, hplain, hend⟩

/-- One parser after the other. -/
theorem Sound.andThen {outcome : Outcome} (hsound : Sound line ps reads outcome)
    {next : Cmd Span → Ptr → Outcome}
    (hnext : ∀ cmd ps' ts, ps' <:+ line → WordsOk line cmd → tokens ps = ts ++ tokens ps' →
      reads ts (cmd.map Span.text) →
      Sound line ps' (fun ts' tree => reads' (ts ++ ts') tree) (next cmd ps')) :
    Sound line ps reads' (outcome.andThen next) := by
  cases outcome with
  | outOfFuel => exact hsound
  | panic message => trivial
  | done cmd ps' =>
      obtain ⟨hsuffix, hwords, ts, hts, hreads⟩ := hsound
      have hrest := hnext cmd ps' ts hsuffix hwords hts hreads
      rw [Outcome.andThen]
      cases hresult : next cmd ps' with
      | outOfFuel => rwa [hresult] at hrest
      | panic message => trivial
      | done cmd' ps'' =>
          rw [hresult] at hrest
          obtain ⟨hsuffix', hwords', ts', hts', hreads'⟩ := hrest
          exact ⟨hsuffix', hwords', ts ++ ts', by rw [hts, hts', List.append_assoc], hreads'⟩

/-- The same from the place where `peek` has left the pointer, or behind a token. -/
theorem Sound.mono {ps' : Ptr} {outcome : Outcome} (ts : List Token) (hsound : Sound line ps' reads outcome)
    (hts : tokens ps = ts ++ tokens ps')
    (hreads : ∀ ts' tree, reads ts' tree → reads' (ts ++ ts') tree) :
    Sound line ps reads' outcome := by
  cases outcome with
  | outOfFuel => exact hsound
  | panic message => trivial
  | done cmd ps'' =>
      obtain ⟨hsuffix, hwords, ts', hts', hread⟩ := hsound
      exact ⟨hsuffix, hwords, ts ++ ts', by rw [hts, hts', List.append_assoc], hreads ts' _ hread⟩

theorem skipWhitespace_suffix_of (hps : ps <:+ line) : skipWhitespace ps <:+ line :=
  (skipWhitespace_suffix ps).trans hps

/-- Nothing is read. -/
theorem sound_done (hps : ps <:+ line) (hwords : WordsOk line cmd)
    (hreads : reads [] (cmd.map Span.text)) : Sound line ps reads (.done cmd (skipWhitespace ps)) :=
  ⟨skipWhitespace_suffix_of hps, hwords, [], by rw [tokens_skipWhitespace, List.nil_append], hreads⟩

theorem redircmd_token (direction : Direction) (cmd : Cmd Span) (file : Span) :
    redircmd direction.token.tok cmd file = .redir cmd file direction.mode direction.fd := by
  cases direction <;> rfl

theorem exists_direction (hseen : seen (t :: ts) (chars "<>") = true) :
    ∃ direction : Direction, t = direction.token := by
  have hseen : seen [t] (chars "<>") = true := hseen
  cases t with
  | less => exact ⟨.input, rfl⟩
  | greater => exact ⟨.output, rfl⟩
  | append => exact ⟨.append, rfl⟩
  | word text => cases hseen
  | _ => exact absurd hseen (by decide)

/-- `parseredirs` reads redirections. -/
theorem parseredirs_sound {fuel : ℕ} (hps : ps <:+ line) (hfuel : (tokens ps).length < fuel)
    (hwords : WordsOk line cmd) :
    Sound line ps (fun ts tree => ∃ redirections, ts = redirTokens redirections ∧
      tree = wrapAll redirections (cmd.map Span.text)) (parseredirs fuel cmd ps) := by
  induction fuel generalizing ps cmd with
  | zero => exact absurd hfuel (Nat.not_lt_zero _)
  | succ fuel ih =>
      rw [parseredirs, peek_eq ps (by simp [chars, symbols])]
      dsimp only
      split
      · rename_i hseen
        have hskip := skipWhitespace_suffix_of hps
        cases hts : tokens ps with
        | nil =>
            rw [hts] at hseen
            cases hseen
        | cons t ts =>
            rw [hts] at hseen hfuel
            obtain ⟨direction, rfl⟩ := exists_direction hseen
            obtain ⟨_, ps₁, htoken, hts₁, hps₁, -⟩ :=
              gettoken_cons ((tokens_skipWhitespace ps).trans hts)
            rw [htoken]
            dsimp only
            cases ts with
            | nil =>
                rw [gettoken_nil hts₁, if_pos (by decide)]
                trivial
            | cons t' ts =>
                obtain ⟨file, ps₂, htoken', hts₂, hps₂, hfile⟩ := gettoken_cons hts₁
                rw [htoken']
                dsimp only
                split
                · trivial
                · rename_i hword
                  obtain ⟨text, rfl⟩ : ∃ text, t' = .word text := by
                    cases t' with
                    | word text => exact ⟨text, rfl⟩
                    | _ => exact absurd (by decide) hword
                  obtain ⟨htext, hspan⟩ := hfile text rfl
                  have hps₁ := hps₁.trans hskip
                  rw [redircmd_token]
                  have hrest := @ih ps₂ (.redir cmd file direction.mode direction.fd)
                    (hps₂.trans hps₁) (by rw [hts₂]; simp only [List.length_cons] at hfuel; omega)
                    (by
                      intro span hspan'
                      obtain hspan' | hspan' := List.mem_append.mp hspan'
                      · exact hwords span hspan'
                      · obtain rfl := List.mem_singleton.mp hspan'
                        exact hspan.mono hps₁)
                  apply hrest.mono [direction.token, .word text]
                  · rw [hts, hts₂]
                    rfl
                  · rintro ts' tree ⟨redirections, rfl, rfl⟩
                    refine ⟨⟨direction, text⟩ :: redirections, rfl, ?_⟩
                    rw [Cmd.map, htext]
                    rfl
      · exact sound_done hps hwords ⟨[], rfl, rfl⟩

/-- What a run of arguments adds to a tree. -/
def addArgs (args : List Argument) (cmd : Tree) : Tree :=
  args.foldl (fun cmd arg => wrapAll arg.redirections (cmd.addArg arg.word)) cmd

theorem map_addArg (f : Span → List UInt8) (cmd : Cmd Span) (word : Span) :
    (cmd.addArg word).map f = (cmd.map f).addArg (f word) := by
  induction cmd with
  | exec argv => simp [Cmd.addArg, Cmd.map]
  | redir cmd file mode fd ih => simp only [Cmd.addArg, Cmd.map, ih]
  | _ => rfl

theorem words_addArg {word : Span} (hwords : WordsOk line cmd) (hword : SpanOk line word) :
    WordsOk line (cmd.addArg word) := by
  induction cmd with
  | exec argv =>
      intro span hspan
      obtain hspan | hspan := List.mem_append.mp hspan
      · exact hwords span hspan
      · obtain rfl := List.mem_singleton.mp hspan
        exact hword
  | redir cmd file mode fd ih =>
      intro span hspan
      obtain hspan | hspan := List.mem_append.mp hspan
      · exact ih (fun other hother => hwords other (List.mem_append_left _ hother)) span hspan
      · exact hwords span (List.mem_append_right _ hspan)
  | _ => exact hwords

theorem wrapAll_addArg (redirections : List Redirection) (cmd : Tree) (word : List UInt8) :
    (wrapAll redirections cmd).addArg word = wrapAll redirections (cmd.addArg word) := by
  induction redirections generalizing cmd with
  | nil => rfl
  | cons redirection rest ih => exact ih _

theorem addArgs_wrapAll (first : List Redirection) (argv : List (List UInt8)) (args : List Argument) :
    addArgs args (wrapAll first (.exec argv)) =
      wrapAll (first ++ args.flatMap Argument.redirections)
        (.exec (argv ++ args.map Argument.word)) := by
  induction args generalizing first argv with
  | nil => rw [List.flatMap_nil, List.map_nil, List.append_nil, List.append_nil]; rfl
  | cons arg args ih =>
      have hnext := ih (first ++ arg.redirections) (argv ++ [arg.word])
      rw [List.append_assoc, List.append_assoc] at hnext
      rw [List.flatMap_cons, List.map_cons]
      refine Eq.trans ?_ hnext
      rw [addArgs, List.foldl_cons, wrapAll_addArg, addArgs]
      congr 1
      rw [wrapAll, wrapAll, wrapAll, List.foldl_append]
      rfl

theorem seen_word (text : List UInt8) (ts : List Token) (toks : List UInt8) :
    seen (.word text :: ts) toks = false := rfl

/-- The loop of `parseexec` reads arguments. -/
theorem parseargs_sound {fuel argc : ℕ} (hps : ps <:+ line) (hfuel : (tokens ps).length < fuel)
    (hargc : argc ≤ 9) (hwords : WordsOk line cmd) :
    Sound line ps (fun ts tree => ∃ args, argc + args.length ≤ 9 ∧ ts = argTokens args ∧
      tree = addArgs args (cmd.map Span.text)) (parseargs fuel argc cmd ps) := by
  induction fuel generalizing ps cmd argc with
  | zero => exact absurd hfuel (Nat.not_lt_zero _)
  | succ fuel ih =>
      rw [parseargs, peek_eq ps (by simp [chars, symbols])]
      dsimp only
      split
      · exact sound_done hps hwords ⟨[], hargc, rfl, rfl⟩
      · have hskip := skipWhitespace_suffix_of hps
        cases hts : tokens ps with
        | nil =>
            rw [gettoken_nil ((tokens_skipWhitespace ps).trans hts), if_pos rfl]
            refine ⟨List.nil_suffix, hwords, [], by rw [hts]; rfl, [], hargc, rfl, rfl⟩
        | cons t ts =>
            rw [hts] at hfuel
            obtain ⟨word, ps₁, htoken, hts₁, hps₁, hword⟩ :=
              gettoken_cons ((tokens_skipWhitespace ps).trans hts)
            rw [htoken]
            dsimp only
            split
            · rename_i heof
              cases t with
              | word text => cases heof
              | _ => exact absurd heof (by decide)
            · split
              · trivial
              · rename_i hnot
                obtain ⟨text, rfl⟩ : ∃ text, t = .word text := by
                  cases t with
                  | word text => exact ⟨text, rfl⟩
                  | _ => exact absurd (by decide) hnot
                split
                · trivial
                · rename_i hroom
                  have hroom : argc + 1 ≤ 9 := by
                    rw [maxArgs] at hroom
                    omega
                  obtain ⟨htext, hspan⟩ := hword text rfl
                  have hps₁ := hps₁.trans hskip
                  have hlength : (tokens ps₁).length < fuel := by
                    rw [hts₁]
                    simpa using hfuel
                  have hredirs := parseredirs_sound hps₁ hlength
                    (words_addArg hwords (hspan.mono hskip))
                  have hmore : Sound line ps₁ (fun ts tree => ∃ redirections args,
                      argc + 1 + args.length ≤ 9 ∧
                      ts = redirTokens redirections ++ argTokens args ∧
                      tree = addArgs args
                        (wrapAll redirections ((cmd.map Span.text).addArg text)))
                      ((parseredirs fuel (cmd.addArg word) ps₁).andThen
                        (parseargs fuel (argc + 1))) := by
                    apply hredirs.andThen
                    rintro cmd' ps₂ ts' hps₂ hwords' hts₂ ⟨redirections, rfl, htree⟩
                    have hlater : (tokens ps₂).length < fuel := by
                      rw [hts₂, List.length_append] at hlength
                      omega
                    apply (ih hps₂ hlater hroom hwords').mono []
                    · rw [List.nil_append]
                    · rintro ts'' tree ⟨args, hcount, rfl, rfl⟩
                      refine ⟨redirections, args, hcount, rfl, ?_⟩
                      rw [htree, map_addArg, htext]
                  apply hmore.mono [.word text]
                  · rw [hts, hts₁]
                    rfl
                  · rintro ts' tree ⟨redirections, args, hcount, rfl, rfl⟩
                    refine ⟨⟨text, redirections⟩ :: args, ?_, rfl, rfl⟩
                    rw [List.length_cons]
                    omega

theorem sound_skip {outcome : Outcome} (hsound : Sound line (skipWhitespace ps) reads outcome) :
    Sound line ps reads outcome :=
  hsound.mono [] (by rw [tokens_skipWhitespace, List.nil_append]) fun _ _ hread => hread

/-- The ampersands of a line. -/
theorem parsebacks_sound {fuel : ℕ} (hps : ps <:+ line) (hfuel : (tokens ps).length < fuel)
    (hwords : WordsOk line cmd) :
    Sound line ps (fun ts tree => ∃ count, ts = List.replicate count .amp ∧
      tree = Cmd.back^[count] (cmd.map Span.text)) (parsebacks fuel cmd ps) := by
  induction fuel generalizing ps cmd with
  | zero => exact absurd hfuel (Nat.not_lt_zero _)
  | succ fuel ih =>
      rw [parsebacks, peek_eq ps (by simp [chars, symbols])]
      dsimp only
      split
      · rename_i hseen
        cases hts : tokens ps with
        | nil =>
            rw [hts] at hseen
            cases hseen
        | cons t ts =>
            rw [hts] at hseen hfuel
            have hseen : seen [t] (chars "&") = true := hseen
            obtain rfl : t = .amp := by
              cases t with
              | amp => rfl
              | word text => cases hseen
              | _ => exact absurd hseen (by decide)
            obtain ⟨_, ps₁, htoken, hts₁, hps₁, -⟩ :=
              gettoken_cons ((tokens_skipWhitespace ps).trans hts)
            rw [htoken]
            have hrest := @ih ps₁ (.back cmd) (hps₁.trans (skipWhitespace_suffix_of hps))
              (by rw [hts₁]; simpa using hfuel) hwords
            apply hrest.mono [.amp]
            · rw [hts, hts₁]
              rfl
            · rintro ts' tree ⟨count, rfl, rfl⟩
              exact ⟨count + 1, rfl, rfl⟩
      · exact sound_done hps hwords ⟨0, rfl, rfl⟩

/-- A symbol that `peek` has seen and `gettoken` takes. -/
theorem seen_cons {toks : List UInt8} (hseen : seen (tokens ps) toks = true) :
    ∃ t ts ps', tokens ps = t :: ts ∧ seen [t] toks = true ∧
      (gettoken (skipWhitespace ps)).2.2 = ps' ∧ tokens ps' = ts ∧ ps' <:+ ps := by
  cases hts : tokens ps with
  | nil =>
      rw [hts] at hseen
      cases hseen
  | cons t ts =>
      rw [hts] at hseen
      obtain ⟨_, ps₁, htoken, hts₁, hps₁, -⟩ :=
        gettoken_cons ((tokens_skipWhitespace ps).trans hts)
      exact ⟨t, ts, ps₁, rfl, hseen, by rw [htoken], hts₁, hps₁.trans (skipWhitespace_suffix ps)⟩

/-- The fuel that a phrase of `n` tokens needs. -/
def Phrase.fuel (n : ℕ) : Phrase → ℕ
  | .line => 4 * n + 4
  | .pipe => 4 * n + 3
  | .item => 4 * n + 2

/-- The parser of a phrase. -/
def Phrase.parse (fuel : ℕ) (ps : Ptr) : Phrase → Outcome
  | .line => parseline fuel ps
  | .pipe => parsepipe fuel ps
  | .item => parseexec fuel ps

/-- The parsers with some fuel read phrases. -/
def SoundUpTo (line : Ptr) (fuel : ℕ) : Prop :=
  ∀ (phrase : Phrase) (ps : Ptr), ps <:+ line → phrase.fuel (tokens ps).length ≤ fuel →
    Sound line ps (Derives phrase) (phrase.parse fuel ps)

theorem parseline_sound {fuel : ℕ} (ih : SoundUpTo line fuel) (hps : ps <:+ line)
    (hfuel : 4 * (tokens ps).length + 4 ≤ fuel + 1) :
    Sound line ps (Derives .line) (parseline (fuel + 1) ps) := by
  rw [parseline]
  apply (ih .pipe ps hps (by rw [Phrase.fuel]; omega)).andThen
  intro cmd ps₁ ts hps₁ hwords hts hpipe
  have hlength : (tokens ps₁).length ≤ (tokens ps).length := by
    rw [hts, List.length_append]
    omega
  apply (parsebacks_sound hps₁ (show (tokens ps₁).length < fuel by omega) hwords).andThen
  rintro cmd' ps₂ ts' hps₂ hwords' hts' ⟨count, rfl, htree⟩
  rw [peek_eq ps₂ (by simp [chars, symbols])]
  dsimp only
  split
  · rename_i hseen
    obtain ⟨t, ts₃, ps₃, hts₂, hone, hget, hts₃, hps₃⟩ := seen_cons hseen
    obtain rfl : t = .semi := by
      cases t with
      | semi => rfl
      | word text => cases hone
      | _ => exact absurd hone (by decide)
    have hshorter : (tokens ps₃).length + 1 ≤ (tokens ps₁).length := by
      rw [hts', hts₂, hts₃, List.length_append, List.length_cons]
      omega
    rw [hget]
    have hright : Sound line ps₃ (fun ts tree => ∃ right, Derives .line ts right ∧
        tree = .list (cmd'.map Span.text) right)
        ((parseline fuel ps₃).andThen fun right ps => .done (.list cmd' right) ps) := by
      apply (ih .line ps₃ (hps₃.trans hps₂) (by rw [Phrase.fuel]; omega)).andThen
      intro right ps₄ ts₄ hps₄ hwordsR hts₄ hline
      refine ⟨hps₄, ?_, [], rfl, right.map Span.text, by rwa [List.append_nil], rfl⟩
      intro span hspan
      obtain hspan | hspan := List.mem_append.mp hspan
      · exact hwords' span hspan
      · exact hwordsR span hspan
    apply hright.mono [.semi]
    · rw [hts₂, hts₃]
      rfl
    · rintro ts₄ tree ⟨right, hline, rfl⟩
      have hderives := Derives.list count hpipe hline
      rw [htree]
      simpa only [List.append_assoc, List.cons_append, List.nil_append] using hderives
  · apply sound_done hps₂ hwords'
    rw [List.append_nil, htree]
    exact .line count hpipe

theorem parsepipe_sound {fuel : ℕ} (ih : SoundUpTo line fuel) (hps : ps <:+ line)
    (hfuel : 4 * (tokens ps).length + 3 ≤ fuel + 1) :
    Sound line ps (Derives .pipe) (parsepipe (fuel + 1) ps) := by
  rw [parsepipe]
  apply (ih .item ps hps (by rw [Phrase.fuel]; omega)).andThen
  intro cmd ps₁ ts hps₁ hwords hts hitem
  rw [peek_eq ps₁ (by simp [chars, symbols])]
  dsimp only
  split
  · rename_i hseen
    obtain ⟨t, ts₂, ps₂, hts₁, hone, hget, hts₂, hps₂⟩ := seen_cons hseen
    obtain rfl : t = .bar := by
      cases t with
      | bar => rfl
      | word text => cases hone
      | _ => exact absurd hone (by decide)
    have hshorter : (tokens ps₂).length + 1 ≤ (tokens ps).length := by
      rw [hts, hts₁, hts₂, List.length_append, List.length_cons]
      omega
    rw [hget]
    have hright : Sound line ps₂ (fun ts tree => ∃ right, Derives .pipe ts right ∧
        tree = .pipe (cmd.map Span.text) right)
        ((parsepipe fuel ps₂).andThen fun right ps => .done (.pipe cmd right) ps) := by
      apply (ih .pipe ps₂ (hps₂.trans hps₁) (by rw [Phrase.fuel]; omega)).andThen
      intro right ps₃ ts₃ hps₃ hwordsR hts₃ hpipe
      refine ⟨hps₃, ?_, [], rfl, right.map Span.text, by rwa [List.append_nil], rfl⟩
      intro span hspan
      obtain hspan | hspan := List.mem_append.mp hspan
      · exact hwords span hspan
      · exact hwordsR span hspan
    apply hright.mono [.bar]
    · rw [hts₁, hts₂]
      rfl
    · rintro ts₃ tree ⟨right, hpipe, rfl⟩
      exact .pipe hitem hpipe
  · apply sound_done hps₁ hwords
    rw [List.append_nil]
    exact .single hitem

theorem parseblock_sound {fuel : ℕ} (ih : SoundUpTo line fuel) (hps : ps <:+ line)
    (hfuel : 4 * (tokens ps).length + 1 ≤ fuel + 1) :
    Sound line ps (Derives .item) (parseblock (fuel + 1) ps) := by
  rw [parseblock, peek_eq ps (by simp [chars, symbols])]
  dsimp only
  split
  · trivial
  · rename_i hseen
    obtain ⟨t, ts₁, ps₁, hts, hone, hget, hts₁, hps₁⟩ := seen_cons (not_not.mp hseen)
    obtain rfl : t = .lparen := by
      cases t with
      | lparen => rfl
      | word text => cases hone
      | _ => exact absurd hone (by decide)
    have hshorter : (tokens ps₁).length + 1 = (tokens ps).length := by
      rw [hts, hts₁, List.length_cons]
    rw [hget]
    have hinner : Sound line ps₁ (fun ts tree => ∃ inner cmd redirections, Derives .line inner cmd ∧
        ts = inner ++ .rparen :: redirTokens redirections ∧ tree = wrapAll redirections cmd)
        ((parseline fuel ps₁).andThen fun cmd ps =>
          if ¬ (peek ps (chars ")")).1 then .panic .missingParen
          else parseredirs fuel cmd (gettoken (peek ps (chars ")")).2).2.2) := by
      apply (ih .line ps₁ (hps₁.trans hps) (by rw [Phrase.fuel]; omega)).andThen
      intro cmd ps₂ ts₂ hps₂ hwords hts₂ hline
      rw [peek_eq ps₂ (by simp [chars, symbols])]
      dsimp only
      split
      · trivial
      · rename_i hclose
        obtain ⟨t, ts₃, ps₃, hts₃, hone, hget, hts₃', hps₃⟩ := seen_cons (not_not.mp hclose)
        obtain rfl : t = .rparen := by
          cases t with
          | rparen => rfl
          | word text => cases hone
          | _ => exact absurd hone (by decide)
        have hlength : (tokens ps₃).length < fuel := by
          rw [hts₂, hts₃, List.length_append, List.length_cons, ← hts₃'] at hshorter
          omega
        rw [hget]
        apply (parseredirs_sound (hps₃.trans hps₂) hlength hwords).mono [.rparen]
        · rw [hts₃, hts₃']
          rfl
        · rintro ts₄ tree ⟨redirections, rfl, rfl⟩
          exact ⟨ts₂, _, redirections, hline, rfl, rfl⟩
    apply hinner.mono [.lparen]
    · rw [hts, hts₁]
      rfl
    · rintro ts' tree ⟨inner, cmd, redirections, hline, rfl, rfl⟩
      exact .block redirections hline

theorem parseexec_sound {fuel : ℕ}
    (hblock : ∀ ps, ps <:+ line → 4 * (tokens ps).length + 1 ≤ fuel →
      Sound line ps (Derives .item) (parseblock fuel ps)) (hps : ps <:+ line)
    (hfuel : 4 * (tokens ps).length + 2 ≤ fuel + 1) :
    Sound line ps (Derives .item) (parseexec (fuel + 1) ps) := by
  rw [parseexec, peek_eq ps (by simp [chars, symbols])]
  dsimp only
  have hskip := skipWhitespace_suffix_of hps
  split
  · apply sound_skip
    apply hblock _ hskip
    rw [tokens_skipWhitespace]
    omega
  · apply sound_skip
    have hwords : WordsOk line (.exec []) := fun span hspan => absurd hspan List.not_mem_nil
    apply (parseredirs_sound hskip (show (tokens (skipWhitespace ps)).length < fuel by
      rw [tokens_skipWhitespace]
      omega) hwords).andThen
    rintro cmd ps₁ ts hps₁ hwords₁ hts ⟨first, rfl, htree⟩
    rw [tokens_skipWhitespace] at hts
    have hlength : (tokens ps₁).length < fuel := by
      rw [hts, List.length_append] at hfuel
      omega
    apply (parseargs_sound hps₁ hlength (Nat.zero_le 9) hwords₁).mono []
    · rw [List.nil_append]
    · rintro ts' tree ⟨args, hcount, rfl, rfl⟩
      rw [List.nil_append, htree]
      have htree : addArgs args (wrapAll first (.exec [])) = simple first args := by
        rw [addArgs_wrapAll, List.nil_append, simple]
      rw [show (Cmd.exec []).map Span.text = .exec [] from rfl, htree]
      exact .simple first args (by omega)

/-- With enough fuel, every parser panics or reads its phrase. -/
theorem parse_sound (line : Ptr) (fuel : ℕ) : SoundUpTo line fuel ∧
    ∀ ps, ps <:+ line → 4 * (tokens ps).length + 1 ≤ fuel →
      Sound line ps (Derives .item) (parseblock fuel ps) := by
  induction fuel with
  | zero =>
      refine ⟨fun phrase ps _ hfuel => ?_, fun ps _ hfuel => absurd hfuel (by omega)⟩
      cases phrase <;> exact absurd hfuel (by rw [Phrase.fuel]; omega)
  | succ fuel hboth =>
      obtain ⟨ih, hblock⟩ := hboth
      refine ⟨fun phrase ps hps hfuel => ?_, fun ps hps hfuel => parseblock_sound ih hps hfuel⟩
      cases phrase with
      | line => exact parseline_sound ih hps hfuel
      | pipe => exact parsepipe_sound ih hps hfuel
      | item => exact parseexec_sound hblock hps hfuel

end Soundness

/-! ## Completeness -/

/-- The parser returns the tree and leaves the tokens. -/
def Yields (tree : Tree) (ts : List Token) (outcome : Outcome) : Prop :=
  ∃ cmd ps', outcome = .done cmd ps' ∧ cmd.map Span.text = tree ∧ tokens ps' = ts

/-- The symbols that may follow a phrase. -/
def Phrase.follow : Phrase → List UInt8
  | .line => chars ")"
  | .pipe => chars ")&;"
  | .item => chars "|)&;"

def Ends (phrase : Phrase) (ts : List Token) : Prop := ts = [] ∨ seen ts phrase.follow = true

section Completeness

variable {ps : Ptr} {ts ts' : List Token} {t : Token} {cmd : Cmd Span} {tree tree' : Tree}

theorem Yields.andThen {outcome : Outcome} (hyields : Yields tree ts outcome)
    {next : Cmd Span → Ptr → Outcome}
    (hnext : ∀ cmd ps', cmd.map Span.text = tree → tokens ps' = ts →
      Yields tree' ts' (next cmd ps')) : Yields tree' ts' (outcome.andThen next) := by
  obtain ⟨cmd, ps', rfl, htree, hts⟩ := hyields
  exact hnext cmd ps' htree hts

theorem yields_done (htree : cmd.map Span.text = tree) (hts : tokens ps = ts) :
    Yields tree ts (.done cmd (skipWhitespace ps)) :=
  ⟨cmd, skipWhitespace ps, rfl, htree, (tokens_skipWhitespace ps).trans hts⟩

theorem seen_disjoint {left right : List UInt8} (hseen : ts = [] ∨ seen ts left = true)
    (hdisjoint : ∀ c ∈ left, c ∉ right) : seen ts right = false := by
  obtain rfl | hseen := hseen
  · rfl
  · rw [seen] at *
    cases hfirst : ts.head?.bind Token.first with
    | none => rfl
    | some c =>
        rw [hfirst] at hseen
        exact decide_eq_false (hdisjoint c (of_decide_eq_true hseen))

theorem seen_mono {left right : List UInt8} (hseen : ts = [] ∨ seen ts left = true)
    (hsubset : ∀ c ∈ left, c ∈ right) : ts = [] ∨ seen ts right = true := by
  obtain rfl | hseen := hseen
  · exact .inl rfl
  · rw [seen] at *
    cases hfirst : ts.head?.bind Token.first with
    | none =>
        rw [hfirst] at hseen
        cases hseen
    | some c =>
        rw [hfirst] at hseen
        exact .inr (decide_eq_true (hsubset c (of_decide_eq_true hseen)))

/-- The pointer behind the next token. -/
theorem tokens_gettoken (hts : tokens ps = t :: ts) :
    tokens (gettoken (skipWhitespace ps)).2.2 = ts := by
  obtain ⟨_, ps₁, htoken, hts₁, -⟩ := gettoken_cons ((tokens_skipWhitespace ps).trans hts)
  rw [htoken]
  exact hts₁

theorem tok_word (text : List UInt8) : (Token.word text).tok = .word := rfl

theorem seen_direction (direction : Direction) : seen [direction.token] (chars "<>") = true := by
  cases direction <;> decide

theorem parseredirs_complete {fuel : ℕ} {redirections : List Redirection}
    (hts : tokens ps = redirTokens redirections ++ ts) (hend : seen ts (chars "<>") = false)
    (hfuel : (tokens ps).length < fuel) :
    Yields (wrapAll redirections (cmd.map Span.text)) ts (parseredirs fuel cmd ps) := by
  induction fuel generalizing ps cmd redirections with
  | zero => exact absurd hfuel (Nat.not_lt_zero _)
  | succ fuel ih =>
      rw [parseredirs, peek_eq ps (by simp [chars, symbols])]
      dsimp only
      cases redirections with
      | nil =>
          have hts : tokens ps = ts := hts
          rw [hts, hend, if_neg (by decide)]
          exact yields_done rfl hts
      | cons redirection rest =>
          obtain ⟨direction, text⟩ := redirection
          have hts : tokens ps = direction.token :: .word text :: (redirTokens rest ++ ts) := hts
          have hseen : seen (tokens ps) (chars "<>") = true := by
            rw [hts]
            exact seen_direction direction
          obtain ⟨_, ps₁, htoken, hts₁, hps₁, -⟩ :=
            gettoken_cons ((tokens_skipWhitespace ps).trans hts)
          obtain ⟨file, ps₂, htoken', hts₂, hps₂, hfile⟩ := gettoken_cons hts₁
          rw [hseen, if_pos rfl, htoken]
          dsimp only
          rw [htoken']
          dsimp only
          rw [tok_word, if_neg (not_not.mpr rfl), redircmd_token]
          have hrest := @ih ps₂ (.redir cmd file direction.mode direction.fd) rest hts₂ (by
            rw [hts₂]
            rw [hts, List.length_cons, List.length_cons] at hfuel
            omega)
          rw [Cmd.map, (hfile text rfl).1] at hrest
          exact hrest

theorem parsebacks_complete {fuel count : ℕ} (hts : tokens ps = List.replicate count .amp ++ ts)
    (hend : seen ts (chars "&") = false) (hfuel : (tokens ps).length < fuel) :
    Yields (Cmd.back^[count] (cmd.map Span.text)) ts (parsebacks fuel cmd ps) := by
  induction fuel generalizing ps cmd count with
  | zero => exact absurd hfuel (Nat.not_lt_zero _)
  | succ fuel ih =>
      rw [parsebacks, peek_eq ps (by simp [chars, symbols])]
      dsimp only
      cases count with
      | zero =>
          have hts : tokens ps = ts := hts
          rw [hts, hend, if_neg (by decide)]
          exact yields_done rfl hts
      | succ count =>
          have hts : tokens ps = .amp :: (List.replicate count .amp ++ ts) := hts
          have hseen : seen (tokens ps) (chars "&") = true := by
            rw [hts]
            exact (by decide : seen [.amp] (chars "&") = true)
          rw [hseen, if_pos rfl]
          exact ih (tokens_gettoken hts) (by
            rw [tokens_gettoken hts]
            rw [hts, List.length_cons] at hfuel
            omega)

theorem parseargs_complete {fuel argc : ℕ} {args : List Argument}
    (hts : tokens ps = argTokens args ++ ts) (hend : Ends .item ts) (hcount : argc + args.length ≤ 9)
    (hfuel : (tokens ps).length < fuel) :
    Yields (addArgs args (cmd.map Span.text)) ts (parseargs fuel argc cmd ps) := by
  induction fuel generalizing ps cmd argc args with
  | zero => exact absurd hfuel (Nat.not_lt_zero _)
  | succ fuel ih =>
      rw [parseargs, peek_eq ps (by simp [chars, symbols])]
      dsimp only
      cases args with
      | nil =>
          have hts : tokens ps = ts := hts
          obtain rfl | hseen := hend
          · rw [hts, show seen [] (chars "|)&;") = false from rfl, if_neg (by decide),
              gettoken_nil ((tokens_skipWhitespace ps).trans hts), if_pos rfl]
            exact ⟨cmd, [], rfl, rfl, rfl⟩
          · rw [hts, show seen ts (chars "|)&;") = true from hseen, if_pos rfl]
            exact yields_done rfl hts
      | cons arg args =>
          obtain ⟨text, redirections⟩ := arg
          have hts : tokens ps =
              .word text :: (redirTokens redirections ++ (argTokens args ++ ts)) := by
            rw [hts]
            simp [argTokens]
          obtain ⟨word, ps₁, htoken, hts₁, hps₁, hword⟩ :=
            gettoken_cons ((tokens_skipWhitespace ps).trans hts)
          rw [hts, seen_word, if_neg (by decide), htoken]
          dsimp only
          rw [List.length_cons] at hcount
          rw [tok_word, if_neg (by decide), if_neg (not_not.mpr rfl), if_neg (by rw [maxArgs]; omega)]
          have hlength : (tokens ps₁).length < fuel := by
            rw [hts₁]
            rw [hts, List.length_cons] at hfuel
            omega
          have hnext : seen (argTokens args ++ ts) (chars "<>") = false := by
            cases args with
            | nil => exact seen_disjoint hend (by simp [Phrase.follow, chars])
            | cons arg args => rfl
          apply (parseredirs_complete hts₁ hnext hlength).andThen
          intro cmd' ps₂ htree hts₂
          have hrest := @ih ps₂ cmd' (argc + 1) args hts₂ (by omega) (by
            rw [hts₂]
            rw [hts₁, List.length_append] at hlength
            omega)
          rw [htree, map_addArg, (hword text rfl).1] at hrest
          exact hrest

/-- A phrase is parsed in the same way whatever comes after it. -/
theorem Derives.complete {phrase : Phrase} {tree : Tree} (hderives : Derives phrase ts tree) :
    ∀ {ps : Ptr} {ts' : List Token} {fuel : ℕ}, tokens ps = ts ++ ts' → Ends phrase ts' →
      phrase.fuel (tokens ps).length ≤ fuel → Yields tree ts' (phrase.parse fuel ps) := by
  induction hderives with
  | @line ts cmd count hpipe ih =>
      intro ps ts' fuel hts hend hfuel
      obtain ⟨fuel, rfl⟩ : ∃ n, fuel = n + 1 := ⟨fuel - 1, by rw [Phrase.fuel] at hfuel; omega⟩
      rw [Phrase.fuel] at hfuel
      rw [List.append_assoc] at hts
      have hpipeEnd : Ends .pipe (List.replicate count .amp ++ ts') := by
        cases count with
        | zero => exact seen_mono hend (by simp [Phrase.follow, chars])
        | succ count => exact .inr (by decide : seen [.amp] (chars ")&;") = true)
      show Yields _ _ (parseline (fuel + 1) ps)
      rw [parseline]
      apply (ih hts hpipeEnd (by rw [Phrase.fuel]; omega)).andThen
      intro cmd₁ ps₁ hcmd₁ hts₁
      have hlength : (tokens ps₁).length < fuel := by
        rw [hts₁]
        rw [hts, List.length_append] at hfuel
        omega
      apply (parsebacks_complete hts₁ (seen_disjoint hend (by simp [Phrase.follow, chars]))
        hlength).andThen
      intro cmd₂ ps₂ hcmd₂ hts₂
      rw [peek_eq ps₂ (by simp [chars, symbols]), hts₂]
      dsimp only
      rw [seen_disjoint hend (by simp [Phrase.follow, chars]), if_neg (by decide)]
      exact yields_done (by rw [hcmd₂, hcmd₁]) hts₂
  | @list ts ts₁ left right count hpipe hline ihPipe ihLine =>
      intro ps ts' fuel hts hend hfuel
      obtain ⟨fuel, rfl⟩ : ∃ n, fuel = n + 1 := ⟨fuel - 1, by rw [Phrase.fuel] at hfuel; omega⟩
      rw [Phrase.fuel] at hfuel
      rw [List.append_assoc, List.append_assoc, List.cons_append] at hts
      have hpipeEnd : Ends .pipe (List.replicate count .amp ++ .semi :: (ts₁ ++ ts')) := by
        cases count with
        | zero => exact .inr (by decide : seen [.semi] (chars ")&;") = true)
        | succ count => exact .inr (by decide : seen [.amp] (chars ")&;") = true)
      show Yields _ _ (parseline (fuel + 1) ps)
      rw [parseline]
      apply (ihPipe hts hpipeEnd (by rw [Phrase.fuel]; omega)).andThen
      intro cmd₁ ps₁ hcmd₁ hts₁
      have hlength : (tokens ps₁).length < fuel := by
        rw [hts₁]
        rw [hts, List.length_append] at hfuel
        omega
      have hsemi : seen (.semi :: (ts₁ ++ ts')) (chars "&") = false :=
        (by decide : seen [.semi] (chars "&") = false)
      apply (parsebacks_complete hts₁ hsemi hlength).andThen
      intro cmd₂ ps₂ hcmd₂ hts₂
      rw [peek_eq ps₂ (by simp [chars, symbols]), hts₂]
      dsimp only
      rw [show seen (.semi :: (ts₁ ++ ts')) (chars ";") = true from
        (by decide : seen [.semi] (chars ";") = true), if_pos rfl]
      have hts₃ := tokens_gettoken hts₂
      apply (ihLine hts₃ hend (by
        rw [hts₃, Phrase.fuel]
        simp only [hts, List.length_append, List.length_cons] at hfuel
        rw [List.length_append]
        omega)).andThen
      intro cmd₃ ps₃ hcmd₃ hts₄
      exact ⟨_, ps₃, rfl, by rw [Cmd.map, hcmd₂, hcmd₁, hcmd₃], hts₄⟩
  | @single ts cmd hitem ih =>
      intro ps ts' fuel hts hend hfuel
      obtain ⟨fuel, rfl⟩ : ∃ n, fuel = n + 1 := ⟨fuel - 1, by rw [Phrase.fuel] at hfuel; omega⟩
      rw [Phrase.fuel] at hfuel
      show Yields _ _ (parsepipe (fuel + 1) ps)
      rw [parsepipe]
      apply (ih hts (seen_mono hend (by simp [Phrase.follow, chars]))
        (by rw [Phrase.fuel]; omega)).andThen
      intro cmd₁ ps₁ hcmd₁ hts₁
      rw [peek_eq ps₁ (by simp [chars, symbols]), hts₁]
      dsimp only
      rw [seen_disjoint hend (by simp [Phrase.follow, chars]), if_neg (by decide)]
      exact yields_done hcmd₁ hts₁
  | @pipe ts ts₁ left right hitem hpipe ihItem ihPipe =>
      intro ps ts' fuel hts hend hfuel
      obtain ⟨fuel, rfl⟩ : ∃ n, fuel = n + 1 := ⟨fuel - 1, by rw [Phrase.fuel] at hfuel; omega⟩
      rw [Phrase.fuel] at hfuel
      rw [List.append_assoc, List.cons_append] at hts
      show Yields _ _ (parsepipe (fuel + 1) ps)
      rw [parsepipe]
      have hbar : Ends .item (.bar :: (ts₁ ++ ts')) :=
        .inr (by decide : seen [.bar] (chars "|)&;") = true)
      apply (ihItem hts hbar (by rw [Phrase.fuel]; omega)).andThen
      intro cmd₁ ps₁ hcmd₁ hts₁
      rw [peek_eq ps₁ (by simp [chars, symbols]), hts₁]
      dsimp only
      rw [show seen (.bar :: (ts₁ ++ ts')) (chars "|") = true from
        (by decide : seen [.bar] (chars "|") = true), if_pos rfl]
      have hts₂ := tokens_gettoken hts₁
      apply (ihPipe hts₂ hend (by
        rw [hts₂, Phrase.fuel]
        simp only [hts, List.length_append, List.length_cons] at hfuel
        rw [List.length_append]
        omega)).andThen
      intro cmd₂ ps₂ hcmd₂ hts₃
      exact ⟨_, ps₂, rfl, by rw [Cmd.map, hcmd₁, hcmd₂], hts₃⟩
  | @block ts cmd redirections hline ih =>
      intro ps ts' fuel hts hend hfuel
      obtain ⟨fuel, rfl⟩ : ∃ n, fuel = n + 2 := ⟨fuel - 2, by rw [Phrase.fuel] at hfuel; omega⟩
      rw [Phrase.fuel] at hfuel
      rw [List.append_assoc, List.cons_append, List.cons_append] at hts
      have hopen : seen (tokens ps) (chars "(") = true := by
        rw [hts]
        exact (by decide : seen [.lparen] (chars "(") = true)
      show Yields _ _ (parseexec (fuel + 2) ps)
      rw [parseexec, peek_eq ps (by simp [chars, symbols])]
      dsimp only
      rw [hopen, if_pos rfl, parseblock, peek_eq _ (by simp [chars, symbols]),
        tokens_skipWhitespace]
      dsimp only
      rw [hopen, if_neg (by decide)]
      have hts₁ : tokens (gettoken (skipWhitespace (skipWhitespace ps))).2.2 =
          ts ++ .rparen :: (redirTokens redirections ++ ts') :=
        tokens_gettoken ((tokens_skipWhitespace ps).trans hts)
      have hclose : seen (.rparen :: (redirTokens redirections ++ ts')) (chars ")") = true :=
        (by decide : seen [.rparen] (chars ")") = true)
      simp only [hts, List.length_append, List.length_cons] at hfuel
      apply (ih hts₁ (.inr hclose) (by
        rw [hts₁, Phrase.fuel]
        simp only [List.length_append, List.length_cons]
        omega)).andThen
      intro cmd₁ ps₁ hcmd₁ hts₂
      rw [peek_eq ps₁ (by simp [chars, symbols]), hts₂]
      dsimp only
      rw [hclose, if_neg (by decide)]
      have hts₃ := tokens_gettoken hts₂
      have hend' : seen ts' (chars "<>") = false :=
        seen_disjoint hend (by simp [Phrase.follow, chars])
      have hredirs := @parseredirs_complete _ ts' cmd₁ fuel redirections hts₃ hend' (by
        rw [hts₃, List.length_append]
        omega)
      rw [hcmd₁] at hredirs
      exact hredirs
  | simple first args hcount =>
      intro ps ts' fuel hts hend hfuel
      obtain ⟨fuel, rfl⟩ : ∃ n, fuel = n + 1 := ⟨fuel - 1, by rw [Phrase.fuel] at hfuel; omega⟩
      rw [Phrase.fuel] at hfuel
      rw [List.append_assoc] at hts
      have hargs : seen (argTokens args ++ ts') (chars "<>") = false := by
        cases args with
        | nil => exact seen_disjoint hend (by simp [Phrase.follow, chars])
        | cons arg args => rfl
      have hopen : seen (tokens ps) (chars "(") = false := by
        rw [hts]
        cases first with
        | nil =>
            cases args with
            | nil => exact seen_disjoint hend (by simp [Phrase.follow, chars])
            | cons arg args => rfl
        | cons redirection rest =>
            obtain ⟨direction, file⟩ := redirection
            cases direction with
            | input => exact (by decide : seen [.less] (chars "(") = false)
            | output => exact (by decide : seen [.greater] (chars "(") = false)
            | append => exact (by decide : seen [.append] (chars "(") = false)
      show Yields _ _ (parseexec (fuel + 1) ps)
      rw [parseexec, peek_eq ps (by simp [chars, symbols])]
      dsimp only
      rw [hopen, if_neg (by decide)]
      have hts₁ := (tokens_skipWhitespace ps).trans hts
      apply (parseredirs_complete hts₁ hargs (by rw [tokens_skipWhitespace]; omega)).andThen
      intro cmd₁ ps₁ hcmd₁ hts₂
      have hlength : (tokens ps₁).length < fuel := by
        rw [hts₂]
        rw [hts, List.length_append] at hfuel
        omega
      have hyields := @parseargs_complete _ _ cmd₁ fuel 0 args hts₂ hend (by omega) hlength
      rw [hcmd₁, show (Cmd.exec []).map Span.text = .exec [] from rfl, addArgs_wrapAll,
        List.nil_append] at hyields
      exact hyields

end Completeness

/-! ## Lines -/

/-- The string in the buffer at the start of a word. -/
def stringAt (line : Ptr) (buf : Buffer) (span : Span) : List UInt8 :=
  toList (fun i => buf (position line span.q + i)) (line.length + 1)

/-- `parsecmd` returns a tree whose strings are those of `tree`. -/
def Parses (line : Ptr) (tree : Tree) : Prop :=
  ∃ cmd buf, parsecmd line = some (.ok (cmd, buf)) ∧ cmd.map (stringAt line buf) = tree

section Lines

variable {line : Ptr} {cmd : Cmd Span} {span : Span}

theorem Cmd.map_congr {Word Word' : Type} {f g : Word → Word'} {cmd : Cmd Word}
    (hsame : ∀ word ∈ cmd.words, f word = g word) : cmd.map f = cmd.map g := by
  induction cmd with
  | exec argv => exact congrArg Cmd.exec (List.map_congr_left hsame)
  | redir cmd file mode fd ih =>
      rw [Cmd.map, Cmd.map, ih fun word hword => hsame word (List.mem_append_left _ hword),
        hsame file (List.mem_append_right _ (List.mem_singleton_self file))]
  | pipe left right ihLeft ihRight =>
      rw [Cmd.map, Cmd.map, ihLeft fun word hword => hsame word (List.mem_append_left _ hword),
        ihRight fun word hword => hsame word (List.mem_append_right _ hword)]
  | list left right ihLeft ihRight =>
      rw [Cmd.map, Cmd.map, ihLeft fun word hword => hsame word (List.mem_append_left _ hword),
        ihRight fun word hword => hsame word (List.mem_append_right _ hword)]
  | back cmd ih => rw [Cmd.map, Cmd.map, ih hsame]

/-- `nulterminate` puts a 0 behind every word and changes nothing else. -/
theorem nulterminate_apply (line : Ptr) (cmd : Cmd Span) (buf : Buffer) (i : ℕ) :
    nulterminate line cmd buf i =
      if i ∈ cmd.words.map fun span => position line span.eq then 0 else buf i := by
  induction cmd generalizing buf with
  | exec argv =>
      rw [nulterminate, Cmd.words]
      induction argv generalizing buf with
      | nil => rfl
      | cons word argv ih =>
          rw [List.foldl_cons, ih, List.map_cons]
          by_cases hi : i ∈ argv.map fun span => position line span.eq
          · rw [if_pos hi, if_pos (List.mem_cons_of_mem _ hi)]
          · rw [if_neg hi]
            by_cases heq : i = position line word.eq
            · rw [heq, Function.update_self, if_pos List.mem_cons_self]
            · rw [Function.update_of_ne heq, if_neg]
              rw [List.mem_cons, not_or]
              exact ⟨heq, hi⟩
  | redir cmd file mode fd ih =>
      rw [nulterminate, Cmd.words, List.map_append, List.map_singleton]
      by_cases heq : i = position line file.eq
      · rw [heq, Function.update_self, if_pos (List.mem_append_right _ (List.mem_singleton_self _))]
      · rw [Function.update_of_ne heq, ih]
        simp only [List.mem_append, List.mem_singleton, heq, or_false]
  | pipe left right ihLeft ihRight =>
      rw [nulterminate, ihRight, ihLeft, Cmd.words, List.map_append]
      simp only [List.mem_append, ite_or]
      split <;> split <;> rfl
  | list left right ihLeft ihRight =>
      rw [nulterminate, ihRight, ihLeft, Cmd.words, List.map_append]
      simp only [List.mem_append, ite_or]
      split <;> split <;> rfl
  | back cmd ih => exact ih buf

/-- No 0 is put into a word. -/
theorem SpanOk.not_inside {other : Span} {before text rest : List UInt8}
    (hother : SpanOk line other) (hline : line = before ++ (text ++ rest))
    (hplain : ∀ c ∈ text, IsPlain c) {i : ℕ} (hi : i < text.length) :
    position line other.eq ≠ before.length + i := by
  obtain ⟨before', text', hline', -, -, hend⟩ := hother
  intro hplace
  have hposition : before'.length + text'.length = before.length + i := by
    rw [← hplace, position, hline']
    simp only [List.length_append]
    omega
  have hchar : (line)[before.length + i]? = some text[i] := by
    rw [hline, List.getElem?_append_right (by omega), Nat.add_sub_cancel_left,
      List.getElem?_append_left hi, List.getElem?_eq_getElem hi]
  have hchar' : (line)[before.length + i]? = other.eq.head? := by
    rw [hline', ← hposition, List.getElem?_append_right (by omega), Nat.add_sub_cancel_left,
      List.getElem?_append_right le_rfl, Nat.sub_self, List.head?_eq_getElem?]
  exact hend _ (hchar'.symm.trans hchar) (hplain _ (List.getElem_mem hi))

theorem SpanOk.text_eq (hok : SpanOk line span) : ∃ before, line = before ++ (span.text ++ span.eq) ∧
    span.q = span.text ++ span.eq ∧ (∀ c ∈ span.text, IsPlain c) ∧
    position line span.q = before.length ∧
    position line span.eq = before.length + span.text.length := by
  obtain ⟨before, text, hparts, hq, hplain, -⟩ := hok
  have htext : span.text = text := by
    rw [Span.text, hq, List.length_append, Nat.add_sub_cancel, List.take_left]
  refine ⟨before, by rw [htext]; exact hparts, by rw [htext]; exact hq, by rwa [htext], ?_, ?_⟩
  · rw [position, hparts, hq]
    simp only [List.length_append]
    omega
  · rw [position, hparts, htext]
    simp only [List.length_append]
    omega

/-- After `nulterminate`, every word of the tree is a string. -/
theorem holds_span (hline : 0 ∉ line) (hwords : WordsOk line cmd) (hspan : span ∈ cmd.words) :
    Holds (fun i => nulterminate line cmd (ofList line) (position line span.q + i)) span.text := by
  obtain ⟨before, hparts, hq, hplain, hstart, hstop⟩ := (hwords span hspan).text_eq
  have hzero : nulterminate line cmd (ofList line) (before.length + span.text.length) = 0 := by
    rw [nulterminate_apply, if_pos (List.mem_map.mpr ⟨span, hspan, hstop⟩)]
  rw [hstart]
  refine ⟨fun hmem => hline ?_, fun i hi => ?_⟩
  · rw [hparts]
    exact List.mem_append_right _ (List.mem_append_left _ hmem)
  · obtain rfl | hlt := Nat.eq_or_lt_of_le hi
    · rw [hzero, List.getD_eq_default _ _ le_rfl]
    · rw [nulterminate_apply, if_neg]
      · rw [ofList]
        conv_lhs => rw [hparts]
        rw [List.getD_append_right _ _ _ _ (by omega), Nat.add_sub_cancel_left,
          List.getD_append _ _ _ _ hlt]
      · intro hmem
        obtain ⟨other, hother, hplace⟩ := List.mem_map.mp hmem
        exact (hwords other hother).not_inside hparts hplain hlt hplace

theorem stringAt_eq (hline : 0 ∉ line) (hwords : WordsOk line cmd) (hspan : span ∈ cmd.words) :
    stringAt line (nulterminate line cmd (ofList line)) span = span.text := by
  have hholds := holds_span hline hwords hspan
  obtain ⟨before, hparts, -⟩ := (hwords span hspan).text_eq
  have hlength : span.text.length < line.length + 1 := by
    have hlength := congrArg List.length hparts
    simp only [List.length_append] at hlength
    omega
  exact (holds_toList hlength hholds.terminator).unique hholds

/-- `parsecmd` always comes to an end, and it returns a tree if and only if the tokens of the line
derive from `line` with that tree. -/
theorem parsecmd_iff (hline : 0 ∉ line) :
    (∃ result, parsecmd line = some result) ∧
      ∀ tree, Parses line tree ↔ Derives .line (tokens line) tree := by
  have hfuel : Phrase.line.fuel (tokens line).length ≤ fuelFor line.length := by
    have hlength := length_tokens_le line
    rw [Phrase.fuel, fuelFor]
    omega
  have hsound : Sound line line (Derives .line) (parseline (fuelFor line.length) line) :=
    (parse_sound line (fuelFor line.length)).1 .line line List.suffix_rfl hfuel
  constructor
  · rw [parsecmd]
    cases hparse : parseline (fuelFor line.length) line with
    | outOfFuel =>
        rw [hparse] at hsound
        exact absurd hsound not_false
    | panic message => exact ⟨_, rfl⟩
    | done cmd s =>
        dsimp only
        split <;> exact ⟨_, rfl⟩
  · intro tree
    constructor
    · rintro ⟨cmd, buf, hparsecmd, rfl⟩
      rw [parsecmd] at hparsecmd
      cases hparse : parseline (fuelFor line.length) line with
      | outOfFuel =>
          rw [hparse] at hparsecmd
          cases hparsecmd
      | panic message =>
          rw [hparse] at hparsecmd
          cases hparsecmd
      | done cmd' s =>
          rw [hparse] at hparsecmd hsound
          obtain ⟨-, hwords, ts, hts, hderives⟩ := hsound
          dsimp only at hparsecmd
          split at hparsecmd
          · cases hparsecmd
          · rename_i hend
            obtain ⟨rfl, rfl⟩ := Prod.ext_iff.mp (Except.ok.inj (Option.some.inj hparsecmd))
            have hempty : tokens s = [] := (tokens_eq_nil_iff s).mpr (not_not.mp hend)
            rw [Cmd.map_congr fun span hspan => stringAt_eq hline hwords hspan, hts, hempty,
              List.append_nil]
            exact hderives
    · intro hderives
      obtain ⟨cmd, s, hparse, htree, hts⟩ :=
        hderives.complete (List.append_nil (tokens line)).symm (.inl rfl) hfuel
      have hparse : parseline (fuelFor line.length) line = .done cmd s := hparse
      rw [hparse] at hsound
      obtain ⟨-, hwords, -⟩ := hsound
      refine ⟨cmd, nulterminate line cmd (ofList line), ?_, ?_⟩
      · rw [parsecmd, hparse]
        exact if_neg (not_not.mpr ((tokens_eq_nil_iff s).mp hts))
      · rw [Cmd.map_congr fun span hspan => stringAt_eq hline hwords hspan, htree]

/-- The line `cat < in | wc &`. -/
theorem parsecmd_catWc :
    (∃ result, parsecmd (chars "cat < in | wc &") = some result) ∧
      ∀ tree, Parses (chars "cat < in | wc &") tree ↔
        Derives .line (tokens (chars "cat < in | wc &")) tree :=
  parsecmd_iff (by decide +kernel)

end Lines

end Painting.Shell
