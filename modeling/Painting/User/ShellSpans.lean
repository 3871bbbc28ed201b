import Painting.User.ShellGrammar

/-!
# The words of a line and those of its tree

The tree of an accepted line holds every word of the line once, wherever it stands in the tree.
Words are apart, and behind each of them comes a character of no word or the end of the line, which
is where `nulterminate` writes.
-/

namespace Painting.Shell

open Painting.Strings

/-- The words of a line from left to right: the runs of plain characters. -/
def wordSpans : Ptr → List Span
  | [] => []
  | c :: rest =>
      if IsPlain c then
        ⟨c :: rest, rest.dropWhile fun d => IsPlain d⟩ ::
          wordSpans (rest.dropWhile fun d => IsPlain d)
      else wordSpans rest
termination_by s => s.length
decreasing_by
  · have hle := (List.dropWhile_suffix (l := rest) fun d => decide (IsPlain d)).length_le
    rw [List.length_cons]
    omega
  · simp

/-- The places where `nulterminate` writes, in the order of its writes. -/
def terminators (line : Ptr) : Cmd Span → List ℕ
  | .exec argv => argv.map fun word => position line word.eq
  | .redir cmd file _ _ => terminators line cmd ++ [position line file.eq]
  | .pipe left right => terminators line left ++ terminators line right
  | .list left right => terminators line left ++ terminators line right
  | .back cmd => terminators line cmd

/-! ## Scanning -/

section Scanning

variable {ps ps' : Ptr} {c : UInt8} {rest : List UInt8}

theorem wordSpans_plain (hc : IsPlain c) : wordSpans (c :: rest) =
    ⟨c :: rest, rest.dropWhile fun d => IsPlain d⟩ ::
      wordSpans (rest.dropWhile fun d => IsPlain d) := by
  rw [wordSpans, if_pos hc]

theorem wordSpans_other (hc : ¬ IsPlain c) : wordSpans (c :: rest) = wordSpans rest := by
  rw [wordSpans, if_neg hc]

theorem wordSpans_skipWhitespace (s : Ptr) : wordSpans (skipWhitespace s) = wordSpans s := by
  induction s with
  | nil => rfl
  | cons c rest ih =>
      by_cases hc : c ∈ whitespace
      · rw [skipWhitespace, List.dropWhile_cons_of_pos (by simpa using hc),
          wordSpans_other fun hplain => hplain.1 hc]
        exact ih
      · rw [skipWhitespace, List.dropWhile_cons_of_neg (by simpa using hc)]

/-- A token is one word or none. -/
theorem wordSpans_token {s : Ptr} (hs : ∀ c ∈ s.head?, c ∉ whitespace) :
    wordSpans s = (if (token s).1 = .word then [⟨s, (token s).2⟩] else []) ++
      wordSpans (token s).2 := by
  cases s with
  | nil => rfl
  | cons c rest =>
      by_cases hc : IsPlain c
      · rw [token_plain hc, wordSpans_plain hc]
        rfl
      · have hsymbol : c ∈ symbols := not_not.mp fun hnot => hc ⟨hs c rfl, hnot⟩
        rw [wordSpans_other hc]
        by_cases hgreater : c ∈ chars ">"
        · obtain rfl : c = UInt8.ofNat '>'.toNat := by
            have honly : ∀ d ∈ chars ">", d = UInt8.ofNat '>'.toNat := by simp [chars]
            exact honly c hgreater
          cases rest with
          | nil => rfl
          | cons d rest =>
              by_cases hd : d ∈ chars ">"
              · have htoken : token (UInt8.ofNat '>'.toNat :: d :: rest) = (.append, rest) :=
                  if_pos hd
                rw [htoken, wordSpans_other fun hplain => hplain.not_greater hd]
                rfl
              · have htoken : token (UInt8.ofNat '>'.toNat :: d :: rest) =
                    (.symbol (UInt8.ofNat '>'.toNat), d :: rest) := if_neg hd
                rw [htoken]
                rfl
        · rw [token_symbol hsymbol hgreater]
          rfl

/-- `gettoken` passes one word or none. -/
theorem wordSpans_gettoken (ps : Ptr) : wordSpans ps =
    (if (gettoken ps).1 = .word then [(gettoken ps).2.1] else []) ++
      wordSpans (gettoken ps).2.2 := by
  rw [← wordSpans_skipWhitespace, wordSpans_token (head_skipWhitespace ps)]
  exact congrArg _ (wordSpans_skipWhitespace _).symm

theorem wordSpans_peek (ps : Ptr) (toks : List UInt8) :
    wordSpans (peek ps toks).2 = wordSpans ps :=
  wordSpans_skipWhitespace ps

/-- `gettoken` after `peek` has seen a symbol. -/
theorem wordSpans_symbol {toks : List UInt8} (htoks : ∀ c ∈ toks, c ∈ symbols)
    (hseen : (peek ps toks).1 = true) :
    wordSpans (gettoken (peek ps toks).2).2.2 = wordSpans ps := by
  rw [peek_eq ps htoks] at hseen ⊢
  obtain ⟨t, ts, ps', hts, hone, -, -, -⟩ := seen_cons hseen
  obtain ⟨span, ps'', htoken, -⟩ := gettoken_cons ((tokens_skipWhitespace ps).trans hts)
  have hword : t.tok ≠ .word := by
    cases t with
    | word text => cases hone
    | _ => decide
  have hspans := wordSpans_gettoken (skipWhitespace ps)
  rw [wordSpans_skipWhitespace, htoken, if_neg hword] at hspans
  rw [htoken]
  exact hspans.symm

end Scanning

/-! ## Parsing -/

/-- From `ps` to `ps'` the words of the line have come to those of the tree. -/
def Collected (ps ps' : Ptr) (words words' : List Span) : Prop :=
  ∃ new, wordSpans ps = new ++ wordSpans ps' ∧ words'.Perm (words ++ new)

/-- A simple command, inside the redirections put around it. -/
def Cmd.IsSimple {Word : Type} : Cmd Word → Prop
  | .exec _ => True
  | .redir cmd _ _ _ => cmd.IsSimple
  | _ => False

section Parsing

variable {ps ps₁ ps₂ : Ptr} {words words₁ words₂ : List Span} {cmd cmd' : Cmd Span} {fuel : ℕ}

theorem collected_of_eq (hsame : wordSpans ps = wordSpans ps₁) : Collected ps ps₁ words words :=
  ⟨[], hsame, by rw [List.append_nil]⟩

theorem Collected.trans (hleft : Collected ps ps₁ words words₁)
    (hright : Collected ps₁ ps₂ words₁ words₂) : Collected ps ps₂ words words₂ := by
  obtain ⟨new, hnew, hperm⟩ := hleft
  obtain ⟨new', hnew', hperm'⟩ := hright
  refine ⟨new ++ new', by rw [hnew, hnew', List.append_assoc], ?_⟩
  rw [← List.append_assoc]
  exact hperm'.trans (hperm.append_right new')

/-- The words of the right side of a pipe or a list come to those of the left side. -/
theorem Collected.append (hright : Collected ps ps₁ [] words₁) (words : List Span) :
    Collected ps ps₁ words (words ++ words₁) := by
  obtain ⟨new, hnew, hperm⟩ := hright
  exact ⟨new, hnew, hperm.append_left words⟩

theorem andThen_eq_done {outcome : Outcome} {next : Cmd Span → Ptr → Outcome}
    (hdone : outcome.andThen next = .done cmd' ps₂) :
    ∃ cmd ps₁, outcome = .done cmd ps₁ ∧ next cmd ps₁ = .done cmd' ps₂ := by
  cases outcome with
  | done cmd ps₁ => exact ⟨cmd, ps₁, rfl, hdone⟩
  | panic message => cases hdone
  | outOfFuel => cases hdone

theorem perm_words_addArg (hsimple : cmd.IsSimple) (word : Span) :
    (cmd.addArg word).words.Perm (cmd.words ++ [word]) ∧ (cmd.addArg word).IsSimple := by
  induction cmd with
  | exec argv => exact ⟨List.Perm.refl _, trivial⟩
  | redir cmd file mode fd ih =>
      obtain ⟨hperm, hsimple'⟩ := ih hsimple
      refine ⟨?_, hsimple'⟩
      rw [Cmd.addArg, Cmd.words, Cmd.words]
      calc ((cmd.addArg word).words ++ [file]).Perm ((cmd.words ++ [word]) ++ [file]) :=
            hperm.append_right [file]
        _ = cmd.words ++ ([word] ++ [file]) := List.append_assoc _ _ _
        List.Perm _ (cmd.words ++ ([file] ++ [word])) :=
            List.Perm.append_left _ List.perm_append_comm
        _ = (cmd.words ++ [file]) ++ [word] := (List.append_assoc _ _ _).symm
  | pipe left right => exact hsimple.elim
  | list left right => exact hsimple.elim
  | back cmd => exact hsimple.elim

theorem parseredirs_collected (hdone : parseredirs fuel cmd ps = .done cmd' ps₁) :
    Collected ps ps₁ cmd.words cmd'.words ∧ (cmd.IsSimple → cmd'.IsSimple) := by
  induction fuel generalizing ps cmd with
  | zero => cases hdone
  | succ fuel ih =>
      rw [parseredirs] at hdone
      dsimp only at hdone
      split at hdone
      · rename_i hseen
        have hsymbol := wordSpans_symbol (by simp [chars, symbols]) hseen
        rw [peek_eq ps (by simp [chars, symbols])] at hseen hdone hsymbol
        obtain ⟨t, ts, ps', hts, hone, -, -, -⟩ := seen_cons hseen
        obtain ⟨direction, rfl⟩ := exists_direction hone
        obtain ⟨span, ps₂, htoken, -⟩ := gettoken_cons ((tokens_skipWhitespace ps).trans hts)
        rw [htoken] at hdone hsymbol
        dsimp only at hdone hsymbol
        split at hdone
        · cases hdone
        · rename_i hword
          have hfile := wordSpans_gettoken ps₂
          rw [if_pos (not_not.mp hword), hsymbol] at hfile
          rw [redircmd_token] at hdone
          obtain ⟨hcollected, hsimple⟩ := ih hdone
          exact ⟨Collected.trans ⟨_, hfile, List.Perm.refl _⟩ hcollected, hsimple⟩
      · cases hdone
        exact ⟨collected_of_eq (wordSpans_peek ps _).symm, id⟩

theorem parseargs_collected {argc : ℕ} (hsimple : cmd.IsSimple)
    (hdone : parseargs fuel argc cmd ps = .done cmd' ps₁) :
    Collected ps ps₁ cmd.words cmd'.words := by
  induction fuel generalizing ps cmd argc with
  | zero => cases hdone
  | succ fuel ih =>
      rw [parseargs] at hdone
      dsimp only at hdone
      have hspans := wordSpans_gettoken (peek ps (chars "|)&;")).2
      rw [wordSpans_peek] at hspans
      split at hdone
      · cases hdone
        exact collected_of_eq (wordSpans_peek ps _).symm
      · split at hdone
        · rename_i heof
          cases hdone
          rw [if_neg (by rw [heof]; decide)] at hspans
          exact collected_of_eq hspans
        · split at hdone
          · cases hdone
          · rename_i hword
            rw [if_pos (not_not.mp hword)] at hspans
            split at hdone
            · cases hdone
            · obtain ⟨cmd₁, ps₂, hredirs, hrest⟩ := andThen_eq_done hdone
              obtain ⟨hperm, hsimple₁⟩ :=
                perm_words_addArg hsimple (gettoken (peek ps (chars "|)&;")).2).2.1
              obtain ⟨hcollected, hsimple₂⟩ := parseredirs_collected hredirs
              have hadded := Collected.trans ⟨_, hspans, hperm⟩ hcollected
              exact hadded.trans (ih (hsimple₂ hsimple₁) hrest)

theorem parsebacks_collected (hdone : parsebacks fuel cmd ps = .done cmd' ps₁) :
    Collected ps ps₁ cmd.words cmd'.words := by
  induction fuel generalizing ps cmd with
  | zero => cases hdone
  | succ fuel ih =>
      rw [parsebacks] at hdone
      dsimp only at hdone
      split at hdone
      · rename_i hseen
        have hsymbol := wordSpans_symbol (by simp [chars, symbols]) hseen
        have hrest : Collected _ ps₁ cmd.words cmd'.words := @ih _ (.back cmd) hdone
        exact (collected_of_eq hsymbol.symm).trans hrest
      · cases hdone
        exact collected_of_eq (wordSpans_peek ps _).symm

/-- Every parser collects the words that it passes. -/
theorem parse_collected (fuel : ℕ) :
    (∀ (phrase : Phrase) {ps ps₁ : Ptr} {cmd : Cmd Span}, phrase.parse fuel ps = .done cmd ps₁ →
      Collected ps ps₁ [] cmd.words) ∧
    ∀ {ps ps₁ : Ptr} {cmd : Cmd Span}, parseblock fuel ps = .done cmd ps₁ →
      Collected ps ps₁ [] cmd.words := by
  induction fuel with
  | zero =>
      refine ⟨fun phrase => ?_, fun hdone => by cases hdone⟩
      cases phrase <;> exact fun hdone => by cases hdone
  | succ fuel ih =>
      obtain ⟨ihPhrase, ihBlock⟩ := ih
      refine ⟨fun phrase => ?_, ?_⟩
      · intro ps ps₁ cmd hdone
        cases phrase with
        | line =>
            change parseline (fuel + 1) ps = _ at hdone
            rw [parseline] at hdone
            obtain ⟨cmd₁, ps₂, hpipe, hdone⟩ := andThen_eq_done hdone
            obtain ⟨cmd₂, ps₃, hbacks, hdone⟩ := andThen_eq_done hdone
            have hleft := (ihPhrase .pipe hpipe).trans (parsebacks_collected hbacks)
            dsimp only at hdone
            split at hdone
            · rename_i hseen
              have hsymbol := wordSpans_symbol (by simp [chars, symbols]) hseen
              obtain ⟨right, ps₄, hline, hdone⟩ := andThen_eq_done hdone
              cases hdone
              have hright := (ihPhrase .line hline).append cmd₂.words
              exact hleft.trans ((collected_of_eq hsymbol.symm).trans hright)
            · cases hdone
              exact hleft.trans (collected_of_eq (wordSpans_peek ps₃ _).symm)
        | pipe =>
            change parsepipe (fuel + 1) ps = _ at hdone
            rw [parsepipe] at hdone
            obtain ⟨cmd₁, ps₂, hitem, hdone⟩ := andThen_eq_done hdone
            have hleft := ihPhrase .item hitem
            dsimp only at hdone
            split at hdone
            · rename_i hseen
              have hsymbol := wordSpans_symbol (by simp [chars, symbols]) hseen
              obtain ⟨right, ps₃, hpipe, hdone⟩ := andThen_eq_done hdone
              cases hdone
              have hright := (ihPhrase .pipe hpipe).append cmd₁.words
              exact hleft.trans ((collected_of_eq hsymbol.symm).trans hright)
            · cases hdone
              exact hleft.trans (collected_of_eq (wordSpans_peek ps₂ _).symm)
        | item =>
            change parseexec (fuel + 1) ps = _ at hdone
            rw [parseexec] at hdone
            have hskip := @collected_of_eq _ _ [] (wordSpans_peek ps (chars "(")).symm
            dsimp only at hdone
            split at hdone
            · exact hskip.trans (ihBlock hdone)
            · obtain ⟨cmd₁, ps₂, hredirs, hargs⟩ := andThen_eq_done hdone
              obtain ⟨hcollected, hsimple⟩ := parseredirs_collected hredirs
              exact hskip.trans (hcollected.trans (parseargs_collected (hsimple trivial) hargs))
      · intro ps ps₁ cmd hdone
        rw [parseblock] at hdone
        dsimp only at hdone
        split at hdone
        · cases hdone
        · rename_i hopen
          have hsymbol := wordSpans_symbol (by simp [chars, symbols]) (not_not.mp hopen)
          obtain ⟨cmd₁, ps₂, hline, hdone⟩ := andThen_eq_done hdone
          have hinner := (collected_of_eq hsymbol.symm).trans (ihPhrase .line hline)
          split at hdone
          · cases hdone
          · rename_i hclose
            have hsymbol' := wordSpans_symbol (by simp [chars, symbols]) (not_not.mp hclose)
            obtain ⟨hcollected, -⟩ := parseredirs_collected hdone
            exact hinner.trans ((collected_of_eq hsymbol'.symm).trans hcollected)

end Parsing

/-! ## Terminating -/

/-- The words of the tree are those of the line, each once and apart from the others; each has
become a string, and every write lies in the line or on its final 0, outside all words. -/
structure Terminated (line : Ptr) (cmd : Cmd Span) (buf : Buffer) : Prop where
  words : cmd.words.Perm (wordSpans line)
  spans : ∀ span ∈ cmd.words, SpanOk line span
  apart : cmd.words.Pairwise fun span other =>
    position line span.eq ≤ position line other.q ∨ position line other.eq ≤ position line span.q
  strings : ∀ span ∈ cmd.words, Holds (fun i => buf (position line span.q + i)) span.text
  writes : buf = (terminators line cmd).foldl (fun buf i => Function.update buf i 0) (ofList line)
  outside : ∀ stop ∈ terminators line cmd, ∀ span ∈ cmd.words,
    stop < position line span.q ∨ position line span.eq ≤ stop
  inside : ∀ stop ∈ terminators line cmd, stop ≤ line.length

section Terminating

variable {line : Ptr} {cmd : Cmd Span} {span : Span}

theorem suffix_of_mem_wordSpans (hspan : span ∈ wordSpans line) :
    SpanOk line span ∧ span.q <:+ line := by
  induction line using wordSpans.induct with
  | case1 =>
      rw [wordSpans] at hspan
      cases hspan
  | case2 c rest hc ih =>
      rw [wordSpans_plain hc] at hspan
      obtain rfl | hspan := List.mem_cons.mp hspan
      · refine ⟨⟨[], c :: rest.takeWhile fun d => IsPlain d, ?_, ?_, ?_, ?_⟩, List.suffix_rfl⟩
        · rw [List.nil_append, List.cons_append, List.takeWhile_append_dropWhile]
        · rw [List.cons_append, List.takeWhile_append_dropWhile]
        · intro d hd
          obtain rfl | hd := List.mem_cons.mp hd
          · exact hc
          · simpa using List.mem_takeWhile_imp hd
        · exact not_isPlain_dropWhile rest
      · have hsuffix : (rest.dropWhile fun d => IsPlain d) <:+ c :: rest :=
          (List.dropWhile_suffix _).trans (List.suffix_cons c rest)
        obtain ⟨hok, hq⟩ := ih hspan
        exact ⟨hok.mono hsuffix, hq.trans hsuffix⟩
  | case3 c rest hc ih =>
      rw [wordSpans_other hc] at hspan
      obtain ⟨hok, hq⟩ := ih hspan
      exact ⟨hok.mono (List.suffix_cons c rest), hq.trans (List.suffix_cons c rest)⟩

/-- A word starts behind the end of the one before. -/
theorem pairwise_wordSpans (line : Ptr) :
    (wordSpans line).Pairwise fun span other => other.q.length ≤ span.eq.length := by
  induction line using wordSpans.induct with
  | case1 =>
      rw [wordSpans]
      exact List.Pairwise.nil
  | case2 c rest hc ih =>
      rw [wordSpans_plain hc]
      exact List.pairwise_cons.mpr
        ⟨fun other hother => (suffix_of_mem_wordSpans hother).2.length_le, ih⟩
  | case3 c rest hc ih =>
      rw [wordSpans_other hc]
      exact ih

theorem terminators_eq (line : Ptr) (cmd : Cmd Span) :
    terminators line cmd = cmd.words.map fun span => position line span.eq := by
  induction cmd with
  | exec argv => rfl
  | redir cmd file mode fd ih =>
      rw [terminators, ih, Cmd.words, List.map_append, List.map_singleton]
  | pipe left right ihLeft ihRight =>
      rw [terminators, ihLeft, ihRight, Cmd.words, List.map_append]
  | list left right ihLeft ihRight =>
      rw [terminators, ihLeft, ihRight, Cmd.words, List.map_append]
  | back cmd ih => exact ih

/-- `nulterminate` makes the writes of `terminators`. -/
theorem nulterminate_eq_foldl (line : Ptr) (cmd : Cmd Span) (buf : Buffer) :
    nulterminate line cmd buf =
      (terminators line cmd).foldl (fun buf i => Function.update buf i 0) buf := by
  induction cmd generalizing buf with
  | exec argv => rw [nulterminate, terminators, List.foldl_map]
  | redir cmd file mode fd ih =>
      rw [nulterminate, terminators, List.foldl_append, ih]
      rfl
  | pipe left right ihLeft ihRight =>
      rw [nulterminate, terminators, List.foldl_append, ihLeft, ihRight]
  | list left right ihLeft ihRight =>
      rw [nulterminate, terminators, List.foldl_append, ihLeft, ihRight]
  | back cmd ih => exact ih buf

theorem parsecmd_eq_ok {buf : Buffer} (hparse : parsecmd line = some (.ok (cmd, buf))) :
    cmd.words.Perm (wordSpans line) ∧ buf = nulterminate line cmd (ofList line) := by
  rw [parsecmd] at hparse
  cases hparseline : parseline (fuelFor line.length) line with
  | outOfFuel =>
      rw [hparseline] at hparse
      cases hparse
  | panic message =>
      rw [hparseline] at hparse
      cases hparse
  | done cmd' s =>
      rw [hparseline] at hparse
      dsimp only at hparse
      split at hparse
      · cases hparse
      · rename_i hend
        obtain ⟨rfl, rfl⟩ := Prod.ext_iff.mp (Except.ok.inj (Option.some.inj hparse))
        obtain ⟨new, hnew, hperm⟩ := (parse_collected (fuelFor line.length)).1 .line hparseline
        have hrest : wordSpans s = [] := by
          rw [← wordSpans_peek s [], not_not.mp hend, wordSpans]
        rw [hrest, List.append_nil] at hnew
        rw [hnew]
        exact ⟨hperm, rfl⟩

/-- What `nulterminate` does to every accepted line. -/
theorem terminated_of_parsecmd {buf : Buffer} (hline : 0 ∉ line)
    (hparse : parsecmd line = some (.ok (cmd, buf))) : Terminated line cmd buf := by
  obtain ⟨hperm, rfl⟩ := parsecmd_eq_ok hparse
  have hspans : WordsOk line cmd := fun span hspan =>
    (suffix_of_mem_wordSpans (hperm.mem_iff.mp hspan)).1
  have hsame : ∀ stop ∈ terminators line cmd,
      ∃ other ∈ cmd.words, position line other.eq = stop := fun stop hstop => by
    rw [terminators_eq] at hstop
    exact List.mem_map.mp hstop
  refine ⟨hperm, hspans, ?_, fun span hspan => holds_span hline hspans hspan,
    nulterminate_eq_foldl line cmd (ofList line), ?_, ?_⟩
  · refine (hperm.pairwise_iff fun {span other} hsides => hsides.symm).mpr ?_
    refine (pairwise_wordSpans line).imp fun {span other} hle => .inl ?_
    rw [position, position]
    omega
  · intro stop hstop span hspan
    obtain ⟨other, hother, rfl⟩ := hsame stop hstop
    obtain ⟨before, hparts, -, hplain, hstart, hend⟩ := (hspans span hspan).text_eq
    by_contra hinside
    rw [not_or, not_lt, not_le] at hinside
    obtain ⟨i, hi⟩ := Nat.exists_eq_add_of_le hinside.1
    exact (hspans other hother).not_inside hparts hplain
      (show i < span.text.length by omega) (by rw [hi, hstart])
  · intro stop hstop
    obtain ⟨other, hother, rfl⟩ := hsame stop hstop
    obtain ⟨before, hparts, -, -, -, hend⟩ := (hspans other hother).text_eq
    have hlength := congrArg List.length hparts
    simp only [List.length_append] at hlength
    omega

/-- A line with operators right behind its words. -/
theorem terminated_tight : ∃ result, parsecmd (chars "(cat<in|wc)>out;ls&") = some (.ok result) ∧
    Terminated (chars "(cat<in|wc)>out;ls&") result.1 result.2 := by
  have hok : (parsecmd (chars "(cat<in|wc)>out;ls&")).elim false Except.toBool = true := by
    decide +kernel
  cases hparse : parsecmd (chars "(cat<in|wc)>out;ls&") with
  | none =>
      rw [hparse] at hok
      cases hok
  | some result =>
      rw [hparse] at hok
      cases result with
      | error message => cases hok
      | ok result => exact ⟨result, rfl, terminated_of_parsecmd (by decide +kernel) hparse⟩

end Terminating

end Painting.Shell
