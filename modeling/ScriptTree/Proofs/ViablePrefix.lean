import ScriptTree.Proofs.Lookahead
import ScriptTree.Proofs.Reports
import ScriptTree.Proofs.Spelling

/-!
# Viable prefixes

A syntax error is found at the first token that cannot go on, neither earlier nor later
(`Source.error_at_first_offender`).

* Not earlier: the tokens taken can be gone on with to a program, up to the height of its
  expressions (`Reading.exists_isCut_of_error`).  What is missing is at most an operand and then
  the rest of the binding or block, so there is one lemma for each reader that says with what to
  go on.
* Not later: behind the tokens taken the offending token is the end of all programs, since
  reading looks no further ahead (`Reading.LooksAhead`).

Where expressions follow one another the operand to go on with must not be read as an operator
of the one before, as `or` would be; a number never is (`Token.one`).
-/

namespace ScriptTree

/-- An operand that is no operator. -/
def Token.one : Token := ⟨.int, "1"⟩

/-- The expression that is this operand alone. -/
def Run.one : Run := ⟨.operand .int "1", []⟩

/-! ## What may follow -/

variable {ts rest rest' : List Token}

/-- Other tokens may follow if they begin with no operator where the first ones did not. -/
theorem operator?_current_append (taken : List Token)
    (hrest : (current rest).operator? = none → (current rest').operator? = none)
    (h : (current (taken ++ rest)).operator? = none) :
    (current (taken ++ rest')).operator? = none := by
  cases taken with
  | nil => exact hrest h
  | cons t taken => exact h

theorem SpellsRun.congr_rest {run : Run} (h : SpellsRun ts run rest)
    (hrest : (current rest).operator? = none → (current rest').operator? = none) :
    SpellsRun ts run rest' :=
  ⟨h.1, hrest h.2⟩

theorem SpellsRuns.congr_rest {runs : List Run} (h : SpellsRuns ts runs rest)
    (hrest : (current rest).operator? = none → (current rest').operator? = none) :
    SpellsRuns ts runs rest' := by
  induction h with
  | nil => exact .nil rest'
  | cons hrun _ ih =>
    exact .cons (hrun.congr_rest (operator?_current_append _ hrest)) (ih hrest)

theorem SpellsPhrase.congr_rest {phrase : Phrase} (h : SpellsPhrase ts phrase rest)
    (hrest : (current rest).operator? = none → (current rest').operator? = none) :
    SpellsPhrase ts phrase rest' := by
  cases h with
  | binding hword hname hequals hsemi hrun =>
    exact .binding hword hname hequals hsemi (hrun.congr_rest id)
  | block hopening hclosing hruns =>
    exact .block hopening hclosing (hruns.congr_rest id)
  | expression hrun => exact .expression (hrun.congr_rest hrest)

namespace Reading

/-! ## Expressions -/

/-- Only an operand is missing to a run. -/
def LacksOperand (taken : List Token) : Prop :=
  ∀ p n, p.operand? = some n → ∃ run, Run.ofTokens? (taken ++ [p]) = some run

/-- Reading ends with a syntax error only where an operand is missing. -/
def EndsBeforeOperand (right : Nat → Reader Measured) : Prop :=
  ∀ min ts e rest, (right min).read ts = .error e rest → (∀ limit, e ≠ .tooDeep limit) →
    ∃ taken, ts = taken ++ rest ∧ LacksOperand taken

theorem exists_links_of_chain_error {right : Nat → Reader Measured} (hsound : ReadsRuns right)
    (hright : EndsBeforeOperand right) {min : Nat} {left : Measured} {ts rest : List Token}
    {e : ParseError} (h : chain right min left ts = .error e rest)
    (hshallow : ∀ limit, e ≠ .tooDeep limit) :
    ∃ taken, ts = taken ++ rest ∧
      ∀ p n, p.operand? = some n → ∃ links, Run.linksOfTokens? (taken ++ [p]) = some links := by
  fun_induction chain right min left ts with
  | case1 => cases h
  | case2 left ts op afterOp hahead e' rest' hread =>
    cases h
    obtain ⟨o, rfl, ho, -⟩ := operatorAhead?_eq_some_iff.mp hahead
    obtain ⟨taken, rfl, hlacks⟩ := hright _ _ _ _ hread hshallow
    refine ⟨o :: taken, rfl, ?_⟩
    intro p n hp
    obtain ⟨run, hrun⟩ := hlacks p n hp
    exact ⟨_, linksOfTokens?_cons_run ho hrun⟩
  | case3 left ts op afterOp hahead r mid hread _ ih =>
    obtain ⟨o, rfl, ho, -⟩ := operatorAhead?_eq_some_iff.mp hahead
    obtain ⟨used, run, rfl, hrun, rfl⟩ := hsound hread
    obtain ⟨taken, rfl, hlacks⟩ := ih h
    refine ⟨o :: used ++ taken, by simp, ?_⟩
    intro p n hp
    obtain ⟨links, htaken⟩ := hlacks p n hp
    rw [List.append_assoc]
    exact ⟨_, Run.linksOfTokens?_append (linksOfTokens?_cons_run ho hrun.spelled) htaken⟩
  | case4 =>
    cases h
    exact absurd rfl (hshallow _)

theorem endsBeforeOperand_climb (room : Nat) : EndsBeforeOperand (climb room) := by
  induction room with
  | zero =>
    intro min ts e rest h hshallow
    cases h
    exact absurd rfl (hshallow _)
  | succ room ih =>
    intro min ts e rest h hshallow
    rcases bind_eq_error_iff.mp h with hfirst | ⟨left, mid, hfirst, hchain⟩
    · obtain ⟨rfl, -, -⟩ := operand_read_eq_error_iff.mp hfirst
      refine ⟨[], rfl, ?_⟩
      intro p n hp
      exact ⟨⟨n, []⟩, Run.ofTokens?_eq_some_iff.mpr ⟨p, [], rfl, hp, rfl⟩⟩
    · obtain ⟨p, n, rfl, hp, rfl⟩ := operand_read_eq_ok_iff.mp hfirst
      obtain ⟨taken, rfl, hlacks⟩ :=
        exists_links_of_chain_error (climb_sound room) ih hchain hshallow
      refine ⟨p :: taken, rfl, ?_⟩
      intro q m hq
      obtain ⟨links, hlinks⟩ := hlacks q m hq
      exact ⟨⟨n, links⟩, Run.ofTokens?_eq_some_iff.mpr ⟨p, taken ++ [q], rfl, hp, hlinks⟩⟩

/-- An expression that breaks off can be ended with one operand, if no operator follows that. -/
theorem exists_spellsRun_of_error {ts rest : List Token} {e : ParseError}
    (h : expression.read ts = .error e rest) (hshallow : ∀ limit, e ≠ .tooDeep limit) :
    ∃ taken run, ts = taken ++ rest ∧ ∀ rest', (current rest').operator? = none →
      SpellsRun (taken ++ [Token.one]) run rest' := by
  obtain ⟨taken, hts, hlacks⟩ :=
    endsBeforeOperand_climb maxHeight 0 _ _ _ (map_eq_error_iff.mp h) hshallow
  obtain ⟨run, hrun⟩ := hlacks Token.one _ rfl
  exact ⟨taken, run, hts, fun rest' hrest' => ⟨hrun, hrest'⟩⟩

/-! ## Bindings and blocks -/

/-- A binding that breaks off can be ended, and anything may follow it. -/
theorem exists_binding_of_error {kind : BindingKind} {ts rest : List Token} {e : ParseError}
    (h : (binding kind).read ts = .error e rest) (hshallow : ∀ limit, e ≠ .tooDeep limit)
    {word : Token} (hword : word.kind = .keyword kind.keyword) :
    ∃ taken more phrase, ts = taken ++ rest ∧
      ∀ rest', SpellsPhrase (word :: (taken ++ more)) phrase rest' := by
  let name : Token := ⟨.identifier, "x"⟩
  let equals : Token := .symbol .equal
  let semiColon : Token := .symbol .semiColon
  have hone : ∀ rest', SpellsRun [Token.one] Run.one (semiColon :: rest') :=
    fun _ => ⟨rfl, rfl⟩
  simp only [binding, Reader.bind_read, Reader.map_read, bind_eq_error_iff, map_eq_error_iff,
    Reader.expect_read_eq_error_iff, Reader.expect_read_eq_ok_iff] at h
  rcases h with ⟨rfl, -, -⟩ | ⟨name', _, ⟨rfl, hname⟩, ⟨rfl, -, -⟩ | ⟨equals', _, ⟨rfl, hequals⟩,
    hvalue | ⟨_, _, hvalue, rfl, -, -⟩⟩⟩
  · refine ⟨[], [name, equals, Token.one, semiColon], .binding kind "x" Run.one, rfl, ?_⟩
    exact fun rest' => .binding hword rfl rfl rfl (hone rest')
  · refine ⟨[name'], [equals, Token.one, semiColon], .binding kind name'.lexeme Run.one, rfl, ?_⟩
    exact fun rest' => .binding hword hname rfl rfl (hone rest')
  · obtain ⟨used, run, rfl, hrun⟩ := exists_spellsRun_of_error hvalue hshallow
    refine ⟨name' :: equals' :: used, [Token.one, semiColon], .binding kind name'.lexeme run, rfl,
      ?_⟩
    intro rest'
    have hphrase : SpellsPhrase (word :: name' :: equals' :: (used ++ [Token.one] ++ [semiColon])) _
        rest' := .binding hword hname hequals rfl (hrun _ rfl)
    simpa using hphrase
  · obtain ⟨used, run, rfl, hrun, -, -⟩ := expression_read_eq_ok_iff.mp hvalue
    refine ⟨name' :: equals' :: used, [semiColon], .binding kind name'.lexeme run, rfl, ?_⟩
    exact fun rest' => .binding hword hname hequals rfl ⟨hrun.1, rfl⟩

/-- Expressions of which the last breaks off can be ended with one operand. -/
theorem exists_spellsRuns_of_error {ts rest : List Token} {e : ParseError}
    (h : expression.repeated (·.kind = .symbol .rightBrace) ts = .error e rest)
    (hshallow : ∀ limit, e ≠ .tooDeep limit) :
    ∃ taken runs, ts = taken ++ rest ∧ ∀ rest', (current rest').operator? = none →
      SpellsRuns (taken ++ [Token.one]) runs rest' := by
  fun_induction Reader.repeated expression (·.kind = .symbol .rightBrace) ts with
  | case1 => cases h
  | case2 => cases h
  | case3 t ts _ e' rest' hread =>
    cases h
    obtain ⟨taken, run, hts, hrun⟩ := exists_spellsRun_of_error hread hshallow
    refine ⟨taken, [run], hts, ?_⟩
    intro rest' hrest'
    have hruns : SpellsRuns (taken ++ [Token.one] ++ []) [run] rest' :=
      .cons (hrun _ hrest') (.nil rest')
    rwa [List.append_nil] at hruns
  | case4 t ts _ n mid hread ih =>
    obtain ⟨used, run, hts, hrun, -, -⟩ := expression_read_eq_ok_iff.mp hread
    obtain ⟨taken, runs, rfl, hruns⟩ := ih (map_eq_error_iff.mp h)
    refine ⟨used ++ taken, run :: runs, by rw [hts, List.append_assoc], ?_⟩
    intro rest' hrest'
    rw [List.append_assoc]
    refine .cons (hrun.congr_rest ?_) (hruns rest' hrest')
    rw [List.append_assoc]
    exact operator?_current_append taken fun _ => rfl

/-- A block that breaks off can be ended, and anything may follow it. -/
theorem exists_block_of_error {ts rest : List Token} {e : ParseError}
    (h : block.read ts = .error e rest) (hshallow : ∀ limit, e ≠ .tooDeep limit) {opening : Token}
    (hopening : opening.kind = .symbol .leftBrace) :
    ∃ taken more phrase, ts = taken ++ rest ∧
      ∀ rest', SpellsPhrase (opening :: (taken ++ more)) phrase rest' := by
  let closing : Token := .symbol .rightBrace
  rcases bind_eq_error_iff.mp h with hbody | ⟨body, mid, hbody, hclose⟩
  · obtain ⟨taken, runs, rfl, hruns⟩ := exists_spellsRuns_of_error hbody hshallow
    refine ⟨taken, [Token.one, closing], .block runs, rfl, ?_⟩
    intro rest'
    have hphrase : SpellsPhrase (opening :: (taken ++ [Token.one] ++ [closing])) _ rest' :=
      .block hopening rfl (hruns _ rfl)
    simpa using hphrase
  · obtain ⟨rfl, -, hother⟩ := Reader.expect_read_eq_error_iff.mp (map_eq_error_iff.mp hclose)
    obtain ⟨taken, runs, rfl, hruns, -, -, hstop⟩ := body_eq_ok_iff.mp hbody
    obtain rfl : rest = [] := by
      cases rest with
      | nil => rfl
      | cons t rest => exact absurd (hstop t rfl) (hother t rfl)
    refine ⟨taken, [closing], .block runs, rfl, ?_⟩
    exact fun rest' => .block hopening rfl (hruns.congr_rest fun _ => rfl)

/-! ## Statements -/

/-- A statement that breaks off can be ended. -/
theorem exists_spellsPhrase_of_error {ts rest : List Token} {e : ParseError}
    (h : statement.read ts = .error e rest) (hshallow : ∀ limit, e ≠ .tooDeep limit) :
    ∃ taken more phrase, ts = taken ++ rest ∧ SpellsPhrase (taken ++ more) phrase [] ∧
      ((current ts).operator? = none → (current (taken ++ more)).operator? = none) := by
  simp only [statement] at h
  split at h
  · next reader hopened =>
    cases ts with
    | nil => cases hopened
    | cons t ts =>
      obtain ⟨taken, more, phrase, hts, hphrase⟩ : ∃ taken more phrase, ts = taken ++ rest ∧
          ∀ rest', SpellsPhrase (t :: (taken ++ more)) phrase rest' := by
        rcases opened?_eq_some hopened with ⟨kind, hword, rfl⟩ | ⟨hopening, rfl⟩
        · exact exists_binding_of_error h hshallow hword
        · exact exists_block_of_error h hshallow hopening
      exact ⟨t :: taken, more, phrase, by rw [hts, List.cons_append], hphrase [], id⟩
  · obtain ⟨taken, run, rfl, hrun⟩ := exists_spellsRun_of_error h hshallow
    exact ⟨taken, [Token.one], .expression run, rfl, .expression (hrun [] rfl),
      operator?_current_append taken fun _ => rfl⟩

/-- A program that breaks off can be ended. -/
theorem exists_isCut_of_error {ts rest : List Token} {e : ParseError}
    (h : statements ts = .error e rest) (hshallow : ∀ limit, e ≠ .tooDeep limit) :
    ∃ taken more cut, ts = taken ++ rest ∧ IsCut (taken ++ more) cut ∧
      ((current ts).operator? = none → (current (taken ++ more)).operator? = none) := by
  unfold statements at h
  fun_induction Reader.repeated statement (fun _ => false) ts with
  | case1 => cases h
  | case2 _ _ hstop => cases hstop
  | case3 t ts _ e' rest' hread =>
    cases h
    obtain ⟨taken, more, phrase, hts, hphrase, hcurrent⟩ :=
      exists_spellsPhrase_of_error hread hshallow
    refine ⟨taken, more, [⟨taken ++ more, phrase⟩], hts, ?_, hcurrent⟩
    have hcut : IsCut (taken ++ more ++ []) _ := .cons hphrase .nil
    rwa [List.append_nil] at hcut
  | case4 t ts _ n mid hread ih =>
    obtain ⟨used, phrase, hts, hphrase, -, -⟩ := statement_read_eq_ok_iff.mp hread
    obtain ⟨taken, more, cut, rfl, hcut, hcurrent⟩ := ih (map_eq_error_iff.mp h)
    refine ⟨used ++ taken, more, ⟨used, phrase⟩ :: cut, by rw [hts, List.append_assoc], ?_, ?_⟩
    · rw [List.append_assoc]
      exact .cons (hphrase.congr_rest hcurrent) hcut
    · rw [hts, List.append_assoc]
      exact operator?_current_append used hcurrent

end Reading

/-! ## Sources -/

/-- The end of the input is no token of a source. -/
theorem Source.eof_not_mem_tokens (s : Source) : Token.eof ∉ s.tokens :=
  fun h => hasForm_of_mem_tokens h

/-- What a source has behind some tokens begins with the one that stands there, which may be the
end of the input. -/
theorem Source.exists_tokens_of_isPrefix {s : Source} {taken rest : List Token}
    (hrest : Token.eof ∉ rest) (h : taken ++ [current rest] <+: s.tokenize) :
    ∃ rest', s.tokens = taken ++ rest' ∧ rest'.head? = rest.head? := by
  rcases List.prefix_concat_iff.mp h with hall | ⟨more, hmore⟩
  · obtain ⟨htokens, hlast⟩ := List.append_inj' hall rfl
    refine ⟨[], by rw [List.append_nil, htokens], ?_⟩
    cases rest with
    | nil => rfl
    | cons t rest =>
      obtain rfl : t = Token.eof := by simpa [current] using hlast
      exact absurd (by simp) hrest
  · cases rest with
    | nil =>
      refine absurd ?_ s.eof_not_mem_tokens
      rw [← hmore]
      simp [current]
    | cons t rest => exact ⟨t :: more, by rw [← hmore]; simp [current], rfl⟩

/-- **A syntax error stands at the first token that cannot go on.**  It reports that token.  The
tokens taken before it are the beginning of some program, if height is left aside; but with the
offending token behind them, or with the end of the input where that is reported, they are the
beginning of none. -/
theorem Source.error_at_first_offender {s : Source} {e : ParseError} {after : Session}
    (h : (Session.ofSource s).parse = (.error e, after)) (hshallow : ∀ limit, e ≠ .tooDeep limit) :
    ∃ taken, s.tokens = taken ++ after.ahead ∧
      ((∃ what, e = .expected what (current after.ahead).describe) ∨
        e = .expectedPrimary (current after.ahead).describe) ∧
      (∃ more cut, IsCut (taken ++ more) cut) ∧
      (∀ s' : Source, taken ++ [current after.ahead] <+: s'.tokenize → ∀ p, s'.parse ≠ .ok p) ∧
      ∀ found, e = .expected "'\x7d' to close block" found → found = "end of input" := by
  have hread : Reading.statements s.tokens = .error e after.ahead :=
    Session.parse_eq_error_iff.mp h
  have hreport := Session.reportedAt_of_parse h
  obtain ⟨taken, more, cut, htaken, hcut, -⟩ := Reading.exists_isCut_of_error hread hshallow
  refine ⟨taken, htaken, ?_, ⟨more, cut, hcut⟩, ?_, ?_⟩
  · cases e with
    | expected what found => exact Or.inl ⟨what, by rw [hreport.2.1]⟩
    | expectedPrimary found => exact Or.inr (congrArg _ hreport)
    | tooDeep limit => exact absurd rfl (hshallow limit)
  · intro s' hprefix p hp
    have hrest : Token.eof ∉ after.ahead := by
      intro hmem
      exact s.eof_not_mem_tokens (htaken ▸ List.mem_append_right taken hmem)
    obtain ⟨rest', htokens, hhead⟩ := exists_tokens_of_isPrefix hrest hprefix
    obtain ⟨taken', hstops⟩ := Reading.looksAhead_statements s.tokens
    have hunread := hstops.taken_append
    rw [hread, htaken] at hunread
    obtain rfl : taken = taken' := List.append_cancel_right hunread
    have hsame : Reading.statements (taken ++ rest') =
        (Reading.statements s.tokens).withUnread rest' :=
      hstops.same (by rw [hread]; exact hhead)
    rw [parse_eq_ok_iff, htokens, hsame, hread] at hp
    cases hp
  · rintro found rfl
    obtain ⟨-, hfound, hclose⟩ := hreport
    rw [hfound, hclose rfl]
    rfl

/-- In a block `or` is an operand, and an operand is missing behind `^`. -/
theorem Source.error_at_first_offender_block :
    ∃ s after taken, s = Source.ofString .space "x \x7bor 1 ^ )\x7d" ∧
      (Session.ofSource s).parse = (.error (.expectedPrimary "')'"), after) ∧
      s.tokens = taken ++ [.symbol .rightParen, .symbol .rightBrace] ∧
      after.ahead = [.symbol .rightParen, .symbol .rightBrace] ∧
      (∀ limit, ParseError.expectedPrimary "')'" ≠ .tooDeep limit) ∧
      (∃ more cut, IsCut (taken ++ more) cut) ∧
      ∀ s' : Source, taken ++ [.symbol .rightParen] <+: s'.tokenize → ∀ p, s'.parse ≠ .ok p := by
  let s := Source.ofString .space "x \x7bor 1 ^ )\x7d"
  let after : Session := ⟨[.symbol .rightParen, .symbol .rightBrace]⟩
  have hparse : (Session.ofSource s).parse = (.error (.expectedPrimary "')'"), after) :=
    Session.parse_eq_error_iff.mpr (by decide +kernel)
  have hshallow : ∀ limit, ParseError.expectedPrimary "')'" ≠ .tooDeep limit := by
    intro limit h
    cases h
  obtain ⟨taken, htokens, -, hviable, hends, -⟩ := Source.error_at_first_offender hparse hshallow
  exact ⟨s, after, taken, rfl, hparse, htokens, rfl, hshallow, hviable, hends⟩

end ScriptTree
