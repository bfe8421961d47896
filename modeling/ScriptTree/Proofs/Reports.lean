import ScriptTree.Proofs.Recognition

/-!
# Reports

An error says what reading found, and that is the first of the tokens left
(`ParseError.ReportedAt`).

* `Reports` says this of all errors of a reading; it goes from readers to what is put together
  from them (`Reports.bind`, `reports_repeated`, `reports_chain`).
* `Session.reportedAt_of_parse`: all errors of a session are such reports.

A block that is not closed is reported only at the end of the input: any other token that closes
no block is read as an expression, and reported as none.
-/

namespace ScriptTree

/-- What can be missing where something is expected. -/
def ParseError.wanted : List String :=
  [BindingKind.letBinding.wanted, BindingKind.constBinding.wanted, "'=' after binding name",
    "';' after binding", "'\x7d' to close block"]

/-- What an error says when it leaves the tokens `rest`. -/
def ParseError.ReportedAt (rest : List Token) : ParseError → Prop
  | expected what found =>
    what ∈ wanted ∧ found = (current rest).describe ∧
      (what = "'\x7d' to close block" → rest = [])
  | expectedPrimary found => found = (current rest).describe
  | tooDeep limit => limit = maxHeight

/-- What an error says to have found, unless it is about depth. -/
def ParseError.found? : ParseError → Option String
  | expected _ found => some found
  | expectedPrimary found => some found
  | tooDeep _ => none

theorem ParseError.ReportedAt.eq_describe {e : ParseError} {rest : List Token} {found : String}
    (h : e.ReportedAt rest) (hfound : found ∈ e.found?) : found = (current rest).describe := by
  cases e with
  | expected => cases hfound; exact h.2.1
  | expectedPrimary => cases hfound; exact h
  | tooDeep => cases hfound

namespace Reading

variable {α β : Type}

/-- All errors of a reading are reports of the tokens that they leave. -/
def Reports (read : List Token → Reading α) : Prop :=
  ∀ ts e rest, read ts = .error e rest → e.ReportedAt rest

theorem Reports.map {p : List Token → Reading α} (h : Reports p) (f : α → β) :
    Reports fun us => (p us).map f := by
  intro ts e rest hread
  exact h _ _ _ (map_eq_error_iff.mp hread)

theorem Reports.bind {p : List Token → Reading α} {f : α → List Token → Reading β}
    (hp : Reports p) (hf : ∀ a, Reports (f a)) : Reports fun us => (p us).bind f := by
  intro ts e rest hread
  rcases bind_eq_error_iff.mp hread with hfirst | ⟨a, mid, -, hsecond⟩
  · exact hp _ _ _ hfirst
  · exact hf a _ _ _ hsecond

theorem reports_expect {kind : TokenKind} {what : String} (hwanted : what ∈ ParseError.wanted)
    (hblock : what ≠ "'\x7d' to close block") : Reports (Reader.expect kind what).read := by
  intro ts e rest hread
  obtain ⟨rfl, rfl, -⟩ := Reader.expect_read_eq_error_iff.mp hread
  exact ⟨hwanted, rfl, fun h => absurd h hblock⟩

theorem reports_repeated {p : Reader α} (hp : Reports p.read) (stop : Token → Bool) :
    Reports (p.repeated stop) := by
  intro ts e rest hread
  fun_induction Reader.repeated p stop ts with
  | case1 => cases hread
  | case2 => cases hread
  | case3 t ts _ e' rest' hitem =>
    cases hread
    exact hp _ _ _ hitem
  | case4 t ts _ a mid _ ih => exact ih (map_eq_error_iff.mp hread)

/-! ## Expressions -/

/-- Where no operand is ahead nothing is taken. -/
theorem operand_read_eq_error_iff {ts rest : List Token} {e : ParseError} :
    operand.read ts = .error e rest ↔
      rest = ts ∧ e = .expectedPrimary (current ts).describe ∧
        ∀ t ∈ ts.head?, t.operand? = none := by
  cases ts with
  | nil =>
    simp only [operand, Reader.token, current, Reading.error.injEq]
    constructor
    · rintro ⟨rfl, rfl⟩
      exact ⟨rfl, rfl, by simp⟩
    · rintro ⟨rfl, rfl, -⟩
      exact ⟨rfl, rfl⟩
  | cons t ts =>
    cases ht : t.operand? with
    | some n => simp [operand, Reader.token, ht]
    | none =>
      simp only [operand, Reader.token, current, ht, Option.map_none, Reading.error.injEq]
      constructor
      · rintro ⟨rfl, rfl⟩
        exact ⟨rfl, rfl, by simpa using ht⟩
      · rintro ⟨rfl, rfl, -⟩
        exact ⟨rfl, rfl⟩

theorem reports_chain {right : Nat → Reader Measured} (hright : ∀ m, Reports (right m).read)
    (min : Nat) (left : Measured) : Reports (chain right min left) := by
  intro ts e rest hread
  fun_induction chain right min left ts with
  | case1 => cases hread
  | case2 left ts op afterOp _ e' rest' hoperand =>
    cases hread
    exact hright _ _ _ _ hoperand
  | case3 left ts op afterOp _ r mid _ _ ih => exact ih hread
  | case4 =>
    cases hread
    exact rfl

theorem reports_climb (room min : Nat) : Reports (climb room min).read := by
  induction room generalizing min with
  | zero =>
    intro ts e rest hread
    cases hread
    exact rfl
  | succ room ih =>
    refine Reports.bind ?_ fun left => reports_chain ih min left
    intro ts e rest hread
    obtain ⟨rfl, rfl, -⟩ := operand_read_eq_error_iff.mp hread
    exact rfl

theorem reports_expression : Reports expression.read := (reports_climb maxHeight 0).map _

/-! ## Statements -/

theorem reports_binding (kind : BindingKind) : Reports (binding kind).read := by
  have hname : Reports (Reader.expect .identifier kind.wanted).read := by
    cases kind <;> exact reports_expect (by decide) (by decide)
  exact hname.bind fun _ => (reports_expect (by decide) (by decide)).bind fun _ =>
    reports_expression.bind fun _ => (reports_expect (by decide) (by decide)).map _

/-- The expressions of a block go on up to its end or that of the input. -/
theorem reports_block : Reports block.read := by
  intro ts e rest hread
  rcases bind_eq_error_iff.mp hread with hbody | ⟨body, mid, hbody, hclose⟩
  · exact reports_repeated reports_expression _ _ _ _ hbody
  · obtain ⟨rfl, rfl, hother⟩ := Reader.expect_read_eq_error_iff.mp (map_eq_error_iff.mp hclose)
    obtain ⟨-, -, -, -, -, -, hstop⟩ := body_eq_ok_iff.mp hbody
    refine ⟨by decide, rfl, fun _ => ?_⟩
    cases rest with
    | nil => rfl
    | cons t rest => exact absurd (hstop t rfl) (hother t rfl)

theorem reports_statement : Reports statement.read := by
  intro ts e rest hread
  simp only [statement] at hread
  split at hread
  · next reader hopened =>
    rcases opened?_eq_some hopened with ⟨kind, -, rfl⟩ | ⟨-, rfl⟩
    · exact reports_binding kind _ _ _ hread
    · exact reports_block _ _ _ hread
  · exact reports_expression _ _ _ hread

theorem reports_statements : Reports statements := reports_repeated reports_statement _

end Reading

/-- **An error reports the token at which it stops.** -/
theorem Session.reportedAt_of_parse {s s' : Session} {e : ParseError}
    (h : s.parse = (.error e, s')) : e.ReportedAt s'.ahead :=
  Reading.reports_statements _ _ _ (parse_eq_error_iff.mp h)

end ScriptTree
