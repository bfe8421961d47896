import ScriptTree.Proofs.Climbing
import ScriptTree.Session

/-!
# Recognition

The reader accepts its grammar and nothing else.

* For every reading routine, from operands up to whole programs, what it reads is what the
  grammar says, and all that the grammar says is read: `binding_read_eq_ok_iff`,
  `block_read_eq_ok_iff`, `statement_read_eq_ok_iff`, `statements_eq_ok_iff`.
* The grammar has no choices: tokens are cut in one way at most (`IsCut.unique`).
* `Source.parse_eq_ok_iff_isCut` puts the two together.

How deep an expression may be is no matter of the grammar; it stands beside it in every
statement (`Phrase.Shallow`).
-/

namespace ScriptTree

namespace Reading

/-! ## Bindings and blocks -/

theorem binding_read_eq_ok_iff {kind : BindingKind} {ts rest : List Token} {n : Node} :
    (binding kind).read ts = .ok n rest ↔
      ∃ name equals semiColon used run, ts = name :: equals :: (used ++ semiColon :: rest) ∧
        name.kind = .identifier ∧ equals.kind = .symbol .equal ∧
        semiColon.kind = .symbol .semiColon ∧ SpellsRun used run (semiColon :: rest) ∧
        run.tree.height ≤ maxHeight ∧ n = .binding kind name.lexeme run.tree := by
  simp only [binding, Reader.bind_read, Reader.map_read, Reading.bind_eq_ok_iff,
    Reading.map_eq_ok_iff, Reader.expect_read_eq_ok_iff, expression_read_eq_ok_iff]
  constructor
  · rintro ⟨name, _, ⟨rfl, hname⟩, equals, _, ⟨rfl, hequals⟩, _, _,
      ⟨used, run, rfl, hrun, hheight, rfl⟩, semiColon, ⟨rfl, hsemi⟩, rfl⟩
    exact ⟨name, equals, semiColon, used, run, rfl, hname, hequals, hsemi, hrun, hheight, rfl⟩
  · rintro ⟨name, equals, semiColon, used, run, rfl, hname, hequals, hsemi, hrun, hheight, rfl⟩
    exact ⟨name, _, ⟨rfl, hname⟩, equals, _, ⟨rfl, hequals⟩, _, _,
      ⟨used, run, rfl, hrun, hheight, rfl⟩, semiColon, ⟨rfl, hsemi⟩, rfl⟩

/-- The first token of a run is an operand. -/
theorem exists_operand_of_spellsRun {ts rest : List Token} {run : Run} (h : SpellsRun ts run rest) :
    ∃ (p : Token) (more : List Token) (k : OperandKind), ts = p :: more ∧ p.kind = k.toToken := by
  obtain ⟨p, more, rfl, hp, -⟩ := Run.ofTokens?_eq_some_iff.mp h.1
  obtain ⟨k, hk, -⟩ := Token.operand?_eq_some_iff.mp hp
  exact ⟨p, more, k, rfl, hk⟩

/-- Expressions are read up to a closing brace or the end of the input. -/
theorem body_eq_ok_iff {ts rest : List Token} {ns : List Node} :
    expression.repeated (·.kind = .symbol .rightBrace) ts = .ok ns rest ↔
      ∃ used runs, ts = used ++ rest ∧ SpellsRuns used runs rest ∧
        (∀ run ∈ runs, run.tree.height ≤ maxHeight) ∧ ns = runs.map Run.tree ∧
        ∀ t ∈ rest.head?, t.kind = .symbol .rightBrace := by
  constructor
  · intro h
    fun_induction Reader.repeated expression (·.kind = .symbol .rightBrace) ts generalizing ns with
    | case1 =>
      cases h
      exact ⟨[], [], rfl, .nil _, by simp, rfl, by simp⟩
    | case2 t ts hstop =>
      cases h
      exact ⟨[], [], rfl, .nil _, by simp, rfl, by simpa using hstop⟩
    | case3 => cases h
    | case4 t ts _ n mid hread ih =>
      obtain ⟨ns', hrepeated, rfl⟩ := Reading.map_eq_ok_iff.mp h
      obtain ⟨used', runs, rfl, hruns, hheights, rfl, hstop⟩ := ih hrepeated
      obtain ⟨used, run, hts, hrun, hheight, rfl⟩ := expression_read_eq_ok_iff.mp hread
      refine ⟨used ++ used', run :: runs, by rw [hts, List.append_assoc], .cons hrun hruns, ?_, rfl,
        hstop⟩
      exact List.forall_mem_cons.mpr ⟨hheight, hheights⟩
  · rintro ⟨used, runs, rfl, hruns, hheights, rfl, hstop⟩
    induction hruns with
    | nil rest =>
      cases rest with
      | nil => exact Reader.repeated_nil _ _
      | cons t rest =>
        exact Reader.repeated_stop _ _ (by simpa using hstop)
    | @cons used more rest run runs hrun _ ih =>
      obtain ⟨hheight, hheights⟩ := List.forall_mem_cons.mp hheights
      have hread : expression.read (used ++ (more ++ rest)) = .ok run.tree (more ++ rest) :=
        expression_read_eq_ok_iff.mpr ⟨used, run, rfl, hrun, hheight, rfl⟩
      obtain ⟨p, tail, k, rfl, hk⟩ := exists_operand_of_spellsRun hrun
      rw [List.append_assoc]
      rw [List.cons_append] at hread ⊢
      rw [Reader.repeated_step _ _ (by cases k <;> simp [hk, OperandKind.toToken]), hread,
        Reading.bind, ih hheights hstop]
      rfl

theorem block_read_eq_ok_iff {ts rest : List Token} {n : Node} :
    block.read ts = .ok n rest ↔
      ∃ closing used runs, ts = used ++ closing :: rest ∧ closing.kind = .symbol .rightBrace ∧
        SpellsRuns used runs (closing :: rest) ∧
        (∀ run ∈ runs, run.tree.height ≤ maxHeight) ∧ n = .block (runs.map Run.tree) := by
  simp only [block, Reading.bind_eq_ok_iff, Reading.map_eq_ok_iff, Reader.expect_read_eq_ok_iff,
    body_eq_ok_iff]
  constructor
  · rintro ⟨_, _, ⟨used, runs, rfl, hruns, hheights, rfl, -⟩, closing, ⟨rfl, hclosing⟩, rfl⟩
    exact ⟨closing, used, runs, rfl, hclosing, hruns, hheights, rfl⟩
  · rintro ⟨closing, used, runs, rfl, hclosing, hruns, hheights, rfl⟩
    exact ⟨_, _, ⟨used, runs, rfl, hruns, hheights, rfl, by simpa using hclosing⟩, closing,
      ⟨rfl, hclosing⟩, rfl⟩

/-! ## Statements -/

theorem opened?_keyword (kind : BindingKind) :
    opened? (.keyword kind.keyword) = some (binding kind) := by
  cases kind <;> rfl

theorem opened?_operand (k : OperandKind) : opened? k.toToken = none := by
  cases k <;> rfl

/-- What stands before the end of the input opens something, or is part of an expression. -/
theorem opened?_eq_some {kind : TokenKind} {reader : Reader Node} (h : opened? kind = some reader) :
    (∃ b : BindingKind, kind = .keyword b.keyword ∧ reader = binding b) ∨
      kind = .symbol .leftBrace ∧ reader = block := by
  unfold opened? at h
  split at h
  · cases h
    exact Or.inl ⟨.letBinding, rfl, rfl⟩
  · cases h
    exact Or.inl ⟨.constBinding, rfl, rfl⟩
  · cases h
    exact Or.inr ⟨rfl, rfl⟩
  · cases h

theorem statement_read_eq_ok_iff {ts rest : List Token} {n : Node} :
    statement.read ts = .ok n rest ↔
      ∃ used phrase, ts = used ++ rest ∧ SpellsPhrase used phrase rest ∧ phrase.Shallow ∧
        n = phrase.node := by
  constructor
  · intro h
    simp only [statement] at h
    split at h
    · next reader hopened =>
      cases ts with
      | nil => cases hopened
      | cons t ts =>
        rcases opened?_eq_some hopened with ⟨b, hword, rfl⟩ | ⟨hbrace, rfl⟩
        · obtain ⟨name, equals, semiColon, used, run, rfl, hname, hequals, hsemi, hrun, hheight,
            rfl⟩ := binding_read_eq_ok_iff.mp h
          refine ⟨_, _, ?_, .binding hword hname hequals hsemi hrun, ?_, rfl⟩
          · simp [current]
          · simpa [Phrase.Shallow, Phrase.runs] using hheight
        · obtain ⟨closing, used, runs, rfl, hclosing, hruns, hheights, rfl⟩ :=
            block_read_eq_ok_iff.mp h
          refine ⟨_, _, ?_, .block hbrace hclosing hruns, hheights, rfl⟩
          simp [current]
    · obtain ⟨used, run, rfl, hrun, hheight, rfl⟩ := expression_read_eq_ok_iff.mp h
      exact ⟨used, _, rfl, .expression hrun, by simpa [Phrase.Shallow, Phrase.runs] using hheight, rfl⟩
  · rintro ⟨used, phrase, rfl, hphrase, hshallow, rfl⟩
    cases hphrase with
    | @binding kind word name equals semiColon ts rest run hword hname hequals hsemi hrun =>
      have hread : (binding kind).read (name :: equals :: (ts ++ semiColon :: rest)) =
          .ok (.binding kind name.lexeme run.tree) rest :=
        binding_read_eq_ok_iff.mpr ⟨name, equals, semiColon, ts, run, rfl, hname, hequals, hsemi,
          hrun, hshallow run (by simp [Phrase.runs]), rfl⟩
      simpa [statement, current, hword, opened?_keyword, Phrase.node] using hread
    | @block opening closing ts rest runs hopening hclosing hruns =>
      have hread : block.read (ts ++ closing :: rest) = .ok (.block (runs.map Run.tree)) rest :=
        block_read_eq_ok_iff.mpr ⟨closing, ts, runs, rfl, hclosing, hruns, hshallow, rfl⟩
      simpa [statement, current, hopening, opened?, Phrase.node] using hread
    | @expression _ _ run hrun =>
      have hread : expression.read (used ++ rest) = .ok run.tree rest :=
        expression_read_eq_ok_iff.mpr
          ⟨used, run, rfl, hrun, hshallow run (by simp [Phrase.runs]), rfl⟩
      obtain ⟨p, tail, k, rfl, hk⟩ := exists_operand_of_spellsRun hrun
      simpa [statement, current, hk, opened?_operand, Phrase.node] using hread

theorem ne_nil_of_spellsPhrase {ts rest : List Token} {phrase : Phrase}
    (h : SpellsPhrase ts phrase rest) : ts ≠ [] := by
  cases h with
  | binding => simp
  | block => simp
  | expression hrun =>
    obtain ⟨p, more, k, rfl, -⟩ := exists_operand_of_spellsRun hrun
    simp

/-- What is read as a program is cut into phrases, and takes all tokens. -/
theorem statements_eq_ok_iff {ts rest : List Token} {ns : List Node} :
    statements ts = .ok ns rest ↔
      rest = [] ∧ ∃ cut, IsCut ts cut ∧ (∀ piece ∈ cut, piece.phrase.Shallow) ∧
        ns = cut.map fun piece => piece.phrase.node := by
  unfold statements
  constructor
  · intro h
    fun_induction Reader.repeated statement (fun _ => false) ts generalizing ns with
    | case1 =>
      cases h
      exact ⟨rfl, [], .nil, by simp, rfl⟩
    | case2 _ _ hstop => cases hstop
    | case3 => cases h
    | case4 t ts _ n mid hread ih =>
      obtain ⟨ns', hrepeated, rfl⟩ := Reading.map_eq_ok_iff.mp h
      obtain ⟨rfl, cut, hcut, hshallow, rfl⟩ := ih hrepeated
      obtain ⟨used, phrase, hts, hphrase, hone, rfl⟩ := statement_read_eq_ok_iff.mp hread
      refine ⟨rfl, ⟨used, phrase⟩ :: cut, hts ▸ .cons hphrase hcut, ?_, rfl⟩
      exact List.forall_mem_cons.mpr ⟨hone, hshallow⟩
  · rintro ⟨rfl, cut, hcut, hshallow, rfl⟩
    induction hcut with
    | nil => exact Reader.repeated_nil _ _
    | @cons used rest phrase cut hphrase _ ih =>
      obtain ⟨hone, hothers⟩ := List.forall_mem_cons.mp hshallow
      have hread : statement.read (used ++ rest) = .ok phrase.node rest :=
        statement_read_eq_ok_iff.mpr ⟨used, phrase, rfl, hphrase, hone, rfl⟩
      obtain ⟨t, tail, rfl⟩ := List.exists_cons_of_ne_nil (ne_nil_of_spellsPhrase hphrase)
      rw [List.cons_append] at hread ⊢
      rw [Reader.repeated_step _ _ rfl, hread, Reading.bind, ih hothers]
      rfl

end Reading

/-! ## Cuts are unique -/

/-- Links go on as long as an operator is ahead. -/
theorem links_unique {ts ts' rest rest' : List Token} {ls ls' : List Link}
    (h : Run.linksOfTokens? ts = some ls) (hend : (current rest).operator? = none)
    (h' : Run.linksOfTokens? ts' = some ls') (hend' : (current rest').operator? = none)
    (heq : ts ++ rest = ts' ++ rest') : ts = ts' ∧ ls = ls' ∧ rest = rest' := by
  induction ls generalizing ts ts' ls' with
  | nil =>
    obtain rfl := Run.linksOfTokens?_eq_nil_iff.mp h
    cases ls' with
    | nil =>
      obtain rfl := Run.linksOfTokens?_eq_nil_iff.mp h'
      exact ⟨rfl, rfl, heq⟩
    | cons l' ls' =>
      obtain ⟨o, p, more, rfl, ho, -, -⟩ := Run.linksOfTokens?_eq_cons_iff.mp h'
      obtain rfl : rest = o :: p :: more ++ rest' := heq
      cases ho.symm.trans hend
  | cons l ls ih =>
    obtain ⟨o, p, more, rfl, ho, hp, hmore⟩ := Run.linksOfTokens?_eq_cons_iff.mp h
    cases ls' with
    | nil =>
      obtain rfl := Run.linksOfTokens?_eq_nil_iff.mp h'
      obtain rfl : o :: p :: more ++ rest = rest' := heq
      cases ho.symm.trans hend'
    | cons l' ls' =>
      obtain ⟨o', p', more', rfl, ho', hp', hmore'⟩ := Run.linksOfTokens?_eq_cons_iff.mp h'
      obtain ⟨rfl, rfl, htail⟩ : o = o' ∧ p = p' ∧ more ++ rest = more' ++ rest' := by
        simpa using heq
      obtain ⟨rfl, rfl, rfl⟩ := ih hmore hmore' htail
      obtain ⟨op, operand⟩ := l
      obtain ⟨op', operand'⟩ := l'
      cases ho.symm.trans ho'
      cases hp.symm.trans hp'
      exact ⟨rfl, rfl, rfl⟩

theorem SpellsRun.unique {ts ts' rest rest' : List Token} {run run' : Run}
    (h : SpellsRun ts run rest) (h' : SpellsRun ts' run' rest')
    (heq : ts ++ rest = ts' ++ rest') : ts = ts' ∧ run = run' ∧ rest = rest' := by
  obtain ⟨p, more, rfl, hp, hmore⟩ := Run.ofTokens?_eq_some_iff.mp h.1
  obtain ⟨p', more', rfl, hp', hmore'⟩ := Run.ofTokens?_eq_some_iff.mp h'.1
  obtain ⟨rfl, htail⟩ := List.cons.inj heq
  obtain ⟨rfl, hlinks, rfl⟩ := links_unique hmore h.2 hmore' h'.2 htail
  obtain ⟨first, links⟩ := run
  obtain ⟨first', links'⟩ := run'
  cases hp.symm.trans hp'
  cases hlinks
  exact ⟨rfl, rfl, rfl⟩

/-- No expression begins with a closing brace. -/
theorem not_rightBrace_of_spellsRun {ts rest : List Token} {run : Run} (h : SpellsRun ts run rest)
    (more : List Token) : (current (ts ++ more)).kind ≠ .symbol .rightBrace := by
  obtain ⟨p, tail, k, rfl, hk⟩ := Reading.exists_operand_of_spellsRun h
  cases k <;> simp [current, hk, OperandKind.toToken]

/-- The expressions of a block end where the closing brace is. -/
theorem SpellsRuns.unique {ts ts' rest rest' : List Token} {runs runs' : List Run}
    (h : SpellsRuns ts runs rest) (hc : (current rest).kind = .symbol .rightBrace)
    (h' : SpellsRuns ts' runs' rest') (hc' : (current rest').kind = .symbol .rightBrace)
    (heq : ts ++ rest = ts' ++ rest') : ts = ts' ∧ runs = runs' ∧ rest = rest' := by
  induction h generalizing ts' runs' with
  | nil rest =>
    cases h' with
    | nil => exact ⟨rfl, rfl, heq⟩
    | cons hrun' _ =>
      rw [List.nil_append, List.append_assoc] at heq
      rw [heq] at hc
      exact absurd hc (not_rightBrace_of_spellsRun hrun' _)
  | @cons used more rest run runs hrun _ ih =>
    cases h' with
    | nil =>
      rw [List.nil_append, List.append_assoc] at heq
      rw [← heq] at hc'
      exact absurd hc' (not_rightBrace_of_spellsRun hrun _)
    | @cons used' more' _ run' runs' hrun' hruns' =>
      simp only [List.append_assoc] at heq
      obtain ⟨rfl, rfl, htail⟩ := hrun.unique hrun' heq
      obtain ⟨rfl, rfl, rfl⟩ := ih hc hruns' htail
      exact ⟨rfl, rfl, rfl⟩

theorem BindingKind.keyword_injective {k l : BindingKind} (h : k.keyword = l.keyword) : k = l := by
  cases k <;> cases l <;> simp_all [keyword]

/-- The kinds of token that a phrase can begin with. -/
def Phrase.BeginsWith (kind : TokenKind) : Phrase → Prop
  | binding b _ _ => kind = .keyword b.keyword
  | block _ => kind = .symbol .leftBrace
  | expression _ => ∃ k : OperandKind, kind = k.toToken

theorem SpellsPhrase.beginsWith {ts rest : List Token} {phrase : Phrase}
    (h : SpellsPhrase ts phrase rest) (more : List Token) :
    phrase.BeginsWith (current (ts ++ more)).kind := by
  cases h with
  | binding hword => exact hword
  | block hopening => exact hopening
  | expression hrun =>
    obtain ⟨p, tail, k, rfl, hk⟩ := Reading.exists_operand_of_spellsRun hrun
    exact ⟨k, hk⟩

/-- The first token tells phrases apart, and the rest follows. -/
theorem SpellsPhrase.unique {ts ts' rest rest' : List Token} {phrase phrase' : Phrase}
    (h : SpellsPhrase ts phrase rest) (h' : SpellsPhrase ts' phrase' rest')
    (heq : ts ++ rest = ts' ++ rest') : ts = ts' ∧ phrase = phrase' ∧ rest = rest' := by
  have hbegins := h.beginsWith rest
  have hbegins' := h'.beginsWith rest'
  rw [← heq] at hbegins'
  revert hbegins hbegins'
  generalize (current (ts ++ rest)).kind = kind
  cases h with
  | @binding b word name equals semiColon ts _ run hword hname hequals hsemi hrun =>
    rintro rfl hbegins'
    cases h' with
    | @binding b' word' name' equals' semiColon' ts' _ run' hword' _ _ _ hrun' =>
      obtain ⟨rfl, rfl, rfl, htail⟩ : word = word' ∧ name = name' ∧ equals = equals' ∧
          ts ++ semiColon :: rest = ts' ++ semiColon' :: rest' := by
        simpa using heq
      obtain ⟨rfl, rfl, hrest⟩ := hrun.unique hrun' htail
      obtain ⟨rfl, rfl⟩ := List.cons.inj hrest
      have hkind : b = b' := BindingKind.keyword_injective (by simpa [hword] using hword')
      exact ⟨rfl, by rw [hkind], rfl⟩
    | block => cases hbegins'
    | expression =>
      obtain ⟨k, hk⟩ := hbegins'
      cases k <;> cases hk
  | @block opening closing ts _ runs hopening hclosing hruns =>
    rintro rfl hbegins'
    cases h' with
    | binding => cases hbegins'
    | @block opening' closing' ts' _ runs' _ hclosing' hruns' =>
      obtain ⟨rfl, htail⟩ : opening = opening' ∧
          ts ++ closing :: rest = ts' ++ closing' :: rest' := by
        simpa using heq
      obtain ⟨rfl, rfl, hrest⟩ := hruns.unique hclosing hruns' hclosing' htail
      obtain ⟨rfl, rfl⟩ := List.cons.inj hrest
      exact ⟨rfl, rfl, rfl⟩
    | expression =>
      obtain ⟨k, hk⟩ := hbegins'
      cases k <;> cases hk
  | expression hrun =>
    rintro ⟨k, rfl⟩ hbegins'
    cases h' with
    | binding => cases k <;> cases hbegins'
    | block => cases k <;> cases hbegins'
    | expression hrun' =>
      obtain ⟨rfl, rfl, rfl⟩ := hrun.unique hrun' heq
      exact ⟨rfl, rfl, rfl⟩

/-- Tokens are cut in one way at most. -/
theorem IsCut.unique {ts : List Token} {cut cut' : List Piece} (h : IsCut ts cut)
    (h' : IsCut ts cut') : cut = cut' := by
  induction h generalizing cut' with
  | nil =>
    generalize hts : ([] : List Token) = ts at h'
    cases h' with
    | nil => rfl
    | cons hphrase' _ =>
      exact absurd (List.append_eq_nil_iff.mp hts.symm).1 (Reading.ne_nil_of_spellsPhrase hphrase')
  | @cons used rest phrase cut hphrase hcut ih =>
    generalize hts : used ++ rest = ts at h'
    cases h' with
    | nil =>
      exact absurd (List.append_eq_nil_iff.mp hts).1 (Reading.ne_nil_of_spellsPhrase hphrase)
    | cons hphrase' hcut' =>
      obtain ⟨rfl, rfl, rfl⟩ := hphrase.unique hphrase' hts
      rw [ih hcut']

/-! ## Sessions and sources -/

theorem Session.parse_eq_ok_iff {s : Session} {p : Program} :
    s.parse.1 = .ok p ↔ Reading.statements s.ahead = .ok p.nodes [] := by
  obtain ⟨nodes⟩ := p
  unfold parse
  cases h : Reading.statements s.ahead with
  | ok ns rest =>
    obtain ⟨rfl, -⟩ := Reading.statements_eq_ok_iff.mp h
    simp
  | error e rest => simp

theorem Session.parse_eq_error_iff {s s' : Session} {e : ParseError} :
    s.parse = (.error e, s') ↔ Reading.statements s.ahead = .error e s'.ahead := by
  obtain ⟨ahead'⟩ := s'
  unfold parse
  cases Reading.statements s.ahead with
  | ok ns rest => simp
  | error e' rest => simp

theorem Source.parse_eq_ok_iff {s : Source} {p : Program} :
    s.parse = .ok p ↔ Reading.statements s.tokens = .ok p.nodes [] :=
  Session.parse_eq_ok_iff

/-- **The reader accepts its grammar.**  A source is read as a program exactly when its
tokens can be cut into phrases with expressions no higher than may be; the program has the
nodes of the phrases, in order; and there is no other cut. -/
theorem Source.parse_eq_ok_iff_isCut (s : Source) :
    (∀ p, s.parse = .ok p ↔
      ∃ cut, IsCut s.tokens cut ∧ (∀ piece ∈ cut, piece.phrase.Shallow) ∧
        p.nodes = cut.map fun piece => piece.phrase.node) ∧
    ∀ cut cut', IsCut s.tokens cut → IsCut s.tokens cut' → cut = cut' := by
  refine ⟨fun p => ?_, fun cut cut' h h' => h.unique h'⟩
  rw [Source.parse_eq_ok_iff, Reading.statements_eq_ok_iff]
  simp only [true_and]

/-- A binding, a block and an expression; `not` and `or` stand for operators or operands. -/
theorem Source.parse_eq_ok_iff_isCut_mixed :
    ∃ s cut, s = Source.ofString .ascii "let x = 1 - 2 ^ y; \x7ba not 3 \"b\"\x7d or == 4." ∧
      IsCut s.tokens cut ∧ (∀ piece ∈ cut, piece.phrase.Shallow) ∧
      cut.map (fun piece => piece.phrase.node) =
        [.binding .letBinding "x" (.binary (.operand .int "1") "-"
            (.binary (.operand .int "2") "^" (.operand .identifier "y"))),
          .block [.binary (.operand .identifier "a") "not" (.operand .int "3"),
            .operand .string "b"],
          .binary (.operand .identifier "or") "==" (.operand .float "4.")] ∧
      ∀ cut', IsCut s.tokens cut' → cut' = cut := by
  let s := Source.ofString .ascii "let x = 1 - 2 ^ y; \x7ba not 3 \"b\"\x7d or == 4."
  let p : Program :=
    ⟨[.binding .letBinding "x" (.binary (.operand .int "1") "-"
          (.binary (.operand .int "2") "^" (.operand .identifier "y"))),
        .block [.binary (.operand .identifier "a") "not" (.operand .int "3"),
          .operand .string "b"],
        .binary (.operand .identifier "or") "==" (.operand .float "4.")]⟩
  have hparse : s.parse = .ok p := sameResult_iff.mp (by decide +kernel)
  obtain ⟨haccepts, hunique⟩ := Source.parse_eq_ok_iff_isCut s
  obtain ⟨cut, hcut, hshallow, hnodes⟩ := (haccepts p).mp hparse
  exact ⟨s, cut, rfl, hcut, hshallow, hnodes.symm, fun cut' h => hunique cut' cut h hcut⟩

end ScriptTree
