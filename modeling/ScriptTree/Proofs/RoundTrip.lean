import ScriptTree.Proofs.Flattening
import ScriptTree.Tree.WellFormed

/-!
# Round trip

Reading undoes writing: a well-formed program, written out token by token in any way that
keeps the tokens apart, is read back as itself (`Source.parse_write`).

A tree has no brackets to write.  That it can be restored is the condition on the operands
of every operator, by which the tree is the one that its run has (`Node.exists_run`); that
expressions in a row are not taken for one is the condition on neighbours
(`Node.operator?_of_separate`).
-/

namespace ScriptTree

/-! ## Operators as tokens -/

namespace Operator

theorem operator?_ofText {name : String} {o : Operator} (h : lookup? name = some o) :
    (Token.ofText name).operator? = some o := by
  obtain ⟨ho, rfl⟩ := lookup?_eq_some_iff.mp h
  have hall : ∀ o ∈ table, (Token.ofText o.lexeme).operator? = some o := by decide
  exact hall o ho

theorem hasForm_ofText {name : String} {o : Operator} (h : lookup? name = some o)
    (w : Whitespace) : (Token.ofText name).HasForm w := by
  obtain ⟨ho, rfl⟩ := lookup?_eq_some_iff.mp h
  have hall : ∀ o ∈ table, (Token.ofText o.lexeme).HasForm w := by
    cases w <;> decide
  exact hall o ho

end Operator

namespace Node

/-! ## Expressions as runs -/

theorem ofTokens?_operand (k : OperandKind) (text : String) :
    Run.ofTokens? [⟨k.toToken, text⟩] = some ⟨.operand k text, []⟩ :=
  Run.ofTokens?_eq_some_iff.mpr
    ⟨_, [], rfl, Token.operand?_eq_some_iff.mpr ⟨k, rfl, rfl⟩, rfl⟩

/-- An expression is the tree of the run that its tokens spell.  All operators of the run
bind as tightly as the one at the top, at least. -/
theorem exists_run : ∀ {n : Node}, n.IsExpression →
    ∃ run, Run.ofTokens? n.tokens = some run ∧ run.tree = n ∧
      ∀ {min}, n.BindsAtLeast min → AllAtLeast min run.links
  | .operand k text, _ => by
    refine ⟨_, by rw [tokens]; exact ofTokens?_operand k text, Run.tree_lone _, ?_⟩
    intro min _
    simp [AllAtLeast]
  | .binary left op right, h => by
    obtain ⟨hl, hr, o, ho, hleft, hright⟩ := h
    obtain ⟨runl, hrunl, htreel, hminl⟩ := exists_run hl
    obtain ⟨runr, hrunr, htreer, hminr⟩ := exists_run hr
    obtain ⟨p, more, hp, hfirst, hmore⟩ := Run.ofTokens?_eq_some_iff.mp hrunl
    obtain ⟨p', more', hp', hfirst', hmore'⟩ := Run.ofTokens?_eq_some_iff.mp hrunr
    have hop := Operator.operator?_ofText ho
    obtain ⟨htable, rfl⟩ := Operator.lookup?_eq_some_iff.mp ho
    have hs : Run.Split.IsProper ⟨runl.links, ⟨o, runr.first⟩, runr.links⟩ :=
      Run.isProper_iff.mpr ⟨hminl hleft, hminr hright⟩
    have ht : Tabled (runl.links ++ ⟨o, runr.first⟩ :: runr.links) :=
      tabled_append_cons.mpr ⟨Run.tabled_of_linksOfTokens? hmore, htable,
        Run.tabled_of_linksOfTokens? hmore'⟩
    refine ⟨⟨runl.first, runl.links ++ ⟨o, runr.first⟩ :: runr.links⟩, ?_, ?_, ?_⟩
    · rw [tokens, hp, hp']
      refine Run.ofTokens?_eq_some_iff.mpr ⟨p, _, rfl, hfirst, ?_⟩
      refine Run.linksOfTokens?_append hmore (Run.linksOfTokens?_eq_cons_iff.mpr ?_)
      exact ⟨_, p', more', rfl, hop, hfirst', hmore'⟩
    · rw [Run.tree_of_isProper ht hs]
      simp only [htreel, htreer]
    · rintro min ⟨o', ho', hmin⟩
      obtain rfl := Option.some.inj (ho.symm.trans ho')
      exact hs.atLeast hmin
  | .binding .., h => False.elim h
  | .block _, h => False.elim h

theorem exists_spellsRun {n : Node} {rest : List Token} (h : n.WellFormedExpression)
    (hrest : (current rest).operator? = none) :
    ∃ run, SpellsRun n.tokens run rest ∧ run.tree.height ≤ maxHeight ∧ run.tree = n := by
  obtain ⟨run, hrun, rfl, -⟩ := exists_run h.1
  exact ⟨run, ⟨hrun, hrest⟩, h.2, rfl⟩

/-! ## Where expressions end -/

/-- An expression begins with its leftmost operand. -/
theorem current_of_isExpression : ∀ {n : Node}, n.IsExpression → ∀ rest,
    ∃ k text, n.leftmost = .operand k text ∧ current (n.tokens ++ rest) = ⟨k.toToken, text⟩ ∧
      ∀ w, (⟨k.toToken, text⟩ : Token).HasForm w
  | .operand k text, h, _ => ⟨k, text, rfl, rfl, h⟩
  | .binary left op right, h, rest => by
    obtain ⟨k, text, hleft, hcurrent, hform⟩ :=
      current_of_isExpression h.1 (.ofText op :: right.tokens ++ rest)
    refine ⟨k, text, hleft, ?_, hform⟩
    rw [← hcurrent, tokens, List.append_assoc]
  | .binding .., h, _ => False.elim h
  | .block _, h, _ => False.elim h

/-- Of the operands only words can be operators. -/
theorem operator?_of_operand {k : OperandKind} {text : String}
    (hform : ∀ w, (⟨k.toToken, text⟩ : Token).HasForm w)
    (hword : isWordOperator (.operand k text) = false) :
    (⟨k.toToken, text⟩ : Token).operator? = none := by
  cases ho : (⟨k.toToken, text⟩ : Token).operator? with
  | none => rfl
  | some o =>
    obtain ⟨-, hs, htable, hlexeme⟩ := Token.operator?_eq_some_iff.mp ho
    have hof := Token.ofText_of_operator? (hform .space) ho
    have hall : ∀ o ∈ Operator.table, (Token.ofText o.lexeme).kind ≠ .int ∧
        (Token.ofText o.lexeme).kind ≠ .float := by decide
    have hkind := hall o htable
    rw [hof] at hkind
    cases k with
    | int => exact absurd rfl hkind.1
    | float => exact absurd rfl hkind.2
    | string => exact absurd rfl hs
    | identifier =>
      have hlookup := Operator.lookup?_eq_some_iff.mpr ⟨htable, hlexeme⟩
      simp [isWordOperator, hlookup] at hword

/-- A statement that does not begin with a word operator ends the expression before it. -/
theorem operator?_of_wellFormed {n : Node} (h : n.WellFormed)
    (hword : n.leftmost.isWordOperator = false) (rest : List Token) :
    (current (n.tokens ++ rest)).operator? = none := by
  have hexpression (hn : n.IsExpression) : (current (n.tokens ++ rest)).operator? = none := by
    obtain ⟨k, text, hleft, hcurrent, hform⟩ := current_of_isExpression hn rest
    rw [hleft] at hword
    rw [hcurrent]
    exact operator?_of_operand hform hword
  cases n with
  | operand => exact hexpression h.1
  | binary => exact hexpression h.1
  | binding kind => cases kind <;> rfl
  | block => rfl

theorem WellFormedExpression.wellFormed {n : Node} (h : n.WellFormedExpression) : n.WellFormed := by
  cases n with
  | operand => exact h
  | binary => exact h
  | binding => exact False.elim h.1
  | block => exact False.elim h.1

/-- Neighbours that are kept separate are not taken for one expression. -/
theorem operator?_of_separate {n : Node} {ns : List Node} {rest : List Token}
    (hsep : Separate (n :: ns)) (hn : n.IsExpression) (hns : ∀ m ∈ ns, m.WellFormed)
    (hrest : (current rest).operator? = none) :
    (current (ns.flatMap tokens ++ rest)).operator? = none := by
  cases ns with
  | nil => exact hrest
  | cons m ns =>
    rw [List.flatMap_cons, List.append_assoc]
    exact operator?_of_wellFormed (hns m (by simp)) (hsep.1 hn) _

theorem Separate.tail {n : Node} {ns : List Node} (h : Separate (n :: ns)) : Separate ns := by
  cases ns with
  | nil => trivial
  | cons m ns => exact h.2

/-! ## Statements as phrases -/

theorem exists_spellsRuns {ns : List Node} {rest : List Token}
    (hns : ∀ n ∈ ns, n.WellFormedExpression) (hsep : Separate ns)
    (hrest : (current rest).operator? = none) :
    ∃ runs, SpellsRuns (ns.flatMap tokens) runs rest ∧
      (∀ run ∈ runs, run.tree.height ≤ maxHeight) ∧ runs.map Run.tree = ns := by
  induction ns with
  | nil => exact ⟨[], .nil rest, by simp, rfl⟩
  | cons n ns ih =>
    obtain ⟨hn, hns⟩ := List.forall_mem_cons.mp hns
    obtain ⟨runs, hruns, hheights, htrees⟩ := ih hns hsep.tail
    have hend := operator?_of_separate hsep hn.1 (fun m hm => (hns m hm).wellFormed) hrest
    obtain ⟨run, hrun, hheight, htree⟩ := exists_spellsRun hn hend
    refine ⟨run :: runs, .cons hrun hruns, List.forall_mem_cons.mpr ⟨hheight, hheights⟩, ?_⟩
    rw [List.map_cons, htree, htrees]

/-- Every well-formed statement is a phrase.  An expression has to know what follows. -/
theorem exists_spellsPhrase {n : Node} {rest : List Token} (h : n.WellFormed)
    (hrest : n.IsExpression → (current rest).operator? = none) :
    ∃ phrase, SpellsPhrase n.tokens phrase rest ∧ phrase.Shallow ∧ phrase.node = n := by
  have hexpression (hn : n.WellFormedExpression) :
      ∃ phrase, SpellsPhrase n.tokens phrase rest ∧ phrase.Shallow ∧ phrase.node = n := by
    obtain ⟨run, hrun, hheight, htree⟩ := exists_spellsRun hn (hrest hn.1)
    exact ⟨_, .expression hrun, by simpa [Phrase.Shallow, Phrase.runs] using hheight, htree⟩
  cases n with
  | operand => exact hexpression h
  | binary => exact hexpression h
  | binding kind name value =>
    have hend : (current (.symbol .semiColon :: rest)).operator? = none := rfl
    obtain ⟨run, hrun, hheight, rfl⟩ := exists_spellsRun h.2 hend
    refine ⟨.binding kind name run, ?_, by simpa [Phrase.Shallow, Phrase.runs] using hheight, rfl⟩
    rw [tokens]
    exact .binding rfl rfl rfl rfl hrun
  | block body =>
    have hend : (current (.symbol .rightBrace :: rest)).operator? = none := rfl
    obtain ⟨runs, hruns, hheights, rfl⟩ := exists_spellsRuns h.1 h.2 hend
    refine ⟨.block runs, ?_, hheights, rfl⟩
    rw [tokens, tokensBody_eq]
    exact .block rfl rfl hruns

theorem exists_isCut {ns : List Node} (hns : ∀ n ∈ ns, n.WellFormed) (hsep : Separate ns) :
    ∃ cut, IsCut (ns.flatMap tokens) cut ∧ (∀ piece ∈ cut, piece.phrase.Shallow) ∧
      ns = cut.map fun piece => piece.phrase.node := by
  induction ns with
  | nil => exact ⟨[], .nil, by simp, rfl⟩
  | cons n ns ih =>
    obtain ⟨hn, hns⟩ := List.forall_mem_cons.mp hns
    obtain ⟨cut, hcut, hshallow, hnodes⟩ := ih hns hsep.tail
    have hend (hexp : n.IsExpression) : (current (ns.flatMap tokens)).operator? = none := by
      have hempty : (current []).operator? = none := rfl
      simpa using operator?_of_separate hsep hexp hns hempty
    obtain ⟨phrase, hphrase, hone, rfl⟩ := exists_spellsPhrase hn hend
    refine ⟨⟨_, phrase⟩ :: cut, .cons hphrase hcut, ?_, by rw [List.map_cons, ← hnodes]⟩
    exact List.forall_mem_cons.mpr ⟨hone, hshallow⟩

/-! ## The tokens of a well-formed program -/

theorem hasForm_of_isExpression (w : Whitespace) : ∀ {n : Node}, n.IsExpression →
    ∀ t ∈ n.tokens, t.HasForm w
  | .operand k text, h, t, ht => by
    obtain rfl := List.mem_singleton.mp ht
    exact h w
  | .binary left op right, h, t, ht => by
    obtain ⟨hl, hr, o, ho, -, -⟩ := h
    rw [tokens, List.mem_append, List.mem_cons] at ht
    rcases ht with ht | rfl | ht
    · exact hasForm_of_isExpression w hl t ht
    · exact Operator.hasForm_ofText ho w
    · exact hasForm_of_isExpression w hr t ht
  | .binding .., h, _, _ => False.elim h
  | .block _, h, _, _ => False.elim h

theorem hasForm_of_wellFormed (w : Whitespace) {n : Node} (h : n.WellFormed) :
    ∀ t ∈ n.tokens, t.HasForm w := by
  cases n with
  | operand => exact hasForm_of_isExpression w h.1
  | binary => exact hasForm_of_isExpression w h.1
  | binding kind name value =>
    intro t ht
    simp only [tokens, List.mem_cons, List.mem_append, List.not_mem_nil, or_false] at ht
    rcases ht with rfl | rfl | rfl | ht | rfl
    · rfl
    · exact h.1 w
    · rfl
    · exact hasForm_of_isExpression w h.2.1 t ht
    · rfl
  | block body =>
    intro t ht
    simp only [tokens, tokensBody_eq, List.mem_cons, List.mem_append, List.mem_flatMap,
      List.not_mem_nil, or_false] at ht
    rcases ht with rfl | ⟨n, hn, ht⟩ | rfl
    · rfl
    · exact hasForm_of_isExpression w (h.1 n hn).1 t ht
    · rfl

end Node

/-! ## Programs -/

/-- **Reading undoes writing.**  A well-formed program is read back from any text that has
its tokens, apart from each other and with nothing but skipped characters between them. -/
theorem Source.parse_write {p : Program} {w : Whitespace} {ss : List Spaced} {last : List Char}
    (hp : p.WellFormed) (htokens : ss.map Spaced.token = p.tokens)
    (hgaps : ∀ s ∈ ss, ∀ c ∈ s.gap, w.skips c = true) (hlast : ∀ c ∈ last, w.skips c = true)
    (hapart : Spaced.Apart ss) : (⟨w, Spaced.write ss last⟩ : Source).parse = .ok p := by
  have hforms : ∀ s ∈ ss, s.token.HasForm w := by
    intro s hs
    have hmem : s.token ∈ p.tokens := htokens ▸ List.mem_map_of_mem hs
    obtain ⟨n, hn, ht⟩ := List.mem_flatMap.mp hmem
    exact Node.hasForm_of_wellFormed w (hp.1 n hn) _ ht
  rw [parse_eq_ok_iff, Spaced.tokens_write hforms hgaps hlast hapart, htokens,
    Reading.statements_eq_ok_iff]
  exact ⟨rfl, Node.exists_isCut hp.1 hp.2⟩

/-- A program with operators of both sides and a word operator as an operand, written with
gaps only where they are needed. -/
theorem Source.parse_write_tight :
    ∃ p ss, Program.WellFormed p ∧ ss.map Spaced.token = p.tokens ∧
      (∀ s ∈ ss, ∀ c ∈ s.gap, Whitespace.ascii.skips c = true) ∧
      (∀ c ∈ ['\n'], Whitespace.ascii.skips c = true) ∧ Spaced.Apart ss ∧
      Spaced.write ss ['\n'] = "let x=1-2-3^4.;\x7b\"let \"y\x7d5 or not\n".toList ∧
      p.nodes =
        [.binding .letBinding "x" (.binary (.binary (.operand .int "1") "-" (.operand .int "2")) "-"
            (.binary (.operand .int "3") "^" (.operand .float "4."))),
          .block [.operand .string "let ", .operand .identifier "y"],
          .binary (.operand .int "5") "or" (.operand .identifier "not")] ∧
      (⟨.ascii, Spaced.write ss ['\n']⟩ : Source).parse = .ok p := by
  let p : Program :=
    ⟨[.binding .letBinding "x" (.binary (.binary (.operand .int "1") "-" (.operand .int "2")) "-"
          (.binary (.operand .int "3") "^" (.operand .float "4."))),
        .block [.operand .string "let ", .operand .identifier "y"],
        .binary (.operand .int "5") "or" (.operand .identifier "not")]⟩
  let gaps : List (List Char) :=
    [[], [' '], [], [], [], [], [], [], [], [], [], [], [], [], [], [], [' '], [' ']]
  let ss : List Spaced := List.zipWith Spaced.mk gaps p.tokens
  have hp : p.WellFormed := by decide
  have htokens : ss.map Spaced.token = p.tokens := by decide
  have hgaps : ∀ s ∈ ss, ∀ c ∈ s.gap, Whitespace.ascii.skips c = true := by decide
  have hlast : ∀ c ∈ ['\n'], Whitespace.ascii.skips c = true := by decide
  have hapart : Spaced.Apart ss := by decide
  exact ⟨p, ss, hp, htokens, hgaps, hlast, hapart, by decide, rfl,
    Source.parse_write hp htokens hgaps hlast hapart⟩

end ScriptTree
