import ScriptTree.Proofs.Recognition
import ScriptTree.Proofs.Spelling

/-!
# Flattening

Reading loses no token, adds none and moves none: the tokens that a program stands for are
the tokens that it was read from (`Source.tokenize_of_parse`).

The grammar looks at most tokens by their kinds alone, and a tree keeps no more than it
needs; that the rest can be restored is due to the form of scanned tokens.
-/

namespace ScriptTree

/-! ## Tokens that a tree does not keep -/

namespace Token

theorem eq_symbol_of_kind {w : Whitespace} {t : Token} {s : Symbol} (h : t.HasForm w)
    (hk : t.kind = .symbol s) : t = symbol s := by
  obtain ⟨kind, lexeme⟩ := t
  cases hk
  exact congrArg _ h

theorem eq_keyword_of_kind {w : Whitespace} {t : Token} {k : Keyword} (h : t.HasForm w)
    (hk : t.kind = .keyword k) : t = ⟨.keyword k, k.text⟩ := by
  obtain ⟨kind, lexeme⟩ := t
  cases hk
  exact congrArg _ h

/-- The name of an operator tells which token spelled it. -/
theorem ofText_of_operator? {w : Whitespace} {t : Token} {o : Operator} (h : t.HasForm w)
    (ho : t.operator? = some o) : ofText o.lexeme = t := by
  obtain ⟨-, hs, -, hlexeme⟩ := operator?_eq_some_iff.mp ho
  rw [hlexeme]
  exact ofText_lexeme h hs

theorem tokens_of_operand? {t : Token} {n : Node} (h : t.operand? = some n) : n.tokens = [t] := by
  obtain ⟨k, hk, rfl⟩ := operand?_eq_some_iff.mp h
  rw [Node.tokens, ← hk]

end Token

/-! ## Flattening what was read -/

variable {w : Whitespace} {ts rest : List Token}

theorem tokens_of_linksOfTokens? {links : List Link} (hforms : ∀ t ∈ ts, t.HasForm w)
    (h : Run.linksOfTokens? ts = some links) :
    (links.flatMap fun l => .ofText l.op.lexeme :: l.operand.tokens) = ts := by
  induction links generalizing ts with
  | nil =>
    rw [Run.linksOfTokens?_eq_nil_iff.mp h]
    rfl
  | cons l ls ih =>
    obtain ⟨o, p, more, rfl, ho, hp, hmore⟩ := Run.linksOfTokens?_eq_cons_iff.mp h
    rw [List.flatMap_cons, Token.ofText_of_operator? (hforms o (by simp)) ho,
      Token.tokens_of_operand? hp, ih (fun t ht => hforms t (by simp [ht])) hmore]
    rfl

theorem SpellsRun.tokens_tree {run : Run} (h : SpellsRun ts run rest)
    (hforms : ∀ t ∈ ts, t.HasForm w) : run.tree.tokens = ts := by
  obtain ⟨p, more, rfl, hp, hmore⟩ := Run.ofTokens?_eq_some_iff.mp h.1
  rw [Run.tokens_tree, Run.tokens, Token.tokens_of_operand? hp,
    tokens_of_linksOfTokens? (List.forall_mem_cons.mp hforms).2 hmore]
  rfl

theorem SpellsRuns.tokens_trees {runs : List Run} (h : SpellsRuns ts runs rest)
    (hforms : ∀ t ∈ ts, t.HasForm w) : Node.tokensBody (runs.map Run.tree) = ts := by
  induction h with
  | nil => rfl
  | cons hrun _ ih =>
    obtain ⟨hfirst, hothers⟩ := List.forall_mem_append.mp hforms
    rw [List.map_cons, Node.tokensBody, hrun.tokens_tree hfirst, ih hothers]

theorem SpellsPhrase.tokens_node {phrase : Phrase} (h : SpellsPhrase ts phrase rest)
    (hforms : ∀ t ∈ ts, t.HasForm w) : phrase.node.tokens = ts := by
  cases h with
  | @binding b word name equals semiColon ts _ run hword hname hequals hsemi hrun =>
    have hrunForms : ∀ t ∈ ts, t.HasForm w := fun t ht => hforms t (by simp [ht])
    have hname' : name = ⟨.identifier, name.lexeme⟩ := by rw [← hname]
    rw [Phrase.node, Node.tokens, hrun.tokens_tree hrunForms,
      Token.eq_keyword_of_kind (hforms word (by simp)) hword,
      Token.eq_symbol_of_kind (hforms equals (by simp)) hequals,
      Token.eq_symbol_of_kind (hforms semiColon (by simp)) hsemi, ← hname']
  | @block opening closing ts _ runs hopening hclosing hruns =>
    have hrunsForms : ∀ t ∈ ts, t.HasForm w := fun t ht => hforms t (by simp [ht])
    rw [Phrase.node, Node.tokens, hruns.tokens_trees hrunsForms,
      Token.eq_symbol_of_kind (hforms opening (by simp)) hopening,
      Token.eq_symbol_of_kind (hforms closing (by simp)) hclosing]
  | expression hrun => exact hrun.tokens_tree hforms

theorem IsCut.tokens_nodes {cut : List Piece} (h : IsCut ts cut) (hforms : ∀ t ∈ ts, t.HasForm w) :
    (cut.map fun piece => piece.phrase.node).flatMap Node.tokens = ts := by
  induction h with
  | nil => rfl
  | cons hphrase _ ih =>
    obtain ⟨hfirst, hothers⟩ := List.forall_mem_append.mp hforms
    rw [List.map_cons, List.flatMap_cons, hphrase.tokens_node hfirst, ih hothers]

/-! ## Sources -/

/-- **Flattening undoes reading.**  A program that was read from a source stands for the
tokens of the source, all of them and in their order. -/
theorem Source.tokenize_of_parse {s : Source} {p : Program} (h : s.parse = .ok p) :
    p.tokens ++ [Token.eof] = s.tokenize := by
  obtain ⟨-, cut, hcut, -, hnodes⟩ := Reading.statements_eq_ok_iff.mp (parse_eq_ok_iff.mp h)
  rw [Program.tokens, hnodes, hcut.tokens_nodes fun _ => hasForm_of_mem_tokens, tokenize]

/-- Operators of three kinds of token, and of both sides. -/
theorem Source.tokenize_of_parse_mixed :
    ∃ s p, s = Source.ofString .space "const x=1 or \"+\"^2.;\x7by\x7d" ∧ s.parse = .ok p ∧
      p.nodes =
        [.binding .constBinding "x" (.binary (.operand .int "1") "or"
            (.binary (.operand .string "+") "^" (.operand .float "2."))),
          .block [.operand .identifier "y"]] ∧
      p.tokens ++ [Token.eof] = s.tokenize := by
  let s := Source.ofString .space "const x=1 or \"+\"^2.;\x7by\x7d"
  let p : Program :=
    ⟨[.binding .constBinding "x" (.binary (.operand .int "1") "or"
          (.binary (.operand .string "+") "^" (.operand .float "2."))),
        .block [.operand .identifier "y"]]⟩
  have hparse : s.parse = .ok p := sameResult_iff.mp (by decide +kernel)
  exact ⟨s, p, rfl, hparse, rfl, Source.tokenize_of_parse hparse⟩

end ScriptTree
