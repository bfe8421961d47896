import ScriptTree.Proofs.Resumption
import ScriptTree.Proofs.Separation
import ScriptTree.Proofs.ViablePrefix

/-!
# Composition

What is read of a text with a second one behind it, when skipped characters stand between them
and no string is left open.

* `Source.parse_append`: behind a program the second text is read as it is by itself, unless it
  begins with an operator that goes on with the last expression before it.
* `Parser.parse_append_of_error`: behind an error at one of the tokens of the first text, the second
  one changes nothing.

Both rest on what reading sees of the tokens that it leaves, which is the first of them at most.
-/

namespace ScriptTree

/-- A node that ends with a token of its own, so that nothing behind it can go on with it. -/
def Node.IsClosed : Node → Prop
  | binding .. => True
  | block _ => True
  | operand .. => False
  | binary .. => False

instance : DecidablePred Node.IsClosed
  | .operand .. => isFalse id
  | .binary .. => isFalse id
  | .binding .. => isTrue trivial
  | .block _ => isTrue trivial

variable {w : Whitespace} {ts us rest : List Token}

/-! ## Behind a program -/

/-- An expression is not closed. -/
theorem SpellsRun.not_isClosed_tree {run : Run} (h : SpellsRun ts run rest) :
    ¬ run.tree.IsClosed := by
  obtain ⟨p, more, rfl, hp, -⟩ := Run.ofTokens?_eq_some_iff.mp h.1
  obtain ⟨k, -, hfirst⟩ := Token.operand?_eq_some_iff.mp hp
  obtain ⟨first, links⟩ := run
  obtain rfl : first = .operand k p.lexeme := hfirst
  intro hclosed
  cases links with
  | nil =>
    rw [Run.tree_lone] at hclosed
    exact hclosed
  | cons l ls =>
    rw [Run.tree_split] at hclosed
    exact hclosed

/-- Anything may follow what is closed. -/
theorem SpellsPhrase.congr_of_isClosed {phrase : Phrase} (h : SpellsPhrase ts phrase rest)
    (hclosed : phrase.node.IsClosed) (rest' : List Token) : SpellsPhrase ts phrase rest' := by
  cases h with
  | binding hword hname hequals hsemi hrun =>
    exact .binding hword hname hequals hsemi (hrun.congr_rest id)
  | block hopening hclosing hruns =>
    exact .block hopening hclosing (hruns.congr_rest id)
  | expression hrun => exact absurd hclosed hrun.not_isClosed_tree

namespace Reading

/-- Other tokens stand behind a program as they do behind nothing, if they do not go on with its
last phrase. -/
theorem statements_append {cut : List Piece} (hcut : IsCut ts cut)
    (hshallow : ∀ piece ∈ cut, piece.phrase.Shallow)
    (hjoin : ∀ piece ∈ cut.getLast?,
      piece.phrase.node.IsClosed ∨ (current us).operator? = none) :
    statements (ts ++ us) =
      (statements us).map fun ns => (cut.map fun piece => piece.phrase.node) ++ ns := by
  induction hcut with
  | nil =>
    show statements us = (statements us).map fun ns => ns
    cases statements us <;> rfl
  | @cons used rest phrase cut hphrase hcut ih =>
    obtain ⟨hone, hothers⟩ := List.forall_mem_cons.mp hshallow
    have hfollowed : SpellsPhrase used phrase (rest ++ us) := by
      cases rest with
      | cons t rest => exact hphrase.congr_rest id
      | nil =>
        obtain rfl : cut = [] := hcut.unique .nil
        rcases hjoin ⟨used, phrase⟩ rfl with hclosed | hoperator
        · exact hphrase.congr_of_isClosed hclosed us
        · exact hphrase.congr_rest fun _ => hoperator
    have hlast : ∀ piece ∈ cut.getLast?,
        piece.phrase.node.IsClosed ∨ (current us).operator? = none := by
      intro piece hpiece
      apply hjoin
      rw [List.getLast?_cons, Option.mem_def.mp hpiece]
      rfl
    have hread : statement.read (used ++ (rest ++ us)) = .ok phrase.node (rest ++ us) :=
      statement_read_eq_ok_iff.mpr ⟨used, phrase, rfl, hfollowed, hone, rfl⟩
    have hmore := ih hothers hlast
    obtain ⟨t, tail, rfl⟩ := List.exists_cons_of_ne_nil (ne_nil_of_spellsPhrase hphrase)
    rw [List.append_assoc]
    unfold statements at hmore ⊢
    rw [List.cons_append] at hread ⊢
    rw [Reader.repeated_step _ _ rfl, hread, Reading.bind, hmore]
    cases statement.repeated (fun _ => false) us <;> rfl

/-- A reading that stops at a token is the same whatever stands behind all tokens. -/
theorem LooksAhead.append {α : Type} {read : List Token → Reading α} (h : LooksAhead read)
    (hstop : (read ts).unread ≠ []) (us : List Token) :
    read (ts ++ us) = (read ts).withUnread ((read ts).unread ++ us) := by
  obtain ⟨taken, htaken, hsame⟩ := h ts
  obtain ⟨t, rest, hrest⟩ := List.exists_cons_of_ne_nil hstop
  have hhead : ((read ts).unread ++ us).head? = (read ts).unread.head? := by
    rw [hrest]
    rfl
  rw [← hsame hhead, ← List.append_assoc, ← htaken]

end Reading

namespace Source

variable {a sep b : List Char}

theorem tokens_separated (hne : sep ≠ []) (hsep : ∀ c ∈ sep, w.skips c = true)
    (heven : Even (a.count '"')) (b : List Char) :
    (⟨w, a ++ sep ++ b⟩ : Source).tokens =
      (⟨w, a⟩ : Source).tokens ++ (⟨w, b⟩ : Source).tokens := by
  rw [List.append_assoc]
  exact (tokens_separated_iff hne hsep b).mpr heven

/-- **Reading composes.**  Let a text hold a program, and let no string be left open in it.  A
second text behind a separator adds its own program to the first or fails with its own error,
unless the first one ends with an expression and the second begins with an operator. -/
theorem parse_append {p : Program} (hne : sep ≠ []) (hsep : ∀ c ∈ sep, w.skips c = true)
    (heven : Even (a.count '"')) (hp : (⟨w, a⟩ : Source).parse = .ok p)
    (hjoin : p.nodes = [] ∨ (∃ n ∈ p.nodes.getLast?, n.IsClosed) ∨
      (current (⟨w, b⟩ : Source).tokens).operator? = none) :
    (⟨w, a ++ sep ++ b⟩ : Source).parse =
      (⟨w, b⟩ : Source).parse.map fun q => ⟨p.nodes ++ q.nodes⟩ := by
  obtain ⟨-, cut, hcut, hshallow, hnodes⟩ :=
    Reading.statements_eq_ok_iff.mp (parse_eq_ok_iff.mp hp)
  have hlast : ∀ piece ∈ cut.getLast?, piece.phrase.node.IsClosed ∨
      (current (⟨w, b⟩ : Source).tokens).operator? = none := by
    intro piece hpiece
    have hnode : p.nodes.getLast? = some piece.phrase.node := by
      rw [hnodes, List.getLast?_map, Option.mem_def.mp hpiece]
      rfl
    rcases hjoin with hnone | ⟨n, hn, hclosed⟩ | hoperator
    · rw [hnone] at hnode
      cases hnode
    · cases hnode.symm.trans hn
      exact Or.inl hclosed
    · exact Or.inr hoperator
  have hread := Reading.statements_append hcut hshallow hlast
  rw [← tokens_separated hne hsep heven, ← hnodes] at hread
  simp only [parse, Session.parse, Session.ofSource, hread]
  cases Reading.statements (⟨w, b⟩ : Source).tokens <;> rfl

/-- A string that spells an operator goes on with no expression, and no operator goes on with a
block. -/
theorem parse_append_operator :
    ∃ a sep b p q, a = "\x7b1\x7d x or \"\"".toList ∧ sep = "\t ".toList ∧
      b = "\"+\" 2".toList ∧ (⟨.ascii, a⟩ : Source).parse = .ok p ∧
      (current (⟨.ascii, b⟩ : Source).tokens).operator? = none ∧
      (⟨.ascii, b⟩ : Source).parse = .ok q ∧
      (⟨.ascii, a ++ sep ++ b⟩ : Source).parse = .ok ⟨p.nodes ++ q.nodes⟩ ∧
      ∃ a' b' p' e, a' = "x \x7b1 - y\x7d".toList ∧ b' = "+ 2".toList ∧
        (⟨.ascii, a'⟩ : Source).parse = .ok p' ∧ (∃ n ∈ p'.nodes.getLast?, n.IsClosed) ∧
        e = .expectedPrimary "'+'" ∧ (⟨.ascii, b'⟩ : Source).parse = .error e ∧
        (⟨.ascii, a' ++ sep ++ b'⟩ : Source).parse = .error e := by
  let a := "\x7b1\x7d x or \"\"".toList
  let sep := "\t ".toList
  let b := "\"+\" 2".toList
  let p : Program := ⟨[.block [.operand .int "1"],
    .binary (.operand .identifier "x") "or" (.operand .string "")]⟩
  let q : Program := ⟨[.operand .string "+", .operand .int "2"]⟩
  have hne : sep ≠ [] := by decide
  have hsep : ∀ c ∈ sep, Whitespace.ascii.skips c = true := by decide
  have hp : (⟨.ascii, a⟩ : Source).parse = .ok p := sameResult_iff.mp (by decide +kernel)
  have hq : (⟨.ascii, b⟩ : Source).parse = .ok q := sameResult_iff.mp (by decide +kernel)
  have hoperator : (current (⟨.ascii, b⟩ : Source).tokens).operator? = none := by decide +kernel
  have hpq := parse_append hne hsep (by decide) hp (Or.inr (Or.inr hoperator))
  rw [hq] at hpq
  let a' := "x \x7b1 - y\x7d".toList
  let b' := "+ 2".toList
  let p' : Program := ⟨[.operand .identifier "x",
    .block [.binary (.operand .int "1") "-" (.operand .identifier "y")]]⟩
  let e : ParseError := .expectedPrimary "'+'"
  have hp' : (⟨.ascii, a'⟩ : Source).parse = .ok p' := sameResult_iff.mp (by decide +kernel)
  have he : (⟨.ascii, b'⟩ : Source).parse = .error e := sameResult_iff.mp (by decide +kernel)
  have hclosed : ∃ n ∈ p'.nodes.getLast?, n.IsClosed := ⟨_, rfl, trivial⟩
  have hpe := parse_append (b := b') hne hsep (by decide) hp' (Or.inr (Or.inl hclosed))
  rw [he] at hpe
  exact ⟨a, sep, b, p, q, rfl, rfl, rfl, hp, hoperator, hq, hpq, a', b', p', e, rfl, rfl, hp',
    hclosed, rfl, he, hpe⟩

end Source

/-! ## Behind an error -/

namespace Parser

/-- A parser fails as reading the unread tokens does. -/
theorem exists_parse_eq_error_iff {p : Parser} {e : ParseError} :
    (∃ q, p.parse = (.error e, q) ∧ q.unread = rest) ↔
      Reading.statements p.unread = .error e rest := by
  obtain ⟨hresult, hahead⟩ := parse_eq p
  have hsession : Session.parse ⟨p.unread⟩ = (.error e, ⟨rest⟩) ↔
      Reading.statements p.unread = .error e rest := Session.parse_eq_error_iff
  rw [← hsession]
  constructor
  · rintro ⟨q, hq, rfl⟩
    rw [hq] at hresult hahead
    rw [hahead]
    exact Prod.ext hresult.symm rfl
  · intro h
    rw [h] at hresult hahead
    exact ⟨p.parse.2, Prod.ext hresult rfl, hahead⟩

variable {a sep : List Char}

/-- **An error is final.**  Let reading a text fail at one of its tokens, and let no string be left
open in the text.  With a second text behind a separator reading fails with the same error, and
leaves the tokens of the second text behind those that it left before. -/
theorem parse_append_of_error {e : ParseError} {p : Parser} (hne : sep ≠ [])
    (hsep : ∀ c ∈ sep, w.skips c = true) (heven : Even (a.count '"'))
    (hfails : (ofSource ⟨w, a⟩).parse = (.error e, p)) (hcurrent : p.current.isEof = false)
    (b : List Char) :
    ∃ q, (ofSource ⟨w, a ++ sep ++ b⟩).parse = (.error e, q) ∧ q.current = p.current ∧
      q.unread = p.unread ++ (⟨w, b⟩ : Source).tokens := by
  have hread := exists_parse_eq_error_iff.mp ⟨p, hfails, rfl⟩
  rw [unread_ofSource] at hread
  have hunread : p.unread = p.current :: p.advance.unread := unread_eq_cons hcurrent
  have hstop : (Reading.statements (⟨w, a⟩ : Source).tokens).unread ≠ [] := by
    rw [hread]
    show p.unread ≠ []
    rw [hunread]
    exact List.cons_ne_nil _ _
  have hmore := Reading.looksAhead_statements.append hstop (⟨w, b⟩ : Source).tokens
  rw [← Source.tokens_separated hne hsep heven, ← unread_ofSource, hread] at hmore
  obtain ⟨q, hq, hleft⟩ := exists_parse_eq_error_iff.mpr hmore
  have hsame : p.current = if q.current.isEof then Token.eof else q.current := by
    rw [← current_unread, hleft]
    show p.current = ScriptTree.current (p.unread ++ _)
    rw [hunread]
    rfl
  refine ⟨q, hq, ?_, hleft⟩
  split at hsame
  · rw [hsame, Token.isEof_eof] at hcurrent
    cases hcurrent
  · exact hsame.symm

/-- An operator without its operand in a block, where a bracket stands instead.  The same text with
the rest of the block behind it, and with a string that is not closed. -/
theorem parse_append_of_error_bracket :
    ∃ a sep e p, a = "\x7b \"a\" or 1 ^ ] 2".toList ∧ sep = " ".toList ∧
      e = .expectedPrimary "']'" ∧ (ofSource ⟨.space, a⟩).parse = (.error e, p) ∧
      p.current = .symbol .rightBracket ∧ p.current.isEof = false ∧
      (∃ q, (ofSource ⟨.space, a ++ sep ++ "\x7d".toList⟩).parse = (.error e, q) ∧
        q.current = p.current) ∧
      ∃ q, (ofSource ⟨.space, a ++ sep ++ "\"let".toList⟩).parse = (.error e, q) ∧
        q.current = p.current := by
  let a := "\x7b \"a\" or 1 ^ ] 2".toList
  let sep := " ".toList
  let e : ParseError := .expectedPrimary "']'"
  let p := (ofSource ⟨.space, a⟩).parse.2
  have hne : sep ≠ [] := by decide
  have hsep : ∀ c ∈ sep, Whitespace.space.skips c = true := by decide
  have he : (ofSource ⟨.space, a⟩).parse.1 = .error e := sameResult_iff.mp (by decide +kernel)
  have hfails : (ofSource ⟨.space, a⟩).parse = (.error e, p) := Prod.ext he rfl
  have hp : p.current = .symbol .rightBracket := by decide +kernel
  have hcurrent : p.current.isEof = false := by rw [hp]; rfl
  have hfinal (b : List Char) := parse_append_of_error hne hsep (by decide) hfails hcurrent b
  obtain ⟨q, hq, hsame, -⟩ := hfinal "\x7d".toList
  obtain ⟨q', hq', hsame', -⟩ := hfinal "\"let".toList
  exact ⟨a, sep, e, p, rfl, rfl, rfl, hfails, hp, hcurrent, ⟨q, hq, hsame⟩, ⟨q', hq', hsame'⟩⟩

end Parser

end ScriptTree
