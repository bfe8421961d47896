import ScriptTree.Proofs.Flattening
import ScriptTree.Proofs.Resumption

/-!
# What tells tokens apart

Readers look at some tokens by their kinds and at others by their lexemes, and errors name them by
their descriptions.  For tokens that a source gives, the end of the input among them
(`Token.IsGiven`), all three come to the same.

* `Token.IsGiven.eq_of_lexeme_eq`: but for strings and the end of the input, the lexeme alone is
  enough.  The exceptions are needed: a string may hold anything, and an identifier may be called
  `eof`.
* `Token.IsGiven.isSome_operator?_iff`: which tokens are operators, by kind.
* `Token.IsGiven.eq_of_describe_eq`: a description is enough for every token.
* `Source.told_apart` says this of any tokens pulled and of the errors of any parsers.
-/

namespace ScriptTree

namespace Token

/-- A token that a source gives, be it at its end. -/
def IsGiven (t : Token) : Prop := t = eof ∨ ∃ w, t.HasForm w

/-- The operators by kind.  Words are among the identifiers, and `^` is no symbol. -/
def IsOperator (t : Token) : Prop :=
  t.kind ∈ [.symbol .plus, .symbol .minus, .symbol .star, .symbol .slash, .symbol .equalEqual,
    .symbol .lessThan, .symbol .lessThanEqual, .symbol .greaterThan, .symbol .greaterThanEqual] ∨
  (t.kind = .identifier ∧ t.lexeme ∈ ["or", "and", "not"]) ∨
  (t.kind = .illegal ∧ t.lexeme = "^")

instance : DecidablePred IsOperator := fun t =>
  inferInstanceAs (Decidable (t.kind ∈ _ ∨ (t.kind = _ ∧ t.lexeme ∈ _) ∨ (t.kind = _ ∧ t.lexeme = _)))

variable {w w' : Whitespace} {t u : Token}

/-! ## Lexemes -/

theorem HasForm.eq_of_lexeme_eq (h : t.HasForm w) (h' : u.HasForm w') (hs : t.kind ≠ .string)
    (hs' : u.kind ≠ .string) (hlexeme : t.lexeme = u.lexeme) : t = u := by
  rw [← ofText_lexeme h hs, hlexeme, ofText_lexeme h' hs']

theorem IsGiven.eq_of_lexeme_eq (h : t.IsGiven) (h' : u.IsGiven) (hs : t.kind ≠ .string)
    (hs' : u.kind ≠ .string) (he : t.isEof = false) (he' : u.isEof = false)
    (hlexeme : t.lexeme = u.lexeme) : t = u := by
  rcases h with rfl | ⟨w, hform⟩
  · cases he
  rcases h' with rfl | ⟨w', hform'⟩
  · cases he'
  exact hform.eq_of_lexeme_eq hform' hs hs' hlexeme

/-! ## Operators -/

theorem HasForm.isSome_operator?_iff (h : t.HasForm w) :
    t.operator?.isSome = true ↔ t.IsOperator := by
  constructor
  · intro hsome
    obtain ⟨op, hop⟩ := Option.isSome_iff_exists.mp hsome
    -- The token is that of the operator's text, and the table has few of them.
    have hall : ∀ op ∈ Operator.table, (ofText op.lexeme).IsOperator := by decide
    rw [← ofText_of_operator? h hop]
    exact hall op (mem_table_of_operator? hop)
  · obtain ⟨kind, lexeme⟩ := t
    rintro (hkind | ⟨hkind, hword⟩ | ⟨hkind, hcaret⟩)
    · have hall : ∀ s : Symbol, (symbol s).IsOperator → (symbol s).operator?.isSome = true := by
        decide
      cases kind with
      | symbol s =>
        obtain rfl : lexeme = s.text := h
        exact hall s (Or.inl hkind)
      | _ => simp at hkind
    · have hall : ∀ word ∈ ["or", "and", "not"],
          (operator? ⟨.identifier, word⟩).isSome = true := by
        decide
      obtain rfl : kind = .identifier := hkind
      exact hall lexeme hword
    · obtain rfl : kind = .illegal := hkind
      obtain rfl : lexeme = "^" := hcaret
      decide

theorem IsGiven.isSome_operator?_iff (h : t.IsGiven) :
    t.operator?.isSome = true ↔ t.IsOperator := by
  rcases h with rfl | ⟨w, hform⟩
  · decide
  · exact hform.isSome_operator?_iff

/-! ## Descriptions -/

theorem HasForm.toList_describe (h : t.HasForm w) :
    t.describe.toList =
      if t.kind = .string then "string \"".toList ++ (t.lexeme.toList ++ ['"'])
      else '\'' :: (t.lexeme.toList ++ ['\'']) := by
  unfold describe
  split
  · next he => exact absurd (isEof_iff.mpr he) (Bool.eq_false_iff.mp h.isEof_eq_false)
  · next hs =>
    rw [if_pos hs, String.toList_append, String.toList_append, List.append_assoc]
    rfl
  · next hs =>
    rw [if_neg hs, String.toList_append, String.toList_append, List.append_assoc]
    rfl

theorem HasForm.describe_ne_eof (h : t.HasForm w) : t.describe ≠ eof.describe := by
  intro heq
  have hchars := congrArg String.toList heq
  rw [h.toList_describe] at hchars
  split at hchars <;> simp [describe, eof] at hchars

theorem HasForm.eq_of_describe_eq (h : t.HasForm w) (h' : u.HasForm w')
    (hdescribe : t.describe = u.describe) : t = u := by
  have hchars := congrArg String.toList hdescribe
  rw [h.toList_describe, h'.toList_describe] at hchars
  split at hchars
  · next hs =>
    split at hchars
    · next hs' =>
      have hlexeme := List.append_cancel_right (List.append_cancel_left hchars)
      obtain ⟨kind, lexeme⟩ := t
      obtain ⟨kind', lexeme'⟩ := u
      obtain rfl : kind = .string := hs
      obtain rfl : kind' = .string := hs'
      exact congrArg (mk .string) (String.toList_injective hlexeme)
    · simp at hchars
  · next hs =>
    split at hchars
    · simp at hchars
    · next hs' =>
      have hlexeme := List.append_cancel_right (List.cons.inj hchars).2
      exact h.eq_of_lexeme_eq h' hs hs' (String.toList_injective hlexeme)

/-- A description tells the token. -/
theorem IsGiven.eq_of_describe_eq (h : t.IsGiven) (h' : u.IsGiven)
    (hdescribe : t.describe = u.describe) : t = u := by
  rcases h with rfl | ⟨w, hform⟩
  · rcases h' with rfl | ⟨w', hform'⟩
    · rfl
    · exact absurd hdescribe.symm hform'.describe_ne_eof
  · rcases h' with rfl | ⟨w', hform'⟩
    · exact absurd hdescribe hform.describe_ne_eof
    · exact hform.eq_of_describe_eq hform' hdescribe

end Token

/-! ## Tokens of sources -/

theorem Source.isGiven_next (s : Source) : s.next.1.IsGiven := by
  unfold next
  cases h : s.next? with
  | none => exact Or.inl rfl
  | some found => exact Or.inr ⟨_, Token.hasForm_of_next? h⟩

theorem Source.isGiven_of_mem_pull {s : Source} {n : Nat} {t : Token} (h : t ∈ (s.pull n).1) :
    t.IsGiven := by
  induction n generalizing s with
  | zero => cases h
  | succ n ih =>
    rcases List.mem_cons.mp h with rfl | hmore
    · exact s.isGiven_next
    · exact ih hmore

/-- The token at which a parser stands is one of its source. -/
theorem Parser.isGiven_current_of_takes {s : Source} {p : Parser} {ts : List Token}
    (h : Takes (ofSource s) ts p) : p.current.IsGiven := by
  rw [h.eq_ofSource]
  exact Source.isGiven_next _

/-- **Tokens are told apart** wherever a reader or an error counts on it.  Of two tokens given by
any sources, the kinds are the same if the lexemes are, unless one is a string or the end of the
input; the operators are known by their kinds; and the tokens are the same if the descriptions are.
So two errors that found the same stopped at the same token. -/
theorem Source.told_apart (s s' : Source) :
    (∀ n n', ∀ t ∈ (s.pull n).1, ∀ u ∈ (s'.pull n').1,
      (t.kind ≠ .string → u.kind ≠ .string → t.isEof = false → u.isEof = false →
        t.lexeme = u.lexeme → t.kind = u.kind) ∧
      (t.operator?.isSome = true ↔
        t.kind ∈ [.symbol .plus, .symbol .minus, .symbol .star, .symbol .slash,
          .symbol .equalEqual, .symbol .lessThan, .symbol .lessThanEqual, .symbol .greaterThan,
          .symbol .greaterThanEqual] ∨
        (t.kind = .identifier ∧ t.lexeme ∈ ["or", "and", "not"]) ∨
        (t.kind = .illegal ∧ t.lexeme = "^")) ∧
      (t.describe = u.describe → t = u)) ∧
    ∀ calls calls' e e' p p' found,
      ((Parser.ofSource s).parseTimes calls).2.parse = (.error e, p) →
      ((Parser.ofSource s').parseTimes calls').2.parse = (.error e', p') →
      e.found? = some found → e'.found? = some found → p.current = p'.current := by
  constructor
  · intro n n' t ht u hu
    have htgiven := isGiven_of_mem_pull ht
    have hugiven := isGiven_of_mem_pull hu
    refine ⟨?_, htgiven.isSome_operator?_iff, htgiven.eq_of_describe_eq hugiven⟩
    intro hs hs' he he' hlexeme
    rw [htgiven.eq_of_lexeme_eq hugiven hs hs' he he' hlexeme]
  · have hgiven : ∀ {s : Source} {calls : Nat} {e : ParseError} {p : Parser},
        ((Parser.ofSource s).parseTimes calls).2.parse = (.error e, p) → p.current.IsGiven := by
      intro s calls e p h
      obtain ⟨taken, htaken⟩ := (Parser.ofSource s).takes_parseTimes calls
      obtain ⟨more, hmore⟩ := Parser.takes_parse ((Parser.ofSource s).parseTimes calls).2
      rw [h] at hmore
      exact Parser.isGiven_current_of_takes (htaken.trans hmore)
    intro calls calls' e e' p p' found h h' hfound hfound'
    have hdescribe : p.current.describe = p'.current.describe :=
      (Parser.found_of_parse h hfound).symm.trans (Parser.found_of_parse h' hfound')
    exact (hgiven h).eq_of_describe_eq (hgiven h') hdescribe

/-- An identifier `eof` beside a string and the end of the input with the same lexeme, and two
errors that find it, each where something else is missing. -/
theorem Source.told_apart_eof :
    let s := ofString .space "let x eof \"eof\""
    let s' := ofString .ascii "\tconst eof eof"
    (⟨.identifier, "eof"⟩ ∈ (s.pull 5).1 ∧ ⟨.string, "eof"⟩ ∈ (s.pull 5).1 ∧
      Token.eof ∈ (s.pull 5).1) ∧
    (∀ u ∈ (s'.pull 4).1, u.kind ≠ .string → u.isEof = false → "eof" = u.lexeme →
      .identifier = u.kind) ∧
    ∃ e e' p p', (Parser.ofSource s).parse = (.error e, p) ∧
      (Parser.ofSource s').parse = (.error e', p') ∧ e.found? = some "'eof'" ∧
      e'.found? = some "'eof'" ∧ p.current = p'.current := by
  intro s s'
  obtain ⟨htokens, herrors⟩ := told_apart s s'
  have ht : ⟨.identifier, "eof"⟩ ∈ (s.pull 5).1 := by decide +kernel
  let e : ParseError := .expected "'=' after binding name" "'eof'"
  have he : (Parser.ofSource s).parse.1 = .error e := sameResult_iff.mp (by decide +kernel)
  have he' : (Parser.ofSource s').parse.1 = .error e := sameResult_iff.mp (by decide +kernel)
  have hfails : (Parser.ofSource s).parse = (.error e, (Parser.ofSource s).parse.2) :=
    Prod.ext he rfl
  have hfails' : (Parser.ofSource s').parse = (.error e, (Parser.ofSource s').parse.2) :=
    Prod.ext he' rfl
  refine ⟨⟨ht, by decide +kernel, by decide +kernel⟩, ?_, e, e, _, _, hfails, hfails', rfl, rfl,
    herrors 0 0 _ _ _ _ _ hfails hfails' rfl rfl⟩
  intro u hu hs he hlexeme
  exact (htokens 5 4 _ ht u hu).1 nofun hs rfl he hlexeme

end ScriptTree
