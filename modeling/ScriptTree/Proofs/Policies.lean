import ScriptTree.Proofs.Separation
import ScriptTree.Proofs.ViablePrefix
import ScriptTree.Text.WhiteSpace

/-!
# Policies

What it changes to skip all ASCII white space and not the space alone.

* `Source.tokenize_ascii`: the tokens are the same, less the illegal ones that are such white
  space (`Token.IsStray`).  The sources run out of step only at these: one is a token under the
  first policy, and part of a gap under the second.
* `Source.parse_ascii`: a program stays the same program, and a syntax error the same error if it
  does not report such a token.  No stray token is taken before, since an illegal token has a
  place in the grammar only if it is an operator (`IsCut.hasPlace`).
-/

namespace ScriptTree

/-- An illegal token that is a tab, a line feed, a form feed or a carriage return. -/
def Token.IsStray (t : Token) : Prop :=
  t.kind = .illegal ∧ t.lexeme ∈ ["\t", "\n", "\x0c", "\r"]

instance : DecidablePred Token.IsStray := fun t =>
  inferInstanceAs (Decidable (t.kind = .illegal ∧ t.lexeme ∈ ["\t", "\n", "\x0c", "\r"]))

/-! ## Tokens -/

/-- Whatever is skipped under the space policy is skipped under the other. -/
theorem Whitespace.skips_ascii_of_space {c : Char} (h : Whitespace.space.skips c = true) :
    Whitespace.ascii.skips c = true := by
  obtain rfl : c = ' ' := by simpa [skips] using h
  rfl

namespace Token

/-- What only the ASCII policy skips makes a stray token where it is not skipped. -/
theorem isStray_of_skips {c : Char} (h : Whitespace.ascii.skips c = true)
    (hspace : Whitespace.space.skips c = false) : IsStray ⟨.illegal, String.singleton c⟩ := by
  rcases eq_of_skips h with rfl | rfl | rfl | rfl | rfl
  · cases hspace
  all_goals decide

/-- No token of the ASCII policy is stray. -/
theorem HasForm.not_isStray {t : Token} (h : t.HasForm .ascii) : ¬ t.IsStray := by
  rintro ⟨hkind, hlexeme⟩
  obtain ⟨kind, lexeme⟩ := t
  obtain rfl : kind = .illegal := hkind
  obtain ⟨c, rfl, -, hc⟩ : ∃ c, lexeme = String.singleton c ∧ _ := h
  have hall : ∀ text ∈ ["\t", "\n", "\x0c", "\r"], ∀ d ∈ text.toList,
      Whitespace.ascii.skips d = true := by
    decide
  have hskips := hall _ hlexeme c (by simp)
  rw [hc] at hskips
  cases hskips

end Token

namespace Source

/-- Spaces in front are skipped under either policy. -/
theorem tokens_dropSpaces (w : Whitespace) (text : List Char) :
    (⟨w, text.dropWhile Whitespace.space.skips⟩ : Source).tokens = (⟨w, text⟩ : Source).tokens := by
  have hparts := List.takeWhile_append_dropWhile (p := Whitespace.space.skips) (l := text)
  have hgap : ∀ c ∈ text.takeWhile Whitespace.space.skips, w.skips c = true := by
    intro c hc
    have hspace := List.all_eq_true.mp List.all_takeWhile c hc
    cases w with
    | space => exact hspace
    | ascii => exact Whitespace.skips_ascii_of_space hspace
  rw [← tokens_gap_append hgap, hparts]

/-- One token under the space policy: under the other it is a token as well, or else a stray one
and part of a gap. -/
theorem tokens_ascii_step {text : List Char} {t : Token} {s' : Source}
    (h : (⟨.space, text⟩ : Source).next? = some (t, s')) :
    (t.IsStray ∧ (⟨.ascii, text⟩ : Source).tokens = (⟨.ascii, s'.rest⟩ : Source).tokens) ∨
      (¬ t.IsStray ∧
        (⟨.ascii, text⟩ : Source).tokens = t :: (⟨.ascii, s'.rest⟩ : Source).tokens) := by
  unfold next? at h
  split at h
  · cases h
  · next c cs hdrop =>
    cases h
    have hspace : Whitespace.space.skips c = false :=
      eq_false_of_mem_head?_dropWhile (by rw [hdrop]; rfl)
    simp only at hdrop
    rw [← tokens_dropSpaces .ascii text, hdrop]
    cases hascii : Whitespace.ascii.skips c with
    | true =>
      have hgap : ∀ d ∈ [c], Whitespace.ascii.skips d = true := by simpa using hascii
      rw [Token.scan_illegal cs (Token.not_beginsToken_of_skips hascii)]
      exact Or.inl ⟨Token.isStray_of_skips hascii hspace, tokens_gap_append hgap cs⟩
    | false =>
      have hnext : (⟨.ascii, c :: cs⟩ : Source).next? =
          some ((Token.scan c cs).1, ⟨.ascii, (Token.scan c cs).2⟩) := by
        simp only [next?, List.dropWhile_cons, hascii, Bool.false_eq_true, if_false]
      exact Or.inr ⟨(Token.hasForm_of_next? hnext).not_isStray, tokens_of_some hnext⟩

theorem tokens_ascii (text : List Char) :
    (⟨.ascii, text⟩ : Source).tokens =
      (⟨.space, text⟩ : Source).tokens.filter fun t => ¬ t.IsStray := by
  generalize hs : (⟨.space, text⟩ : Source) = s
  fun_induction tokens s generalizing text with
  | case1 s hnone =>
    subst hs
    have hgap := skips_of_next?_eq_none hnone
    exact tokens_skipped fun c hc => Whitespace.skips_ascii_of_space (hgap c hc)
  | case2 s t s' hnext ih =>
    subst hs
    have hpolicy : s'.whitespace = .space := whitespace_of_next? hnext
    have hrest := ih s'.rest (by rw [← hpolicy])
    rcases tokens_ascii_step hnext with ⟨hstray, htokens⟩ | ⟨hkept, htokens⟩
    · rw [htokens, hrest, List.filter_cons_of_neg (by simpa using hstray)]
    · rw [htokens, hrest, List.filter_cons_of_pos (by simpa using hkept)]

/-- **The policies differ in stray white space only.**  Skipping all ASCII white space takes the
illegal tokens that are such white space out of the token stream, and changes nothing else. -/
theorem tokenize_ascii (text : List Char) :
    (⟨.ascii, text⟩ : Source).tokenize =
      (⟨.space, text⟩ : Source).tokenize.filter fun t => ¬ t.IsStray := by
  have heof : [Token.eof].filter (fun t => ¬ t.IsStray) = [Token.eof] := by decide
  rw [tokenize, tokenize, List.filter_append, heof, tokens_ascii]

/-- Tabs next to a number and in a string, and a line feed behind a keyword. -/
example :
    let text := "1\t.\"\t\"let\n".toList
    (⟨.space, text⟩ : Source).tokens =
        [⟨.int, "1"⟩, ⟨.illegal, "\t"⟩, ⟨.illegal, "."⟩, ⟨.string, "\t"⟩,
          ⟨.keyword .letWord, "let"⟩, ⟨.illegal, "\n"⟩] ∧
      (⟨.ascii, text⟩ : Source).tokens =
        [⟨.int, "1"⟩, ⟨.illegal, "."⟩, ⟨.string, "\t"⟩, ⟨.keyword .letWord, "let"⟩] := by
  decide +kernel

end Source

/-! ## The place of illegal tokens -/

/-- An illegal token has a place in the grammar only if it is an operator. -/
def Token.HasPlace (t : Token) : Prop := t.kind = .illegal → ∃ o, t.operator? = some o

namespace Token

theorem hasPlace_of_kind {t : Token} {kind : TokenKind} (h : t.kind = kind)
    (hkind : kind ≠ .illegal) : t.HasPlace :=
  fun hillegal => absurd (h.symm.trans hillegal) hkind

theorem hasPlace_of_operand? {t : Token} {n : Node} (h : t.operand? = some n) : t.HasPlace := by
  obtain ⟨k, hk, -⟩ := operand?_eq_some_iff.mp h
  exact hasPlace_of_kind hk (by cases k <;> decide)

/-- White space is no operator. -/
theorem HasPlace.isBlank_eq_false {t : Token} (h : t.HasPlace) (hkind : t.kind = .illegal) :
    Text.isBlank t.lexeme.toList = false := by
  obtain ⟨o, ho⟩ := h hkind
  obtain ⟨-, -, hmem, hlexeme⟩ := operator?_eq_some_iff.mp ho
  have hall : ∀ o ∈ Operator.table, Text.isBlank o.lexeme.toList = false := by decide
  rw [← hlexeme]
  exact hall o hmem

theorem HasPlace.not_isStray {t : Token} (h : t.HasPlace) : ¬ t.IsStray := by
  rintro ⟨hkind, hlexeme⟩
  have hall : ∀ text ∈ ["\t", "\n", "\x0c", "\r"], Text.isBlank text.toList = true := by decide
  have hblank := h.isBlank_eq_false hkind
  rw [hall _ hlexeme] at hblank
  cases hblank

end Token

variable {ts rest : List Token}

theorem hasPlace_of_linksOfTokens? {links : List Link} (h : Run.linksOfTokens? ts = some links) :
    ∀ t ∈ ts, t.HasPlace := by
  induction links generalizing ts with
  | nil =>
    rw [Run.linksOfTokens?_eq_nil_iff.mp h]
    simp
  | cons l ls ih =>
    obtain ⟨o, p, more, rfl, ho, hp, hmore⟩ := Run.linksOfTokens?_eq_cons_iff.mp h
    refine List.forall_mem_cons.mpr ⟨fun _ => ⟨_, ho⟩, List.forall_mem_cons.mpr ⟨?_, ih hmore⟩⟩
    exact Token.hasPlace_of_operand? hp

theorem SpellsRun.hasPlace {run : Run} (h : SpellsRun ts run rest) : ∀ t ∈ ts, t.HasPlace := by
  obtain ⟨p, more, rfl, hp, hmore⟩ := Run.ofTokens?_eq_some_iff.mp h.1
  exact List.forall_mem_cons.mpr
    ⟨Token.hasPlace_of_operand? hp, hasPlace_of_linksOfTokens? hmore⟩

theorem SpellsRuns.hasPlace {runs : List Run} (h : SpellsRuns ts runs rest) :
    ∀ t ∈ ts, t.HasPlace := by
  induction h with
  | nil => simp
  | cons hrun _ ih => exact List.forall_mem_append.mpr ⟨hrun.hasPlace, ih⟩

theorem SpellsPhrase.hasPlace {phrase : Phrase} (h : SpellsPhrase ts phrase rest) :
    ∀ t ∈ ts, t.HasPlace := by
  cases h with
  | binding hword hname hequals hsemi hrun =>
    simp only [List.forall_mem_cons, List.forall_mem_append]
    exact ⟨Token.hasPlace_of_kind hword nofun, Token.hasPlace_of_kind hname (by decide),
      Token.hasPlace_of_kind hequals (by decide), hrun.hasPlace,
      Token.hasPlace_of_kind hsemi (by decide), by simp⟩
  | block hopening hclosing hruns =>
    simp only [List.forall_mem_cons, List.forall_mem_append]
    exact ⟨Token.hasPlace_of_kind hopening (by decide), hruns.hasPlace,
      Token.hasPlace_of_kind hclosing (by decide), by simp⟩
  | expression hrun => exact hrun.hasPlace

/-- All tokens of a program have a place in the grammar. -/
theorem IsCut.hasPlace {cut : List Piece} (h : IsCut ts cut) : ∀ t ∈ ts, t.HasPlace := by
  induction h with
  | nil => simp
  | cons hphrase _ ih => exact List.forall_mem_append.mpr ⟨hphrase.hasPlace, ih⟩

/-! ## Programs -/

namespace Reading

theorem filter_of_hasPlace (h : ∀ t ∈ ts, t.HasPlace) : ts.filter (fun t => ¬ t.IsStray) = ts :=
  List.filter_eq_self.mpr fun t ht => by simpa using (h t ht).not_isStray

/-- A program has no stray tokens. -/
theorem filter_of_statements_eq_ok {ns : List Node} (h : statements ts = .ok ns rest) :
    ts.filter (fun t => ¬ t.IsStray) = ts := by
  obtain ⟨-, cut, hcut, -, -⟩ := statements_eq_ok_iff.mp h
  exact filter_of_hasPlace hcut.hasPlace

/-- A syntax error at a token that is not stray is found without the stray tokens as well: none
was taken before, and no reading looks behind the token at which it stops. -/
theorem statements_filter_of_eq_error {e : ParseError} (h : statements ts = .error e rest)
    (hshallow : ∀ limit, e ≠ .tooDeep limit) (hcurrent : ¬ (current rest).IsStray) :
    statements (ts.filter fun t => ¬ t.IsStray) =
      .error e (rest.filter fun t => ¬ t.IsStray) := by
  obtain ⟨taken, more, cut, htaken, hcut, -⟩ := exists_isCut_of_error h hshallow
  obtain ⟨taken', hstops⟩ := looksAhead_statements ts
  have hunread := hstops.taken_append
  rw [h, htaken] at hunread
  obtain rfl : taken = taken' := List.append_cancel_right hunread
  have hhead : (rest.filter fun t => ¬ t.IsStray).head? = (statements ts).unread.head? := by
    rw [h]
    cases rest with
    | nil => rfl
    | cons t rest =>
      rw [List.filter_cons_of_pos (by simpa [current] using hcurrent)]
      rfl
  have hplaced := (List.forall_mem_append.mp hcut.hasPlace).1
  rw [htaken, List.filter_append, filter_of_hasPlace hplaced, hstops.same hhead, h]
  rfl

end Reading

namespace Source

/-- **More white space, the same result.**  A text that is a program where only spaces are skipped
is the same program where all ASCII white space is, and one with a syntax error has the same error,
unless it is a stray token that the error reports. -/
theorem parse_ascii (text : List Char) :
    (∀ p, (⟨.space, text⟩ : Source).parse = .ok p → (⟨.ascii, text⟩ : Source).parse = .ok p) ∧
    ∀ e, (⟨.space, text⟩ : Source).parse = .error e →
      (∃ found ∈ e.found?, ∀ t : Token, t.IsStray → found ≠ t.describe) →
        (⟨.ascii, text⟩ : Source).parse = .error e := by
  constructor
  · intro p hp
    rw [parse_eq_ok_iff] at hp ⊢
    rw [tokens_ascii, Reading.filter_of_statements_eq_ok hp, hp]
  · rintro e he ⟨found, hfound, hother⟩
    cases hparse : (Session.ofSource ⟨.space, text⟩).parse with
    | mk result after =>
      obtain rfl : result = .error e := by
        rw [← he, parse, hparse]
      have hshallow : ∀ limit, e ≠ .tooDeep limit := by
        rintro limit rfl
        cases hfound
      have hcurrent : ¬ (current after.ahead).IsStray := fun hstray =>
        hother _ hstray ((Session.reportedAt_of_parse hparse).eq_describe hfound)
      have hread := Reading.statements_filter_of_eq_error (Session.parse_eq_error_iff.mp hparse)
        hshallow hcurrent
      rw [Session.ofSource, ← tokens_ascii] at hread
      simp only [parse, Session.parse, Session.ofSource, hread]

/-- Tabs and line feeds inside strings and behind the error that is reported. -/
theorem parse_ascii_tabs :
    ∃ text bad p e, text = "\x7b\"a\tb\" or \"\n\"\x7d".toList ∧
      bad = "let x = \"\t\" ^ )\t1;".toList ∧
      (⟨.space, text⟩ : Source).parse = .ok p ∧ (⟨.ascii, text⟩ : Source).parse = .ok p ∧
      e = .expectedPrimary "')'" ∧ (⟨.space, bad⟩ : Source).parse = .error e ∧
      (∃ found ∈ e.found?, ∀ t : Token, t.IsStray → found ≠ t.describe) ∧
      (⟨.ascii, bad⟩ : Source).parse = .error e := by
  let text := "\x7b\"a\tb\" or \"\n\"\x7d".toList
  let bad := "let x = \"\t\" ^ )\t1;".toList
  let p : Program := ⟨[.block [.binary (.operand .string "a\tb") "or" (.operand .string "\n")]]⟩
  let e : ParseError := .expectedPrimary "')'"
  have hp : (⟨.space, text⟩ : Source).parse = .ok p := sameResult_iff.mp (by decide +kernel)
  have he : (⟨.space, bad⟩ : Source).parse = .error e := sameResult_iff.mp (by decide +kernel)
  have hother : ∃ found ∈ e.found?, ∀ t : Token, t.IsStray → found ≠ t.describe := by
    refine ⟨_, rfl, ?_⟩
    rintro ⟨kind, lexeme⟩ ⟨hkind, hlexeme⟩
    obtain rfl : kind = .illegal := hkind
    have hall : ∀ text ∈ ["\t", "\n", "\x0c", "\r"], "')'" ≠ Token.describe ⟨.illegal, text⟩ := by
      decide
    exact hall lexeme hlexeme
  exact ⟨text, bad, p, e, rfl, rfl, hp, (parse_ascii text).1 p hp, rfl, he, hother,
    (parse_ascii bad).2 e he hother⟩

end Source

end ScriptTree
