import Mathlib.Algebra.Group.Nat.Even
import ScriptTree.Proofs.LongestMatch

/-!
# Separation

Two texts with skipped characters between them are scanned as two texts exactly if the first
has an even number of quotes (`Source.tokenize_separated_iff`).

Quotes stand around strings and nowhere else (`Token.even_count_spelling`), so the number is
odd exactly if the last token is a string left open.  Such a string takes the separator in,
whatever the second text is (`Source.tokens_open_ne`).
-/

namespace ScriptTree

variable {w : Whitespace}

namespace Token

/-! ## Quotes -/

/-- A quote is part of no lexeme, not even of a string's. -/
theorem quote_not_mem_lexeme {t : Token} (h : t.HasForm w) : '"' ∉ t.lexeme.toList := by
  obtain ⟨kind, lexeme⟩ := t
  have hplain : ¬ IsPlain '"' := by decide
  cases kind with
  | symbol s =>
    obtain rfl : lexeme = s.text := h
    have hall : ∀ s ∈ Symbol.all, '"' ∉ s.text.toList := by decide
    exact hall s (Symbol.mem_all s)
  | keyword k =>
    obtain rfl : lexeme = k.text := h
    exact fun hq => hplain ((isWord_text k).isPlain '"' hq)
  | string => exact h
  | int => exact fun hq => hplain (IsDigits.isPlain h '"' hq)
  | float => exact fun hq => hplain (IsPointed.isPlain h '"' hq)
  | identifier => exact fun hq => hplain (h.1.isPlain '"' hq)
  | illegal =>
    obtain ⟨c, rfl, hc, -⟩ : ∃ c, lexeme = String.singleton c ∧ _ := h
    have hne : '"' ≠ c := fun heq => hc (Or.inl heq.symm)
    simpa using hne
  | eof => cases h

/-- The spelling of a token has both quotes or none. -/
theorem even_count_spelling {t : Token} (h : t.HasForm w) : Even (t.spelling.toList.count '"') := by
  have hlexeme : t.lexeme.toList.count '"' = 0 := List.count_eq_zero.mpr (quote_not_mem_lexeme h)
  unfold spelling
  split
  · simp only [String.toList_append, List.count_append, hlexeme]
    decide
  · rw [hlexeme]
    exact Even.zero

end Token

/-! ## Two texts -/

namespace Source

/-- The tokens of a source are those of any other with the same next one. -/
theorem tokens_congr {s s' : Source} (h : s.next? = s'.next?) : s.tokens = s'.tokens := by
  cases hnext : s'.next? with
  | none => rw [tokens_of_none hnext, tokens_of_none (h.trans hnext)]
  | some pair => rw [tokens_of_some hnext, tokens_of_some (h.trans hnext)]

/-- What is skipped in front of a text makes no difference. -/
theorem tokens_gap_append {gap : List Char} (hgap : ∀ c ∈ gap, w.skips c = true)
    (rest : List Char) : (⟨w, gap ++ rest⟩ : Source).tokens = (⟨w, rest⟩ : Source).tokens := by
  refine tokens_congr ?_
  simp only [next?, List.dropWhile_append_of_pos hgap]

/-- Behind a quote comes the string up to the next quote. -/
theorem exists_next?_string {gap body : List Char} (hgap : ∀ c ∈ gap, w.skips c = true)
    (hbody : '"' ∉ body) (rest : List Char) :
    ∃ s', (⟨w, gap ++ '"' :: (body ++ rest)⟩ : Source).next? =
      some (⟨.string, String.ofList (body ++ rest.takeWhile (· ≠ '"'))⟩, s') := by
  have hquote : w.skips '"' = false := by cases w <;> rfl
  obtain ⟨-, hdrop⟩ := span_eq ('"' :: (body ++ rest)) hgap (by simpa using hquote)
  refine ⟨⟨w, ((body ++ rest).dropWhile (· ≠ '"')).drop 1⟩, ?_⟩
  simp only [next?, hdrop, Token.scan, if_pos, Token.scanString,
    List.takeWhile_append_of_pos (forall_ne_of_not_mem hbody)]

/-- A string left open takes the separator in, and so is no more the token that it was. -/
theorem tokens_open_ne {gap body sep : List Char} (hgap : ∀ c ∈ gap, w.skips c = true)
    (hbody : '"' ∉ body) (hne : sep ≠ []) (hsep : ∀ c ∈ sep, w.skips c = true) (b : List Char)
    (ts : List Token) :
    (⟨w, gap ++ '"' :: (body ++ (sep ++ b))⟩ : Source).tokens ≠
      ⟨.string, String.ofList body⟩ :: ts := by
  intro heq
  obtain ⟨s', hnext⟩ := exists_next?_string hgap hbody (sep ++ b)
  rw [tokens_of_some hnext] at heq
  have hlexeme := congrArg (fun t : Token => t.lexeme.toList) (List.cons.inj heq).1
  have hquote := forall_ne_of_not_mem (Token.quote_not_mem_of_skips hsep)
  simp only [String.toList_ofList, List.takeWhile_append_of_pos hquote] at hlexeme
  have hnil := List.append_right_eq_self.mp hlexeme
  exact hne (List.append_eq_nil_iff.mp hnil).1

/-- A token that is closed is the next one whatever stands behind the separator. -/
theorem tokens_closed {gap rest sep : List Char} {t : Token} (hgap : ∀ c ∈ gap, w.skips c = true)
    (ht : t.HasForm w) (hended : ∀ d ∈ rest.head?, ¬ t.ExtendedBy d) (hne : sep ≠ [])
    (hsep : ∀ c ∈ sep, w.skips c = true) (b : List Char) :
    (⟨w, gap ++ (t.spelling.toList ++ (rest ++ (sep ++ b)))⟩ : Source).tokens =
      t :: (⟨w, rest ++ (sep ++ b)⟩ : Source).tokens := by
  refine tokens_of_some (next?_write hgap ht ?_)
  intro d hd
  cases rest with
  | nil =>
    obtain ⟨c, sep, rfl⟩ := List.exists_cons_of_ne_nil hne
    obtain rfl : c = d := by simpa using hd
    exact Token.not_extendedBy_of_skips t (hsep c (by simp))
  | cons c rest => exact hended d hd

/-- Scanning goes on behind the separator as it would from the start, unless a string has been
left open. -/
theorem tokens_separated_iff {a sep : List Char} (hne : sep ≠ [])
    (hsep : ∀ c ∈ sep, w.skips c = true) (b : List Char) :
    (⟨w, a ++ (sep ++ b)⟩ : Source).tokens = (⟨w, a⟩ : Source).tokens ++ (⟨w, b⟩ : Source).tokens ↔
      Even (a.count '"') := by
  generalize hs : (⟨w, a⟩ : Source) = s
  fun_induction tokens s generalizing a with
  | case1 s hnone =>
    obtain rfl := hs
    have hgap : ∀ c ∈ a, w.skips c = true := skips_of_next?_eq_none hnone
    have hcount : a.count '"' = 0 := List.count_eq_zero.mpr (Token.quote_not_mem_of_skips hgap)
    rw [tokens_gap_append hgap, tokens_gap_append hsep, hcount]
    simp
  | case2 s t s' hnext ih =>
    obtain rfl := hs
    obtain ⟨gap, used, ha, hgap, hspelled, hended⟩ := exists_gap_of_next? hnext
    have hform := Token.hasForm_of_next? hnext
    obtain rfl := whitespace_of_next? hnext
    obtain rfl : a = gap ++ (used ++ s'.rest) := ha
    have hcount : gap.count '"' = 0 := List.count_eq_zero.mpr (Token.quote_not_mem_of_skips hgap)
    rcases hspelled with rfl | ⟨hstring, hrest, rfl⟩
    · have heven := Token.even_count_spelling hform
      have htail := ih (a := s'.rest) rfl
      simp only [List.append_assoc, List.cons_append, List.count_append, hcount,
        tokens_closed hgap hform hended hne hsep b, List.cons.injEq, true_and, htail,
        Nat.even_add, heven, Nat.zero_add, true_iff]
    · have hbody := Token.quote_not_mem_lexeme hform
      have hodd : (gap ++ ('"' :: t.lexeme.toList ++ s'.rest)).count '"' = 1 := by
        simp [hcount, hrest, List.count_eq_zero.mpr hbody]
      obtain ⟨kind, lexeme⟩ := t
      obtain rfl : kind = .string := hstring
      have hdiffer := tokens_open_ne hgap hbody hne hsep b
        (s'.tokens ++ (⟨s'.whitespace, b⟩ : Source).tokens)
      rw [String.ofList_toList] at hdiffer
      rw [hodd]
      simp only [hrest, List.append_nil, List.append_assoc, List.cons_append, hdiffer, false_iff]
      decide

/-- **Scanning composes** across a separator exactly if no string is left open, that is, if the
quotes before it are even in number. -/
theorem tokenize_separated_iff {a sep b : List Char} (hne : sep ≠ [])
    (hsep : ∀ c ∈ sep, w.skips c = true) :
    (⟨w, a ++ sep ++ b⟩ : Source).tokenize =
        (⟨w, a⟩ : Source).tokenize.dropLast ++ (⟨w, b⟩ : Source).tokenize ↔
      Even (a.count '"') := by
  rw [← tokens_separated_iff hne hsep b]
  simp only [tokenize, List.dropLast_concat, ← List.append_assoc, List.append_left_inj]

/-- A closed string before the separator, and one that is left open and closed behind it. -/
theorem tokenize_separated_iff_string :
    ∃ closed opened sep b : List Char, closed = "x=\"\"".toList ∧ opened = "x=\"y".toList ∧
      sep = " \t".toList ∧ b = "z\";".toList ∧ sep ≠ [] ∧
      (∀ c ∈ sep, Whitespace.ascii.skips c = true) ∧
      (⟨.ascii, closed ++ sep ++ b⟩ : Source).tokenize =
        (⟨.ascii, closed⟩ : Source).tokenize.dropLast ++ (⟨.ascii, b⟩ : Source).tokenize ∧
      (⟨.ascii, opened ++ sep ++ b⟩ : Source).tokenize ≠
        (⟨.ascii, opened⟩ : Source).tokenize.dropLast ++ (⟨.ascii, b⟩ : Source).tokenize := by
  let sep := " \t".toList
  have hne : sep ≠ [] := by decide
  have hsep : ∀ c ∈ sep, Whitespace.ascii.skips c = true := by decide
  refine ⟨"x=\"\"".toList, "x=\"y".toList, sep, "z\";".toList, rfl, rfl, rfl, rfl, hne, hsep,
    ?_, ?_⟩
  · exact (tokenize_separated_iff hne hsep).mpr (by decide)
  · exact fun heq => absurd ((tokenize_separated_iff hne hsep).mp heq) (by decide)

end Source

end ScriptTree
