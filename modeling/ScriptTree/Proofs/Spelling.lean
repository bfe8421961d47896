import ScriptTree.Token.Writing
import ScriptTree.Tree.Shape

/-!
# Spelling

Scanning undoes spelling.

* `Token.scan_spelling`: a spelled token is scanned as itself, if the next character would
  not be taken into it.
* `Token.ofText_lexeme`: the lexeme alone tells which token it is, except for strings.
* `Spaced.tokens_write`: tokens that are written apart from each other are scanned as
  themselves, and there are no others.
* `Source.hasForm_of_mem_tokens`: the tokens of a source have the form of their kinds.
-/

namespace ScriptTree

/-- Signs with a property, up to one without it. -/
theorem span_eq {α : Type} {p : α → Bool} {cs : List α} (rest : List α)
    (hcs : ∀ c ∈ cs, p c = true) (hrest : ∀ d ∈ rest.head?, p d = false) :
    (cs ++ rest).takeWhile p = cs ∧ (cs ++ rest).dropWhile p = rest := by
  rw [List.takeWhile_append_of_pos hcs, List.dropWhile_append_of_pos hcs]
  cases rest with
  | nil => simp
  | cons d rest => simp [hrest d rfl]

theorem forall_ne_of_not_mem {α : Type} [DecidableEq α] {stop : α} {cs : List α} (h : stop ∉ cs) :
    ∀ c ∈ cs, decide (c ≠ stop) = true := by
  intro c hc
  simp only [decide_eq_true_eq]
  rintro rfl
  exact h hc

namespace Symbol

/-- The characters of a symbol are found whole, if the next one makes no longer symbol. -/
theorem longest?_append {s : Symbol} {rest : List Char}
    (h : ∀ d ∈ rest.head?, ∀ longer : Symbol, longer.chars ≠ s.chars ++ [d]) :
    longest? (s.chars ++ rest) = some (s, rest) := by
  have hfound : ofChars? s.chars = some s := ofChars?_eq_some_iff.mpr rfl
  obtain ⟨c, hc⟩ | ⟨c, d, hc⟩ : (∃ c, s.chars = [c]) ∨ ∃ c d, s.chars = [c, d] := by
    cases s <;> simp [chars]
  · rw [hc] at hfound h ⊢
    cases rest with
    | nil => simp [longest?, hfound]
    | cons d rest =>
      have hnone : ofChars? [c, d] = none := by
        cases hl : ofChars? [c, d] with
        | none => rfl
        | some longer => exact absurd (ofChars?_eq_some_iff.mp hl) (h d rfl longer)
      simp [longest?, hnone, hfound]
  · rw [hc] at hfound ⊢
    simp [longest?, hfound]

end Symbol

/-! ## The characters of words and numbers -/

/-- Letters and digits, and the point of a number. -/
def IsPlain (c : Char) : Prop := c.isAlphanum = true ∨ c = '.'

instance : DecidablePred IsPlain := fun c =>
  inferInstanceAs (Decidable (c.isAlphanum = true ∨ c = '.'))

theorem IsWord.isPlain {cs : List Char} (h : IsWord cs) : ∀ c ∈ cs, IsPlain c := by
  obtain ⟨c, rest, rfl, hc, hrest⟩ := h
  refine List.forall_mem_cons.mpr ⟨Or.inl ?_, fun d hd => Or.inl (hrest d hd)⟩
  simp [Char.isAlphanum, hc]

theorem isPlain_of_isDigit {c : Char} (h : c.isDigit = true) : IsPlain c :=
  Or.inl (by simp [Char.isAlphanum, h])

theorem IsDigits.isPlain {cs : List Char} (h : IsDigits cs) : ∀ c ∈ cs, IsPlain c :=
  fun c hc => isPlain_of_isDigit (h.2 c hc)

theorem IsPointed.isPlain {cs : List Char} (h : IsPointed cs) : ∀ c ∈ cs, IsPlain c := by
  obtain ⟨whole, fraction, rfl, hwhole, hfraction⟩ := h
  refine List.forall_mem_append.mpr ⟨hwhole.isPlain, List.forall_mem_cons.mpr ⟨Or.inr rfl, ?_⟩⟩
  exact fun c hc => isPlain_of_isDigit (hfraction c hc)

namespace Token

/-! ## Classes of characters -/

theorem isDigit_eq_false_of_isAlpha {c : Char} (h : c.isAlpha = true) : c.isDigit = false := by
  have hletter : (decide ('A'.val ≤ c.val ∧ c.val ≤ 'Z'.val) ||
      (decide ('a'.val ≤ c.val) && decide (c.val ≤ 'z'.val))) = true := h
  show (decide ('0'.val ≤ c.val) && decide (c.val ≤ '9'.val)) = false
  simp only [Bool.or_eq_true, Bool.and_eq_true, Bool.and_eq_false_iff, decide_eq_true_eq,
    decide_eq_false_iff_not, UInt32.le_iff_toNat_le] at hletter ⊢
  have : '9'.val.toNat = 57 := rfl
  have : 'A'.val.toNat = 65 := rfl
  have : 'a'.val.toNat = 97 := rfl
  omega

/-- The first character of a symbol begins nothing else. -/
theorem head_symbol {s : Symbol} {c : Char} (h : s.chars.head? = some c) :
    c ≠ '"' ∧ c.isDigit = false ∧ c.isAlpha = false := by
  cases s <;> cases h <;> decide

theorem eq_of_skips {w : Whitespace} {c : Char} (h : w.skips c = true) :
    c = ' ' ∨ c = '\t' ∨ c = '\n' ∨ c = '\x0c' ∨ c = '\r' := by
  cases w <;> simp_all [Whitespace.skips, or_assoc]

/-- A character that separates tokens begins none. -/
theorem not_beginsToken_of_skips {w : Whitespace} {c : Char} (h : w.skips c = true) :
    ¬ BeginsToken c := by
  rcases eq_of_skips h with rfl | rfl | rfl | rfl | rfl <;> decide

theorem quote_not_mem_of_skips {w : Whitespace} {gap : List Char}
    (h : ∀ c ∈ gap, w.skips c = true) : '"' ∉ gap :=
  fun hq => not_beginsToken_of_skips (h _ hq) (Or.inl rfl)

/-- Nor does it go on with any. -/
theorem not_extendedBy_of_skips {w : Whitespace} {c : Char} (t : Token) (h : w.skips c = true) :
    ¬ t.ExtendedBy c := by
  obtain ⟨ha, hd, hp, hs⟩ : c.isAlphanum = false ∧ c.isDigit = false ∧ c ≠ '.' ∧
      ∀ s ∈ Symbol.all, c ∉ s.chars := by
    rcases eq_of_skips h with rfl | rfl | rfl | rfl | rfl <;> decide
  unfold ExtendedBy
  split
  · simp [ha]
  · simp [ha]
  · simp [hd, hp]
  · simp [hd]
  · rintro ⟨longer, hlonger⟩
    exact hs longer (Symbol.mem_all longer) (by simp [hlonger])
  all_goals exact id

/-! ## One token -/

/-- A string ends at the next quote, or at the end of the text. -/
theorem scan_string {body rest : List Char} (hbody : '"' ∉ body)
    (hrest : ∀ d ∈ rest.head?, d = '"') :
    scan '"' (body ++ rest) = (⟨.string, String.ofList body⟩, rest.drop 1) := by
  obtain ⟨htake, hdrop⟩ := span_eq rest (forall_ne_of_not_mem hbody) (by simpa using hrest)
  rw [scan, if_pos rfl, scanString, htake, hdrop]

theorem scan_word {c : Char} {cs rest : List Char} (hc : c.isAlpha = true)
    (hcs : ∀ d ∈ cs, d.isAlphanum = true) (hrest : ∀ d ∈ rest.head?, ¬ d.isAlphanum = true) :
    scan c (cs ++ rest) = (word (String.ofList (c :: cs)), rest) := by
  have ha : c.isAlphanum = true := by simp [Char.isAlphanum, hc]
  obtain ⟨htake, hdrop⟩ := span_eq rest (List.forall_mem_cons.mpr ⟨ha, hcs⟩)
    (fun d hd => by simpa using hrest d hd)
  rw [List.cons_append] at htake hdrop
  have hq : c ≠ '"' := by rintro rfl; cases hc
  have hd : ¬ c.isDigit = true := by simp [isDigit_eq_false_of_isAlpha hc]
  rw [scan, if_neg hq, if_neg hd, if_pos hc, scanWord, htake, hdrop]

theorem scan_digit {c : Char} (cs : List Char) (hc : c.isDigit = true) :
    scan c cs = scanNumber (c :: cs) := by
  have hq : c ≠ '"' := by rintro rfl; cases hc
  rw [scan, if_neg hq, if_pos hc]

theorem scanNumber_int {cs rest : List Char} (hcs : ∀ d ∈ cs, d.isDigit = true)
    (hrest : ∀ d ∈ rest.head?, ¬ (d.isDigit = true ∨ d = '.')) :
    scanNumber (cs ++ rest) = (⟨.int, String.ofList cs⟩, rest) := by
  obtain ⟨htake, hdrop⟩ := span_eq rest hcs (fun d hd => by
    simpa using fun h => hrest d hd (Or.inl h))
  simp only [scanNumber, htake, hdrop]
  split
  · next tail =>
    exact absurd (Or.inr rfl) (hrest '.' rfl)
  · rfl

theorem scanNumber_float {whole fraction rest : List Char} (hwhole : ∀ d ∈ whole, d.isDigit = true)
    (hfraction : ∀ d ∈ fraction, d.isDigit = true) (hrest : ∀ d ∈ rest.head?, ¬ d.isDigit = true) :
    scanNumber (whole ++ '.' :: (fraction ++ rest)) =
      (⟨.float, String.ofList (whole ++ '.' :: fraction)⟩, rest) := by
  obtain ⟨htake, hdrop⟩ := span_eq ('.' :: (fraction ++ rest)) hwhole (by simp)
  obtain ⟨htake', hdrop'⟩ := span_eq rest hfraction (fun d hd => by simpa using hrest d hd)
  simp only [scanNumber, htake, hdrop, htake', hdrop']

theorem scan_symbol {s : Symbol} {c : Char} {cs rest : List Char} (hs : s.chars = c :: cs)
    (hrest : ∀ d ∈ rest.head?, ¬ ∃ longer : Symbol, longer.chars = s.chars ++ [d]) :
    scan c (cs ++ rest) = (symbol s, rest) := by
  obtain ⟨hq, hd, ha⟩ := head_symbol (s := s) (c := c) (by rw [hs]; rfl)
  have hl := Symbol.longest?_append (fun d hd longer hlonger => hrest d hd ⟨longer, hlonger⟩)
  rw [hs, List.cons_append] at hl
  simp only [scan, hq, hd, ha, Bool.false_eq_true, if_false, scanSymbol, hl]

theorem scan_illegal {c : Char} (rest : List Char) (hc : ¬ BeginsToken c) :
    scan c rest = (⟨.illegal, String.singleton c⟩, rest) := by
  have hq : c ≠ '"' := fun h => hc (Or.inl h)
  have hd : ¬ c.isDigit = true := fun h => hc (Or.inr (Or.inl h))
  have ha : ¬ c.isAlpha = true := fun h => hc (Or.inr (Or.inr (Or.inl h)))
  have hl : Symbol.longest? (c :: rest) = none :=
    longest?_eq_none_iff.mpr fun s hs => hc (Or.inr (Or.inr (Or.inr ⟨s, hs⟩)))
  rw [scan, if_neg hq, if_neg hd, if_neg ha, scanSymbol, hl]

/-- A keyword is a word. -/
theorem isWord_text (k : Keyword) : IsWord k.text.toList := by
  cases k <;> decide

/-- **Scanning undoes spelling**, as long as the token is not gone on with. -/
theorem scan_spelling {w : Whitespace} {t : Token} {c : Char} {cs rest : List Char}
    (h : t.HasForm w) (hspell : t.spelling.toList = c :: cs)
    (hrest : ∀ d ∈ rest.head?, ¬ t.ExtendedBy d) : scan c (cs ++ rest) = (t, rest) := by
  obtain ⟨kind, lexeme⟩ := t
  cases kind with
  | symbol s =>
    obtain rfl : lexeme = s.text := h
    exact scan_symbol (by simpa [spelling, Symbol.text] using hspell) hrest
  | keyword k =>
    obtain rfl : lexeme = k.text := h
    obtain ⟨c', cs', htext, hc, hcs⟩ := isWord_text k
    obtain ⟨rfl, rfl⟩ : c' = c ∧ cs' = cs := by simpa [spelling, htext] using hspell
    rw [scan_word hc hcs hrest, ← htext, String.ofList_toList, word,
      Keyword.ofText?_eq_some_iff.mpr rfl]
  | string =>
    have hbody : '"' ∉ lexeme.toList := h
    obtain ⟨rfl, rfl⟩ : '"' = c ∧ lexeme.toList ++ ['"'] = cs := by
      simpa [spelling] using hspell
    rw [List.append_assoc, List.singleton_append, scan_string hbody (by simp), List.drop_one,
      List.tail_cons, String.ofList_toList]
  | int =>
    obtain ⟨-, hall⟩ : IsDigits lexeme.toList := h
    have hlexeme : lexeme.toList = c :: cs := by simpa [spelling] using hspell
    rw [hlexeme] at hall
    rw [scan_digit _ (hall c (by simp)), ← List.cons_append, scanNumber_int hall hrest, ← hlexeme,
      String.ofList_toList]
  | float =>
    obtain ⟨whole, fraction, hlexeme, ⟨hne, hwhole⟩, hfraction⟩ : IsPointed lexeme.toList := h
    have hcs : lexeme.toList = c :: cs := by simpa [spelling] using hspell
    obtain ⟨d, whole, rfl⟩ := List.exists_cons_of_ne_nil hne
    obtain ⟨rfl, rfl⟩ : c = d ∧ cs = whole ++ '.' :: fraction := by
      simpa [hcs] using hlexeme
    have hnumber := scanNumber_float hwhole hfraction hrest
    rw [scan_digit _ (hwhole c (by simp)), ← String.ofList_toList (s := lexeme), hlexeme, ← hnumber]
    simp
  | identifier =>
    obtain ⟨⟨c', cs', htext, hc, hcs⟩, hnone⟩ : IsWord lexeme.toList ∧ _ := h
    obtain ⟨rfl, rfl⟩ : c' = c ∧ cs' = cs := by simpa [spelling, htext] using hspell
    rw [scan_word hc hcs hrest, ← htext, String.ofList_toList, word, hnone]
  | illegal =>
    obtain ⟨d, rfl, hd, -⟩ : ∃ d, lexeme = String.singleton d ∧ _ := h
    obtain ⟨rfl, rfl⟩ : d = c ∧ [] = cs := by simpa [spelling] using hspell
    exact scan_illegal rest hd
  | eof => cases h

/-- A spelled token begins with a character that is not skipped. -/
theorem exists_head_spelling {w : Whitespace} {t : Token} (h : t.HasForm w) :
    ∃ c cs, t.spelling.toList = c :: cs ∧ w.skips c = false := by
  have hbegins : ∀ {c}, BeginsToken c → w.skips c = false := fun hc =>
    Bool.eq_false_iff.mpr fun hskips => not_beginsToken_of_skips hskips hc
  obtain ⟨kind, lexeme⟩ := t
  cases kind with
  | symbol s =>
    obtain rfl : lexeme = s.text := h
    obtain ⟨c, cs, hs⟩ : ∃ c cs, s.chars = c :: cs := by cases s <;> exact ⟨_, _, rfl⟩
    exact ⟨c, cs, by simp [spelling, Symbol.text, hs],
      hbegins (Or.inr (Or.inr (Or.inr ⟨s, by rw [hs]; rfl⟩)))⟩
  | keyword k =>
    obtain rfl : lexeme = k.text := h
    obtain ⟨c, cs, htext, hc, -⟩ := isWord_text k
    exact ⟨c, cs, htext, hbegins (Or.inr (Or.inr (Or.inl hc)))⟩
  | string => exact ⟨'"', lexeme.toList ++ ['"'], by simp [spelling], hbegins (Or.inl rfl)⟩
  | int =>
    obtain ⟨hne, hall⟩ : IsDigits lexeme.toList := h
    obtain ⟨c, cs, hcs⟩ := List.exists_cons_of_ne_nil hne
    exact ⟨c, cs, hcs, hbegins (Or.inr (Or.inl (hall c (by simp [hcs]))))⟩
  | float =>
    obtain ⟨whole, fraction, hlexeme, ⟨hne, hwhole⟩, -⟩ : IsPointed lexeme.toList := h
    obtain ⟨c, whole, rfl⟩ := List.exists_cons_of_ne_nil hne
    exact ⟨c, _, hlexeme, hbegins (Or.inr (Or.inl (hwhole c (by simp))))⟩
  | identifier =>
    obtain ⟨⟨c, cs, htext, hc, -⟩, -⟩ : IsWord lexeme.toList ∧ _ := h
    exact ⟨c, cs, htext, hbegins (Or.inr (Or.inr (Or.inl hc)))⟩
  | illegal =>
    obtain ⟨c, rfl, -, hc⟩ : ∃ c, lexeme = String.singleton c ∧ _ := h
    exact ⟨c, [], by simp [spelling], hc⟩
  | eof => cases h

/-- A token that is no string is the one that its lexeme begins with. -/
theorem ofText_lexeme {w : Whitespace} {t : Token} (h : t.HasForm w) (hs : t.kind ≠ .string) :
    ofText t.lexeme = t := by
  obtain ⟨c, cs, hspell, -⟩ := exists_head_spelling h
  have hscan : scan c (cs ++ []) = (t, []) := scan_spelling h hspell (by simp)
  rw [List.append_nil] at hscan
  have hlexeme : t.spelling = t.lexeme := by
    unfold spelling
    split
    · next hkind => exact absurd hkind hs
    · rfl
  simp only [ofText, ← hlexeme, hspell, hscan]

end Token

/-! ## All tokens of a text -/

/-- A token written behind a gap is the next one. -/
theorem Source.next?_write {w : Whitespace} {gap rest : List Char} {t : Token}
    (hgap : ∀ c ∈ gap, w.skips c = true) (h : t.HasForm w)
    (hrest : ∀ d ∈ rest.head?, ¬ t.ExtendedBy d) :
    (⟨w, gap ++ (t.spelling.toList ++ rest)⟩ : Source).next? = some (t, ⟨w, rest⟩) := by
  obtain ⟨c, cs, hspell, hc⟩ := Token.exists_head_spelling h
  have hscan := Token.scan_spelling h hspell hrest
  obtain ⟨-, hdrop⟩ := span_eq (c :: (cs ++ rest)) hgap (by simpa using hc)
  simp only [next?, hspell, List.cons_append, hdrop, hscan]

theorem Source.tokens_skipped {w : Whitespace} {gap : List Char} (h : ∀ c ∈ gap, w.skips c = true) :
    (⟨w, gap⟩ : Source).tokens = [] := by
  refine tokens_of_none ?_
  obtain ⟨-, hdrop⟩ := span_eq [] h (by simp)
  rw [List.append_nil] at hdrop
  simp only [next?, hdrop]

/-- What is written behind a token does not go on with it: either there is a gap, or the next
token is apart. -/
theorem Spaced.not_extendedBy_head_write {w : Whitespace} {u : Token} {ss : List Spaced}
    {last : List Char} (hforms : ∀ s ∈ ss, s.token.HasForm w)
    (hgaps : ∀ s ∈ ss, ∀ c ∈ s.gap, w.skips c = true) (hlast : ∀ c ∈ last, w.skips c = true)
    (h : ∀ t ∈ ss.head?, t.gap = [] → ∀ c ∈ t.token.spelling.toList.head?, ¬ u.ExtendedBy c) :
    ∀ d ∈ (write ss last).head?, ¬ u.ExtendedBy d := by
  intro d hd
  cases ss with
  | nil => exact Token.not_extendedBy_of_skips _ (hlast d (List.mem_of_mem_head? hd))
  | cons t more =>
    cases hg : t.gap with
    | nil =>
      obtain ⟨c, cs, hspell, -⟩ := Token.exists_head_spelling (hforms t (by simp))
      obtain rfl : c = d := by simpa [write, hg, hspell] using hd
      exact h t rfl hg c (by rw [hspell]; rfl)
    | cons c cs =>
      obtain rfl : c = d := by simpa [write, hg] using hd
      exact Token.not_extendedBy_of_skips _ (hgaps t (by simp) c (by simp [hg]))

/-- **Writing and scanning.**  Tokens that are written apart are the tokens of the text. -/
theorem Spaced.tokens_write {w : Whitespace} {ss : List Spaced} {last : List Char}
    (hforms : ∀ s ∈ ss, s.token.HasForm w) (hgaps : ∀ s ∈ ss, ∀ c ∈ s.gap, w.skips c = true)
    (hlast : ∀ c ∈ last, w.skips c = true) (hapart : Apart ss) :
    (⟨w, write ss last⟩ : Source).tokens = ss.map token := by
  induction ss with
  | nil => exact Source.tokens_skipped hlast
  | cons s more ih =>
    obtain ⟨hform, hforms⟩ := List.forall_mem_cons.mp hforms
    obtain ⟨hgap, hgaps⟩ := List.forall_mem_cons.mp hgaps
    obtain ⟨hfirst, hmore⟩ := apart_cons_iff.mp hapart
    have hnext := not_extendedBy_head_write hforms hgaps hlast hfirst
    rw [write, Source.tokens_of_some (Source.next?_write hgap hform hnext),
      ih hforms hgaps hmore]
    rfl

theorem Source.whitespace_of_next? {s s' : Source} {t : Token} (h : s.next? = some (t, s')) :
    s'.whitespace = s.whitespace := by
  unfold next? at h
  split at h
  · cases h
  · cases h
    rfl

/-- The tokens of a source have the form of their kinds. -/
theorem Source.hasForm_of_mem_tokens {s : Source} {t : Token} (h : t ∈ s.tokens) :
    t.HasForm s.whitespace := by
  fun_induction Source.tokens s with
  | case1 => cases h
  | case2 s u s' hnext ih =>
    rcases List.mem_cons.mp h with rfl | hmem
    · exact Token.hasForm_of_next? hnext
    · rw [← Source.whitespace_of_next? hnext]
      exact ih hmem

/-- The end of the input is not among the tokens of a source. -/
theorem Source.isEof_of_mem_tokens {s : Source} {t : Token} (h : t ∈ s.tokens) :
    t.isEof = false :=
  (hasForm_of_mem_tokens h).isEof_eq_false

end ScriptTree
