import ScriptTree.Source

/-!
# Lexical form

Which tokens a text can hold (`Token.HasForm`), and which characters go on with a token
when they stand right behind its spelling (`Token.ExtendedBy`).  Every token scanned has
its form (`Token.hasForm_of_next?`).
-/

namespace ScriptTree

/-- A letter, then letters and digits. -/
def IsWord (cs : List Char) : Prop :=
  ∃ c rest, cs = c :: rest ∧ c.isAlpha = true ∧ ∀ d ∈ rest, d.isAlphanum = true

/-- One digit or more. -/
def IsDigits (cs : List Char) : Prop := cs ≠ [] ∧ ∀ c ∈ cs, c.isDigit = true

/-- Digits, a point, and digits or nothing. -/
def IsPointed (cs : List Char) : Prop :=
  ∃ whole fraction, cs = whole ++ '.' :: fraction ∧ IsDigits whole ∧
    ∀ c ∈ fraction, c.isDigit = true

/-- Whether a character begins a string, a number, a word or a symbol. -/
def BeginsToken (c : Char) : Prop :=
  c = '"' ∨ c.isDigit = true ∨ c.isAlpha = true ∨ ∃ s : Symbol, s.chars.head? = some c

namespace Token

/-- The lexeme is one that the kind can have.  The policy counts for illegal characters,
none of which it skips. -/
def HasForm (w : Whitespace) (t : Token) : Prop :=
  match t.kind with
  | .symbol s => t.lexeme = s.text
  | .keyword k => t.lexeme = k.text
  | .string => '"' ∉ t.lexeme.toList
  | .int => IsDigits t.lexeme.toList
  | .float => IsPointed t.lexeme.toList
  | .identifier => IsWord t.lexeme.toList ∧ Keyword.ofText? t.lexeme = none
  | .illegal => ∃ c, t.lexeme = String.singleton c ∧ ¬ BeginsToken c ∧ w.skips c = false
  | .eof => False

/-- No lexeme has the form of the end of the input. -/
theorem HasForm.isEof_eq_false {w : Whitespace} {t : Token} (h : t.HasForm w) :
    t.isEof = false := by
  refine Bool.eq_false_iff.mpr fun heof => ?_
  simp [HasForm, isEof_iff.mp heof] at h

/-- A character that would be taken into the token if it stood right behind it. -/
def ExtendedBy (t : Token) (c : Char) : Prop :=
  match t.kind with
  | .keyword _ | .identifier => c.isAlphanum = true
  | .int => c.isDigit = true ∨ c = '.'
  | .float => c.isDigit = true
  | .symbol s => ∃ longer : Symbol, longer.chars = s.chars ++ [c]
  | .string | .illegal | .eof => False

/-- Of the symbols, `+`, `-` and `*` go on with themselves and with `=`, and four others with
`=` alone. -/
theorem extendedBy_symbol_iff {s : Symbol} {c : Char} :
    (symbol s).ExtendedBy c ↔
      (s ∈ [.plus, .minus, .star] ∧ (s.chars = [c] ∨ c = '=')) ∨
        (s ∈ [.slash, .equal, .lessThan, .greaterThan] ∧ c = '=') := by
  constructor
  · rintro ⟨longer, hlonger⟩
    have hall : ∀ longer ∈ Symbol.all, ∀ s ∈ Symbol.ofChars? longer.chars.dropLast,
        (s ∈ [.plus, .minus, .star] ∧
          (s.chars ++ s.chars = longer.chars ∨ longer.chars = s.chars ++ ['='])) ∨
            (s ∈ [.slash, .equal, .lessThan, .greaterThan] ∧ longer.chars = s.chars ++ ['=']) := by
      decide
    have hs : Symbol.ofChars? longer.chars.dropLast = some s :=
      Symbol.ofChars?_eq_some_iff.mpr (by simp [hlonger])
    simpa [hlonger] using hall longer (Symbol.mem_all longer) s hs
  · have hdouble : ∀ s ∈ [Symbol.plus, .minus, .star],
        ∃ longer : Symbol, longer.chars = s.chars ++ s.chars := by
      decide
    have hequal : ∀ s ∈ [Symbol.plus, .minus, .star] ++ [.slash, .equal, .lessThan, .greaterThan],
        ∃ longer : Symbol, longer.chars = s.chars ++ ['='] := by
      decide
    rintro (⟨hs, hc | rfl⟩ | ⟨hs, rfl⟩)
    · show ∃ longer : Symbol, longer.chars = s.chars ++ [c]
      rw [← hc]
      exact hdouble s hs
    · exact hequal s (List.mem_append_left _ hs)
    · exact hequal s (List.mem_append_right _ hs)

/-! ## Forms are decidable -/

-- Statements about all characters are decidable as well, but by trying every one there is.
instance (p : Char → Prop) [DecidablePred p] (cs : List Char) : Decidable (∀ c ∈ cs, p c) :=
  List.decidableBAll p cs

instance (p : Char → Prop) [DecidablePred p] (c? : Option Char) : Decidable (∀ c ∈ c?, p c) :=
  Option.decidableForallMem c?

instance : DecidablePred IsWord
  | [] => isFalse fun ⟨_, _, h, _⟩ => nomatch h
  | c :: cs =>
    decidable_of_iff (c.isAlpha = true ∧ ∀ d ∈ cs, d.isAlphanum = true)
      ⟨fun h => ⟨c, cs, rfl, h⟩, fun ⟨_, _, rfl, h⟩ => h⟩

instance : DecidablePred IsDigits := fun cs =>
  inferInstanceAs (Decidable (cs ≠ [] ∧ ∀ c ∈ cs, c.isDigit = true))

/-- The point stands where the first digits end. -/
theorem isPointed_iff {cs : List Char} :
    IsPointed cs ↔ cs.takeWhile Char.isDigit ≠ [] ∧
      (cs.dropWhile Char.isDigit).head? = some '.' ∧
      ∀ c ∈ (cs.dropWhile Char.isDigit).tail, c.isDigit = true := by
  constructor
  · rintro ⟨whole, fraction, rfl, ⟨hne, hwhole⟩, hfraction⟩
    rw [List.takeWhile_append_of_pos hwhole, List.dropWhile_append_of_pos hwhole]
    exact ⟨by simp [hne], by simp, by simpa using hfraction⟩
  · rintro ⟨hne, hpoint, hfraction⟩
    obtain ⟨fraction, hdrop⟩ := List.head?_eq_some_iff.mp hpoint
    refine ⟨_, fraction, ?_, ⟨hne, List.all_eq_true.mp List.all_takeWhile⟩, ?_⟩
    · rw [← hdrop, List.takeWhile_append_dropWhile]
    · simpa [hdrop] using hfraction

instance : DecidablePred IsPointed := fun _ => decidable_of_iff _ isPointed_iff.symm

instance : DecidablePred BeginsToken := fun c =>
  inferInstanceAs (Decidable (c = '"' ∨ c.isDigit = true ∨ c.isAlpha = true ∨
    ∃ s : Symbol, s.chars.head? = some c))

/-- An illegal lexeme is one character. -/
theorem hasForm_illegal_iff {w : Whitespace} {lexeme : String} :
    HasForm w ⟨.illegal, lexeme⟩ ↔
      lexeme.length = 1 ∧ ∀ c ∈ lexeme.toList, ¬ BeginsToken c ∧ w.skips c = false := by
  constructor
  · rintro ⟨c, rfl, hc⟩
    simpa using hc
  · rintro ⟨hlength, hall⟩
    obtain ⟨c, hc⟩ := List.length_eq_one_iff.mp ((String.length_toList).trans hlength)
    refine ⟨c, ?_, hall c (by simp [hc])⟩
    rw [← String.ofList_toList (s := lexeme), hc, String.singleton_eq_ofList]

instance (w : Whitespace) : DecidablePred (HasForm w)
  | ⟨.symbol s, lexeme⟩ => inferInstanceAs (Decidable (lexeme = s.text))
  | ⟨.keyword k, lexeme⟩ => inferInstanceAs (Decidable (lexeme = k.text))
  | ⟨.string, lexeme⟩ => inferInstanceAs (Decidable ('"' ∉ lexeme.toList))
  | ⟨.int, lexeme⟩ => inferInstanceAs (Decidable (IsDigits lexeme.toList))
  | ⟨.float, lexeme⟩ => inferInstanceAs (Decidable (IsPointed lexeme.toList))
  | ⟨.identifier, lexeme⟩ =>
    inferInstanceAs (Decidable (IsWord lexeme.toList ∧ Keyword.ofText? lexeme = none))
  | ⟨.illegal, _⟩ => decidable_of_iff _ hasForm_illegal_iff.symm
  | ⟨.eof, _⟩ => isFalse id

instance : (t : Token) → DecidablePred t.ExtendedBy
  | ⟨.symbol s, _⟩, c => inferInstanceAs (Decidable (∃ longer : Symbol, longer.chars = s.chars ++ [c]))
  | ⟨.keyword _, _⟩, c => inferInstanceAs (Decidable (c.isAlphanum = true))
  | ⟨.identifier, _⟩, c => inferInstanceAs (Decidable (c.isAlphanum = true))
  | ⟨.int, _⟩, c => inferInstanceAs (Decidable (c.isDigit = true ∨ c = '.'))
  | ⟨.float, _⟩, c => inferInstanceAs (Decidable (c.isDigit = true))
  | ⟨.string, _⟩, _ => isFalse id
  | ⟨.illegal, _⟩, _ => isFalse id
  | ⟨.eof, _⟩, _ => isFalse id

/-! ## Scanned tokens have their forms -/

theorem isWord_takeWhile {c : Char} (cs : List Char) (hc : c.isAlpha = true) :
    IsWord ((c :: cs).takeWhile Char.isAlphanum) := by
  have ha : c.isAlphanum = true := by simp [Char.isAlphanum, hc]
  refine ⟨c, cs.takeWhile Char.isAlphanum, by simp [ha], hc, ?_⟩
  intro d hd
  exact List.all_eq_true.mp List.all_takeWhile d hd

theorem isDigits_takeWhile {c : Char} (cs : List Char) (hc : c.isDigit = true) :
    IsDigits ((c :: cs).takeWhile Char.isDigit) := by
  refine ⟨by simp [hc], ?_⟩
  intro d hd
  exact List.all_eq_true.mp List.all_takeWhile d hd

/-- A word has the form of its kind. -/
theorem hasForm_word (w : Whitespace) {text : String} (h : IsWord text.toList) :
    (word text).HasForm w := by
  unfold word
  split
  · next k hk => exact (Keyword.ofText?_eq_some_iff.mp hk).symm
  · next hk => exact ⟨h, hk⟩

theorem hasForm_scanString (w : Whitespace) (cs : List Char) :
    (scanString cs).1.HasForm w := by
  simp only [scanString, HasForm, String.toList_ofList]
  intro hq
  simpa using List.all_eq_true.mp List.all_takeWhile '"' hq

theorem hasForm_scanNumber (w : Whitespace) {c : Char} (cs : List Char)
    (hc : c.isDigit = true) : (scanNumber (c :: cs)).1.HasForm w := by
  have hwhole := isDigits_takeWhile cs hc
  unfold scanNumber
  simp only
  split
  · next rest _ =>
    simp only [HasForm, String.toList_ofList]
    exact ⟨_, _, rfl, hwhole, fun d hd => List.all_eq_true.mp List.all_takeWhile d hd⟩
  · simpa only [HasForm, String.toList_ofList] using hwhole

/-- A text that begins with no symbol's character begins with no symbol. -/
theorem longest?_eq_none_iff {c : Char} {cs : List Char} :
    Symbol.longest? (c :: cs) = none ↔ ∀ s : Symbol, s.chars.head? ≠ some c := by
  constructor
  · intro h s hs
    have hone : Symbol.ofChars? [c] = none := by
      cases cs with
      | nil => simpa [Symbol.longest?] using h
      | cons d rest =>
        simp only [Symbol.longest?] at h
        split at h
        · cases h
        · simpa using h
    have hall : ∀ s ∈ Symbol.all, ∃ t ∈ Symbol.all, [s.chars.headD ' '] = t.chars := by decide
    obtain ⟨t, -, ht⟩ := hall s (Symbol.mem_all s)
    have hhead : s.chars.headD ' ' = c := by simp [List.headD_eq_head?_getD, hs]
    rw [hhead] at ht
    rw [Symbol.ofChars?_eq_some_iff.mpr ht.symm] at hone
    cases hone
  · intro h
    cases hl : Symbol.longest? (c :: cs) with
    | none => rfl
    | some found =>
      obtain ⟨s, rest⟩ := found
      have happ := Symbol.chars_append_of_longest? hl
      have hne : s.chars ≠ [] := by cases s <;> simp [Symbol.chars]
      obtain ⟨a, as, has⟩ := List.exists_cons_of_ne_nil hne
      rw [has, List.cons_append, List.cons.injEq] at happ
      exact absurd (by rw [has, happ.1]; rfl) (h s)

/-- What is scanned has the form of its kind, if its first character is not skipped. -/
theorem hasForm_scan {w : Whitespace} {c : Char} (cs : List Char) (hc : w.skips c = false) :
    (scan c cs).1.HasForm w := by
  unfold scan
  split
  · exact hasForm_scanString w cs
  split
  · next hd => exact hasForm_scanNumber w cs hd
  split
  · next ha =>
    exact hasForm_word w (by simpa only [String.toList_ofList] using isWord_takeWhile cs ha)
  · next hq hd ha =>
    unfold scanSymbol
    split
    · exact rfl
    · next hl =>
      refine ⟨c, rfl, ?_, hc⟩
      rintro (h | h | h | ⟨s, h⟩)
      · exact hq h
      · exact hd h
      · exact ha h
      · exact longest?_eq_none_iff.mp hl s h

/-- Every token of a source has the form of its kind. -/
theorem hasForm_of_next? {s s' : Source} {t : Token} (h : s.next? = some (t, s')) :
    t.HasForm s.whitespace := by
  unfold Source.next? at h
  split at h
  · cases h
  · next c cs hd =>
    cases h
    refine hasForm_scan cs ?_
    have := List.head?_dropWhile_not s.whitespace.skips s.rest
    simpa [hd] using this

end Token

end ScriptTree
