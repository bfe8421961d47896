/-!
# Symbols

The fixed spellings of one or two characters, and the longest of them that a
text begins with (`Symbol.longest?`).  A symbol is determined by its characters
(`Symbol.chars_injective`), and looking a spelling up finds exactly the symbol
so spelled (`Symbol.ofChars?_eq_some_iff`).
-/

namespace ScriptTree

inductive Symbol
  | leftParen
  | rightParen
  | leftBrace
  | rightBrace
  | leftBracket
  | rightBracket
  | semiColon
  | colon
  | plus
  | plusPlus
  | plusEqual
  | minus
  | minusMinus
  | minusEqual
  | star
  | starStar
  | starEqual
  | slash
  | slashEqual
  | equal
  | equalEqual
  | greaterThan
  | greaterThanEqual
  | lessThan
  | lessThanEqual
  deriving DecidableEq, Repr

namespace Symbol

def all : List Symbol :=
  [leftParen, rightParen, leftBrace, rightBrace, leftBracket, rightBracket, semiColon, colon,
    plus, plusPlus, plusEqual, minus, minusMinus, minusEqual, star, starStar, starEqual,
    slash, slashEqual, equal, equalEqual, greaterThan, greaterThanEqual, lessThan, lessThanEqual]

/-- The characters that spell a symbol. -/
def chars : Symbol → List Char
  | leftParen => ['(']
  | rightParen => [')']
  | leftBrace => ['{']
  | rightBrace => ['}']
  | leftBracket => ['[']
  | rightBracket => [']']
  | semiColon => [';']
  | colon => [':']
  | plus => ['+']
  | plusPlus => ['+', '+']
  | plusEqual => ['+', '=']
  | minus => ['-']
  | minusMinus => ['-', '-']
  | minusEqual => ['-', '=']
  | star => ['*']
  | starStar => ['*', '*']
  | starEqual => ['*', '=']
  | slash => ['/']
  | slashEqual => ['/', '=']
  | equal => ['=']
  | equalEqual => ['=', '=']
  | greaterThan => ['>']
  | greaterThanEqual => ['>', '=']
  | lessThan => ['<']
  | lessThanEqual => ['<', '=']

def text (s : Symbol) : String := String.ofList s.chars

def name : Symbol → String
  | leftParen => "left_paren"
  | rightParen => "right_paren"
  | leftBrace => "left_brace"
  | rightBrace => "right_brace"
  | leftBracket => "left_bracket"
  | rightBracket => "right_bracket"
  | semiColon => "semi_colon"
  | colon => "colon"
  | plus => "plus"
  | plusPlus => "plus_plus"
  | plusEqual => "plus_equal"
  | minus => "minus"
  | minusMinus => "minus_minus"
  | minusEqual => "minus_equal"
  | star => "star"
  | starStar => "star_star"
  | starEqual => "star_equal"
  | slash => "slash"
  | slashEqual => "slash_equal"
  | equal => "equal"
  | equalEqual => "equal_equal"
  | greaterThan => "greater_than"
  | greaterThanEqual => "greater_than_equal"
  | lessThan => "less_than"
  | lessThanEqual => "less_than_equal"

/-- The symbol spelled by exactly these characters. -/
def ofChars? (cs : List Char) : Option Symbol := all.find? (·.chars = cs)

/-- The longest symbol at the front of a text, with the text after it: two
characters are tried before one. -/
def longest? : List Char → Option (Symbol × List Char)
  | [] => none
  | [c] => (ofChars? [c]).map (·, [])
  | c :: d :: rest =>
    match ofChars? [c, d] with
    | some s => some (s, rest)
    | none => (ofChars? [c]).map (·, d :: rest)

theorem mem_all (s : Symbol) : s ∈ all := by cases s <;> decide

instance {p : Symbol → Prop} [DecidablePred p] : Decidable (∃ s, p s) :=
  decidable_of_iff (∃ s ∈ all, p s) ⟨fun ⟨s, _, h⟩ => ⟨s, h⟩, fun ⟨s, h⟩ => ⟨s, mem_all s, h⟩⟩

instance {p : Symbol → Prop} [DecidablePred p] : Decidable (∀ s, p s) :=
  decidable_of_iff (∀ s ∈ all, p s) ⟨fun h s => h s (mem_all s), fun h s _ => h s⟩

private theorem all_chars_injective : ∀ s ∈ all, ∀ t ∈ all, s.chars = t.chars → s = t := by
  decide

theorem chars_injective {s t : Symbol} (h : s.chars = t.chars) : s = t :=
  all_chars_injective s (mem_all s) t (mem_all t) h

/-- A spelling is found exactly when it is a symbol's. -/
theorem ofChars?_eq_some_iff {cs : List Char} {s : Symbol} :
    ofChars? cs = some s ↔ s.chars = cs := by
  constructor
  · intro h
    simpa using List.find?_some h
  · intro h
    cases hf : ofChars? cs with
    | none =>
      have := List.find?_eq_none.mp hf s (mem_all s)
      simp [h] at this
    | some t =>
      have ht : t.chars = cs := by simpa using List.find?_some hf
      rw [chars_injective (ht.trans h.symm)]

/-- What the longest symbol leaves is what follows its characters. -/
theorem chars_append_of_longest? {cs rest : List Char} {s : Symbol}
    (h : longest? cs = some (s, rest)) : s.chars ++ rest = cs := by
  match cs with
  | [] => simp [longest?] at h
  | [c] =>
    simp only [longest?, Option.map_eq_some_iff, Prod.mk.injEq] at h
    obtain ⟨t, ht, rfl, rfl⟩ := h
    rw [ofChars?_eq_some_iff.mp ht]
    rfl
  | c :: d :: tail =>
    simp only [longest?] at h
    split at h
    · next t ht =>
      cases h
      rw [ofChars?_eq_some_iff.mp ht]
      rfl
    · simp only [Option.map_eq_some_iff, Prod.mk.injEq] at h
      obtain ⟨t, ht, rfl, rfl⟩ := h
      rw [ofChars?_eq_some_iff.mp ht]
      rfl

end Symbol

end ScriptTree
