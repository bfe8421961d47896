import ScriptTree.Token.Basic

/-!
# Scanning one token

`Token.scan c cs` takes the first token of the text `c :: cs` and gives the text
after it.  The first character decides the class, and each class takes as much
as it can.  Every token takes at least its first character (`Token.length_scan_le`),
which is what makes cutting a whole text into tokens end.

Digits and letters are those of ASCII; any other character is illegal outside a
string.
-/

namespace ScriptTree

namespace Token

/-- A string literal after its opening quote.  It is taken as it stands up to the
next quote; without one it runs to the end of the text. -/
def scanString (cs : List Char) : Token × List Char :=
  (⟨.string, String.ofList (cs.takeWhile (· ≠ '"'))⟩, (cs.dropWhile (· ≠ '"')).drop 1)

/-- Digits, which a point and any further digits turn into a float.  A second
point is left for the next token. -/
def scanNumber (cs : List Char) : Token × List Char :=
  let whole := cs.takeWhile Char.isDigit
  match cs.dropWhile Char.isDigit with
  | '.' :: rest =>
    (⟨.float, String.ofList (whole ++ '.' :: rest.takeWhile Char.isDigit)⟩,
      rest.dropWhile Char.isDigit)
  | rest => (⟨.int, String.ofList whole⟩, rest)

/-- Letters and digits. -/
def scanWord (cs : List Char) : Token × List Char :=
  (word (String.ofList (cs.takeWhile Char.isAlphanum)), cs.dropWhile Char.isAlphanum)

/-- The longest symbol, or else one illegal character. -/
def scanSymbol (c : Char) (cs : List Char) : Token × List Char :=
  match Symbol.longest? (c :: cs) with
  | some (s, rest) => (symbol s, rest)
  | none => (⟨.illegal, String.singleton c⟩, cs)

/-- The first token of the text `c :: cs`, and the text after it. -/
def scan (c : Char) (cs : List Char) : Token × List Char :=
  if c = '"' then scanString cs
  else if c.isDigit then scanNumber (c :: cs)
  else if c.isAlpha then scanWord (c :: cs)
  else scanSymbol c cs

theorem length_scanString_le (cs : List Char) : (scanString cs).2.length ≤ cs.length := by
  have := (List.dropWhile_suffix (l := cs) (· ≠ '"')).length_le
  simp only [scanString, List.length_drop]
  omega

theorem length_scanNumber_le {c : Char} (cs : List Char) (hc : c.isDigit = true) :
    (scanNumber (c :: cs)).2.length ≤ cs.length := by
  have hd := (List.dropWhile_suffix (l := cs) Char.isDigit).length_le
  simp only [scanNumber, List.dropWhile_cons, hc, ↓reduceIte]
  split
  · next rest h =>
    have hr := (List.dropWhile_suffix (l := rest) Char.isDigit).length_le
    rw [h, List.length_cons] at hd
    exact Nat.le_trans hr (by omega)
  · exact hd

theorem length_scanWord_le {c : Char} (cs : List Char) (hc : c.isAlpha = true) :
    (scanWord (c :: cs)).2.length ≤ cs.length := by
  have ha : c.isAlphanum = true := by simp [Char.isAlphanum, hc]
  simp only [scanWord, List.dropWhile_cons, ha, ↓reduceIte]
  exact (List.dropWhile_suffix Char.isAlphanum).length_le

theorem length_scanSymbol_le (c : Char) (cs : List Char) :
    (scanSymbol c cs).2.length ≤ cs.length := by
  unfold scanSymbol
  split
  · next s rest h =>
    have hl := congrArg List.length (Symbol.chars_append_of_longest? h)
    have hs : 0 < s.chars.length := by cases s <;> decide
    simp only [List.length_append, List.length_cons] at hl
    simp only
    omega
  · exact Nat.le_refl _

/-- Scanning takes at least the first character. -/
theorem length_scan_le (c : Char) (cs : List Char) : (scan c cs).2.length ≤ cs.length := by
  unfold scan
  split
  · exact length_scanString_le cs
  split
  · next hc => exact length_scanNumber_le cs hc
  split
  · next hc => exact length_scanWord_le cs hc
  · exact length_scanSymbol_le c cs

end Token

end ScriptTree
