/-!
# White space

The characters with the Unicode property White_Space, and the lines that hold
nothing else.  The property is wider than any set of characters skipped between
tokens.
-/

namespace ScriptTree

namespace Text

/-- The ranges of code points, ends included. -/
def whiteSpaceRanges : List (Nat × Nat) :=
  [(0x0009, 0x000d), (0x0020, 0x0020), (0x0085, 0x0085), (0x00a0, 0x00a0), (0x1680, 0x1680),
    (0x2000, 0x200a), (0x2028, 0x2029), (0x202f, 0x202f), (0x205f, 0x205f), (0x3000, 0x3000)]

def isWhiteSpace (c : Char) : Bool :=
  whiteSpaceRanges.any fun range => range.1 ≤ c.toNat && c.toNat ≤ range.2

/-- Whether a line holds white space only, if anything. -/
def isBlank (line : List Char) : Bool := line.all isWhiteSpace

/-- The property holds of 25 code points. -/
example : (whiteSpaceRanges.map fun range => range.2 + 1 - range.1).sum = 25 := by decide

end Text

end ScriptTree
