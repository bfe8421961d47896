import ScriptTree.Token.Form

/-!
# Writing tokens

Tokens written one after the other (`Spaced.write`), each behind a gap of characters that
separate tokens, and the condition under which none of them runs into the next
(`Spaced.Apart`).
-/

namespace ScriptTree

/-- A token and what stands between it and the token before. -/
structure Spaced where
  gap : List Char
  token : Token
  deriving DecidableEq, Repr

namespace Spaced

/-- The text of some tokens, with a last gap at its end. -/
def write : List Spaced → List Char → List Char
  | [], last => last
  | s :: more, last => s.gap ++ (s.token.spelling.toList ++ write more last)

/-- Where there is no gap between two tokens, the second does not begin with a character
that would be taken into the first.  Any gap will do. -/
def Apart : List Spaced → Prop
  | [] => True
  | [_] => True
  | s :: t :: more =>
    (t.gap = [] → ∀ c ∈ t.token.spelling.toList.head?, ¬ s.token.ExtendedBy c) ∧ Apart (t :: more)

theorem apart_cons_iff {s : Spaced} {ss : List Spaced} :
    Apart (s :: ss) ↔
      (∀ t ∈ ss.head?, t.gap = [] → ∀ c ∈ t.token.spelling.toList.head?, ¬ s.token.ExtendedBy c) ∧
        Apart ss := by
  cases ss with
  | nil => simp [Apart]
  | cons t more => simp [Apart]

private def decApart : (ss : List Spaced) → Decidable (Apart ss)
  | [] => isTrue trivial
  | [_] => isTrue trivial
  | s :: t :: more =>
    have := decApart (t :: more)
    inferInstanceAs
      (Decidable ((t.gap = [] → ∀ c ∈ t.token.spelling.toList.head?, ¬ s.token.ExtendedBy c) ∧
        Apart (t :: more)))

instance : DecidablePred Apart := decApart

end Spaced

end ScriptTree
