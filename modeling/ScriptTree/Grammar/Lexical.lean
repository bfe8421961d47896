import ScriptTree.Token.Form

/-!
# The lexical grammar

Which tokens a text has, said without a scanner: the text is cut into gaps of skipped
characters and spelled tokens, one after the other, and every token is as long as it can be
where it stands.
-/

namespace ScriptTree

namespace Token

/-- The texts that spell a token in front of the text `rest`.  A string at the very end may
lack its closing quote. -/
def SpelledBy (t : Token) (cs rest : List Char) : Prop :=
  cs = t.spelling.toList ∨ (t.kind = .string ∧ rest = [] ∧ cs = '"' :: t.lexeme.toList)

/-- The front part `cs` of the text `cs ++ rest` spells `t`, and no longer front part spells
any token. -/
structure IsLongest (w : Whitespace) (t : Token) (cs rest : List Char) : Prop where
  form : t.HasForm w
  spelled : t.SpelledBy cs rest
  longest : ∀ t' cs' rest', HasForm w t' → t'.SpelledBy cs' rest' → cs' ++ rest' = cs ++ rest →
    cs'.length ≤ cs.length

end Token

/-- The tokens of a text, in order, with nothing but skipped characters between them. -/
inductive Lexes (w : Whitespace) : List Char → List Token → Prop
  | done {gap : List Char} : (∀ c ∈ gap, w.skips c = true) → Lexes w gap []
  | token {gap cs rest : List Char} {t : Token} {ts : List Token} :
      (∀ c ∈ gap, w.skips c = true) → t.IsLongest w cs rest → Lexes w rest ts →
      Lexes w (gap ++ (cs ++ rest)) (t :: ts)

end ScriptTree
