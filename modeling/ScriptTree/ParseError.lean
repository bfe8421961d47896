/-!
# Parse errors

Why a token stream is not a program.
-/

namespace ScriptTree

inductive ParseError
  /-- Something required was missing; `found` describes the token in its place. -/
  | expected (what found : String)
  /-- No operand stood where an expression has to go on. -/
  | expectedPrimary (found : String)
  /-- More levels of operators than `limit`. -/
  | tooDeep (limit : Nat)
  deriving DecidableEq, Repr

def ParseError.message : ParseError → String
  | expected what found => "expected " ++ what ++ ", got " ++ found
  | expectedPrimary found => "expected a primary token, got " ++ found
  | tooDeep limit => "expression nested deeper than " ++ limit.repr ++ " levels"

end ScriptTree
