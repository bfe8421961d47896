import ScriptTree.Reading.Statement
import ScriptTree.Source

/-!
# Sessions

A session reads one source as programs, over and over.  A program that reads well
takes all tokens.  After an error the session stands where the error left it, with
the offending token still ahead, and the next program starts there.  The tokens
ahead are all that a session remembers.
-/

namespace ScriptTree

structure Session where
  /-- The tokens not yet taken, without the end of the input. -/
  ahead : List Token
  deriving DecidableEq, Repr

namespace Session

def ofSource (s : Source) : Session := ⟨s.tokens⟩

/-- Reads the tokens ahead as one program. -/
def parse (s : Session) : Except ParseError Program × Session :=
  match Reading.statements s.ahead with
  | .ok nodes rest => (.ok ⟨nodes⟩, ⟨rest⟩)
  | .error e rest => (.error e, ⟨rest⟩)

/-- The results of reading `n` programs in a row, and the session after them. -/
def parseTimes : Nat → Session → List (Except ParseError Program) × Session
  | 0, s => ([], s)
  | n + 1, s =>
    let (result, s₁) := s.parse
    let (results, s₂) := parseTimes n s₁
    (result :: results, s₂)

end Session

/-- The program that a source holds. -/
def Source.parse (s : Source) : Except ParseError Program := (Session.ofSource s).parse.1

/-- Results are the same when both are the same program or both the same error. -/
def sameResult : (a b : Except ParseError Program) → Bool
  | .ok p, .ok q => p = q
  | .error e, .error f => e = f
  | _, _ => false

theorem sameResult_iff {a b : Except ParseError Program} : sameResult a b = true ↔ a = b := by
  cases a <;> cases b <;> simp [sameResult]

instance : DecidableEq (Except ParseError Program) := fun _ _ => decidable_of_iff _ sameResult_iff

end ScriptTree
