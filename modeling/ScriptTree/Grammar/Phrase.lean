import ScriptTree.Grammar.Run
import ScriptTree.Reading.Basic

/-!
# The grammar

Which token streams are programs, said without a reader: a stream is cut into phrases,
and every expression in them ends where no operator follows.  How deep an expression
may be is no matter of the grammar.
-/

namespace ScriptTree

/-- One statement, with its expressions as runs. -/
inductive Phrase
  | binding (kind : BindingKind) (name : String) (value : Run)
  | block (body : List Run)
  | expression (run : Run)
  deriving DecidableEq, Repr

/-- The node that a phrase stands for. -/
def Phrase.node : Phrase → Node
  | binding kind name value => .binding kind name value.tree
  | block body => .block (body.map Run.tree)
  | expression run => run.tree

/-- The expressions of a phrase. -/
def Phrase.runs : Phrase → List Run
  | binding _ _ value => [value]
  | block body => body
  | expression run => [run]

/-- No expression of a phrase has more levels than may be. -/
def Phrase.Shallow (phrase : Phrase) : Prop := ∀ run ∈ phrase.runs, run.tree.height ≤ maxHeight

/-- The tokens of an expression, when the tokens `rest` follow them. -/
def SpellsRun (ts : List Token) (run : Run) (rest : List Token) : Prop :=
  Run.ofTokens? ts = some run ∧ (current rest).operator? = none

/-- The tokens of expressions in a row, when the tokens `rest` follow them. -/
inductive SpellsRuns : List Token → List Run → List Token → Prop
  | nil (rest : List Token) : SpellsRuns [] [] rest
  | cons {ts more rest : List Token} {run : Run} {runs : List Run} :
      SpellsRun ts run (more ++ rest) → SpellsRuns more runs rest →
      SpellsRuns (ts ++ more) (run :: runs) rest

/-- The tokens of a phrase, when the tokens `rest` follow them. -/
inductive SpellsPhrase : List Token → Phrase → List Token → Prop
  | binding {kind : BindingKind} {word name equals semiColon : Token} {ts rest : List Token}
      {run : Run} : word.kind = .keyword kind.keyword → name.kind = .identifier →
      equals.kind = .symbol .equal → semiColon.kind = .symbol .semiColon →
      SpellsRun ts run (semiColon :: rest) →
      SpellsPhrase (word :: name :: equals :: (ts ++ [semiColon]))
        (.binding kind name.lexeme run) rest
  | block {opening closing : Token} {ts rest : List Token} {runs : List Run} :
      opening.kind = .symbol .leftBrace → closing.kind = .symbol .rightBrace →
      SpellsRuns ts runs (closing :: rest) →
      SpellsPhrase (opening :: (ts ++ [closing])) (.block runs) rest
  | expression {ts rest : List Token} {run : Run} :
      SpellsRun ts run rest → SpellsPhrase ts (.expression run) rest

/-- A phrase with its tokens. -/
structure Piece where
  tokens : List Token
  phrase : Phrase
  deriving DecidableEq, Repr

/-- The tokens of a program, cut into those of its phrases. -/
inductive IsCut : List Token → List Piece → Prop
  | nil : IsCut [] []
  | cons {ts rest : List Token} {phrase : Phrase} {cut : List Piece} :
      SpellsPhrase ts phrase rest → IsCut rest cut → IsCut (ts ++ rest) (⟨ts, phrase⟩ :: cut)

end ScriptTree
