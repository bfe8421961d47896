import ScriptTree.Token.Scan
import ScriptTree.Tree.Node

/-!
# The shape of a tree

Measures of a node (`Node.height`, `Node.count`) and the tokens that a node stands for
(`Node.tokens`).
-/

namespace ScriptTree

def BindingKind.keyword : BindingKind → Keyword
  | letBinding => .letWord
  | constBinding => .constWord

/-- The token that a text begins with. -/
def Token.ofText (text : String) : Token :=
  match text.toList with
  | [] => eof
  | c :: cs => (scan c cs).1

namespace Node

mutual

/-- The number of levels; a lone operand has one. -/
def height : Node → Nat
  | operand .. => 1
  | binary left _ right => max left.height right.height + 1
  | binding _ _ value => value.height + 1
  | block body => heightBody body + 1

def heightBody : List Node → Nat
  | [] => 0
  | n :: ns => max n.height (heightBody ns)

end

mutual

/-- The number of nodes, inner ones included. -/
def count : Node → Nat
  | operand .. => 1
  | binary left _ right => left.count + right.count + 1
  | binding _ _ value => value.count + 1
  | block body => countBody body + 1

def countBody : List Node → Nat
  | [] => 0
  | n :: ns => n.count + countBody ns

end

mutual

def tokens : Node → List Token
  | operand kind text => [⟨kind.toToken, text⟩]
  | binary left op right => left.tokens ++ .ofText op :: right.tokens
  | binding kind name value =>
    ⟨.keyword kind.keyword, kind.keyword.text⟩ :: ⟨.identifier, name⟩ :: .symbol .equal ::
      (value.tokens ++ [.symbol .semiColon])
  | block body => .symbol .leftBrace :: (tokensBody body ++ [.symbol .rightBrace])

def tokensBody : List Node → List Token
  | [] => []
  | n :: ns => n.tokens ++ tokensBody ns

end

theorem tokensBody_eq (ns : List Node) : tokensBody ns = ns.flatMap tokens := by
  induction ns with
  | nil => rfl
  | cons n ns ih => simp [tokensBody, ih]

/-- The operand that a node begins with. -/
def leftmost : Node → Node
  | binary left _ _ => left.leftmost
  | n => n

theorem height_pos (n : Node) : 0 < n.height := by
  cases n <;> simp [height]

end Node

/-- The tokens that a program stands for, without the end of the input. -/
def Program.tokens (p : Program) : List Token := p.nodes.flatMap Node.tokens

def Program.count (p : Program) : Nat := Node.countBody p.nodes

end ScriptTree
