import ScriptTree.Precedence
import ScriptTree.Token.Form
import ScriptTree.Tree.Shape

/-!
# Well-formed trees

The trees that a text can give: operators of the table, operands of the right form, and
below every operator only such as bind tightly enough for their side.  Programs hold
expressions at the top, in blocks and as the values of bindings, and nowhere does an
expression begin with a word that would be read as an operator of the one before.
-/

namespace ScriptTree

/-- The least precedence that an operator inside the left operand may have. -/
def Operator.leftMin (o : Operator) : Nat :=
  match o.associativity with
  | .left => o.precedence
  | .right => o.precedence + 1

namespace Node

/-- An operand, or an operator of precedence at least `min` over its operands. -/
def BindsAtLeast (min : Nat) : Node → Prop
  | operand .. => True
  | binary _ op _ => ∃ o, Operator.lookup? op = some o ∧ min ≤ o.precedence
  | binding .. => False
  | block _ => False

/-- An expression, whatever its height. -/
def IsExpression : Node → Prop
  | operand kind text => ∀ w, Token.HasForm w ⟨kind.toToken, text⟩
  | binary left op right =>
    left.IsExpression ∧ right.IsExpression ∧
      ∃ o, Operator.lookup? op = some o ∧ left.BindsAtLeast o.leftMin ∧
        right.BindsAtLeast o.nextMin
  | binding .. => False
  | block _ => False

/-- Whether a node is an identifier that spells an operator. -/
def isWordOperator : Node → Bool
  | operand .identifier text => (Operator.lookup? text).isSome
  | _ => false

/-- An expression that a text can hold. -/
def WellFormedExpression (n : Node) : Prop := n.IsExpression ∧ n.height ≤ maxHeight

/-- No expression is followed by one that begins with a word operator. -/
def Separate : List Node → Prop
  | [] => True
  | [_] => True
  | n :: m :: ns => (n.IsExpression → m.leftmost.isWordOperator = false) ∧ Separate (m :: ns)

/-- A statement that a text can hold. -/
def WellFormed : Node → Prop
  | binding _ name value =>
    (∀ w, Token.HasForm w ⟨.identifier, name⟩) ∧ value.WellFormedExpression
  | block body => (∀ n ∈ body, n.WellFormedExpression) ∧ Separate body
  | n => n.WellFormedExpression

/-! ## Well-formedness is decidable -/

instance (min : Nat) : DecidablePred (BindsAtLeast min)
  | operand .. => isTrue trivial
  | binary _ op _ =>
    inferInstanceAs (Decidable (∃ o ∈ Operator.lookup? op, min ≤ o.precedence))
  | binding .. => isFalse id
  | block _ => isFalse id

private def decIsExpression : (n : Node) → Decidable n.IsExpression
  | operand kind text => inferInstanceAs (Decidable (∀ w, Token.HasForm w ⟨kind.toToken, text⟩))
  | binary left op right =>
    have := decIsExpression left
    have := decIsExpression right
    inferInstanceAs (Decidable (left.IsExpression ∧ right.IsExpression ∧
      ∃ o ∈ Operator.lookup? op, left.BindsAtLeast o.leftMin ∧ right.BindsAtLeast o.nextMin))
  | binding .. => isFalse id
  | block _ => isFalse id

instance : DecidablePred IsExpression := decIsExpression

instance : DecidablePred WellFormedExpression := fun n =>
  inferInstanceAs (Decidable (n.IsExpression ∧ n.height ≤ maxHeight))

private def decSeparate : (ns : List Node) → Decidable (Separate ns)
  | [] => isTrue trivial
  | [_] => isTrue trivial
  | n :: m :: ns =>
    have := decSeparate (m :: ns)
    inferInstanceAs
      (Decidable ((n.IsExpression → m.leftmost.isWordOperator = false) ∧ Separate (m :: ns)))

instance : DecidablePred Separate := decSeparate

instance : DecidablePred WellFormed
  | operand kind text => inferInstanceAs (Decidable (WellFormedExpression (operand kind text)))
  | binary left op right =>
    inferInstanceAs (Decidable (WellFormedExpression (binary left op right)))
  | binding _ name value =>
    inferInstanceAs
      (Decidable ((∀ w, Token.HasForm w ⟨.identifier, name⟩) ∧ value.WellFormedExpression))
  | block body =>
    inferInstanceAs (Decidable ((∀ n ∈ body, n.WellFormedExpression) ∧ Separate body))

end Node

/-- A program that a text can hold. -/
def Program.WellFormed (p : Program) : Prop :=
  (∀ n ∈ p.nodes, n.WellFormed) ∧ Node.Separate p.nodes

instance : DecidablePred Program.WellFormed := fun p =>
  inferInstanceAs (Decidable ((∀ n ∈ p.nodes, n.WellFormed) ∧ Node.Separate p.nodes))

end ScriptTree
