import ScriptTree.Text.Lines
import ScriptTree.Token.Basic

/-!
# Nodes

The syntax tree of a statement.  The type holds more trees than a text can give:
any node may stand under any other, and an operator is any text.  All of them
have a written form (`Node.render`) and can be compared (`DecidableEq Node`).
-/

namespace ScriptTree

inductive OperandKind
  | int
  | float
  | string
  | identifier
  deriving DecidableEq, Repr

namespace OperandKind

/-- The tokens that are operands of this kind. -/
def toToken : OperandKind → TokenKind
  | int => .int
  | float => .float
  | string => .string
  | identifier => .identifier

def ofToken? : TokenKind → Option OperandKind
  | .int => some int
  | .float => some float
  | .string => some string
  | .identifier => some identifier
  | _ => none

theorem ofToken?_eq_some_iff {kind : TokenKind} {k : OperandKind} :
    ofToken? kind = some k ↔ kind = k.toToken := by
  cases kind <;> cases k <;> simp [ofToken?, toToken]

end OperandKind

inductive BindingKind
  | letBinding
  | constBinding
  deriving DecidableEq, Repr

inductive Node
  | operand (kind : OperandKind) (text : String)
  | binary (left : Node) (op : String) (right : Node)
  | binding (kind : BindingKind) (name : String) (value : Node)
  | block (body : List Node)
  deriving Repr

/-- The most levels that an expression may have; a lone operand has one. -/
def maxHeight : Nat := 256

/-- The operand that a token is. -/
def Token.operand? (t : Token) : Option Node :=
  (OperandKind.ofToken? t.kind).map fun k => .operand k t.lexeme

theorem Token.operand?_eq_some_iff {t : Token} {n : Node} :
    t.operand? = some n ↔ ∃ k, t.kind = k.toToken ∧ n = .operand k t.lexeme := by
  simp only [operand?, Option.map_eq_some_iff, OperandKind.ofToken?_eq_some_iff]
  exact ⟨fun ⟨k, hk, hn⟩ => ⟨k, hk, hn.symm⟩, fun ⟨k, hk, hn⟩ => ⟨k, hk, hn.symm⟩⟩

namespace Node

mutual

private def decEq : (a b : Node) → Decidable (a = b)
  | operand k t, operand k' t' =>
    decidable_of_iff (k = k' ∧ t = t') (by simp)
  | binary l o r, binary l' o' r' =>
    have := decEq l l'
    have := decEq r r'
    decidable_of_iff (l = l' ∧ o = o' ∧ r = r') (by simp)
  | binding k n v, binding k' n' v' =>
    have := decEq v v'
    decidable_of_iff (k = k' ∧ n = n' ∧ v = v') (by simp)
  | block b, block b' =>
    have := decEqBody b b'
    decidable_of_iff (b = b') (by simp)
  | operand .., binary .. | operand .., binding .. | operand .., block .. => isFalse (by simp)
  | binary .., operand .. | binary .., binding .. | binary .., block .. => isFalse (by simp)
  | binding .., operand .. | binding .., binary .. | binding .., block .. => isFalse (by simp)
  | block .., operand .. | block .., binary .. | block .., binding .. => isFalse (by simp)

private def decEqBody : (a b : List Node) → Decidable (a = b)
  | [], [] => isTrue rfl
  | n :: ns, m :: ms =>
    have := decEq n m
    have := decEqBody ns ms
    decidable_of_iff (n = m ∧ ns = ms) (by simp)
  | [], _ :: _ | _ :: _, [] => isFalse (by simp)

end

instance : DecidableEq Node := decEq

mutual

def render : Node → String
  | operand .int text => "IntLiteral(" ++ text ++ ")"
  | operand .float text => "FloatLiteral(" ++ text ++ ")"
  | operand .string text => "StringLiteral(\"" ++ text ++ "\")"
  | operand .identifier text => "Identifier(" ++ text ++ ")"
  | binary left op right =>
    "BinaryExpr(" ++ left.render ++ ", " ++ op ++ ", " ++ right.render ++ ")"
  | binding .letBinding name value => "LetBinding(" ++ name ++ ", " ++ value.render ++ ")"
  | binding .constBinding name value => "ConstBinding(" ++ name ++ ", " ++ value.render ++ ")"
  | block body => "Block(" ++ renderBody body ++ ")"

/-- Nodes parted by a comma and a space. -/
def renderBody : List Node → String
  | [] => ""
  | [n] => n.render
  | n :: m :: ns => n.render ++ ", " ++ renderBody (m :: ns)

end

end Node

/-- The top-level nodes of a text, in order. -/
structure Program where
  nodes : List Node
  deriving DecidableEq, Repr

/-- Each node on a line of its own. -/
def Program.render (p : Program) : String := Text.unlines (p.nodes.map Node.render)

end ScriptTree
