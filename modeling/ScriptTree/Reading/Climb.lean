import ScriptTree.Precedence
import ScriptTree.Reading.Basic
import ScriptTree.Tree.Node

/-!
# Reading expressions

Operands parted by binary operators, read by precedence climbing: `climb room min`
reads an operand and then folds in every operator of precedence at least `min`,
each with a right operand that is read in the same way with less room.

No expression has more than `maxHeight` levels.  Two rules see to that.  The room
says how many operators may still wait for their right operands, and is asked for
before the operand is looked at; the height of a tree is checked as soon as the
tree is put together, when its right operand has been taken.
-/

namespace ScriptTree

namespace Reading

/-- An expression together with its number of levels. -/
structure Measured where
  node : Node
  height : Nat
  deriving DecidableEq, Repr

/-- The tree of an operator over its two operands. -/
def Measured.join (left : Measured) (op : Operator) (right : Measured) : Measured :=
  ⟨.binary left.node op.lexeme right.node, max left.height right.height + 1⟩

/-- A literal or an identifier. -/
def operand : Reader Measured :=
  .token (fun t => t.operand?.map fun n => ⟨n, 1⟩) fun t => .expectedPrimary t.describe

/-- The operator ahead, if it binds at least as tightly as `min`, and the tokens after it. -/
def operatorAhead? (min : Nat) : List Token → Option (Operator × List Token)
  | [] => none
  | t :: ts => (t.operator?.filter (min ≤ ·.precedence)).map (·, ts)

theorem operatorAhead?_eq_some_iff {min : Nat} {ts rest : List Token} {op : Operator} :
    operatorAhead? min ts = some (op, rest) ↔
      ∃ t, ts = t :: rest ∧ t.operator? = some op ∧ min ≤ op.precedence := by
  cases ts with
  | nil => simp [operatorAhead?]
  | cons t ts =>
    simp only [operatorAhead?, Option.map_eq_some_iff, Option.filter_eq_some_iff,
      decide_eq_true_eq, Prod.mk.injEq, List.cons.injEq]
    constructor
    · rintro ⟨_, ⟨hop, hmin⟩, rfl, rfl⟩
      exact ⟨t, ⟨rfl, rfl⟩, hop, hmin⟩
    · rintro ⟨_, ⟨rfl, rfl⟩, hop, hmin⟩
      exact ⟨op, ⟨hop, hmin⟩, rfl, rfl⟩

/-- No operator is ahead when the current token is none, or binds less tightly. -/
theorem operatorAhead?_eq_none_iff {min : Nat} {ts : List Token} :
    operatorAhead? min ts = none ↔
      ∀ op, (current ts).operator? = some op → op.precedence < min := by
  cases ts with
  | nil => simp [operatorAhead?, current, Token.operator?, Token.eof]
  | cons t ts => simp [operatorAhead?, current, Option.filter_eq_none_iff]

theorem length_operatorAhead? {min : Nat} {ts rest : List Token} {op : Operator}
    (h : operatorAhead? min ts = some (op, rest)) : ts.length = rest.length + 1 := by
  cases ts with
  | nil => cases h
  | cons t ts =>
    simp only [operatorAhead?, Option.map_eq_some_iff, Prod.mk.injEq] at h
    obtain ⟨_, -, -, rfl⟩ := h
    rfl

/-- Folds the operators of precedence at least `min` that follow `left` into it, one
by one.  `right m` reads a right operand whose operators have precedence at least
`m`. -/
def chain (right : Nat → Reader Measured) (min : Nat) (left : Measured) (ts : List Token) :
    Reading Measured :=
  match _ : operatorAhead? min ts with
  | none => .ok left ts
  | some (op, afterOp) =>
    match _ : (right op.nextMin).read afterOp with
    | .error e rest => .error e rest
    | .ok r rest =>
      if (left.join op r).height ≤ maxHeight then chain right min (left.join op r) rest
      else .error (.tooDeep maxHeight) rest
termination_by ts.length
decreasing_by
  have hop := length_operatorAhead? ‹_›
  have hright := (right _).progress ‹_›
  omega

theorem chain_of_none {right : Nat → Reader Measured} {min : Nat} {left : Measured}
    {ts : List Token} (h : operatorAhead? min ts = none) :
    chain right min left ts = .ok left ts := by
  rw [chain]
  split
  · rfl
  · next h' => rw [h] at h'; cases h'

theorem chain_of_some {right : Nat → Reader Measured} {min : Nat} {left : Measured}
    {ts afterOp : List Token} {op : Operator} (h : operatorAhead? min ts = some (op, afterOp)) :
    chain right min left ts =
      ((right op.nextMin).read afterOp).bind fun r rest =>
        if (left.join op r).height ≤ maxHeight then chain right min (left.join op r) rest
        else .error (.tooDeep maxHeight) rest := by
  rw [chain]
  split
  · next h' => rw [h] at h'; cases h'
  · next h' =>
    rw [h] at h'
    cases h'
    split
    · next hr => rw [hr, Reading.bind]
    · next hr => rw [hr, Reading.bind]

theorem length_le_of_chain {right : Nat → Reader Measured} {min : Nat} {left m : Measured}
    {ts rest : List Token} (h : chain right min left ts = .ok m rest) :
    rest.length ≤ ts.length := by
  fun_induction chain right min left ts with
  | case1 => cases h; exact Nat.le_refl _
  | case2 => cases h
  | case3 left ts op afterOp hop r mid hr _ ih =>
    have hlen := length_operatorAhead? hop
    have hprog := (right _).progress hr
    have := ih h
    omega
  | case4 => cases h

/-- An expression whose operators have precedence at least `min`.  `room` is the number
of levels of recursion left; without any, nothing is read. -/
def climb : (room min : Nat) → Reader Measured
  | 0, _ => .refuse (.tooDeep maxHeight)
  | room + 1, min => operand.followedBy (chain (climb room) min) length_le_of_chain

/-- A whole expression. -/
def expression : Reader Node := (climb maxHeight 0).map Measured.node

end Reading

end ScriptTree
