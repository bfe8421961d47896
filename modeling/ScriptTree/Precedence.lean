import ScriptTree.Token.Basic

/-!
# Precedence

The table of binary operators.  An operator is known by its lexeme, so that words
(`or`, `and`, `not`) and a character that scans as illegal (`^`) can be operators
beside the symbols.
-/

namespace ScriptTree

inductive Associativity
  | left
  | right
  deriving DecidableEq, Repr

structure Operator where
  lexeme : String
  precedence : Nat
  associativity : Associativity
  deriving DecidableEq, Repr

namespace Operator

/-- The least precedence that an operator inside the right operand may have.  A
left-associative operator leaves its equals to the chain it stands in. -/
def nextMin (o : Operator) : Nat :=
  match o.associativity with
  | .left => o.precedence + 1
  | .right => o.precedence

def table : List Operator :=
  [⟨"or", 0, .left⟩, ⟨"and", 0, .left⟩, ⟨"not", 0, .left⟩, ⟨"==", 0, .left⟩,
    ⟨"<", 1, .left⟩, ⟨"<=", 1, .left⟩, ⟨">", 1, .left⟩, ⟨">=", 1, .left⟩,
    ⟨"+", 6, .left⟩, ⟨"-", 6, .left⟩, ⟨"*", 7, .left⟩, ⟨"/", 7, .left⟩,
    ⟨"^", 8, .right⟩]

def lookup? (lexeme : String) : Option Operator := table.find? (·.lexeme = lexeme)

private theorem all_lookup? : ∀ o ∈ table, lookup? o.lexeme = some o := by decide

/-- Lookup finds exactly the operators of the table, each under its own lexeme. -/
theorem lookup?_eq_some_iff {lexeme : String} {o : Operator} :
    lookup? lexeme = some o ↔ o ∈ table ∧ o.lexeme = lexeme := by
  constructor
  · intro h
    exact ⟨List.mem_of_find?_eq_some h, by simpa using List.find?_some h⟩
  · rintro ⟨ho, rfl⟩
    exact all_lookup? o ho

end Operator

/-- The operator that a token stands for: a string never does, whatever it holds, nor
does the end of the input. -/
def Token.operator? (t : Token) : Option Operator :=
  match t.kind with
  | .eof | .string => none
  | _ => Operator.lookup? t.lexeme

theorem Token.operator?_eq_some_iff {t : Token} {o : Operator} :
    t.operator? = some o ↔
      t.kind ≠ .eof ∧ t.kind ≠ .string ∧ o ∈ Operator.table ∧ o.lexeme = t.lexeme := by
  unfold operator?
  split
  · next h => simp [h]
  · next h => simp [h]
  · next he hs =>
    rw [Operator.lookup?_eq_some_iff]
    exact ⟨fun h => ⟨he, hs, h⟩, fun ⟨_, _, h⟩ => h⟩

theorem Token.mem_table_of_operator? {t : Token} {o : Operator} (h : t.operator? = some o) :
    o ∈ Operator.table :=
  (operator?_eq_some_iff.mp h).2.2.1

end ScriptTree
