/-!
# Keywords

The words that the language keeps for itself.  Case counts: `For` is no keyword.
-/

namespace ScriptTree

inductive Keyword
  | forWord
  | whileWord
  | ifWord
  | elseWord
  | functionWord
  | returnWord
  | letWord
  | constWord
  | classWord
  deriving DecidableEq, Repr

namespace Keyword

def all : List Keyword :=
  [forWord, whileWord, ifWord, elseWord, functionWord, returnWord, letWord, constWord, classWord]

/-- The word itself, which is also the name of its kind. -/
def text : Keyword → String
  | forWord => "for"
  | whileWord => "while"
  | ifWord => "if"
  | elseWord => "else"
  | functionWord => "function"
  | returnWord => "return"
  | letWord => "let"
  | constWord => "const"
  | classWord => "class"

def ofText? (word : String) : Option Keyword := all.find? (·.text = word)

theorem mem_all (k : Keyword) : k ∈ all := by cases k <;> decide

private theorem all_text_injective : ∀ k ∈ all, ∀ l ∈ all, k.text = l.text → k = l := by
  decide

theorem text_injective {k l : Keyword} (h : k.text = l.text) : k = l :=
  all_text_injective k (mem_all k) l (mem_all l) h

/-- A word is found exactly when it is a keyword's. -/
theorem ofText?_eq_some_iff {word : String} {k : Keyword} :
    ofText? word = some k ↔ k.text = word := by
  constructor
  · intro h
    simpa using List.find?_some h
  · intro h
    cases hf : ofText? word with
    | none =>
      have := List.find?_eq_none.mp hf k (mem_all k)
      simp [h] at this
    | some l =>
      have hl : l.text = word := by simpa using List.find?_some hf
      rw [text_injective (hl.trans h.symm)]

end Keyword

end ScriptTree
