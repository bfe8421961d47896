import ScriptTree.Source

/-!
# The cursor of a lexer

A lexer holds a whole text and a cursor, which is the number of characters taken.  It can look at
the character under the cursor (`Lexer.peek`) and move past it (`Lexer.advance`), and no more.  How
far it has moved is told by the characters taken (`Lexer.Takes`), and what it can still read by those
that are left (`Lexer.rest`).
-/

namespace ScriptTree

structure Lexer where
  whitespace : Whitespace
  input : Array Char
  /-- The number of characters taken. -/
  position : Nat
  deriving DecidableEq, Repr

namespace Lexer

/-- A lexer at the beginning of a text. -/
def ofString (whitespace : Whitespace) (text : String) : Lexer :=
  ⟨whitespace, text.toList.toArray, 0⟩

/-- The character under the cursor, unless the text ends there. -/
def peek (l : Lexer) : Option Char := l.input[l.position]?

def move (l : Lexer) : Lexer := { l with position := l.position + 1 }

/-- The character under the cursor, and the lexer past it.  At the end nothing is moved. -/
def advance (l : Lexer) : Option (Char × Lexer) := l.peek.map (·, l.move)

/-- Moves past this character if it is the one under the cursor. -/
def matchChar? (expected : Char) (l : Lexer) : Option Lexer :=
  if l.peek = some expected then some l.move else none

/-- The characters not yet taken. -/
def rest (l : Lexer) : List Char := l.input.toList.drop l.position

/-- The same text without what has been taken. -/
def source (l : Lexer) : Source := ⟨l.whitespace, l.rest⟩

/-- The lexer moves on over these characters. -/
inductive Takes : Lexer → List Char → Lexer → Prop
  | nothing (l : Lexer) : Takes l [] l
  | char {l l' : Lexer} {c : Char} {cs : List Char} (hc : l.peek = some c)
      (h : Takes l.move cs l') : Takes l (c :: cs) l'

/-! ## What is left -/

@[simp]
theorem source_ofString (w : Whitespace) (text : String) :
    (ofString w text).source = .ofString w text := by
  simp [source, rest, ofString, Source.ofString]

theorem head?_rest (l : Lexer) : l.rest.head? = l.peek := by
  simp [rest, peek, List.head?_drop]

theorem rest_of_peek {l : Lexer} {c : Char} (h : l.peek = some c) : l.rest = c :: l.move.rest := by
  rw [← head?_rest, List.head?_eq_some_iff] at h
  obtain ⟨cs, hcs⟩ := h
  have htail : l.move.rest = l.rest.tail := by simp [rest, move, List.tail_drop]
  rw [htail, hcs, List.tail_cons]

theorem rest_of_peek_eq_none {l : Lexer} (h : l.peek = none) : l.rest = [] := by
  rwa [← head?_rest, List.head?_eq_none_iff] at h

theorem rest_of_advance {l l' : Lexer} {c : Char} (h : l.advance = some (c, l')) :
    l.rest = c :: l'.rest := by
  obtain ⟨_, hc, heq⟩ := Option.map_eq_some_iff.mp h
  cases heq
  exact rest_of_peek hc

theorem length_rest_of_peek {l : Lexer} {c : Char} (h : l.peek = some c) :
    l.move.rest.length < l.rest.length := by
  rw [rest_of_peek h, List.length_cons]
  exact Nat.lt_succ_self _

theorem length_rest_of_advance {l l' : Lexer} {c : Char} (h : l.advance = some (c, l')) :
    l'.rest.length < l.rest.length := by
  rw [rest_of_advance h, List.length_cons]
  exact Nat.lt_succ_self _

theorem rest_of_advance_eq_none {l : Lexer} (h : l.advance = none) : l.rest = [] :=
  rest_of_peek_eq_none (Option.map_eq_none_iff.mp h)

theorem rest_of_matchChar? {l l' : Lexer} {c : Char} (h : l.matchChar? c = some l') :
    l.rest = c :: l'.rest := by
  obtain ⟨hc, heq⟩ := Option.ite_some_none_eq_some.mp h
  rw [← heq]
  exact rest_of_peek hc

theorem head?_rest_of_matchChar?_eq_none {l : Lexer} {c : Char} (h : l.matchChar? c = none) :
    l.rest.head? ≠ some c := by
  rw [head?_rest]
  intro hc
  simp [matchChar?, hc] at h

/-! ## Moving on -/

theorem Takes.trans {l l' l'' : Lexer} {cs ds : List Char} (h : Takes l cs l')
    (h' : Takes l' ds l'') : Takes l (cs ++ ds) l'' := by
  induction h with
  | nothing => exact h'
  | char hc _ ih => exact .char hc (ih h')

theorem takes_of_advance {l l' : Lexer} {c : Char} (h : l.advance = some (c, l')) :
    Takes l [c] l' := by
  obtain ⟨_, hc, heq⟩ := Option.map_eq_some_iff.mp h
  cases heq
  exact .char hc (.nothing _)

theorem takes_of_matchChar? {l l' : Lexer} {c : Char} (h : l.matchChar? c = some l') :
    Takes l [c] l' := by
  obtain ⟨hc, heq⟩ := Option.ite_some_none_eq_some.mp h
  rw [← heq]
  exact .char hc (.nothing _)

/-- Nothing but the cursor is moved, by one place for each character. -/
theorem Takes.eq {l l' : Lexer} {cs : List Char} (h : Takes l cs l') :
    l' = { l with position := l.position + cs.length } := by
  induction h with
  | nothing => rfl
  | char _ _ ih =>
    rw [ih, move, List.length_cons]
    simp only [mk.injEq, true_and]
    omega

/-- What is taken was left, and the rest still is. -/
theorem Takes.rest_eq {l l' : Lexer} {cs : List Char} (h : Takes l cs l') :
    l.rest = cs ++ l'.rest := by
  induction h with
  | nothing => rfl
  | char hc _ ih => rw [rest_of_peek hc, ih, List.cons_append]

theorem Takes.position_le {l l' : Lexer} {cs : List Char} (h : Takes l cs l')
    (hl : l.position ≤ l.input.size) : l'.position ≤ l.input.size := by
  have hlength := congrArg List.length h.rest_eq
  simp only [rest, List.length_append, List.length_drop, Array.length_toList] at hlength
  rw [h.eq]
  simp only
  omega

end Lexer

end ScriptTree
