import ScriptTree.Token.Scan

/-!
# Sources

A source is a text on its way to being cut into tokens: the characters still to
come and the policy that says which of them separate tokens.  That is all the
state there is, so tokens can be pulled one by one (`Source.next`, `Source.pull`)
or all at once (`Source.tokenize`), in any mixture.
-/

namespace ScriptTree

/-- Which characters are skipped between tokens. -/
inductive Whitespace
  /-- The space alone. -/
  | space
  /-- The space, and the tab, line feed, form feed and carriage return of ASCII.  The
  vertical tab is not among them. -/
  | ascii
  deriving DecidableEq, Repr

def Whitespace.skips : Whitespace → Char → Bool
  | space, c => c = ' '
  | ascii, c => c = ' ' || c = '\t' || c = '\n' || c = '\x0c' || c = '\r'

instance {p : Whitespace → Prop} [DecidablePred p] : Decidable (∀ w, p w) :=
  decidable_of_iff (p .space ∧ p .ascii)
    ⟨fun h w => by cases w <;> simp only [h], fun h => ⟨h .space, h .ascii⟩⟩

structure Source where
  whitespace : Whitespace
  /-- The characters not yet taken. -/
  rest : List Char
  deriving DecidableEq, Repr

namespace Source

def ofString (whitespace : Whitespace) (text : String) : Source := ⟨whitespace, text.toList⟩

/-- The next token and the source after it, unless only skipped characters are left. -/
def next? (s : Source) : Option (Token × Source) :=
  match s.rest.dropWhile s.whitespace.skips with
  | [] => none
  | c :: cs => some ((Token.scan c cs).1, ⟨s.whitespace, (Token.scan c cs).2⟩)

/-- The next token, which past the last one is `Token.eof` however often it is asked for. -/
def next (s : Source) : Token × Source :=
  s.next?.getD (Token.eof, ⟨s.whitespace, []⟩)

/-- The next `n` tokens and the source after them. -/
def pull : Nat → Source → List Token × Source
  | 0, s => ([], s)
  | n + 1, s =>
    let (t, s₁) := s.next
    let (ts, s₂) := pull n s₁
    (t :: ts, s₂)

theorem length_rest_lt {s s' : Source} {t : Token} (h : s.next? = some (t, s')) :
    s'.rest.length < s.rest.length := by
  unfold next? at h
  split at h
  · cases h
  · next c cs hd =>
    cases h
    have hs := Token.length_scan_le c cs
    have hl := (List.dropWhile_suffix (l := s.rest) s.whitespace.skips).length_le
    rw [hd, List.length_cons] at hl
    simp only
    omega

/-- The tokens to come, without the end of the input. -/
def tokens (s : Source) : List Token :=
  match _ : s.next? with
  | none => []
  | some (t, s') => t :: tokens s'
termination_by s.rest.length
decreasing_by exact length_rest_lt ‹_›

/-- The tokens to come, closed by one `Token.eof`. -/
def tokenize (s : Source) : List Token := s.tokens ++ [Token.eof]

theorem tokens_of_none {s : Source} (h : s.next? = none) : s.tokens = [] := by
  rw [tokens]
  split
  · rfl
  · next h' => rw [h] at h'; cases h'

theorem tokens_of_some {s s' : Source} {t : Token} (h : s.next? = some (t, s')) :
    s.tokens = t :: s'.tokens := by
  rw [tokens]
  split
  · next h' => rw [h] at h'; cases h'
  · next h' => rw [h] at h'; cases h'; rfl

end Source

end ScriptTree
