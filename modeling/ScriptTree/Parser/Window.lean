import ScriptTree.Reading.Basic
import ScriptTree.Token.Form

/-!
# The window of a parser

A parser looks at one token of its source and remembers the one before.  Moving on by a token
(`Parser.advance`) is all that it can do; how far it has moved is told by the tokens taken
(`Parser.Takes`), and what it can still read by those that are left (`Parser.unread`).
-/

namespace ScriptTree

structure Parser where
  /-- The source behind the current token. -/
  source : Source
  current : Token
  previous : Token
  deriving DecidableEq, Repr

namespace Parser

/-- A parser at the first token of a source.  There is none before it, so that it is the
previous token as well. -/
def ofSource (s : Source) : Parser := ⟨s.next.2, s.next.1, s.next.1⟩

def advance (p : Parser) : Parser := ⟨p.source.next.2, p.source.next.1, p.current⟩

/-- The tokens not yet taken, without the end of the input. -/
def unread (p : Parser) : List Token :=
  if p.current.isEof then [] else p.current :: p.source.tokens

/-- The parser moves on over these tokens, and none of them is the end of the input. -/
inductive Takes : Parser → List Token → Parser → Prop
  | nothing (p : Parser) : Takes p [] p
  | token {p q : Parser} {ts : List Token} (hp : p.current.isEof = false)
      (h : Takes p.advance ts q) : Takes p (p.current :: ts) q

/-! ## What is unread -/

theorem isEof_eq_false {p : Parser} {kind : TokenKind} (h : p.current.kind = kind)
    (hkind : kind ≠ .eof) : p.current.isEof = false :=
  Bool.eq_false_iff.mpr fun heof => hkind (h.symm.trans (Token.isEof_iff.mp heof))

/-- The next token of a source and those behind it are all that is to come. -/
theorem unread_next (s : Source) (previous : Token) :
    unread ⟨s.next.2, s.next.1, previous⟩ = s.tokens := by
  cases h : s.next? with
  | none => simp [unread, Source.next, h, Source.tokens_of_none h]
  | some found =>
    obtain ⟨t, s'⟩ := found
    have ht : t.isEof = false := (Token.hasForm_of_next? h).isEof_eq_false
    simp [unread, Source.next, h, ht, Source.tokens_of_some h]

@[simp]
theorem unread_ofSource (s : Source) : (ofSource s).unread = s.tokens := unread_next s _

theorem unread_of_isEof {p : Parser} (h : p.current.isEof = true) : p.unread = [] := by
  simp [unread, h]

theorem unread_eq_cons {p : Parser} (h : p.current.isEof = false) :
    p.unread = p.current :: p.advance.unread := by
  rw [advance, unread_next]
  simp [unread, h]

/-- At the end of the input the current token may be any of its kind, which is told by nothing
but its lexeme. -/
theorem current_unread (p : Parser) :
    ScriptTree.current p.unread = if p.current.isEof then Token.eof else p.current := by
  unfold unread
  split
  · rfl
  · rfl

theorem kind_current_unread (p : Parser) :
    (ScriptTree.current p.unread).kind = p.current.kind := by
  rw [current_unread]
  split
  · next h => exact (Token.isEof_iff.mp h).symm
  · rfl

theorem describe_current_unread (p : Parser) :
    (ScriptTree.current p.unread).describe = p.current.describe := by
  rw [current_unread]
  split
  · next h =>
    rw [Token.isEof_iff] at h
    simp [Token.describe, h, Token.eof]
  · rfl

/-! ## Moving on -/

theorem Takes.trans {p q r : Parser} {ts us : List Token} (h : Takes p ts q)
    (h' : Takes q us r) : Takes p (ts ++ us) r := by
  induction h with
  | nothing => exact h'
  | token hp _ ih => exact .token hp (ih h')

theorem takes_advance {p : Parser} (h : p.current.isEof = false) :
    Takes p [p.current] p.advance :=
  .token h (.nothing _)

/-- Moving on over the same tokens leads to the same parser. -/
theorem Takes.unique {p q q' : Parser} {ts : List Token} (h : Takes p ts q) (h' : Takes p ts q') :
    q = q' := by
  induction h with
  | nothing => cases h'; rfl
  | token hp _ ih =>
    cases h' with
    | token _ h' => exact ih h'

/-- What is taken was unread, and the rest still is. -/
theorem Takes.unread_eq {p q : Parser} {ts : List Token} (h : Takes p ts q) :
    p.unread = ts ++ q.unread := by
  induction h with
  | nothing => rfl
  | token hp _ ih => rw [unread_eq_cons hp, ih, List.cons_append]

/-- Moving on over tokens leads where pulling as many leads, but for the token before. -/
theorem Takes.eq_ofSource {s : Source} {before : Token} {q : Parser} {ts : List Token}
    (h : Takes { ofSource s with previous := before } ts q) :
    q = { ofSource (s.pull ts.length).2 with previous := q.previous } := by
  generalize hp : { ofSource s with previous := before } = p at h
  induction h generalizing s before with
  | nothing => rw [← hp]; rfl
  | @token p q ts _ _ ih =>
    subst hp
    exact ih (s := s.next.2) rfl

end Parser

theorem Source.pull_add (s : Source) (m n : Nat) :
    (s.pull (m + n)).2 = ((s.pull m).2.pull n).2 := by
  induction m generalizing s with
  | zero => rw [Nat.zero_add]; rfl
  | succ m ih =>
    rw [Nat.succ_add]
    exact ih s.next.2

end ScriptTree
