import ScriptTree.Lexer.Cursor

/-!
# Lexers at work

The next token (`Lexer.next`), taken character by character, and from it the tokens one by one
(`Lexer.pull`) or all at once (`Lexer.tokenize`).  A lexer comes to what scanning the characters left
comes to, and it does so by moving on (`Lexer.Scans`); so every token but the end of the input takes
a character, which is what makes cutting a whole text into tokens end.
-/

namespace ScriptTree

namespace Lexer

variable {α : Type}

/-- Characters with a property, as long as they last. -/
def takeWhile (p : Char → Bool) (l : Lexer) : List Char × Lexer :=
  match _ : l.peek with
  | none => ([], l)
  | some c =>
    if p c then
      let (cs, l') := takeWhile p l.move
      (c :: cs, l')
    else ([], l)
termination_by l.rest.length
decreasing_by exact length_rest_of_peek ‹_›

/-- The characters up to the next quote, which is taken with them, or up to the end. -/
def upToQuote (l : Lexer) : List Char × Lexer :=
  match _ : l.advance with
  | none => ([], l)
  | some (c, l') =>
    if c = '"' then ([], l')
    else
      let (cs, l'') := upToQuote l'
      (c :: cs, l'')
termination_by l.rest.length
decreasing_by exact length_rest_of_advance ‹_›

def string (l : Lexer) : Token × Lexer :=
  let (body, l') := l.upToQuote
  (⟨.string, String.ofList body⟩, l')

/-- A number, behind its first digit. -/
def number (first : Char) (l : Lexer) : Token × Lexer :=
  let (digits, l₁) := l.takeWhile Char.isDigit
  match l₁.matchChar? '.' with
  | some l₂ =>
    let (fraction, l₃) := l₂.takeWhile Char.isDigit
    (⟨.float, String.ofList (first :: digits ++ '.' :: fraction)⟩, l₃)
  | none => (⟨.int, String.ofList (first :: digits)⟩, l₁)

/-- A word, behind its first letter. -/
def word (first : Char) (l : Lexer) : Token × Lexer :=
  let (more, l') := l.takeWhile Char.isAlphanum
  (Token.word (String.ofList (first :: more)), l')

/-- A symbol of one character, behind it, or a longer one if one of these characters follows.  They
are tried in order. -/
def symbol (alone : Symbol) : List (Char × Symbol) → Lexer → Token × Lexer
  | [], l => (.symbol alone, l)
  | (c, longer) :: more, l =>
    match l.matchChar? c with
    | some l' => (.symbol longer, l')
    | none => symbol alone more l

/-- The token that begins with `c`, behind it. -/
def classify (c : Char) (l : Lexer) : Token × Lexer :=
  match c with
  | '(' => l.symbol .leftParen []
  | ')' => l.symbol .rightParen []
  | '[' => l.symbol .leftBracket []
  | ']' => l.symbol .rightBracket []
  | '\x7b' => l.symbol .leftBrace []
  | '\x7d' => l.symbol .rightBrace []
  | '+' => l.symbol .plus [('+', .plusPlus), ('=', .plusEqual)]
  | '-' => l.symbol .minus [('-', .minusMinus), ('=', .minusEqual)]
  | '*' => l.symbol .star [('*', .starStar), ('=', .starEqual)]
  | '/' => l.symbol .slash [('=', .slashEqual)]
  | '=' => l.symbol .equal [('=', .equalEqual)]
  | '>' => l.symbol .greaterThan [('=', .greaterThanEqual)]
  | '<' => l.symbol .lessThan [('=', .lessThanEqual)]
  | ';' => l.symbol .semiColon []
  | ':' => l.symbol .colon []
  | '"' => l.string
  | _ =>
    if c.isDigit then l.number c
    else if c.isAlpha then l.word c
    else (⟨.illegal, String.singleton c⟩, l)

/-- Past the characters that separate tokens. -/
def skip (l : Lexer) : Lexer := (l.takeWhile l.whitespace.skips).2

/-- The next token, which past the last one is `Token.eof` however often it is asked for. -/
def next (l : Lexer) : Token × Lexer :=
  match l.skip.advance with
  | none => (Token.eof, l.skip)
  | some (c, l') => l'.classify c

/-- The next `n` tokens and the lexer behind them. -/
def pull : Nat → Lexer → List Token × Lexer
  | 0, l => ([], l)
  | n + 1, l =>
    let (t, l₁) := l.next
    let (ts, l₂) := pull n l₁
    (t :: ts, l₂)

/-! ## What is scanned -/

/-- A lexer comes from `l` to the value that `scanned` has and to the text behind it, by moving on. -/
structure Scans (l : Lexer) (result : α × Lexer) (scanned : α × List Char) : Prop where
  value : result.1 = scanned.1
  rest : result.2.rest = scanned.2
  takes : ∃ cs, Takes l cs result.2

theorem scans_takeWhile (p : Char → Bool) (l : Lexer) :
    Scans l (l.takeWhile p) (l.rest.takeWhile p, l.rest.dropWhile p) := by
  fun_induction takeWhile p l with
  | case1 l h =>
    rw [rest_of_peek_eq_none h]
    exact ⟨rfl, rest_of_peek_eq_none h, [], .nothing l⟩
  | case2 l c h hp cs l' hmore ih =>
    rw [hmore] at ih
    obtain ⟨hvalue, hrest, ds, htakes⟩ := ih
    rw [rest_of_peek h, List.takeWhile_cons_of_pos hp, List.dropWhile_cons_of_pos hp]
    exact ⟨congrArg (c :: ·) hvalue, hrest, c :: ds, .char h htakes⟩
  | case3 l c h hp =>
    rw [rest_of_peek h, List.takeWhile_cons_of_neg hp, List.dropWhile_cons_of_neg hp]
    exact ⟨rfl, rest_of_peek h, [], .nothing l⟩

theorem fst_takeWhile (p : Char → Bool) (l : Lexer) :
    (l.takeWhile p).1 = l.rest.takeWhile p :=
  (scans_takeWhile p l).value

theorem rest_takeWhile (p : Char → Bool) (l : Lexer) :
    (l.takeWhile p).2.rest = l.rest.dropWhile p :=
  (scans_takeWhile p l).rest

theorem scans_upToQuote (l : Lexer) :
    Scans l l.upToQuote (l.rest.takeWhile (· ≠ '"'), (l.rest.dropWhile (· ≠ '"')).drop 1) := by
  fun_induction upToQuote l with
  | case1 l h =>
    rw [rest_of_advance_eq_none h]
    exact ⟨rfl, rest_of_advance_eq_none h, [], .nothing l⟩
  | case2 l l' h =>
    rw [rest_of_advance h]
    exact ⟨rfl, rfl, _, takes_of_advance h⟩
  | case3 l c l' h hc cs l'' hmore ih =>
    rw [hmore] at ih
    obtain ⟨hvalue, hrest, ds, htakes⟩ := ih
    rw [rest_of_advance h, List.takeWhile_cons_of_pos (by simpa using hc),
      List.dropWhile_cons_of_pos (by simpa using hc)]
    exact ⟨congrArg (c :: ·) hvalue, hrest, _, (takes_of_advance h).trans htakes⟩

/-! ## Classes of tokens -/

theorem scans_string (l : Lexer) : Scans l l.string (Token.scanString l.rest) := by
  obtain ⟨hvalue, hrest, htakes⟩ := scans_upToQuote l
  exact ⟨congrArg (fun body => (⟨.string, String.ofList body⟩ : Token)) hvalue, hrest, htakes⟩

theorem scans_number {first : Char} (l : Lexer) (hfirst : first.isDigit = true) :
    Scans l (l.number first) (Token.scanNumber (first :: l.rest)) := by
  obtain ⟨cs, hdigits⟩ := (scans_takeWhile Char.isDigit l).takes
  simp only [number, Token.scanNumber, List.takeWhile_cons_of_pos hfirst,
    List.dropWhile_cons_of_pos hfirst, fst_takeWhile, ← rest_takeWhile]
  split
  · next l₂ hpoint =>
    obtain ⟨ds, hfraction⟩ := (scans_takeWhile Char.isDigit l₂).takes
    have htakes := (hdigits.trans (takes_of_matchChar? hpoint)).trans hfraction
    simp only [rest_of_matchChar? hpoint, ← rest_takeWhile]
    exact ⟨rfl, rfl, _, htakes⟩
  · next hnone =>
    have hhead := head?_rest_of_matchChar?_eq_none hnone
    split
    · next rest hpoint =>
      rw [hpoint] at hhead
      exact absurd rfl hhead
    · exact ⟨rfl, rfl, cs, hdigits⟩

theorem scans_word {first : Char} (l : Lexer) (hfirst : first.isAlpha = true) :
    Scans l (l.word first) (Token.scanWord (first :: l.rest)) := by
  have halnum : first.isAlphanum = true := by simp [Char.isAlphanum, hfirst]
  simp only [word, Token.scanWord, List.takeWhile_cons_of_pos halnum,
    List.dropWhile_cons_of_pos halnum, fst_takeWhile, ← rest_takeWhile]
  exact ⟨rfl, rfl, (scans_takeWhile Char.isAlphanum l).takes⟩

theorem takes_symbol (alone : Symbol) (longer : List (Char × Symbol)) (l : Lexer) :
    ∃ cs, Takes l cs (l.symbol alone longer).2 := by
  fun_induction symbol alone longer l with
  | case1 => exact ⟨[], .nothing _⟩
  | case2 _ _ _ _ _ h => exact ⟨_, takes_of_matchChar? h⟩
  | case3 _ _ _ _ _ ih => exact ih

/-! ## The next token -/

theorem takes_classify (c : Char) (l : Lexer) : ∃ cs, Takes l cs (l.classify c).2 := by
  unfold classify
  split
  case h_16 => exact (scans_string l).takes
  case h_17 =>
    split
    · next hc => exact (scans_number l hc).takes
    split
    · next hc => exact (scans_word l hc).takes
    · exact ⟨[], .nothing l⟩
  all_goals exact takes_symbol _ _ l

theorem takes_next (l : Lexer) :
    ∃ cs, Takes l cs l.next.2 ∧ (l.next.1.isEof = false → cs ≠ []) := by
  obtain ⟨gap, hgap⟩ := (scans_takeWhile l.whitespace.skips l).takes
  unfold next
  split
  · exact ⟨gap, hgap, nofun⟩
  · next c l' h =>
    obtain ⟨cs, hcs⟩ := takes_classify c l'
    exact ⟨gap ++ [c] ++ cs, (hgap.trans (takes_of_advance h)).trans hcs, fun _ => by simp⟩

theorem length_rest_of_next {l l' : Lexer} {t : Token} (h : l.next = (t, l'))
    (ht : t.isEof = false) : l'.rest.length < l.rest.length := by
  obtain ⟨cs, htakes, hne⟩ := l.takes_next
  simp only [h] at htakes hne
  have hlength := congrArg List.length htakes.rest_eq
  have hpos := List.length_pos_iff.mpr (hne ht)
  rw [List.length_append] at hlength
  omega

/-- The tokens to come, closed by the end of the input. -/
def tokenize (l : Lexer) : List Token :=
  match _ : l.next with
  | (t, l') => if _ : t.isEof = true then [t] else t :: tokenize l'
termination_by l.rest.length
decreasing_by exact length_rest_of_next ‹_› (Bool.eq_false_iff.mpr ‹_›)

end Lexer

end ScriptTree
