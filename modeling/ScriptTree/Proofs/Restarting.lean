import ScriptTree.Lexer.Scan
import ScriptTree.Proofs.Spelling

/-!
# Restarting

A lexer can be stopped behind any token, and another one made of the characters left goes on in its
place.

* `Lexer.scans_classify`, `Lexer.next_eq`: what a lexer gives is told by the characters left, and it
  is what the source of these gives.
* `Source.pull_append_tokenize`: tokens pulled, and then the others, are all tokens; what is pulled
  past the last of them is the end of the input again and again.
* `Lexer.restarts` says this of lexers that have given any number of tokens, and where their
  cursors are.
-/

namespace ScriptTree

namespace Source

/-- Every token takes a character. -/
theorem length_tokens_le (s : Source) : s.tokens.length ≤ s.rest.length := by
  fun_induction tokens s with
  | case1 => exact Nat.zero_le _
  | case2 s t s' hnext ih =>
    have hlt := length_rest_lt hnext
    rw [List.length_cons]
    omega

theorem next_of_some {s s' : Source} {t : Token} (h : s.next? = some (t, s')) :
    s.next = (t, s') := by
  rw [next, h, Option.getD_some]

theorem next_of_none {s : Source} (h : s.next? = none) :
    s.next = (Token.eof, ⟨s.whitespace, []⟩) := by
  rw [next, h, Option.getD_none]

theorem tokenize_of_next {s s' : Source} {t : Token} (h : s.next = (t, s')) :
    s.tokenize = if t.isEof = true then [t] else t :: s'.tokenize := by
  cases hnext : s.next? with
  | none =>
    obtain ⟨rfl, -⟩ := Prod.mk.inj ((next_of_none hnext).symm.trans h)
    rw [if_pos Token.isEof_eof, tokenize, tokens_of_none hnext, List.nil_append]
  | some found =>
    obtain rfl : found = (t, s') := (next_of_some hnext).symm.trans h
    have hform := (Token.hasForm_of_next? hnext).isEof_eq_false
    rw [if_neg (Bool.eq_false_iff.mp hform), tokenize, tokens_of_some hnext, List.cons_append,
      tokenize]

theorem pull_succ (s : Source) (n : Nat) :
    s.pull (n + 1) = (s.next.1 :: (s.next.2.pull n).1, (s.next.2.pull n).2) := rfl

/-- Tokens pulled and all tokens behind them. -/
theorem pull_append_tokenize (s : Source) (n : Nat) :
    (s.pull n).1 ++ (s.pull n).2.tokenize =
      s.tokenize ++ List.replicate (n - s.tokens.length) Token.eof := by
  induction n generalizing s with
  | zero => simp [pull]
  | succ n ih =>
    rw [pull_succ, List.cons_append, ih]
    cases h : s.next? with
    | none =>
      have hempty : (⟨s.whitespace, []⟩ : Source).tokens = [] := tokens_of_none rfl
      simp only [next_of_none h, tokenize, tokens_of_none h, hempty, List.length_nil, Nat.sub_zero,
        List.nil_append, List.replicate_succ, List.singleton_append]
    | some found =>
      obtain ⟨t, s'⟩ := found
      simp only [next_of_some h, tokenize, tokens_of_some h, List.length_cons, List.cons_append,
        Nat.add_sub_add_right]

end Source

namespace Lexer

/-! ## Symbols -/

/-- The symbols that begin with `c`: one that stands alone, and longer ones, by the character that
follows. -/
structure SymbolsOf (c : Char) (alone : Symbol) (longer : List (Char × Symbol)) : Prop where
  single : alone.chars = [c]
  double : ∀ row ∈ longer, row.2.chars = [c, row.1]
  all : ∀ s : Symbol, s.chars.head? = some c → s = alone ∨ s ∈ longer.map Prod.snd

theorem symbol_eq (alone : Symbol) (longer : List (Char × Symbol)) (l : Lexer) :
    (∃ row ∈ longer, ∃ l', l.rest = row.1 :: l'.rest ∧ l.symbol alone longer = (.symbol row.2, l')) ∨
      (∀ row ∈ longer, l.rest.head? ≠ some row.1) ∧
        l.symbol alone longer = (.symbol alone, l) := by
  fun_induction symbol alone longer l with
  | case1 => exact Or.inr ⟨by simp, rfl⟩
  | case2 c s more l l' h => exact Or.inl ⟨(c, s), by simp, l', rest_of_matchChar? h, rfl⟩
  | case3 c s more l h ih =>
    rcases ih with ⟨row, hrow, hfound⟩ | ⟨hnone, heq⟩
    · exact Or.inl ⟨row, List.mem_cons_of_mem _ hrow, hfound⟩
    · exact Or.inr ⟨List.forall_mem_cons.mpr ⟨head?_rest_of_matchChar?_eq_none h, hnone⟩, heq⟩

theorem length_chars_le (s : Symbol) : s.chars.length ≤ 2 := by
  cases s <;> decide

theorem scans_symbol {c : Char} {alone : Symbol} {longer : List (Char × Symbol)}
    (h : SymbolsOf c alone longer) (l : Lexer) :
    Scans l (l.symbol alone longer) (Token.scan c l.rest) := by
  obtain ⟨cs, htakes⟩ := takes_symbol alone longer l
  rcases symbol_eq alone longer l with ⟨row, hrow, l', hrest, heq⟩ | ⟨hnone, heq⟩
  · have hend : ∀ d ∈ l'.rest.head?, ¬ ∃ s : Symbol, s.chars = row.2.chars ++ [d] := by
      rintro d - ⟨s, hs⟩
      have hlength := length_chars_le s
      simp [hs, h.double row hrow] at hlength
    have hscan := Token.scan_symbol (h.double row hrow) hend
    rw [heq] at htakes ⊢
    rw [hrest, ← List.singleton_append, hscan]
    exact ⟨rfl, rfl, cs, htakes⟩
  · have hend : ∀ d ∈ l.rest.head?, ¬ ∃ s : Symbol, s.chars = alone.chars ++ [d] := by
      rintro d hd ⟨s, hs⟩
      rw [h.single, List.singleton_append] at hs
      rcases h.all s (by rw [hs]; rfl) with rfl | hlonger
      · rw [h.single] at hs
        cases hs
      · obtain ⟨row, hrow, rfl⟩ := List.mem_map.mp hlonger
        rw [h.double row hrow] at hs
        cases hs
        exact hnone row hrow hd
    have hscan := Token.scan_symbol h.single hend
    rw [heq] at htakes ⊢
    rw [List.nil_append] at hscan
    rw [hscan]
    exact ⟨rfl, rfl, cs, htakes⟩

theorem mem_of_head?_chars {s : Symbol} {c : Char} (h : s.chars.head? = some c) :
    c ∈ ['(', ')', '[', ']', '\x7b', '\x7d', '+', '-', '*', '/', '=', '>', '<', ';', ':'] := by
  cases s <;> cases h <;> decide

theorem scans_classify (c : Char) (l : Lexer) : Scans l (l.classify c) (Token.scan c l.rest) := by
  unfold classify
  split
  case h_16 => exact scans_string l
  case h_17 =>
    have hquote : c ≠ '"' := ‹_›
    split
    · next hdigit =>
      rw [Token.scan_digit _ hdigit]
      exact scans_number l hdigit
    split
    · next hdigit halpha =>
      rw [Token.scan, if_neg hquote, if_neg hdigit, if_pos halpha]
      exact scans_word l halpha
    · next hdigit halpha =>
      have hsymbol : ¬ ∃ s : Symbol, s.chars.head? = some c := by
        rintro ⟨s, hs⟩
        have hmem := mem_of_head?_chars hs
        simp_all
      have hbegins : ¬ BeginsToken c := by simp [BeginsToken, hquote, hdigit, halpha, hsymbol]
      rw [Token.scan_illegal _ hbegins]
      exact ⟨rfl, rfl, [], .nothing l⟩
  all_goals exact scans_symbol ⟨by decide, by decide, by decide⟩ l

/-! ## What is left -/

theorem Takes.source_eq {l l' : Lexer} {cs : List Char} (h : Takes l cs l') :
    l'.source = ⟨l.whitespace, l'.rest⟩ := by
  rw [source, h.eq]

/-- A lexer gives what the source of the characters left gives. -/
theorem next_eq (l : Lexer) : l.next.map id source = l.source.next := by
  obtain ⟨-, hskip, gap, hgap⟩ := scans_takeWhile l.whitespace.skips l
  change l.skip.rest = l.rest.dropWhile l.whitespace.skips at hskip
  change Takes l gap l.skip at hgap
  unfold next
  split
  · next h =>
    have hrest := rest_of_advance_eq_none h
    have hnone : l.source.next? = none := by
      simp only [Source.next?, source, ← hskip, hrest]
    rw [Source.next_of_none hnone, Prod.map_apply, hgap.source_eq, hrest]
    rfl
  · next c l' h =>
    obtain ⟨hvalue, hbehind, cs, htakes⟩ := scans_classify c l'
    have hsome : l.source.next? =
        some ((Token.scan c l'.rest).1, ⟨l.whitespace, (Token.scan c l'.rest).2⟩) := by
      simp only [Source.next?, source, ← hskip, rest_of_advance h]
    have hmoves := (hgap.trans (takes_of_advance h)).trans htakes
    rw [Source.next_of_some hsome, ← hvalue, ← hbehind, ← hmoves.source_eq]
    rfl

theorem pull_eq (l : Lexer) (n : Nat) : (l.pull n).map id source = l.source.pull n := by
  induction n generalizing l with
  | zero => rfl
  | succ n ih =>
    rw [Source.pull_succ, ← next_eq]
    change _ = (_ :: (l.next.2.source.pull n).1, (l.next.2.source.pull n).2)
    rw [← ih]
    rfl

theorem tokenize_eq (l : Lexer) : l.tokenize = l.source.tokenize := by
  fun_induction tokenize l with
  | case1 l t l' hnext heof =>
    have hsource : l.source.next = (t, l'.source) := by rw [← next_eq, hnext]; rfl
    rw [Source.tokenize_of_next hsource, if_pos heof]
  | case2 l t l' hnext heof ih =>
    have hsource : l.source.next = (t, l'.source) := by rw [← next_eq, hnext]; rfl
    rw [Source.tokenize_of_next hsource, if_neg heof, ih]

/-! ## Pulling tokens -/

theorem pull_succ_last (l : Lexer) (n : Nat) :
    l.pull (n + 1) = ((l.pull n).1 ++ [(l.pull n).2.next.1], (l.pull n).2.next.2) := by
  induction n generalizing l with
  | zero => rfl
  | succ n ih =>
    change (l.next.1 :: (l.next.2.pull (n + 1)).1, (l.next.2.pull (n + 1)).2) = _
    rw [ih]
    rfl

theorem takes_pull (l : Lexer) (n : Nat) : ∃ cs, Takes l cs (l.pull n).2 := by
  induction n with
  | zero => exact ⟨[], .nothing l⟩
  | succ n ih =>
    obtain ⟨cs, hcs⟩ := ih
    obtain ⟨ds, hds, -⟩ := (l.pull n).2.takes_next
    rw [pull_succ_last]
    exact ⟨cs ++ ds, hcs.trans hds⟩

/-- Only the cursor has moved. -/
theorem pull_snd_eq (l : Lexer) (n : Nat) :
    (l.pull n).2 = { l with position := (l.pull n).2.position } := by
  obtain ⟨cs, htakes⟩ := takes_pull l n
  rw [htakes.eq]

theorem position_lt_of_next {l : Lexer} (h : l.next.1.isEof = false) :
    l.position < l.next.2.position := by
  obtain ⟨cs, htakes, hne⟩ := l.takes_next
  have hpos := List.length_pos_iff.mpr (hne h)
  rw [htakes.eq]
  exact Nat.lt_add_of_pos_right hpos

/-- Tokens pulled and all tokens behind them. -/
theorem pull_append_tokenize (l : Lexer) (n : Nat) :
    (l.pull n).1 ++ (l.pull n).2.tokenize =
      l.tokenize ++ List.replicate (n + 1 - l.tokenize.length) Token.eof := by
  have hpull := pull_eq l n
  have hvalues : (l.pull n).1 = (l.source.pull n).1 := by rw [← hpull]; rfl
  have hrest : (l.pull n).2.source = (l.source.pull n).2 := by rw [← hpull]; rfl
  rw [tokenize_eq, tokenize_eq, hvalues, hrest, Source.pull_append_tokenize, Source.tokenize,
    List.length_append, List.length_singleton, Nat.add_sub_add_right]

/-- Lexers with the same characters left give the same tokens, whatever was before. -/
theorem pull_congr {l l' : Lexer} (h : l.source = l'.source) (n : Nat) :
    (l.pull n).1 = (l'.pull n).1 := by
  have hpull := congrArg Prod.fst (pull_eq l n)
  have hpull' := congrArg Prod.fst (pull_eq l' n)
  rw [h] at hpull
  exact hpull.trans hpull'.symm

/-- **A lexer can be started again anywhere.**  Behind any number of tokens only the cursor has
moved, within the text, and each next token moves it forward; what is given from there on is what a
lexer made of the characters left gives.  So the tokens pulled and all the others are the tokens of
the text; past these there are only further ends of the input.  All tokens at once are closed by the
one end of the input among them, and there are at most as many others as characters. -/
theorem restarts (w : Whitespace) (text : String) (k : Nat) :
    let whole := ofString w text
    let l := (whole.pull k).2
    let fresh := ofString w (String.ofList (text.toList.drop l.position))
    whole.pull (k + 1) = ((whole.pull k).1 ++ [l.next.1], l.next.2) ∧
    l = { whole with position := l.position } ∧ l.position ≤ text.length ∧
    (l.next.1.isEof = false → l.position < l.next.2.position) ∧
    (∀ n, (l.pull n).1 = (fresh.pull n).1) ∧ l.tokenize = fresh.tokenize ∧
    (k < whole.tokenize.length → (whole.pull k).1 ++ l.tokenize = whole.tokenize) ∧
    (whole.tokenize.length ≤ k → (whole.pull k).1 ++ l.tokenize =
      whole.tokenize ++ List.replicate (k + 1 - whole.tokenize.length) Token.eof) ∧
    (∃ ts, whole.tokenize = ts ++ [Token.eof] ∧ ∀ t ∈ ts, t.isEof = false) ∧
    whole.tokenize.length ≤ text.length + 1 := by
  intro whole l fresh
  obtain ⟨cs, htakes⟩ := takes_pull whole k
  have hcursor : l = { whole with position := l.position } := pull_snd_eq whole k
  have hsource : l.source = fresh.source := by
    rw [hcursor]
    simp [fresh, source, rest, whole, ofString]
  have hsize : whole.input.size = text.length := String.length_toList
  have hposition : l.position ≤ text.length := by
    rw [← hsize]
    exact htakes.position_le (Nat.zero_le _)
  have htokens : whole.tokenize = (Source.ofString w text).tokens ++ [Token.eof] := by
    rw [tokenize_eq, source_ofString, Source.tokenize]
  have hpull := pull_append_tokenize whole k
  refine ⟨pull_succ_last whole k, hcursor, hposition, position_lt_of_next, pull_congr hsource,
    by rw [tokenize_eq, tokenize_eq, hsource], fun hk => ?_, fun _ => hpull,
    ⟨_, htokens, fun t ht => Source.isEof_of_mem_tokens ht⟩, ?_⟩
  · rw [Nat.sub_eq_zero_of_le hk, List.replicate_zero, List.append_nil] at hpull
    exact hpull
  · have hle := (Source.ofString w text).length_tokens_le
    rw [Source.ofString, String.length_toList] at hle
    rw [htokens, List.length_append]
    exact Nat.succ_le_succ hle

/-- A string that is never closed takes the space behind it.  It is the last token, and what is
pulled after it is the end of the input. -/
theorem restarts_unclosed :
    let whole := ofString .space "x \"y "
    let l := (whole.pull 1).2
    (l.next.1.isEof = false ∧ l.position < l.next.2.position) ∧
      (1 < whole.tokenize.length ∧ (whole.pull 1).1 ++ l.tokenize = whole.tokenize) ∧
      (whole.tokenize.length ≤ 4 ∧ (whole.pull 4).1 ++ (whole.pull 4).2.tokenize =
        whole.tokenize ++ [Token.eof, Token.eof]) := by
  intro whole l
  obtain ⟨-, -, -, hmoves, -, -, hjoin, -⟩ := restarts .space "x \"y " 1
  obtain ⟨-, -, -, -, -, -, -, hpast, -⟩ := restarts .space "x \"y " 4
  have hnext : l.next.1.isEof = false := by decide +kernel
  have hlength : whole.tokenize.length = 3 := by decide +kernel
  have hbefore : 1 < whole.tokenize.length := by rw [hlength]; decide
  have hbehind : whole.tokenize.length ≤ 4 := by rw [hlength]; decide
  refine ⟨⟨hnext, hmoves hnext⟩, ⟨hbefore, hjoin hbefore⟩, hbehind, ?_⟩
  rw [hpast hbehind]
  change whole.tokenize ++ List.replicate (4 + 1 - whole.tokenize.length) Token.eof = _
  rw [hlength]
  rfl

end Lexer

end ScriptTree
