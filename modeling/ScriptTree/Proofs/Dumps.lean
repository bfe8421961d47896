import ScriptTree.Proofs.Legibility
import ScriptTree.Proofs.LineIndependence

/-!
# Dumps

The dump of a text tells the tokens of its lines (`Surroundings.tokenize_eq_of_dump_eq`).

Nothing is escaped in a dump either, and a string may hold quotes, brackets and what looks like a
token.  But a line of text holds no line feed, so that each token is a line of the dump
(`Token.lineFeed_not_mem_render`); its kind ends at the first comma, and its lexeme is all that
stands between there and the end of the line (`Token.render_injective`).  So the dump tells the
tokens of all lines in a row.  Each line of text ends with the end of the input, which no token of a
source can be, whatever it says: an identifier may be called `eof`, but its kind is another.
-/

namespace ScriptTree

open Text (LineEnd)

/-! ## One token -/

namespace TokenKind

private theorem all_name_injective : ∀ k ∈ all, ∀ l ∈ all, k.name = l.name → k = l := by
  decide +kernel

theorem name_injective {k l : TokenKind} (h : k.name = l.name) : k = l :=
  all_name_injective k (mem_all k) l (mem_all l) h

private theorem all_isName : ∀ k ∈ all, ',' ∉ k.name.toList ∧ '\n' ∉ k.name.toList := by
  decide +kernel

theorem comma_not_mem_name (k : TokenKind) : ',' ∉ k.name.toList := (all_isName k (mem_all k)).1

theorem lineFeed_not_mem_name (k : TokenKind) : '\n' ∉ k.name.toList := (all_isName k (mem_all k)).2

end TokenKind

namespace Token

theorem toList_render (t : Token) :
    t.render.toList = "Token(".toList ++
      (t.kind.name.toList ++ ',' :: (" '".toList ++ (t.lexeme.toList ++ "')".toList))) := by
  have hcomma : ", '".toList = ',' :: " '".toList := rfl
  simp only [render, String.toList_append, List.append_assoc, hcomma, List.cons_append]

/-- A token is known by its written form. -/
theorem render_injective {t u : Token} (h : t.render = u.render) : t = u := by
  have hchars := congrArg String.toList h
  rw [toList_render, toList_render] at hchars
  obtain ⟨hname, hlexeme⟩ := part_unique t.kind.comma_not_mem_name u.kind.comma_not_mem_name
    (List.append_cancel_left hchars)
  obtain ⟨kind, lexeme⟩ := t
  obtain ⟨kind', lexeme'⟩ := u
  obtain rfl : kind = kind' := TokenKind.name_injective (String.toList_injective hname)
  obtain rfl : lexeme = lexeme' := String.toList_injective
    (List.append_cancel_right (List.append_cancel_left hlexeme))
  rfl

theorem lineFeed_not_mem_render {t : Token} (h : '\n' ∉ t.lexeme.toList) :
    '\n' ∉ t.render.toList := by
  rw [toList_render]
  simp [h, t.kind.lineFeed_not_mem_name]

end Token

/-! ## Lexemes and their text -/

theorem Token.SpelledBy.mem {t : Token} {cs rest : List Char} (h : t.SpelledBy cs rest) {c : Char}
    (hc : c ∈ t.lexeme.toList) : c ∈ cs := by
  rcases h with rfl | ⟨-, -, rfl⟩
  · unfold spelling
    split
    · simp [hc]
    · exact hc
  · exact List.mem_cons_of_mem _ hc

namespace Source

/-- A lexeme is part of the text. -/
theorem mem_of_mem_lexeme {s : Source} {t : Token} (ht : t ∈ s.tokens) {c : Char}
    (hc : c ∈ t.lexeme.toList) : c ∈ s.rest := by
  fun_induction tokens s with
  | case1 => cases ht
  | case2 s u s' hnext ih =>
    obtain ⟨gap, used, hrest, -, hspelled, -⟩ := exists_gap_of_next? hnext
    rw [hrest]
    rcases List.mem_cons.mp ht with rfl | hmem
    · exact List.mem_append_right _ (List.mem_append_left _ (hspelled.mem hc))
    · exact List.mem_append_right _ (List.mem_append_right _ (ih hmem))

/-- A text without a line feed has none in the written form of its tokens. -/
theorem lineFeed_not_mem_render {s : Source} (h : '\n' ∉ s.rest) :
    ∀ t ∈ s.tokenize, '\n' ∉ t.render.toList := by
  intro t ht
  rcases List.mem_append.mp ht with hmem | hlast
  · exact Token.lineFeed_not_mem_render fun hfeed => h (mem_of_mem_lexeme hmem hfeed)
  · obtain rfl := List.mem_singleton.mp hlast
    decide

end Source

/-! ## The dump of a text -/

namespace Options

variable {o o' : Options} {text text' : List Char}

/-- The lines of a text as tokens. -/
def tokenLines (o : Options) (text : List Char) : List (List Token) :=
  (LineEnd.ofChars.lines text).map fun line => (⟨o.policy, line⟩ : Source).tokens

/-- All tokens of a text in a row, with the end of the input behind those of each line. -/
def allTokens (o : Options) (text : List Char) : List Token :=
  (o.tokenLines text).flatMap fun ts => ts ++ [Token.eof]

theorem toList_out_answerText (hfile : o.file = none) (htokens : o.tokens = true)
    (log : Nat → Nat → String) (text : List Char) :
    (o.answerText log text).out.toList =
      ((o.allTokens text).map fun t => t.render.toList).flatMap fun cs => cs ++ ['\n'] := by
  rw [out_answerText, map_fst_linesFor_of_none hfile, shows_eq_dump htokens, String.toList_join,
    List.flatMap_map]
  simp only [dump, Text.toList_unlines, allTokens, tokenLines, Source.tokenize, List.flatMap_map,
    List.flatMap_assoc]

theorem lineFeed_not_mem_allTokens (o : Options) (text : List Char) :
    ∀ t ∈ o.allTokens text, '\n' ∉ t.render.toList := by
  intro t ht
  obtain ⟨ts, hts, ht⟩ := List.mem_flatMap.mp ht
  obtain ⟨line, hline, rfl⟩ := List.mem_map.mp hts
  exact Source.lineFeed_not_mem_render
    (LineEnd.ofChars.lineFeed_not_mem_of_mem_lines text line hline) t ht

theorem tokenLines_eq_of_allTokens_eq (h : o.allTokens text = o'.allTokens text') :
    o.tokenLines text = o'.tokenLines text' := by
  have heof (o : Options) (text : List Char) : ∀ ts ∈ o.tokenLines text, Token.eof ∉ ts := by
    intro ts hts
    obtain ⟨line, -, rfl⟩ := List.mem_map.mp hts
    exact Source.eof_not_mem_tokens _
  exact parts_unique (heof o text) (heof o' text') h

/-- Equal dumps are of equal tokens. -/
theorem tokenLines_eq_of_out_eq (hfile : o.file = none) (hfile' : o'.file = none)
    (htokens : o.tokens = true) (htokens' : o'.tokens = true)
    {log log' : Nat → Nat → String}
    (h : (o.answerText log text).out = (o'.answerText log' text').out) :
    o.tokenLines text = o'.tokenLines text' := by
  have hchars := congrArg String.toList h
  rw [toList_out_answerText hfile htokens, toList_out_answerText hfile' htokens'] at hchars
  have hlines := parts_unique (List.forall_mem_map.mpr (o.lineFeed_not_mem_allTokens text))
    (List.forall_mem_map.mpr (o'.lineFeed_not_mem_allTokens text')) hchars
  have hall : o.allTokens text = o'.allTokens text' :=
    (List.map_inj_right fun t u htu => Token.render_injective (String.toList_injective htu)).mp
      hlines
  exact tokenLines_eq_of_allTokens_eq hall

end Options

namespace Surroundings

variable {s s' : Surroundings} {args args' : List String} {o o' : Options}
  {text text' : List Char}

/-- **A dump can be read back.**  If two runs that show the tokens of standard input write the same,
the two texts have equally many lines, and any two lines with the same number have the same tokens. -/
theorem tokenize_eq_of_dump_eq (h : s.Reads args o text) (h' : s'.Reads args' o' text')
    (hfile : o.file = none) (hfile' : o'.file = none) (htokens : o.tokens = true)
    (htokens' : o'.tokens = true) (hout : (s.run args).output.out = (s'.run args').output.out) :
    (LineEnd.ofChars.lines text).length = (LineEnd.ofChars.lines text').length ∧
      ∀ i : Nat, ((LineEnd.ofChars.lines text)[i]?).map
          (fun line => (⟨o.policy, line⟩ : Source).tokenize) =
        ((LineEnd.ofChars.lines text')[i]?).map fun line => (⟨o'.policy, line⟩ : Source).tokenize := by
  rw [h.run_eq, h'.run_eq] at hout
  have hlines := Options.tokenLines_eq_of_out_eq hfile hfile' htokens htokens' hout
  constructor
  · simpa [Options.tokenLines] using congrArg List.length hlines
  · intro i
    have htokens := congrArg (fun lines => (lines[i]?).map (· ++ [Token.eof])) hlines
    simp only [Options.tokenLines, List.getElem?_map, Option.map_map] at htokens
    exact htokens

/-- Spaces and carriage returns do not show in a dump; what looks like a token in it does. -/
theorem tokenize_eq_of_dump_eq_spaced :
    ∃ (s s' : Surroundings) (o : Options) (text text' : List Char),
      text = "eof \"Token(eof, 'eof')\"\r\n\n 1 +".toList ∧
      text' = "eof\"Token(eof, 'eof')\"\n\n1+\r\n".toList ∧
      s.Reads ["-t"] o text ∧ s'.Reads ["-t"] o text' ∧ o.file = none ∧ o.tokens = true ∧
      (s.run ["-t"]).output.out = (s'.run ["-t"]).output.out ∧
      (LineEnd.ofChars.lines text).length = (LineEnd.ofChars.lines text').length ∧
      ∀ i : Nat, ((LineEnd.ofChars.lines text)[i]?).map
          (fun line => (⟨o.policy, line⟩ : Source).tokenize) =
        ((LineEnd.ofChars.lines text')[i]?).map fun line => (⟨o.policy, line⟩ : Source).tokenize := by
  let text := "eof \"Token(eof, 'eof')\"\r\n\n 1 +".toList
  let text' := "eof\"Token(eof, 'eof')\"\n\n1+\r\n".toList
  let o : Options := ⟨none, true, false, none⟩
  let input (text : List Char) := Surroundings.ofBytes (Text.encode text)
  have hinput (text : List Char) : (input text).Reads ["-t"] o text := ⟨by decide, rfl⟩
  have htokens : o.allTokens text = o.allTokens text' := by decide +kernel
  have hout : ((input text).run ["-t"]).output.out = ((input text').run ["-t"]).output.out := by
    refine String.toList_injective ?_
    rw [(hinput text).run_eq, (hinput text').run_eq]
    change (o.answerText _ text).out.toList = (o.answerText _ text').out.toList
    rw [Options.toList_out_answerText rfl rfl, Options.toList_out_answerText rfl rfl, htokens]
  have hsame := tokenize_eq_of_dump_eq (hinput text) (hinput text') rfl rfl rfl rfl hout
  exact ⟨_, _, o, text, text', rfl, rfl, hinput text, hinput text', rfl, rfl, hout, hsame⟩

end Surroundings

end ScriptTree
