import ScriptTree.Grammar.Lexical
import ScriptTree.Proofs.Spelling

/-!
# Longest match

Scanning loses no character, and every token is as long as it can be.

* `Token.scanned_scan`: what is scanned is a front part of the text that spells the token, and
  the next character does not go on with it.
* `Token.isLongest_of_not_extendedBy`: then no longer front part spells any token.  It is
  enough to look one character ahead, since a token that is spelled by a longer part would be
  scanned from that part, and the shorter one would be as well.
* `Source.tokenize_lexes`: the tokens of a source are those of the lexical grammar, which
  allows no others.
* `Spaced.tokenize_write_iff`: tokens written one after the other are scanned as themselves
  exactly if they are kept apart where one would run into the next.
-/

namespace ScriptTree

/-- What is dropped ends in front of a character that is kept. -/
theorem eq_false_of_mem_head?_dropWhile {p : Char → Bool} {cs : List Char} {d : Char}
    (h : d ∈ (cs.dropWhile p).head?) : p d = false := by
  have hnot := List.head?_dropWhile_not p cs
  rw [Option.mem_def.mp h] at hnot
  exact hnot

namespace Symbol

/-- The longest symbol is not gone on with. -/
theorem longest?_ended {cs rest : List Char} {s : Symbol} (h : longest? cs = some (s, rest)) :
    ∀ d ∈ rest.head?, ∀ longer : Symbol, longer.chars ≠ s.chars ++ [d] := by
  match cs with
  | [] => cases h
  | [c] =>
    simp only [longest?, Option.map_eq_some_iff, Prod.mk.injEq] at h
    obtain ⟨t, -, rfl, rfl⟩ := h
    simp
  | c :: d :: tail =>
    simp only [longest?] at h
    split at h
    · next t ht =>
      cases h
      intro e _ longer hlonger
      have hlength : longer.chars.length = 3 := by simp [hlonger, ofChars?_eq_some_iff.mp ht]
      cases longer <;> cases hlength
    · next hnone =>
      simp only [Option.map_eq_some_iff, Prod.mk.injEq] at h
      obtain ⟨t, ht, rfl, rfl⟩ := h
      intro e he longer hlonger
      obtain rfl : d = e := by simpa using he
      have hpair : longer.chars = [c, d] := by rw [hlonger, ofChars?_eq_some_iff.mp ht]; rfl
      rw [ofChars?_eq_some_iff.mpr hpair] at hnone
      cases hnone

end Symbol

namespace Token

/-! ## What is scanned -/

/-- A token at the front of a text, with the text after it: a front part spells the token, and
the next character does not go on with it. -/
structure Scanned (text : List Char) (result : Token × List Char) : Prop where
  spelled : ∃ used, text = used ++ result.2 ∧ result.1.SpelledBy used result.2
  ended : ∀ d ∈ result.2.head?, ¬ result.1.ExtendedBy d

theorem scanned_scanString (cs : List Char) : Scanned ('"' :: cs) (scanString cs) := by
  have hparts := List.takeWhile_append_dropWhile (p := (· ≠ '"')) (l := cs)
  refine ⟨?_, fun _ _ h => h⟩
  simp only [scanString]
  cases hdrop : cs.dropWhile (· ≠ '"') with
  | nil =>
    rw [hdrop, List.append_nil] at hparts
    refine ⟨'"' :: cs, by simp, Or.inr ⟨rfl, rfl, ?_⟩⟩
    rw [String.toList_ofList, hparts]
  | cons q rest =>
    have hq : q = '"' := by
      have hhead : q ∈ (cs.dropWhile (· ≠ '"')).head? := by
        rw [hdrop]
        rfl
      simpa using eq_false_of_mem_head?_dropWhile hhead
    rw [hdrop, hq] at hparts
    refine ⟨'"' :: (cs.takeWhile (· ≠ '"') ++ ['"']), ?_, Or.inl ?_⟩
    · rw [List.drop_one, List.tail_cons, List.cons_append, List.append_assoc,
        List.singleton_append, hparts]
    · simp [spelling]

theorem scanned_scanNumber (cs : List Char) : Scanned cs (scanNumber cs) := by
  have hparts := List.takeWhile_append_dropWhile (p := Char.isDigit) (l := cs)
  unfold scanNumber
  simp only
  split
  · next rest hdrop =>
    have hfraction := List.takeWhile_append_dropWhile (p := Char.isDigit) (l := rest)
    rw [hdrop] at hparts
    refine ⟨⟨cs.takeWhile Char.isDigit ++ '.' :: rest.takeWhile Char.isDigit, ?_, Or.inl ?_⟩, ?_⟩
    · rw [List.append_assoc, List.cons_append, hfraction, hparts]
    · simp [spelling]
    · intro d hd hdigit
      cases hdigit.symm.trans (eq_false_of_mem_head?_dropWhile hd)
  · next hpoint =>
    refine ⟨⟨cs.takeWhile Char.isDigit, hparts.symm, Or.inl (by simp [spelling])⟩, ?_⟩
    rintro d hd (hdigit | rfl)
    · cases hdigit.symm.trans (eq_false_of_mem_head?_dropWhile hd)
    · obtain ⟨rest, hrest⟩ := List.head?_eq_some_iff.mp hd
      exact hpoint rest hrest

theorem scanned_scanWord (cs : List Char) : Scanned cs (scanWord cs) := by
  have hword : ∀ text, (word text).spelling = text ∧
      ∀ d, (word text).ExtendedBy d → d.isAlphanum = true := by
    intro text
    unfold word
    split <;> exact ⟨rfl, fun _ h => h⟩
  obtain ⟨hspelling, hextended⟩ := hword (String.ofList (cs.takeWhile Char.isAlphanum))
  refine ⟨⟨cs.takeWhile Char.isAlphanum, List.takeWhile_append_dropWhile.symm, Or.inl ?_⟩, ?_⟩
  · rw [scanWord, hspelling, String.toList_ofList]
  · intro d hd hd'
    cases (hextended d hd').symm.trans (eq_false_of_mem_head?_dropWhile hd)

theorem scanned_scanSymbol (c : Char) (cs : List Char) : Scanned (c :: cs) (scanSymbol c cs) := by
  unfold scanSymbol
  split
  · next s rest h =>
    refine ⟨⟨s.chars, (Symbol.chars_append_of_longest? h).symm, Or.inl ?_⟩, ?_⟩
    · simp [spelling, symbol, Symbol.text]
    · rintro d hd ⟨longer, hlonger⟩
      exact Symbol.longest?_ended h d hd longer hlonger
  · exact ⟨⟨[c], rfl, Or.inl (by simp [spelling])⟩, fun _ _ h => h⟩

theorem scanned_scan (c : Char) (cs : List Char) : Scanned (c :: cs) (scan c cs) := by
  unfold scan
  split
  · next hq =>
    rw [hq]
    exact scanned_scanString cs
  split
  · exact scanned_scanNumber (c :: cs)
  split
  · exact scanned_scanWord (c :: cs)
  · exact scanned_scanSymbol c cs

/-! ## The longest spelling -/

theorem exists_head_of_spelledBy {w : Whitespace} {t : Token} {cs rest : List Char}
    (h : t.HasForm w) (hs : t.SpelledBy cs rest) :
    ∃ c tail, cs = c :: tail ∧ w.skips c = false := by
  rcases hs with rfl | ⟨-, -, rfl⟩
  · exact exists_head_spelling h
  · exact ⟨_, _, rfl, by cases w <;> rfl⟩

/-- A text that spells a token is scanned as that token, and as a whole. -/
theorem scan_of_spelledBy {w : Whitespace} {t : Token} {c : Char} {cs rest : List Char}
    (h : t.HasForm w) (hs : t.SpelledBy (c :: cs) rest) : scan c cs = (t, []) := by
  rcases hs with hclosed | ⟨hkind, -, hopen⟩
  · have hscan : scan c (cs ++ []) = (t, []) := scan_spelling h hclosed.symm (by simp)
    rwa [List.append_nil] at hscan
  · obtain ⟨kind, lexeme⟩ := t
    obtain rfl : kind = .string := hkind
    obtain ⟨rfl, rfl⟩ := List.cons.inj hopen
    have hbody : '"' ∉ lexeme.toList := h
    have hscan : scan '"' (lexeme.toList ++ []) = (⟨.string, String.ofList lexeme.toList⟩, []) :=
      scan_string hbody (by simp)
    rwa [List.append_nil, String.ofList_toList] at hscan

/-- A spelled token that is not gone on with is the longest there is. -/
theorem isLongest_of_not_extendedBy {w : Whitespace} {t : Token} {cs rest : List Char}
    (h : t.HasForm w) (hs : t.SpelledBy cs rest) (hrest : ∀ d ∈ rest.head?, ¬ t.ExtendedBy d) :
    t.IsLongest w cs rest := by
  refine ⟨h, hs, ?_⟩
  intro t' cs' rest' h' hs' heq
  rcases List.append_eq_append_iff.mp heq with ⟨more, rfl, -⟩ | ⟨more, rfl, hmore⟩
  · simp
  · cases more with
    | nil => simp
    | cons d more =>
      -- The longer part would be scanned as `t'`, and its front part as `t` already.
      obtain ⟨c, tail, rfl, -⟩ := exists_head_of_spelledBy h hs
      have hclosed : t.spelling.toList = c :: tail := by
        rcases hs with hclosed | ⟨-, hend, -⟩
        · exact hclosed.symm
        · rw [hend] at hmore
          cases hmore
      have hnot : ∀ e ∈ (d :: more).head?, ¬ t.ExtendedBy e := by
        intro e he
        exact hrest e (by simpa [hmore] using he)
      have hshort : scan c (tail ++ d :: more) = (t, d :: more) := scan_spelling h hclosed hnot
      have hlong : scan c (tail ++ d :: more) = (t', []) := scan_of_spelledBy h' hs'
      rw [hshort] at hlong
      cases hlong

/-- Only one token can be the longest. -/
theorem IsLongest.unique {w : Whitespace} {t t' : Token} {cs cs' rest rest' : List Char}
    (h : t.IsLongest w cs rest) (h' : t'.IsLongest w cs' rest')
    (heq : cs ++ rest = cs' ++ rest') : t = t' ∧ cs = cs' ∧ rest = rest' := by
  have hle := h.longest t' cs' rest' h'.form h'.spelled heq.symm
  have hge := h'.longest t cs rest h.form h.spelled heq
  obtain ⟨rfl, rfl⟩ := List.append_inj heq (Nat.le_antisymm hge hle)
  obtain ⟨c, tail, rfl, -⟩ := exists_head_of_spelledBy h.form h.spelled
  have hscan := scan_of_spelledBy h.form h.spelled
  rw [scan_of_spelledBy h'.form h'.spelled] at hscan
  cases hscan
  exact ⟨rfl, rfl, rfl⟩

end Token

/-! ## All tokens of a text -/

/-- A gap ends where a token begins. -/
theorem dropWhile_gap {w : Whitespace} {t : Token} {gap cs rest : List Char}
    (hgap : ∀ c ∈ gap, w.skips c = true) (ht : t.HasForm w) (hs : t.SpelledBy cs rest) :
    (gap ++ (cs ++ rest)).dropWhile w.skips = cs ++ rest := by
  obtain ⟨c, tail, rfl, hc⟩ := Token.exists_head_of_spelledBy ht hs
  exact (span_eq _ hgap (by simpa using hc)).2

/-- No token is spelled within a gap. -/
theorem not_gap_of_spelledBy {w : Whitespace} {t : Token} {gap cs rest : List Char}
    (ht : t.HasForm w) (hs : t.SpelledBy cs rest) :
    ¬ ∀ c ∈ gap ++ (cs ++ rest), w.skips c = true := by
  obtain ⟨c, tail, rfl, hc⟩ := Token.exists_head_of_spelledBy ht hs
  intro hgap
  have hskips := hgap c (by simp)
  rw [hc] at hskips
  cases hskips

/-- A text has one list of tokens at most. -/
theorem Lexes.unique {w : Whitespace} {text : List Char} {ts us : List Token} (h : Lexes w text ts)
    (h' : Lexes w text us) : us = ts := by
  induction h generalizing us with
  | @done gap hgap =>
    generalize htext : gap = text at h'
    cases h' with
    | done => rfl
    | token _ ht _ =>
      rw [htext] at hgap
      exact absurd hgap (not_gap_of_spelledBy ht.form ht.spelled)
  | @token gap cs rest t ts hgap ht _ ih =>
    have hdrop := dropWhile_gap hgap ht.form ht.spelled
    generalize htext : gap ++ (cs ++ rest) = text at h'
    rw [htext] at hdrop
    cases h' with
    | done hgap' =>
      rw [← htext] at hgap'
      exact absurd hgap' (not_gap_of_spelledBy ht.form ht.spelled)
    | @token gap' cs' rest' t' us hgap' ht' hus =>
      have hdrop' := dropWhile_gap hgap' ht'.form ht'.spelled
      obtain ⟨rfl, rfl, rfl⟩ := ht.unique ht' (hdrop.symm.trans hdrop')
      rw [ih hus]

namespace Source

/-- The next token is spelled behind a gap, and is not gone on with. -/
theorem exists_gap_of_next? {s s' : Source} {t : Token} (h : s.next? = some (t, s')) :
    ∃ gap used, s.rest = gap ++ (used ++ s'.rest) ∧ (∀ c ∈ gap, s.whitespace.skips c = true) ∧
      t.SpelledBy used s'.rest ∧ ∀ d ∈ s'.rest.head?, ¬ t.ExtendedBy d := by
  have hparts := List.takeWhile_append_dropWhile (p := s.whitespace.skips) (l := s.rest)
  unfold next? at h
  split at h
  · cases h
  · next c cs hdrop =>
    cases h
    obtain ⟨⟨used, hused, hspelled⟩, hended⟩ := Token.scanned_scan c cs
    refine ⟨s.rest.takeWhile s.whitespace.skips, used, ?_, ?_, hspelled, hended⟩
    · rw [← hused, ← hdrop, hparts]
    · exact fun d hd => List.all_eq_true.mp List.all_takeWhile d hd

/-- The first of the tokens to come is the next one. -/
theorem exists_next?_of_tokens_eq_cons {s : Source} {t : Token} {ts : List Token}
    (h : s.tokens = t :: ts) : ∃ s', s.next? = some (t, s') ∧ s'.tokens = ts := by
  cases hnext : s.next? with
  | none =>
    rw [tokens_of_none hnext] at h
    cases h
  | some pair =>
    obtain ⟨u, s'⟩ := pair
    rw [tokens_of_some hnext] at h
    cases h
    exact ⟨s', rfl, rfl⟩

/-- At the end are skipped characters only. -/
theorem skips_of_next?_eq_none {s : Source} (h : s.next? = none) :
    ∀ c ∈ s.rest, s.whitespace.skips c = true := by
  unfold next? at h
  split at h
  · next hdrop =>
    have hparts := List.takeWhile_append_dropWhile (p := s.whitespace.skips) (l := s.rest)
    rw [hdrop, List.append_nil] at hparts
    intro c hc
    rw [← hparts] at hc
    exact List.all_eq_true.mp List.all_takeWhile c hc
  · cases h

/-- Scanning follows the lexical grammar. -/
theorem lexes_tokens (s : Source) : Lexes s.whitespace s.rest s.tokens := by
  fun_induction tokens s with
  | case1 s hnone => exact .done (skips_of_next?_eq_none hnone)
  | case2 s t s' hnext ih =>
    obtain ⟨gap, used, hrest, hgap, hspelled, hended⟩ := exists_gap_of_next? hnext
    have hlongest :=
      Token.isLongest_of_not_extendedBy (Token.hasForm_of_next? hnext) hspelled hended
    rw [hrest]
    rw [whitespace_of_next? hnext] at ih
    exact .token hgap hlongest ih

/-- **Nothing is lost, and every token is as long as it can be.**  The tokens of a source
spell its text, with skipped characters between them, and each is the longest where it
stands; no other tokens do. -/
theorem tokenize_lexes (s : Source) :
    ∃ ts, s.tokenize = ts ++ [Token.eof] ∧ Lexes s.whitespace s.rest ts ∧
      ∀ us, Lexes s.whitespace s.rest us → us = ts :=
  ⟨s.tokens, rfl, s.lexes_tokens, fun _ hus => s.lexes_tokens.unique hus⟩

/-- Longest matches side by side, and a string that is left open. -/
theorem tokenize_lexes_dense :
    ∃ s, s = Source.ofString .ascii " 1.2.3***===9lives\t\"let" ∧
      Lexes s.whitespace s.rest
        [⟨.float, "1.2"⟩, ⟨.illegal, "."⟩, ⟨.int, "3"⟩, .symbol .starStar, .symbol .starEqual,
          .symbol .equalEqual, ⟨.int, "9"⟩, ⟨.identifier, "lives"⟩, ⟨.string, "let"⟩] := by
  let s := Source.ofString .ascii " 1.2.3***===9lives\t\"let"
  obtain ⟨ts, hts, hlexes, -⟩ := tokenize_lexes s
  refine ⟨s, rfl, ?_⟩
  have htokens : s.tokenize = [⟨.float, "1.2"⟩, ⟨.illegal, "."⟩, ⟨.int, "3"⟩, .symbol .starStar,
      .symbol .starEqual, .symbol .equalEqual, ⟨.int, "9"⟩, ⟨.identifier, "lives"⟩,
      ⟨.string, "let"⟩] ++ [Token.eof] := by
    decide +kernel
  rw [List.append_cancel_right (htokens.symm.trans hts)]
  exact hlexes

end Source

/-! ## Written tokens -/

namespace Spaced

variable {w : Whitespace}

/-- A token that is scanned from its own spelling does not go on behind it. -/
theorem not_extendedBy_of_next?_write {t : Token} {gap rest : List Char} {c : Char} {s' : Source}
    (hgap : ∀ c ∈ gap, w.skips c = true) (hform : t.HasForm w)
    (h : (⟨w, gap ++ (t.spelling.toList ++ c :: rest)⟩ : Source).next? = some (t, s')) :
    ¬ t.ExtendedBy c := by
  obtain ⟨gap', used, htext, hgap', hspelled, hended⟩ := Source.exists_gap_of_next? h
  simp only at htext hgap'
  have hwritten : t.SpelledBy t.spelling.toList (c :: rest) := Or.inl rfl
  have hused : t.spelling.toList ++ c :: rest = used ++ s'.rest := by
    rw [← dropWhile_gap hgap hform hwritten, htext, dropWhile_gap hgap' hform hspelled]
  rcases hspelled with rfl | ⟨hkind, -, -⟩
  · refine hended c ?_
    rw [← List.append_cancel_left hused]
    rfl
  · unfold Token.ExtendedBy
    rw [hkind]
    exact id

/-- Tokens that are scanned as themselves are apart. -/
theorem apart_of_tokens_write {ss : List Spaced} {last : List Char}
    (hforms : ∀ s ∈ ss, s.token.HasForm w) (hgaps : ∀ s ∈ ss, ∀ c ∈ s.gap, w.skips c = true)
    (hlast : ∀ c ∈ last, w.skips c = true)
    (h : (⟨w, write ss last⟩ : Source).tokens = ss.map token) : Apart ss := by
  induction ss with
  | nil => trivial
  | cons s more ih =>
    obtain ⟨hform, hforms⟩ := List.forall_mem_cons.mp hforms
    obtain ⟨hgap, hgaps⟩ := List.forall_mem_cons.mp hgaps
    obtain ⟨s', hs', htail⟩ := Source.exists_next?_of_tokens_eq_cons h
    have hfirst : ∀ t ∈ more.head?, t.gap = [] →
        ∀ c ∈ t.token.spelling.toList.head?, ¬ s.token.ExtendedBy c := by
      intro t ht hnogap c hc
      obtain ⟨others, rfl⟩ := List.head?_eq_some_iff.mp ht
      obtain ⟨cs, hspell⟩ := List.head?_eq_some_iff.mp hc
      simp only [write, hnogap, hspell, List.nil_append, List.cons_append] at hs'
      exact not_extendedBy_of_next?_write hgap hform hs'
    have hnext := not_extendedBy_head_write hforms hgaps hlast hfirst
    rw [write, Source.next?_write hgap hform hnext] at hs'
    cases hs'
    exact apart_cons_iff.mpr ⟨hfirst, ih hforms hgaps htail⟩

/-- **Writing and scanning, both ways.**  Tokens of the right form, written one after the
other, are the tokens of the text exactly if no token stands without a gap behind one that
its first character would go on with. -/
theorem tokenize_write_iff {ss : List Spaced} {last : List Char}
    (hforms : ∀ s ∈ ss, s.token.HasForm w) (hgaps : ∀ s ∈ ss, ∀ c ∈ s.gap, w.skips c = true)
    (hlast : ∀ c ∈ last, w.skips c = true) :
    (⟨w, write ss last⟩ : Source).tokenize = ss.map token ++ [Token.eof] ↔ Apart ss := by
  constructor
  · intro h
    exact apart_of_tokens_write hforms hgaps hlast (List.append_cancel_right h)
  · intro h
    rw [Source.tokenize, tokens_write hforms hgaps hlast h]

/-- An integer, a point, and two symbols: the gaps that are needed, and then only one of
them. -/
theorem tokenize_write_iff_point :
    ∃ apart fused : List Spaced,
      apart.map token = [⟨.int, "1"⟩, ⟨.illegal, "."⟩, .symbol .star, .symbol .starStar] ∧
      fused.map token = apart.map token ∧
      write apart [] = "1 .* **".toList ∧ write fused [] = "1.* **".toList ∧
      (∀ s ∈ apart, s.token.HasForm .space) ∧ (∀ s ∈ fused, s.token.HasForm .space) ∧
      (∀ s ∈ apart, ∀ c ∈ s.gap, Whitespace.space.skips c = true) ∧
      (∀ s ∈ fused, ∀ c ∈ s.gap, Whitespace.space.skips c = true) ∧
      (⟨.space, write apart []⟩ : Source).tokenize = apart.map token ++ [Token.eof] ∧
      (⟨.space, write fused []⟩ : Source).tokenize ≠ fused.map token ++ [Token.eof] := by
  let apart : List Spaced :=
    [⟨[], ⟨.int, "1"⟩⟩, ⟨[' '], ⟨.illegal, "."⟩⟩, ⟨[], .symbol .star⟩, ⟨[' '], .symbol .starStar⟩]
  let fused : List Spaced :=
    [⟨[], ⟨.int, "1"⟩⟩, ⟨[], ⟨.illegal, "."⟩⟩, ⟨[], .symbol .star⟩, ⟨[' '], .symbol .starStar⟩]
  have hforms : ∀ s ∈ apart, s.token.HasForm .space := by decide
  have hforms' : ∀ s ∈ fused, s.token.HasForm .space := by decide
  have hgaps : ∀ s ∈ apart, ∀ c ∈ s.gap, Whitespace.space.skips c = true := by decide
  have hgaps' : ∀ s ∈ fused, ∀ c ∈ s.gap, Whitespace.space.skips c = true := by decide
  have hlast : ∀ c ∈ ([] : List Char), Whitespace.space.skips c = true := by decide
  refine ⟨apart, fused, rfl, rfl, by decide, by decide, hforms, hforms', hgaps, hgaps', ?_, ?_⟩
  · exact (tokenize_write_iff hforms hgaps hlast).mpr (by decide)
  · exact fun h => absurd ((tokenize_write_iff hforms' hgaps' hlast).mp h) (by decide)

end Spaced

end ScriptTree
