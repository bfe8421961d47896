import ScriptTree.Proofs.Composition

/-!
# Contexts

An expression is read alike wherever it stands: at the top of a program, in a block, and as the
value of a binding (`Source.parse_in_context_iff`).

The three places have readers of their own, which stop at different tokens.  What they have in
common is the grammar: a program of expressions only is a row of runs, and so is what stands
between the braces of a block (`Reading.statements_eq_ok_iff_runs`).  In the other direction a text
might close the block or the binding that it is put in and open another one behind it.  But then
there is more than one statement, and a program of one node is one phrase
(`Reading.statements_singleton_iff`).
-/

namespace ScriptTree

variable {w : Whitespace} {ts rest : List Token}

/-! ## Rows of expressions -/

/-- A phrase that is not closed is a run. -/
theorem SpellsPhrase.exists_run {phrase : Phrase} (h : SpellsPhrase ts phrase rest)
    (hopen : ¬ phrase.node.IsClosed) : ∃ run, phrase = .expression run ∧ SpellsRun ts run rest := by
  cases h with
  | binding => exact absurd trivial hopen
  | block => exact absurd trivial hopen
  | expression hrun => exact ⟨_, rfl, hrun⟩

theorem SpellsRuns.not_isClosed_tree {runs : List Run} (h : SpellsRuns ts runs rest) :
    ∀ run ∈ runs, ¬ run.tree.IsClosed := by
  induction h with
  | nil => simp
  | cons hrun _ ih => exact List.forall_mem_cons.mpr ⟨hrun.not_isClosed_tree, ih⟩

/-- Phrases that are not closed are a row of runs. -/
theorem IsCut.exists_runs {cut : List Piece} (h : IsCut ts cut)
    (hshallow : ∀ piece ∈ cut, piece.phrase.Shallow)
    (hopen : ∀ piece ∈ cut, ¬ piece.phrase.node.IsClosed) :
    ∃ runs, SpellsRuns ts runs [] ∧ (∀ run ∈ runs, run.tree.height ≤ maxHeight) ∧
      (cut.map fun piece => piece.phrase.node) = runs.map Run.tree := by
  induction h with
  | nil => exact ⟨[], .nil [], by simp, rfl⟩
  | @cons used rest phrase cut hphrase _ ih =>
    obtain ⟨hone, hothers⟩ := List.forall_mem_cons.mp hshallow
    obtain ⟨hphraseOpen, hothersOpen⟩ := List.forall_mem_cons.mp hopen
    obtain ⟨run, rfl, hrun⟩ := hphrase.exists_run hphraseOpen
    obtain ⟨runs, hruns, hheights, hnodes⟩ := ih hothers hothersOpen
    rw [← List.append_nil rest] at hrun
    refine ⟨run :: runs, .cons hrun hruns, ?_, by rw [List.map_cons, List.map_cons, hnodes]; rfl⟩
    exact List.forall_mem_cons.mpr ⟨hone run (List.mem_singleton_self run), hheights⟩

/-- A row of runs can be cut as a program. -/
theorem SpellsRuns.exists_isCut {runs : List Run} (h : SpellsRuns ts runs [])
    (hheights : ∀ run ∈ runs, run.tree.height ≤ maxHeight) :
    ∃ cut, IsCut ts cut ∧ (∀ piece ∈ cut, piece.phrase.Shallow) ∧
      runs.map Run.tree = cut.map fun piece => piece.phrase.node := by
  generalize hrest : ([] : List Token) = rest at h
  induction h with
  | nil => exact ⟨[], .nil, by simp, rfl⟩
  | @cons used more rest run runs hrun _ ih =>
    subst hrest
    obtain ⟨hone, hothers⟩ := List.forall_mem_cons.mp hheights
    obtain ⟨cut, hcut, hshallow, hnodes⟩ := ih hothers rfl
    rw [List.append_nil] at hrun
    refine ⟨⟨used, .expression run⟩ :: cut, .cons (.expression hrun) hcut, ?_,
      by rw [List.map_cons, List.map_cons, hnodes]; rfl⟩
    exact List.forall_mem_cons.mpr ⟨List.forall_mem_singleton.mpr hone, hshallow⟩

namespace Reading

/-- A program of one node is one phrase. -/
theorem statements_singleton_iff {n : Node} :
    statements ts = .ok [n] [] ↔
      ∃ phrase, SpellsPhrase ts phrase [] ∧ phrase.Shallow ∧ n = phrase.node := by
  rw [statements_eq_ok_iff]
  constructor
  · rintro ⟨-, cut, hcut, hshallow, hnodes⟩
    cases hcut with
    | nil => cases hnodes
    | @cons used rest phrase cut hphrase hcut =>
      obtain ⟨hn, hnone⟩ := List.cons.inj hnodes
      obtain rfl := List.map_eq_nil_iff.mp hnone.symm
      cases hcut
      rw [List.append_nil]
      exact ⟨phrase, hphrase, (List.forall_mem_cons.mp hshallow).1, hn⟩
  · rintro ⟨phrase, hphrase, hshallow, rfl⟩
    have hcut : IsCut (ts ++ []) [⟨ts, phrase⟩] := .cons hphrase .nil
    rw [List.append_nil] at hcut
    exact ⟨rfl, _, hcut, by simpa using hshallow, rfl⟩

/-- A program of expressions only is a row of runs. -/
theorem statements_eq_ok_iff_runs {ns : List Node} :
    (statements ts = .ok ns [] ∧ ∀ n ∈ ns, ¬ n.IsClosed) ↔
      ∃ runs, SpellsRuns ts runs [] ∧ (∀ run ∈ runs, run.tree.height ≤ maxHeight) ∧
        ns = runs.map Run.tree := by
  rw [statements_eq_ok_iff]
  constructor
  · rintro ⟨⟨-, cut, hcut, hshallow, rfl⟩, hopen⟩
    rw [List.forall_mem_map] at hopen
    exact hcut.exists_runs hshallow hopen
  · rintro ⟨runs, hruns, hheights, rfl⟩
    exact ⟨⟨rfl, hruns.exists_isCut hheights⟩, List.forall_mem_map.mpr hruns.not_isClosed_tree⟩

/-! ## In a block and in a binding -/

theorem statements_block_iff {ns : List Node} :
    statements (.symbol .leftBrace :: (ts ++ [.symbol .rightBrace])) = .ok [.block ns] [] ↔
      statements ts = .ok ns [] ∧ ∀ n ∈ ns, ¬ n.IsClosed := by
  rw [statements_singleton_iff, statements_eq_ok_iff_runs]
  constructor
  · rintro ⟨phrase, hphrase, hshallow, hnode⟩
    generalize hus : Token.symbol .leftBrace :: (ts ++ [.symbol .rightBrace]) = us at hphrase
    cases hphrase with
    | binding => cases hnode
    | block _ _ hruns =>
      cases hnode
      obtain ⟨rfl, hclosing⟩ := List.append_inj' (List.cons.inj hus).2 rfl
      exact ⟨_, hruns.congr_rest fun _ => rfl, hshallow, rfl⟩
    | @expression _ _ run hrun =>
      have htree : .block ns = run.tree := hnode
      exact absurd (htree ▸ trivial) hrun.not_isClosed_tree
  · rintro ⟨runs, hruns, hheights, rfl⟩
    exact ⟨.block runs, .block rfl rfl (hruns.congr_rest fun _ => rfl), hheights, rfl⟩

theorem statements_binding_iff {kind : BindingKind} {text name : String} {n : Node} :
    statements (⟨.keyword kind.keyword, text⟩ :: ⟨.identifier, name⟩ :: .symbol .equal ::
        (ts ++ [.symbol .semiColon])) = .ok [.binding kind name n] [] ↔
      statements ts = .ok [n] [] ∧ ¬ n.IsClosed := by
  rw [statements_singleton_iff, statements_singleton_iff]
  constructor
  · rintro ⟨phrase, hphrase, hshallow, hnode⟩
    generalize hus : (⟨.keyword kind.keyword, text⟩ :: ⟨.identifier, name⟩ :: .symbol .equal ::
      (ts ++ [.symbol .semiColon]) : List Token) = us at hphrase
    cases hphrase with
    | binding _ _ _ _ hrun =>
      cases hnode
      simp only [List.cons.injEq] at hus
      obtain ⟨rfl, -⟩ := List.append_inj' hus.2.2.2 rfl
      exact ⟨⟨_, .expression (hrun.congr_rest fun _ => rfl), hshallow, rfl⟩, hrun.not_isClosed_tree⟩
    | block => cases hnode
    | @expression _ _ run hrun =>
      have htree : .binding kind name n = run.tree := hnode
      exact absurd (htree ▸ trivial) hrun.not_isClosed_tree
  · rintro ⟨⟨phrase, hphrase, hshallow, rfl⟩, hopen⟩
    obtain ⟨run, rfl, hrun⟩ := hphrase.exists_run hopen
    exact ⟨.binding kind name run, .binding rfl rfl rfl rfl (hrun.congr_rest fun _ => rfl),
      hshallow, rfl⟩

end Reading

/-! ## Texts put into a context -/

namespace Source

variable {text : String}

/-- A text between two pieces of another one, with spaces around it. -/
theorem tokens_between {before : List Char} (hbefore : Even (before.count '"'))
    (heven : Even (text.toList.count '"')) (after : List Char) :
    (⟨w, before ++ [' '] ++ (text.toList ++ [' '] ++ after)⟩ : Source).tokens =
      (⟨w, before⟩ : Source).tokens ++ ((ofString w text).tokens ++ (⟨w, after⟩ : Source).tokens) := by
  have hspace : ∀ c ∈ [' '], w.skips c = true := by cases w <;> decide
  rw [tokens_separated (by simp) hspace hbefore, tokens_separated (by simp) hspace heven]
  rfl

theorem tokens_symbol (s : Symbol) : (⟨w, s.chars⟩ : Source).tokens = [.symbol s] := by
  have hwrite : Spaced.write [⟨[], .symbol s⟩] [] = s.chars := by
    simp [Spaced.write, Token.spelling, Token.symbol, Symbol.text]
  rw [← hwrite]
  refine Spaced.tokens_write ?_ (by simp) (by simp) trivial
  simp [Token.HasForm, Token.symbol]

theorem tokens_block (heven : Even (text.toList.count '"')) :
    (ofString w ("\x7b " ++ text ++ " \x7d")).tokens =
      .symbol .leftBrace :: ((ofString w text).tokens ++ [.symbol .rightBrace]) := by
  have hchars : ("\x7b " ++ text ++ " \x7d").toList =
      Symbol.leftBrace.chars ++ [' '] ++ (text.toList ++ [' '] ++ Symbol.rightBrace.chars) := by
    simp [Symbol.chars]
  rw [ofString, hchars, tokens_between (by decide) heven, tokens_symbol, tokens_symbol]
  rfl

theorem tokens_binding (heven : Even (text.toList.count '"')) (kind : BindingKind) {name : String}
    (hword : IsWord name.toList) (hname : Keyword.ofText? name = none) :
    (ofString w (kind.keyword.text ++ " " ++ name ++ " = " ++ text ++ " ;")).tokens =
      ⟨.keyword kind.keyword, kind.keyword.text⟩ :: ⟨.identifier, name⟩ :: .symbol .equal ::
        ((ofString w text).tokens ++ [.symbol .semiColon]) := by
  let head : List Spaced := [⟨[], ⟨.keyword kind.keyword, kind.keyword.text⟩⟩,
    ⟨[' '], ⟨.identifier, name⟩⟩, ⟨[' '], .symbol .equal⟩]
  have hspace : w.skips ' ' = true := by cases w <;> rfl
  have hhead : (⟨w, Spaced.write head []⟩ : Source).tokens = head.map Spaced.token := by
    refine Spaced.tokens_write ?_ ?_ (by simp) ?_
    · simp [head, Token.HasForm, Token.symbol, hword, hname]
    · simp [head, hspace]
    · simp [head, Spaced.Apart]
  have hquotes : (Spaced.write head []).count '"' = 0 := by
    have hkeyword : '"' ∉ kind.keyword.text.toList := by cases kind <;> decide
    have hident : '"' ∉ name.toList := fun hmem => absurd (hword.isPlain _ hmem) (by decide)
    refine List.count_eq_zero.mpr ?_
    simp [head, Spaced.write, Token.spelling, Token.symbol, Symbol.text, Symbol.chars, hkeyword,
      hident]
  have hchars : (kind.keyword.text ++ " " ++ name ++ " = " ++ text ++ " ;").toList =
      Spaced.write head [] ++ [' '] ++ (text.toList ++ [' '] ++ Symbol.semiColon.chars) := by
    simp [head, Spaced.write, Token.spelling, Token.symbol, Symbol.text, Symbol.chars]
  rw [ofString, hchars, tokens_between (by simp [hquotes]) heven, hhead, tokens_symbol]
  rfl

/-- **An expression means the same in every context.**  Let no string be left open in a text.  Put
between braces it is one block if it is a program of expressions by itself, which then are those of
the block, and otherwise it is not; and put behind the head of a binding it is one binding if it is
a program of one expression, which then is the value. -/
theorem parse_in_context_iff (heven : Even (text.toList.count '"')) :
    (∀ ns, (ofString w ("\x7b " ++ text ++ " \x7d")).parse = .ok ⟨[.block ns]⟩ ↔
      (ofString w text).parse = .ok ⟨ns⟩ ∧ ∀ n ∈ ns, ¬ n.IsClosed) ∧
    ∀ (kind : BindingKind) (name : String), IsWord name.toList → Keyword.ofText? name = none →
      ∀ n, (ofString w (kind.keyword.text ++ " " ++ name ++ " = " ++ text ++ " ;")).parse =
          .ok ⟨[.binding kind name n]⟩ ↔
        (ofString w text).parse = .ok ⟨[n]⟩ ∧ ¬ n.IsClosed := by
  simp only [parse_eq_ok_iff]
  constructor
  · intro ns
    rw [tokens_block heven]
    exact Reading.statements_block_iff
  · intro kind name hword hname n
    rw [tokens_binding heven kind hword hname]
    exact Reading.statements_binding_iff

/-- A text with the end of a block and of a binding in a string, and one that ends a block and
opens another. -/
theorem parse_in_context_iff_reopened :
    ∃ text n reopened, text = "x - \"; \x7d\" or 1" ∧ reopened = "1 \x7d \x7b 2" ∧
      Even (text.toList.count '"') ∧ Even (reopened.toList.count '"') ∧
      IsWord "y".toList ∧ Keyword.ofText? "y" = none ∧
      (ofString .space text).parse = .ok ⟨[n]⟩ ∧ ¬ n.IsClosed ∧
      (ofString .space ("\x7b " ++ text ++ " \x7d")).parse = .ok ⟨[.block [n]]⟩ ∧
      (ofString .space ("let y = " ++ text ++ " ;")).parse = .ok ⟨[.binding .letBinding "y" n]⟩ ∧
      (ofString .space ("const y = " ++ text ++ " ;")).parse =
        .ok ⟨[.binding .constBinding "y" n]⟩ ∧
      (ofString .space ("\x7b " ++ reopened ++ " \x7d")).parse =
        .ok ⟨[.block [.operand .int "1"], .block [.operand .int "2"]]⟩ ∧
      (∀ ns, (ofString .space reopened).parse ≠ .ok ⟨ns⟩) ∧
      ∀ ns, (ofString .space ("\x7b " ++ reopened ++ " \x7d")).parse ≠ .ok ⟨[.block ns]⟩ := by
  let text := "x - \"; \x7d\" or 1"
  let n : Node := .binary (.binary (.operand .identifier "x") "-" (.operand .string "; \x7d"))
    "or" (.operand .int "1")
  let reopened := "1 \x7d \x7b 2"
  have heven : Even (text.toList.count '"') := by decide
  have heven' : Even (reopened.toList.count '"') := by decide
  have hparse : (ofString .space text).parse = .ok ⟨[n]⟩ := sameResult_iff.mp (by decide +kernel)
  have hopen : ¬ n.IsClosed := id
  have hword : IsWord "y".toList := by decide
  have hname : Keyword.ofText? "y" = none := by decide
  have herror : (ofString .space reopened).parse = .error (.expectedPrimary "'\x7d'") :=
    sameResult_iff.mp (by decide +kernel)
  obtain ⟨hblock, hbinding⟩ := parse_in_context_iff (w := .space) heven
  have hnone (ns : List Node) : (ofString .space reopened).parse ≠ .ok ⟨ns⟩ := by
    rw [herror]
    intro h
    cases h
  refine ⟨text, n, reopened, rfl, rfl, heven, heven', hword, hname, hparse, hopen, ?_, ?_, ?_,
    sameResult_iff.mp (by decide +kernel), hnone, ?_⟩
  · exact (hblock [n]).mpr ⟨hparse, List.forall_mem_singleton.mpr hopen⟩
  · exact (hbinding .letBinding "y" hword hname n).mpr ⟨hparse, hopen⟩
  · exact (hbinding .constBinding "y" hword hname n).mpr ⟨hparse, hopen⟩
  · intro ns hns
    exact hnone ns ((parse_in_context_iff heven').1 ns |>.mp hns).1

end Source

end ScriptTree
