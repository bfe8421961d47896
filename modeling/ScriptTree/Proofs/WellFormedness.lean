import ScriptTree.Proofs.Lookahead
import ScriptTree.Proofs.RoundTrip

/-!
# Well-formedness

What is read is well formed (`Session.wellFormed_of_mem_parseTimes`).  Nothing checks this
while reading:

* the shape of an expression is that of a tree with proper splits at all of its operators
  (`Run.Groups.isExpression`);
* the leaves are scanned tokens, which have the form of their kinds;
* an expression ends where no operator follows, so that the next one does not begin with a
  word operator (`Node.separate_cons`).

A session goes on with tokens of its source after an error, wherever that was, and so with
tokens that have their forms.
-/

namespace ScriptTree

variable {w : Whitespace} {ts rest : List Token}

/-! ## Expressions -/

/-- An operand by itself, which may stand under any operator. -/
structure Node.IsLeaf (n : Node) : Prop where
  isExpression : n.IsExpression
  binds : ∀ min, n.BindsAtLeast min

/-- The form of an operand is the same whatever is skipped. -/
theorem Node.isLeaf_of_operand? {t : Token} {n : Node} (h : t.operand? = some n)
    (hform : t.HasForm w) : n.IsLeaf := by
  obtain ⟨k, hk, rfl⟩ := Token.operand?_eq_some_iff.mp h
  obtain ⟨kind, lexeme⟩ := t
  cases hk
  refine ⟨?_, fun _ => trivial⟩
  intro w'
  cases k <;> exact hform

namespace Run

/-- The operands of a run are leaves. -/
structure HasLeaves (r : Run) : Prop where
  first : r.first.IsLeaf
  links : ∀ l ∈ r.links, l.operand.IsLeaf

/-- At the top of a grouping is an operand or an operator of the run. -/
theorem Groups.bindsAtLeast {r : Run} {n : Node} {min : Nat} (h : r.Groups n)
    (htab : Tabled r.links) (hfirst : r.first.BindsAtLeast min) (hmin : AllAtLeast min r.links) :
    n.BindsAtLeast min := by
  cases h with
  | operand first => exact hfirst
  | @operator first left right before after pivot _ _ _ =>
    obtain ⟨-, hpivot, -⟩ := tabled_append_cons.mp htab
    have hle : min ≤ pivot.op.precedence := hmin pivot (by simp)
    exact ⟨pivot.op, Operator.lookup?_eq_some_iff.mpr ⟨hpivot, rfl⟩, hle⟩

/-- Proper splits put under every operator only what may stand there. -/
theorem Groups.isExpression {r : Run} {n : Node} (h : r.Groups n) (htab : Tabled r.links)
    (hleaves : r.HasLeaves) : n.IsExpression := by
  induction h with
  | operand first => exact hleaves.first.isExpression
  | @operator first left right before after pivot hproper hgl hgr ihl ihr =>
    obtain ⟨hbefore, hpivot, hafter⟩ := tabled_append_cons.mp htab
    obtain ⟨hleft, hright⟩ := isProper_iff.mp hproper
    have hl : HasLeaves ⟨first, before⟩ :=
      ⟨hleaves.first, fun l hl => hleaves.links l (by simp [hl])⟩
    have hr : HasLeaves ⟨pivot.operand, after⟩ :=
      ⟨hleaves.links pivot (by simp), fun l hl => hleaves.links l (by simp [hl])⟩
    refine ⟨ihl hbefore hl, ihr hafter hr, pivot.op,
      Operator.lookup?_eq_some_iff.mpr ⟨hpivot, rfl⟩, ?_, ?_⟩
    · exact hgl.bindsAtLeast hbefore (hl.first.binds _) hleft
    · exact hgr.bindsAtLeast hafter (hr.first.binds _) hright

end Run

theorem isLeaf_of_linksOfTokens? {links : List Link} (hforms : ∀ t ∈ ts, t.HasForm w)
    (h : Run.linksOfTokens? ts = some links) : ∀ l ∈ links, l.operand.IsLeaf := by
  induction links generalizing ts with
  | nil => simp
  | cons l ls ih =>
    obtain ⟨o, p, more, rfl, -, hp, hmore⟩ := Run.linksOfTokens?_eq_cons_iff.mp h
    refine List.forall_mem_cons.mpr ⟨Node.isLeaf_of_operand? hp (hforms p (by simp)), ?_⟩
    exact ih (fun t ht => hforms t (by simp [ht])) hmore

/-- The tree of a run of scanned tokens is an expression. -/
theorem SpellsRun.isExpression_tree {run : Run} (h : SpellsRun ts run rest)
    (hforms : ∀ t ∈ ts, t.HasForm w) : run.tree.IsExpression := by
  obtain ⟨p, more, rfl, hp, hmore⟩ := Run.ofTokens?_eq_some_iff.mp h.1
  obtain ⟨hfirst, hothers⟩ := List.forall_mem_cons.mp hforms
  have htab := Run.tabled_of_linksOfTokens? hmore
  exact (Run.groups_tree htab).isExpression htab
    ⟨Node.isLeaf_of_operand? hp hfirst, isLeaf_of_linksOfTokens? hothers hmore⟩

/-! ## Neighbours -/

namespace Node

/-- A statement where no operator is ahead does not begin with a word operator. -/
theorem isWordOperator_leftmost {n : Node} (h : n.WellFormed)
    (hop : (current (n.tokens ++ rest)).operator? = none) : n.leftmost.isWordOperator = false := by
  have hexpression (hn : n.IsExpression) : n.leftmost.isWordOperator = false := by
    obtain ⟨k, text, hleft, hcurrent, -⟩ := current_of_isExpression hn rest
    rw [hcurrent] at hop
    rw [hleft]
    cases k with
    | identifier =>
      have hlookup : Operator.lookup? text = none := hop
      simp [isWordOperator, hlookup]
    | _ => rfl
  cases n with
  | operand => exact hexpression h.1
  | binary => exact hexpression h.1
  | binding => rfl
  | block => rfl

/-- A statement keeps separate from those behind it if it ends where no operator follows. -/
theorem separate_cons {n : Node} {ns : List Node} (rest : List Token)
    (hns : ∀ m ∈ ns, m.WellFormed)
    (hop : n.IsExpression → (current (ns.flatMap tokens ++ rest)).operator? = none)
    (hsep : Separate ns) : Separate (n :: ns) := by
  cases ns with
  | nil => trivial
  | cons m ns =>
    refine ⟨fun hn => ?_, hsep⟩
    have hcurrent := hop hn
    rw [List.flatMap_cons, List.append_assoc] at hcurrent
    exact isWordOperator_leftmost (hns m (by simp)) hcurrent

end Node

/-! ## Statements -/

theorem SpellsRuns.wellFormed {runs : List Run} (h : SpellsRuns ts runs rest)
    (hforms : ∀ t ∈ ts, t.HasForm w) (hheights : ∀ run ∈ runs, run.tree.height ≤ maxHeight) :
    (∀ n ∈ runs.map Run.tree, n.WellFormedExpression) ∧ Node.Separate (runs.map Run.tree) := by
  induction h with
  | nil => exact ⟨by simp, trivial⟩
  | @cons used more rest run runs hrun hruns ih =>
    obtain ⟨hfirst, hothers⟩ := List.forall_mem_append.mp hforms
    obtain ⟨hheight, hheights⟩ := List.forall_mem_cons.mp hheights
    obtain ⟨hall, hsep⟩ := ih hothers hheights
    rw [List.map_cons]
    refine ⟨List.forall_mem_cons.mpr ⟨⟨hrun.isExpression_tree hfirst, hheight⟩, hall⟩, ?_⟩
    refine Node.separate_cons rest (fun m hm => (hall m hm).wellFormed) ?_ hsep
    intro _
    rw [← Node.tokensBody_eq, hruns.tokens_trees hothers]
    exact hrun.2

theorem SpellsPhrase.wellFormed_node {phrase : Phrase} (h : SpellsPhrase ts phrase rest)
    (hforms : ∀ t ∈ ts, t.HasForm w) (hshallow : phrase.Shallow) : phrase.node.WellFormed := by
  cases h with
  | @binding b word name equals semiColon ts _ run hword hname hequals hsemi hrun =>
    have hrunForms : ∀ t ∈ ts, t.HasForm w := fun t ht => hforms t (by simp [ht])
    have hnameForm : name.HasForm w := hforms name (by simp)
    refine ⟨?_, hrun.isExpression_tree hrunForms, hshallow run (by simp [Phrase.runs])⟩
    intro w'
    obtain ⟨kind, lexeme⟩ := name
    cases hname
    exact hnameForm
  | @block opening closing ts _ runs hopening hclosing hruns =>
    exact hruns.wellFormed (fun t ht => hforms t (by simp [ht])) hshallow
  | @expression _ _ run hrun =>
    have hwell : run.tree.WellFormedExpression :=
      ⟨hrun.isExpression_tree hforms, hshallow run (by simp [Phrase.runs])⟩
    exact hwell.wellFormed

/-- Where a phrase is an expression no operator follows. -/
theorem SpellsPhrase.operator?_of_isExpression {phrase : Phrase} (h : SpellsPhrase ts phrase rest)
    (hn : phrase.node.IsExpression) : (current rest).operator? = none := by
  cases h with
  | binding => exact False.elim hn
  | block => exact False.elim hn
  | expression hrun => exact hrun.2

theorem IsCut.wellFormed {cut : List Piece} (h : IsCut ts cut) (hforms : ∀ t ∈ ts, t.HasForm w)
    (hshallow : ∀ piece ∈ cut, piece.phrase.Shallow) :
    Program.WellFormed ⟨cut.map fun piece => piece.phrase.node⟩ := by
  induction h with
  | nil => exact ⟨by simp, trivial⟩
  | @cons used rest phrase cut hphrase hcut ih =>
    obtain ⟨hfirst, hothers⟩ := List.forall_mem_append.mp hforms
    obtain ⟨hone, hshallow⟩ := List.forall_mem_cons.mp hshallow
    obtain ⟨hall, hsep⟩ := ih hothers hshallow
    refine ⟨List.forall_mem_cons.mpr ⟨hphrase.wellFormed_node hfirst hone, hall⟩, ?_⟩
    refine Node.separate_cons [] hall ?_ hsep
    intro hn
    rw [List.append_nil, hcut.tokens_nodes hothers]
    exact hphrase.operator?_of_isExpression hn

/-! ## Sessions -/

namespace Session

/-- One step: a program read from scanned tokens is well formed. -/
theorem wellFormed_of_parse {s : Session} {p : Program} (hforms : ∀ t ∈ s.ahead, t.HasForm w)
    (h : s.parse.1 = .ok p) : p.WellFormed := by
  obtain ⟨-, cut, hcut, hshallow, hnodes⟩ :=
    Reading.statements_eq_ok_iff.mp (parse_eq_ok_iff.mp h)
  obtain ⟨nodes⟩ := p
  cases hnodes
  exact hcut.wellFormed hforms hshallow

/-- Many steps, of which any may fail. -/
theorem wellFormed_of_parseTimes {s : Session} {n : Nat} {p : Program}
    (hforms : ∀ t ∈ s.ahead, t.HasForm w) (h : .ok p ∈ (s.parseTimes n).1) : p.WellFormed := by
  induction n generalizing s with
  | zero => cases h
  | succ n ih =>
    rcases List.mem_cons.mp h with hfirst | hlater
    · exact wellFormed_of_parse hforms hfirst.symm
    · refine ih ?_ hlater
      intro t ht
      exact hforms t (s.ahead_parse_suffix.subset ht)

/-- **Every program read is well formed**, however many tokens were skipped before and
however many programs were read, or not read, from the same source. -/
theorem wellFormed_of_mem_parseTimes {s : Source} {k n : Nat} {p : Program}
    (h : .ok p ∈ ((ofSource (s.pull k).2).parseTimes n).1) : p.WellFormed :=
  wellFormed_of_parseTimes (fun _ => Source.hasForm_of_mem_tokens) h

/-- A program that begins in the middle of a binding, where reading it had failed. -/
theorem wellFormed_of_mem_parseTimes_resumed :
    ∃ s p, s = Source.ofString .space "x let y 5 - 2 not 3 \x7b z\x7d" ∧
      ((ofSource (s.pull 1).2).parseTimes 2).1 =
        [.error (.expected "'=' after binding name" "'5'"), .ok p] ∧
      p.nodes =
        [.binary (.binary (.operand .int "5") "-" (.operand .int "2")) "not" (.operand .int "3"),
          .block [.operand .identifier "z"]] ∧
      p.WellFormed := by
  let s := Source.ofString .space "x let y 5 - 2 not 3 \x7b z\x7d"
  let p : Program :=
    ⟨[.binary (.binary (.operand .int "5") "-" (.operand .int "2")) "not" (.operand .int "3"),
      .block [.operand .identifier "z"]]⟩
  let start := ofSource (s.pull 1).2
  have hfails : start.parse.1 = .error (.expected "'=' after binding name" "'5'") :=
    sameResult_iff.mp (by decide +kernel)
  have hreads : start.parse.2.parse.1 = .ok p := sameResult_iff.mp (by decide +kernel)
  have hresults : (start.parseTimes 2).1 = [start.parse.1, start.parse.2.parse.1] := rfl
  rw [hfails, hreads] at hresults
  have hmem : .ok p ∈ (start.parseTimes 2).1 := by
    rw [hresults]
    simp
  exact ⟨s, p, rfl, hresults, rfl, wellFormed_of_mem_parseTimes hmem⟩

end Session

end ScriptTree
