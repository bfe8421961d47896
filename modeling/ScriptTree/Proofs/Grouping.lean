import ScriptTree.Grammar.Run
import ScriptTree.Tree.WellFormed

/-!
# Grouping

The tree of a run, said without a search for the operator at the top.

* `Split.IsProper`: the place at which a run is to be split, by precedence and side alone.
  `Run.split` finds it (`Run.isProper_split`), and there is no other
  (`Run.split_eq_of_isProper`).
* `Run.Groups`: the trees that come from proper splits all the way down; there is exactly
  one, `Run.tree` (`Run.groups_iff`).
* What grouping keeps: the tokens of the run (`Run.tokens_tree`).  Links added at the end
  never make the tree lower (`Run.height_tree_append`).

All of this is about operators of the table, where one precedence goes with one side
(`Operator.associativity_eq`).
-/

namespace ScriptTree

/-! ## Levels -/

namespace Operator

/-- Operators of one precedence group to the same side. -/
theorem associativity_eq {o p : Operator} (ho : o ∈ table) (hp : p ∈ table)
    (h : o.precedence = p.precedence) : o.associativity = p.associativity := by
  have hall : ∀ o ∈ table, ∀ p ∈ table, o.precedence = p.precedence →
      o.associativity = p.associativity := by decide
  exact hall o ho p hp h

theorem precedence_le_nextMin (o : Operator) : o.precedence ≤ o.nextMin := by
  unfold nextMin
  split <;> omega

theorem precedence_le_leftMin (o : Operator) : o.precedence ≤ o.leftMin := by
  unfold leftMin
  split <;> omega

/-- An operator of the left operand of `p` is one whose right operand ends at `p`. -/
theorem leftMin_le_iff {o p : Operator} (ho : o ∈ table) (hp : p ∈ table) :
    p.leftMin ≤ o.precedence ↔ p.precedence < o.nextMin := by
  unfold leftMin nextMin
  by_cases he : o.precedence = p.precedence
  · rw [associativity_eq ho hp he]
    cases p.associativity <;> simp only <;> omega
  · split <;> split <;> omega

end Operator

/-! ## Proper splits -/

/-- The links have operators of the table. -/
def Tabled (links : List Link) : Prop := ∀ l ∈ links, l.op ∈ Operator.table

theorem tabled_append {ls ms : List Link} : Tabled (ls ++ ms) ↔ Tabled ls ∧ Tabled ms := by
  simp only [Tabled, List.forall_mem_append]

theorem tabled_cons {l : Link} {ls : List Link} :
    Tabled (l :: ls) ↔ l.op ∈ Operator.table ∧ Tabled ls := by
  simp only [Tabled, List.forall_mem_cons]

theorem tabled_append_cons {before after : List Link} {l : Link} :
    Tabled (before ++ l :: after) ↔ Tabled before ∧ l.op ∈ Operator.table ∧ Tabled after := by
  rw [tabled_append, tabled_cons]

/-- The links have operators of precedence at least `min`. -/
def AllAtLeast (min : Nat) (links : List Link) : Prop := ∀ l ∈ links, min ≤ l.op.precedence

theorem allAtLeast_append {min : Nat} {ls ms : List Link} :
    AllAtLeast min (ls ++ ms) ↔ AllAtLeast min ls ∧ AllAtLeast min ms := by
  simp only [AllAtLeast, List.forall_mem_append]

theorem allAtLeast_cons {min : Nat} {l : Link} {ls : List Link} :
    AllAtLeast min (l :: ls) ↔ min ≤ l.op.precedence ∧ AllAtLeast min ls := by
  simp only [AllAtLeast, List.forall_mem_cons]

theorem AllAtLeast.mono {min min' : Nat} {ls : List Link} (h : AllAtLeast min ls)
    (hm : min' ≤ min) : AllAtLeast min' ls :=
  fun l hl => Nat.le_trans hm (h l hl)

namespace Run

theorem tabled_of_linksOfTokens? {ts : List Token} {links : List Link}
    (h : linksOfTokens? ts = some links) : Tabled links := by
  induction links generalizing ts with
  | nil => simp [Tabled]
  | cons l ls ih =>
    obtain ⟨o, p, more, rfl, ho, -, hlinks⟩ := linksOfTokens?_eq_cons_iff.mp h
    exact tabled_cons.mpr ⟨Token.mem_table_of_operator? ho, ih hlinks⟩

theorem tabled_of_ofTokens? {ts : List Token} {run : Run} (h : ofTokens? ts = some run) :
    Tabled run.links := by
  obtain ⟨p, more, rfl, -, hmore⟩ := ofTokens?_eq_some_iff.mp h
  exact tabled_of_linksOfTokens? hmore

/-- The pivot has the least precedence there is.  Of several such links it is the last
where they group to the left, and the first where they group to the right. -/
structure Split.IsProper (s : Split) : Prop where
  least : AllAtLeast s.pivot.op.precedence (s.before ++ s.after)
  last : s.pivot.op.associativity = .left → ∀ l ∈ s.after, s.pivot.op.precedence < l.op.precedence
  first : s.pivot.op.associativity = .right →
    ∀ l ∈ s.before, s.pivot.op.precedence < l.op.precedence

/-- In a proper split each side has only what may stand on that side of the pivot. -/
theorem isProper_iff {s : Split} :
    s.IsProper ↔ AllAtLeast s.pivot.op.leftMin s.before ∧ AllAtLeast s.pivot.op.nextMin s.after := by
  constructor
  · rintro ⟨hleast, hlast, hfirst⟩
    obtain ⟨hb, ha⟩ := allAtLeast_append.mp hleast
    unfold Operator.leftMin Operator.nextMin
    cases hs : s.pivot.op.associativity with
    | left => exact ⟨hb, hlast hs⟩
    | right => exact ⟨hfirst hs, ha⟩
  · rintro ⟨hb, ha⟩
    refine ⟨allAtLeast_append.mpr ⟨?_, ?_⟩, ?_, ?_⟩
    · exact hb.mono (Operator.precedence_le_leftMin _)
    · exact ha.mono (Operator.precedence_le_nextMin _)
    · intro hs
      rwa [Operator.nextMin, hs] at ha
    · intro hs
      rwa [Operator.leftMin, hs] at hb

/-- No operator of a run binds less tightly than the pivot of a proper split. -/
theorem Split.IsProper.atLeast {s : Split} {min : Nat} (hs : s.IsProper)
    (hmin : min ≤ s.pivot.op.precedence) : AllAtLeast min (s.before ++ s.pivot :: s.after) := by
  obtain ⟨hb, ha⟩ := allAtLeast_append.mp hs.least
  exact allAtLeast_append.mpr ⟨hb.mono hmin, allAtLeast_cons.mpr ⟨hmin, ha.mono hmin⟩⟩

theorem mem_split_pivot (l : Link) (ls : List Link) : (split l ls).pivot ∈ l :: ls := by
  rw [← split_parts l ls]
  simp

/-- A link comes before those that may stand in its right operand. -/
theorem splitsBefore_iff {l m : Link} :
    splitsBefore l m = true ↔ l.op.nextMin ≤ m.op.precedence := by
  simp only [splitsBefore, Bool.or_eq_true, Bool.and_eq_true, decide_eq_true_eq]
  unfold Operator.nextMin
  cases l.op.associativity with
  | left =>
    simp only [reduceCtorEq, and_false, or_false]
    omega
  | right =>
    simp only [and_true]
    omega

/-- The search finds a proper split. -/
theorem isProper_split {l : Link} {ls : List Link} (ht : Tabled (l :: ls)) :
    (split l ls).IsProper := by
  induction ls generalizing l with
  | nil => exact isProper_iff.mpr ⟨by simp [split, AllAtLeast], by simp [split, AllAtLeast]⟩
  | cons m ls ih =>
    obtain ⟨hl, htail⟩ := tabled_cons.mp ht
    have hs := ih htail
    rw [isProper_iff]
    simp only [split]
    split
    · next hbefore =>
      refine ⟨by simp [AllAtLeast], ?_⟩
      rw [← split_parts m ls]
      exact hs.atLeast (splitsBefore_iff.mp hbefore)
    · next hbefore =>
      obtain ⟨hb, ha⟩ := isProper_iff.mp hs
      rw [splitsBefore_iff, Nat.not_le] at hbefore
      have hpivot := htail _ (mem_split_pivot m ls)
      exact ⟨allAtLeast_cons.mpr ⟨(Operator.leftMin_le_iff hl hpivot).mpr hbefore, hb⟩, ha⟩

theorem split_of_nextMin_le {l : Link} {ls : List Link} (h : AllAtLeast l.op.nextMin ls) :
    split l ls = ⟨[], l, ls⟩ := by
  cases ls with
  | nil => rfl
  | cons m ls =>
    have hbefore := splitsBefore_iff.mpr (h _ (mem_split_pivot m ls))
    simp only [split, hbefore, if_true]

/-- There is no other proper split than the one that the search finds. -/
theorem split_eq_of_isProper {before after ls : List Link} {pivot l : Link}
    (ht : Tabled (l :: ls)) (hs : Split.IsProper ⟨before, pivot, after⟩)
    (hparts : before ++ pivot :: after = l :: ls) : split l ls = ⟨before, pivot, after⟩ := by
  obtain ⟨hb, ha⟩ := isProper_iff.mp hs
  clear hs
  induction before generalizing l ls with
  | nil =>
    cases hparts
    exact split_of_nextMin_le ha
  | cons k before ih =>
    rw [List.cons_append, List.cons.injEq] at hparts
    obtain ⟨rfl, rfl⟩ := hparts
    obtain ⟨hk, htail⟩ := tabled_cons.mp ht
    obtain ⟨hkb, hb⟩ := allAtLeast_cons.mp hb
    obtain ⟨m, ms, hms⟩ := List.exists_cons_of_ne_nil (l := before ++ pivot :: after) (by simp)
    have hpivot : pivot.op ∈ Operator.table := htail pivot (by simp)
    have hnot : splitsBefore k pivot = false := by
      rw [Bool.eq_false_iff, Ne, splitsBefore_iff, Nat.not_le]
      exact (Operator.leftMin_le_iff hk hpivot).mp hkb
    rw [hms] at htail ⊢
    simp only [split, ih htail hms hb ha, hnot]
    rfl

/-! ## Trees -/

/-- The tree of a run that is split properly. -/
theorem tree_of_isProper {first : Node} {before after : List Link} {pivot : Link}
    (ht : Tabled (before ++ pivot :: after)) (hs : Split.IsProper ⟨before, pivot, after⟩) :
    tree ⟨first, before ++ pivot :: after⟩ =
      .binary (tree ⟨first, before⟩) pivot.op.lexeme (tree ⟨pivot.operand, after⟩) := by
  obtain ⟨l, ls, hl⟩ := List.exists_cons_of_ne_nil (l := before ++ pivot :: after) (by simp)
  rw [hl] at ht ⊢
  rw [tree_split, split_eq_of_isProper ht hs hl]

/-- The trees that a run has by precedence and side: a lone operand is its own tree, and a
longer run has the operator of a proper split at the top. -/
inductive Groups : Run → Node → Prop
  | operand (first : Node) : Groups ⟨first, []⟩ first
  | operator {first left right : Node} {before after : List Link} {pivot : Link} :
      Split.IsProper ⟨before, pivot, after⟩ → Groups ⟨first, before⟩ left →
      Groups ⟨pivot.operand, after⟩ right →
      Groups ⟨first, before ++ pivot :: after⟩ (.binary left pivot.op.lexeme right)

theorem groups_tree {r : Run} (ht : Tabled r.links) : Groups r r.tree := by
  fun_induction tree r with
  | case1 r h =>
    obtain ⟨first, links⟩ := r
    cases h
    exact Groups.operand first
  | case2 r l ls h s ihb iha =>
    obtain ⟨first, links⟩ := r
    cases h
    have hparts := split_parts l ls
    obtain ⟨hb, -, ha⟩ := tabled_append_cons.mp (hparts ▸ ht)
    have hg := Groups.operator (isProper_split ht) (ihb hb) (iha ha)
    rwa [hparts] at hg

/-- A run has exactly one tree. -/
theorem groups_iff {r : Run} {n : Node} (ht : Tabled r.links) : Groups r n ↔ n = r.tree := by
  constructor
  · intro h
    induction h with
    | operand first => rw [tree_lone]
    | operator hs _ _ ihl ihr =>
      obtain ⟨hb, -, ha⟩ := tabled_append_cons.mp ht
      rw [tree_of_isProper ht hs, ← ihl hb, ← ihr ha]
  · rintro rfl
    exact groups_tree ht

/-- The tokens of a run, in order. -/
def tokens (r : Run) : List Token :=
  r.first.tokens ++ r.links.flatMap fun l => .ofText l.op.lexeme :: l.operand.tokens

/-- Grouping keeps the tokens and their order. -/
theorem tokens_tree (r : Run) : r.tree.tokens = r.tokens := by
  fun_induction tree r with
  | case1 r h => simp [tokens, h]
  | case2 r l ls h s ihb iha =>
    have hparts := split_parts l ls
    simp only [Node.tokens, ihb, iha]
    simp only [tokens, h, ← hparts, List.flatMap_append, List.flatMap_cons, List.append_assoc,
      List.cons_append, s]

private theorem Groups.height_tree_le {r : Run} {n : Node} (hg : Groups r n)
    (ht : Tabled r.links) {ls ms : List Link} (hr : r.links = ls ++ ms) :
    (tree ⟨r.first, ls⟩).height ≤ n.height := by
  induction hg generalizing ls ms with
  | operand first =>
    obtain ⟨rfl, rfl⟩ := List.append_eq_nil_iff.mp hr.symm
    simp only [tree_lone, Nat.le_refl]
  | @operator first left right before after pivot hs _ _ ihl ihr =>
    obtain ⟨hb, hp, ha⟩ := tabled_append_cons.mp ht
    simp only [Node.height]
    rcases List.append_eq_append_iff.mp hr with ⟨bs, rfl, hbs⟩ | ⟨as, rfl, rfl⟩
    · have hl : (tree ⟨first, before⟩).height ≤ left.height := ihl hb (List.append_nil _).symm
      cases bs with
      | nil =>
        rw [List.append_nil]
        omega
      | cons p bs =>
        -- The pivot is among the first links, so it is where they are split as well.
        obtain ⟨rfl, rfl⟩ := List.cons.inj hbs
        obtain ⟨hmin, hnext⟩ := isProper_iff.mp hs
        have hs' : Split.IsProper ⟨before, pivot, bs⟩ :=
          isProper_iff.mpr ⟨hmin, (allAtLeast_append.mp hnext).1⟩
        have ht' : Tabled (before ++ pivot :: bs) :=
          tabled_append_cons.mpr ⟨hb, hp, (tabled_append.mp ha).1⟩
        have hr' : (tree ⟨pivot.operand, bs⟩).height ≤ right.height := ihr ha rfl
        simp only [tree_of_isProper ht' hs', Node.height]
        omega
    · have hl : (tree ⟨first, ls⟩).height ≤ left.height := ihl hb rfl
      omega

/-- Links at the end never make the tree lower. -/
theorem height_tree_append (first : Node) {ls ms : List Link} (ht : Tabled (ls ++ ms)) :
    (tree ⟨first, ls⟩).height ≤ (tree ⟨first, ls ++ ms⟩).height :=
  Groups.height_tree_le (r := ⟨first, ls ++ ms⟩) (groups_tree ht) ht rfl

end Run

end ScriptTree
