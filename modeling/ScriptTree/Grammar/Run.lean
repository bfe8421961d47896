import ScriptTree.Precedence
import ScriptTree.Tree.Shape

/-!
# Runs

An expression as the grammar has it: operands parted by operators, with no structure
yet.  The structure comes from the precedences alone (`Run.tree`): a run of more than
one operand is split at an operator of least precedence, the last of them where they
group to the left and the first where they group to the right, and either side is
treated in the same way.
-/

namespace ScriptTree

/-- An operator and the operand behind it. -/
structure Link where
  op : Operator
  operand : Node
  deriving DecidableEq, Repr

/-- An operand and the links that follow it. -/
structure Run where
  first : Node
  links : List Link
  deriving DecidableEq, Repr

namespace Run

/-- The links spelled by tokens, in which operators and operands take turns. -/
def linksOfTokens? : List Token → Option (List Link)
  | [] => some []
  | [_] => none
  | o :: p :: ts =>
    match o.operator?, p.operand?, linksOfTokens? ts with
    | some op, some operand, some links => some (⟨op, operand⟩ :: links)
    | _, _, _ => none

/-- The run spelled by tokens. -/
def ofTokens? : List Token → Option Run
  | [] => none
  | p :: ts =>
    match p.operand?, linksOfTokens? ts with
    | some first, some links => some ⟨first, links⟩
    | _, _ => none

theorem linksOfTokens?_eq_nil_iff {ts : List Token} : linksOfTokens? ts = some [] ↔ ts = [] := by
  match ts with
  | [] => simp [linksOfTokens?]
  | [_] => simp [linksOfTokens?]
  | o :: p :: more =>
    simp only [linksOfTokens?]
    split <;> simp

theorem linksOfTokens?_eq_cons_iff {ts : List Token} {l : Link} {ls : List Link} :
    linksOfTokens? ts = some (l :: ls) ↔
      ∃ o p more, ts = o :: p :: more ∧ o.operator? = some l.op ∧ p.operand? = some l.operand ∧
        linksOfTokens? more = some ls := by
  constructor
  · intro h
    match ts with
    | [] => cases h
    | [_] => cases h
    | o :: p :: more =>
      simp only [linksOfTokens?] at h
      split at h
      · next ho hp hlinks =>
        cases h
        exact ⟨o, p, more, rfl, ho, hp, hlinks⟩
      · cases h
  · rintro ⟨o, p, more, rfl, ho, hp, hlinks⟩
    simp only [linksOfTokens?, ho, hp, hlinks]

theorem ofTokens?_eq_some_iff {ts : List Token} {r : Run} :
    ofTokens? ts = some r ↔
      ∃ p more, ts = p :: more ∧ p.operand? = some r.first ∧
        linksOfTokens? more = some r.links := by
  constructor
  · intro h
    cases ts with
    | nil => cases h
    | cons p more =>
      simp only [ofTokens?] at h
      split at h
      · next hp hlinks =>
        cases h
        exact ⟨p, more, rfl, hp, hlinks⟩
      · cases h
  · rintro ⟨p, more, rfl, hp, hlinks⟩
    simp only [ofTokens?, hp, hlinks]

/-- Tokens of links in a row. -/
theorem linksOfTokens?_append {ts us : List Token} {ls ms : List Link}
    (hl : linksOfTokens? ts = some ls) (hm : linksOfTokens? us = some ms) :
    linksOfTokens? (ts ++ us) = some (ls ++ ms) := by
  induction ls generalizing ts with
  | nil =>
    rw [linksOfTokens?_eq_nil_iff] at hl
    rw [hl]
    exact hm
  | cons l ls ih =>
    obtain ⟨o, p, more, rfl, ho, hp, hlinks⟩ := linksOfTokens?_eq_cons_iff.mp hl
    exact linksOfTokens?_eq_cons_iff.mpr ⟨o, p, more ++ us, rfl, ho, hp, ih hlinks⟩

/-- Where the links are parted, their tokens can be parted. -/
theorem exists_of_linksOfTokens?_append {ts : List Token} {ls ms : List Link}
    (h : linksOfTokens? ts = some (ls ++ ms)) :
    ∃ us vs, ts = us ++ vs ∧ linksOfTokens? us = some ls ∧ linksOfTokens? vs = some ms := by
  induction ls generalizing ts with
  | nil => exact ⟨[], ts, rfl, rfl, h⟩
  | cons l ls ih =>
    obtain ⟨o, p, more, rfl, ho, hp, hlinks⟩ := linksOfTokens?_eq_cons_iff.mp h
    obtain ⟨us, vs, rfl, hus, hvs⟩ := ih hlinks
    exact ⟨o :: p :: us, vs, rfl, linksOfTokens?_eq_cons_iff.mpr ⟨o, p, us, rfl, ho, hp, hus⟩, hvs⟩

/-- The links before the one at which to split, that link, and the links after it. -/
structure Split where
  before : List Link
  pivot : Link
  after : List Link
  deriving DecidableEq, Repr

/-- Whether to split at `l` rather than at a link further right. -/
def splitsBefore (l right : Link) : Bool :=
  l.op.precedence < right.op.precedence ||
    (l.op.precedence = right.op.precedence && l.op.associativity = .right)

/-- Where the links `l :: ls` are split. -/
def split (l : Link) : List Link → Split
  | [] => ⟨[], l, []⟩
  | m :: ls =>
    let s := split m ls
    if splitsBefore l s.pivot then ⟨[], l, m :: ls⟩ else { s with before := l :: s.before }

/-- Splitting only parts the links. -/
theorem split_parts (l : Link) (ls : List Link) :
    (split l ls).before ++ (split l ls).pivot :: (split l ls).after = l :: ls := by
  induction ls generalizing l with
  | nil => rfl
  | cons m ls ih =>
    simp only [split]
    split
    · rfl
    · simp [ih m]

/-- The tree of a run. -/
def tree (r : Run) : Node :=
  match _ : r.links with
  | [] => r.first
  | l :: ls =>
    let s := split l ls
    .binary (tree ⟨r.first, s.before⟩) s.pivot.op.lexeme (tree ⟨s.pivot.operand, s.after⟩)
termination_by r.links.length
decreasing_by
  all_goals
    have hlen := congrArg List.length (split_parts l ls)
    simp only [List.length_append, List.length_cons] at hlen
    simp only [‹r.links = l :: ls›, List.length_cons]
    omega

/-- A lone operand is its own tree. -/
theorem tree_lone (first : Node) : tree ⟨first, []⟩ = first := by
  rw [tree]

/-- A longer run is the tree of the operator at which it is split. -/
theorem tree_split (first : Node) (l : Link) (ls : List Link) :
    tree ⟨first, l :: ls⟩ =
      .binary (tree ⟨first, (split l ls).before⟩) (split l ls).pivot.op.lexeme
        (tree ⟨(split l ls).pivot.operand, (split l ls).after⟩) := by
  rw [tree]

end Run

end ScriptTree
