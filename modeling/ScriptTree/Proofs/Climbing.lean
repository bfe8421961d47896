import ScriptTree.Grammar.Phrase
import ScriptTree.Proofs.Grouping
import ScriptTree.Reading.Climb

/-!
# Climbing

Precedence climbing never looks for an operator of least precedence.  It reads, all the
same, the longest run that it may read, and puts together the tree of that run.

* `climb_sound`: what is read is a run with operators of precedence at least `min`, ended
  by a token that goes on with no such run, and comes out as `Run.tree`.
* `climb_of_spells`: such a run is read, unless its tree has more levels than there is
  room for.
* `expression_read_run`: whole expressions.

One link at a time, the invariant is `Foldable`: all links folded so far may stand in the
left operand of the operator ahead.
-/

namespace ScriptTree

namespace Reading

/-- The tree of a run with its number of levels. -/
def Measured.ofRun (r : Run) : Measured := ⟨r.tree, r.tree.height⟩

/-- The tokens of a run with operators of precedence at least `min`, when the tokens `rest`,
which go on with no such run, follow them. -/
structure SpellsRunAtLeast (min : Nat) (ts : List Token) (run : Run) (rest : List Token) :
    Prop where
  spelled : Run.ofTokens? ts = some run
  atLeast : AllAtLeast min run.links
  ended : operatorAhead? min rest = none

/-- The same for links without a first operand. -/
structure SpellsLinksAtLeast (min : Nat) (ts : List Token) (links : List Link)
    (rest : List Token) : Prop where
  spelled : Run.linksOfTokens? ts = some links
  atLeast : AllAtLeast min links
  ended : operatorAhead? min rest = none

theorem operatorAhead?_none_mono {min min' : Nat} {ts : List Token} (hm : min ≤ min')
    (h : operatorAhead? min ts = none) : operatorAhead? min' ts = none := by
  rw [operatorAhead?_eq_none_iff] at h ⊢
  intro op hop
  exact Nat.lt_of_lt_of_le (h op hop) hm

/-- A run is a run of operators of any precedence. -/
theorem spellsRun_iff {ts rest : List Token} {run : Run} :
    SpellsRun ts run rest ↔ SpellsRunAtLeast 0 ts run rest := by
  constructor
  · rintro ⟨hts, hrest⟩
    refine ⟨hts, fun l _ => Nat.zero_le _, operatorAhead?_eq_none_iff.mpr ?_⟩
    intro op hop
    rw [hrest] at hop
    cases hop
  · rintro ⟨hts, -, hrest⟩
    refine ⟨hts, ?_⟩
    rw [operatorAhead?_eq_none_iff] at hrest
    cases hop : (current rest).operator? with
    | none => rfl
    | some op => exact absurd (hrest op hop) (Nat.not_lt_zero _)

/-! ## Operands -/

theorem height_of_operand? {t : Token} {n : Node} (h : t.operand? = some n) : n.height = 1 := by
  obtain ⟨k, -, rfl⟩ := Token.operand?_eq_some_iff.mp h
  rfl

theorem operand_read_eq_ok_iff {ts rest : List Token} {m : Measured} :
    operand.read ts = .ok m rest ↔
      ∃ p n, ts = p :: rest ∧ p.operand? = some n ∧ m = .ofRun ⟨n, []⟩ := by
  cases ts with
  | nil => simp [operand, Reader.token]
  | cons p ts =>
    simp only [operand, Reader.token]
    constructor
    · intro h
      split at h
      · next hm =>
        cases h
        obtain ⟨n, hn, rfl⟩ := Option.map_eq_some_iff.mp hm
        exact ⟨p, n, rfl, hn, by rw [Measured.ofRun, Run.tree_lone, height_of_operand? hn]⟩
      · cases h
    · rintro ⟨p', n, hp, hn, rfl⟩
      cases hp
      simp only [hn, Option.map_some, Measured.ofRun, Run.tree_lone, height_of_operand? hn]

/-! ## Folding one link -/

/-- All of the links `done` may stand in the left operand of the operator ahead. -/
structure Foldable (done : List Link) (min : Nat) (ts : List Token) : Prop where
  tabled : Tabled done
  fits : ∀ {op rest}, operatorAhead? min ts = some (op, rest) → AllAtLeast op.leftMin done

theorem foldable_nil (min : Nat) (ts : List Token) : Foldable [] min ts :=
  ⟨by simp [Tabled], by simp [AllAtLeast]⟩

theorem mem_table_of_operatorAhead? {min : Nat} {ts rest : List Token} {op : Operator}
    (h : operatorAhead? min ts = some (op, rest)) : op ∈ Operator.table := by
  obtain ⟨t, -, hop, -⟩ := operatorAhead?_eq_some_iff.mp h
  exact Token.mem_table_of_operator? hop

/-- The operator ahead is where the longer run is to be split. -/
theorem Foldable.isProper {done more : List Link} {l : Link} {min : Nat} {ts rest : List Token}
    (hdone : Foldable done min ts) (hahead : operatorAhead? min ts = some (l.op, rest))
    (hmore : AllAtLeast l.op.nextMin more) : Run.Split.IsProper ⟨done, l, more⟩ :=
  Run.isProper_iff.mpr ⟨hdone.fits hahead, hmore⟩

theorem Foldable.tabled_fold {done more : List Link} {l : Link} {min : Nat} {ts rest : List Token}
    (hdone : Foldable done min ts) (hahead : operatorAhead? min ts = some (l.op, rest))
    (htab : Tabled more) : Tabled (done ++ l :: more) :=
  tabled_append_cons.mpr ⟨hdone.tabled, mem_table_of_operatorAhead? hahead, htab⟩

/-- Folding puts together the tree of the longer run. -/
theorem join_ofRun (first : Node) {done more : List Link} {l : Link} {min : Nat}
    {ts rest : List Token} (hdone : Foldable done min ts)
    (hahead : operatorAhead? min ts = some (l.op, rest)) (htab : Tabled more)
    (hmore : AllAtLeast l.op.nextMin more) :
    (Measured.ofRun ⟨first, done⟩).join l.op (.ofRun ⟨l.operand, more⟩) =
      .ofRun ⟨first, done ++ l :: more⟩ := by
  have hs := hdone.isProper hahead hmore
  have ht := hdone.tabled_fold hahead htab
  simp only [Measured.ofRun, Measured.join, Run.tree_of_isProper ht hs, Node.height]

/-- Folding one link keeps the invariant: the operator now ahead ended the right operand of
the one just folded, so it can have that one in its left operand, and all before it too. -/
theorem Foldable.step {done more : List Link} {l : Link} {min : Nat} {ts afterOp rest : List Token}
    (hdone : Foldable done min ts) (hahead : operatorAhead? min ts = some (l.op, afterOp))
    (htab : Tabled more) (hmore : AllAtLeast l.op.nextMin more)
    (hended : operatorAhead? l.op.nextMin rest = none) :
    Foldable (done ++ l :: more) min rest := by
  refine ⟨hdone.tabled_fold hahead htab, ?_⟩
  intro op rest' hop
  obtain ⟨t, rfl, ht, -⟩ := operatorAhead?_eq_some_iff.mp hop
  have hlt : op.precedence < l.op.nextMin := operatorAhead?_eq_none_iff.mp hended op ht
  have hle : op.leftMin ≤ l.op.precedence :=
    (Operator.leftMin_le_iff (mem_table_of_operatorAhead? hahead)
      (mem_table_of_operatorAhead? hop)).mpr hlt
  exact (hdone.isProper hahead hmore).atLeast hle

/-! ## Folding a right operand -/

section

variable {min : Nat} {op : Operator} {run : Run} {done : List Link}
  {used ts afterOp rest : List Token}

/-- The tokens of an operator and its right operand. -/
theorem linksOfTokens?_cons_run {o : Token} (ho : o.operator? = some op)
    (hrun : Run.ofTokens? used = some run) :
    Run.linksOfTokens? (o :: used) = some (⟨op, run.first⟩ :: run.links) := by
  obtain ⟨p, more, rfl, hp, hmore⟩ := Run.ofTokens?_eq_some_iff.mp hrun
  exact Run.linksOfTokens?_eq_cons_iff.mpr ⟨o, p, more, rfl, ho, hp, hmore⟩

theorem allAtLeast_cons_run (hmin : min ≤ op.precedence) (hrun : AllAtLeast op.nextMin run.links) :
    AllAtLeast min (⟨op, run.first⟩ :: run.links) :=
  allAtLeast_cons.mpr ⟨hmin, hrun.mono (Nat.le_trans hmin (Operator.precedence_le_nextMin op))⟩

theorem Foldable.join_run (hdone : Foldable done min ts)
    (hahead : operatorAhead? min ts = some (op, afterOp))
    (hrun : SpellsRunAtLeast op.nextMin used run rest) (first : Node) :
    (Measured.ofRun ⟨first, done⟩).join op (.ofRun run) =
      .ofRun ⟨first, done ++ ⟨op, run.first⟩ :: run.links⟩ :=
  join_ofRun first (l := ⟨op, run.first⟩) hdone hahead
    (Run.tabled_of_ofTokens? hrun.spelled) hrun.atLeast

theorem Foldable.step_run (hdone : Foldable done min ts)
    (hahead : operatorAhead? min ts = some (op, afterOp))
    (hrun : SpellsRunAtLeast op.nextMin used run rest) :
    Foldable (done ++ ⟨op, run.first⟩ :: run.links) min rest :=
  hdone.step (l := ⟨op, run.first⟩) hahead (Run.tabled_of_ofTokens? hrun.spelled) hrun.atLeast
    hrun.ended

end

/-! ## What is read is a run -/

/-- A reading of right operands that is as it should be. -/
def ReadsRuns (right : Nat → Reader Measured) : Prop :=
  ∀ {min ts r rest}, (right min).read ts = .ok r rest →
    ∃ used run, ts = used ++ rest ∧ SpellsRunAtLeast min used run rest ∧ r = .ofRun run

theorem chain_sound {right : Nat → Reader Measured} (hright : ReadsRuns right) {min : Nat}
    {first : Node} {done : List Link} {m : Measured} {ts rest : List Token}
    (hdone : Foldable done min ts)
    (h : chain right min (.ofRun ⟨first, done⟩) ts = .ok m rest) :
    ∃ used links, ts = used ++ rest ∧ SpellsLinksAtLeast min used links rest ∧
      m = .ofRun ⟨first, done ++ links⟩ := by
  generalize hleft : Measured.ofRun ⟨first, done⟩ = left at h
  fun_induction chain right min left ts generalizing done with
  | case1 left ts hnone =>
    cases h
    exact ⟨[], [], rfl, ⟨rfl, by simp [AllAtLeast], hnone⟩, by rw [List.append_nil, hleft]⟩
  | case2 => cases h
  | case3 left ts op afterOp hahead r mid hr _ ih =>
    obtain ⟨o, rfl, hop, hmin⟩ := operatorAhead?_eq_some_iff.mp hahead
    obtain ⟨used, run, rfl, hrun, rfl⟩ := hright hr
    have hjoin : left.join op (.ofRun run) = .ofRun ⟨first, done ++ ⟨op, run.first⟩ :: run.links⟩ := by
      rw [← hleft]
      exact hdone.join_run hahead hrun first
    obtain ⟨used', links, rfl, hlinks, rfl⟩ := ih (hdone.step_run hahead hrun) hjoin.symm h
    refine ⟨o :: used ++ used', ⟨op, run.first⟩ :: run.links ++ links, by simp, ?_, by simp⟩
    refine ⟨Run.linksOfTokens?_append ?_ hlinks.spelled, ?_, hlinks.ended⟩
    · exact linksOfTokens?_cons_run hop hrun.spelled
    · exact allAtLeast_append.mpr ⟨allAtLeast_cons_run hmin hrun.atLeast, hlinks.atLeast⟩
  | case4 => cases h

/-- What climbing reads is a run, and its result is the tree of the run. -/
theorem climb_sound (room : Nat) : ReadsRuns (climb room) := by
  induction room with
  | zero =>
    intro min ts r rest h
    cases h
  | succ room ih =>
    intro min ts r rest h
    obtain ⟨m, mid, hm, hchain⟩ := Reading.bind_eq_ok_iff.mp h
    obtain ⟨p, n, rfl, hp, rfl⟩ := operand_read_eq_ok_iff.mp hm
    obtain ⟨used, links, rfl, hlinks, rfl⟩ := chain_sound ih (foldable_nil _ _) hchain
    refine ⟨p :: used, ⟨n, links⟩, rfl, ⟨?_, hlinks.atLeast, hlinks.ended⟩, rfl⟩
    exact Run.ofTokens?_eq_some_iff.mpr ⟨p, used, rfl, hp, hlinks.spelled⟩

/-! ## Runs are read -/

/-- A run is read as a whole and gives its tree, or the tree is too high for the room. -/
def ReadsWithin (room : Nat) (p : Nat → Reader Measured) : Prop :=
  ∀ {min used run rest}, SpellsRunAtLeast min used run rest →
    (p min).read (used ++ rest) = .ok (.ofRun run) rest ∨
      room < run.tree.height ∧ ∃ left, (p min).read (used ++ rest) = .error (.tooDeep maxHeight) left

/-- The links that a right operand takes are the longest front part that binds tightly
enough. -/
theorem exists_front (min : Nat) (links : List Link) :
    ∃ front back, links = front ++ back ∧ AllAtLeast min front ∧
      ∀ l ∈ back.head?, l.op.precedence < min := by
  refine ⟨_, _, (List.takeWhile_append_dropWhile (p := (min ≤ ·.op.precedence))).symm, ?_, ?_⟩
  · intro l hl
    simpa using List.all_eq_true.mp List.all_takeWhile l hl
  · intro l hl
    have hnot := List.head?_dropWhile_not (min ≤ ·.op.precedence) links
    rw [Option.mem_def.mp hl] at hnot
    simpa using hnot

/-- Such an operand ends where the other links begin, or where all links end. -/
theorem operatorAhead?_back {min min' : Nat} {ts rest : List Token} {back : List Link}
    (hts : Run.linksOfTokens? ts = some back) (hback : ∀ l ∈ back.head?, l.op.precedence < min')
    (hm : min ≤ min') (hrest : operatorAhead? min rest = none) :
    operatorAhead? min' (ts ++ rest) = none := by
  cases back with
  | nil =>
    rw [Run.linksOfTokens?_eq_nil_iff.mp hts]
    exact operatorAhead?_none_mono hm hrest
  | cons l ls =>
    obtain ⟨o, p, more, rfl, ho, -, -⟩ := Run.linksOfTokens?_eq_cons_iff.mp hts
    rw [operatorAhead?_eq_none_iff]
    intro op hop
    cases ho.symm.trans hop
    exact hback l rfl

theorem chain_of_spells {room : Nat} {right : Nat → Reader Measured}
    (hright : ReadsWithin room right) (hroom : room < maxHeight) {min : Nat} (first : Node)
    {done links : List Link} {used rest : List Token} (hdone : Foldable done min (used ++ rest))
    (h : SpellsLinksAtLeast min used links rest) :
    chain right min (.ofRun ⟨first, done⟩) (used ++ rest) =
        .ok (.ofRun ⟨first, done ++ links⟩) rest ∨
      room + 1 < (Run.tree ⟨first, done ++ links⟩).height ∧
        ∃ left, chain right min (.ofRun ⟨first, done⟩) (used ++ rest) =
          .error (.tooDeep maxHeight) left := by
  obtain ⟨hused, hatLeast, hended⟩ := h
  -- The links that are left after one step are fewer, but not just one fewer.
  induction hlen : links.length using Nat.strongRecOn generalizing done links used with
  | ind n ih =>
  cases links with
  | nil =>
    rw [Run.linksOfTokens?_eq_nil_iff.mp hused, List.append_nil]
    exact Or.inl (chain_of_none hended)
  | cons l ls =>
    obtain ⟨o, p, more, rfl, ho, hp, hmore⟩ := Run.linksOfTokens?_eq_cons_iff.mp hused
    obtain ⟨hmin, hls⟩ := allAtLeast_cons.mp hatLeast
    obtain ⟨front, back, rfl, hfront, hback⟩ := exists_front l.op.nextMin ls
    obtain ⟨us, vs, rfl, hus, hvs⟩ := Run.exists_of_linksOfTokens?_append hmore
    have hahead : operatorAhead? min (o :: p :: (us ++ vs) ++ rest) =
        some (l.op, p :: us ++ (vs ++ rest)) :=
      operatorAhead?_eq_some_iff.mpr ⟨o, by simp, ho, hmin⟩
    have hstop : operatorAhead? l.op.nextMin (vs ++ rest) = none :=
      operatorAhead?_back hvs hback
        (Nat.le_trans hmin (Operator.precedence_le_nextMin l.op)) hended
    have hrun : SpellsRunAtLeast l.op.nextMin (p :: us) ⟨l.operand, front⟩ (vs ++ rest) :=
      ⟨Run.ofTokens?_eq_some_iff.mpr ⟨p, us, rfl, hp, hus⟩, hfront, hstop⟩
    have htab := Run.tabled_of_linksOfTokens? hus
    have hjoin := join_ofRun first hdone hahead htab hfront
    have hnext := hdone.step hahead htab hfront hstop
    have hall : done ++ l :: (front ++ back) = done ++ l :: front ++ back := by simp
    have htabs : Tabled (done ++ l :: front ++ back) :=
      tabled_append.mpr ⟨hnext.tabled, Run.tabled_of_linksOfTokens? hvs⟩
    have hgrow := Run.height_tree_append first htabs
    rw [chain_of_some hahead, hall]
    rcases hright hrun with hread | ⟨hhigh, left, hread⟩
    · rw [hread, Reading.bind, hjoin]
      split
      · refine ih back.length ?_ hnext hvs (allAtLeast_append.mp hls).2 rfl
        simp only [List.length_cons, List.length_append] at hlen
        omega
      · next hhigh =>
        refine Or.inr ⟨?_, _, rfl⟩
        simp only [Measured.ofRun] at hhigh
        omega
    · rw [hread, Reading.bind]
      refine Or.inr ⟨?_, left, rfl⟩
      have hheight := congrArg Measured.height hjoin
      simp only [Measured.ofRun, Measured.join] at hheight
      omega

/-- Climbing begins with an operand. -/
theorem climb_succ_read {room min : Nat} {p : Token} {n : Node} (hp : p.operand? = some n)
    (ts : List Token) :
    (climb (room + 1) min).read (p :: ts) = chain (climb room) min (.ofRun ⟨n, []⟩) ts := by
  have hread : operand.read (p :: ts) = .ok (.ofRun ⟨n, []⟩) ts :=
    operand_read_eq_ok_iff.mpr ⟨p, n, rfl, hp, rfl⟩
  simp only [climb, Reader.followedBy, hread, Reading.bind]

/-- A run is read as a whole, unless its tree has more levels than there is room for. -/
theorem climb_of_spells {room : Nat} (hroom : room ≤ maxHeight) : ReadsWithin room (climb room) := by
  induction room with
  | zero =>
    intro min used run rest h
    exact Or.inr ⟨Node.height_pos _, _, rfl⟩
  | succ room ih =>
    intro min used run rest h
    obtain ⟨p, more, rfl, hp, hmore⟩ := Run.ofTokens?_eq_some_iff.mp h.spelled
    have hchain := chain_of_spells (ih (Nat.le_of_succ_le hroom)) hroom run.first
      (foldable_nil min (more ++ rest)) ⟨hmore, h.atLeast, h.ended⟩
    rw [List.cons_append, climb_succ_read hp]
    exact hchain

/-! ## Whole expressions -/

theorem height_le_of_chain {right : Nat → Reader Measured} {min : Nat} {left m : Measured}
    {ts rest : List Token} (hleft : left.height ≤ maxHeight)
    (h : chain right min left ts = .ok m rest) : m.height ≤ maxHeight := by
  fun_induction chain right min left ts with
  | case1 => cases h; exact hleft
  | case2 => cases h
  | case3 _ _ _ _ _ _ _ _ hheight ih => exact ih hheight h
  | case4 => cases h

theorem height_le_of_climb {room min : Nat} {ts rest : List Token} {m : Measured}
    (h : (climb room min).read ts = .ok m rest) : m.height ≤ maxHeight := by
  cases room with
  | zero => cases h
  | succ room =>
    obtain ⟨left, mid, hleft, hchain⟩ := Reading.bind_eq_ok_iff.mp h
    obtain ⟨p, n, rfl, hp, rfl⟩ := operand_read_eq_ok_iff.mp hleft
    refine height_le_of_chain ?_ hchain
    simp only [Measured.ofRun, Run.tree_lone, height_of_operand? hp]
    decide

/-- A run is read as its tree, or else the tree is too high. -/
theorem expression_of_spells {ts rest : List Token} {run : Run} (h : SpellsRun ts run rest) :
    run.tree.height ≤ maxHeight ∧ expression.read (ts ++ rest) = .ok run.tree rest ∨
      maxHeight < run.tree.height ∧
        ∃ left, expression.read (ts ++ rest) = .error (.tooDeep maxHeight) left := by
  simp only [expression, Reader.map]
  rcases climb_of_spells (Nat.le_refl _) (spellsRun_iff.mp h) with hread | ⟨hhigh, left, hread⟩
  · exact Or.inl ⟨height_le_of_climb hread, by rw [hread]; rfl⟩
  · exact Or.inr ⟨hhigh, left, by rw [hread]; rfl⟩

/-- What is read as an expression is a run of no more than `maxHeight` levels, and the
result is its tree. -/
theorem expression_read_eq_ok_iff {ts rest : List Token} {n : Node} :
    expression.read ts = .ok n rest ↔
      ∃ used run, ts = used ++ rest ∧ SpellsRun used run rest ∧
        run.tree.height ≤ maxHeight ∧ n = run.tree := by
  constructor
  · intro h
    obtain ⟨m, hm, rfl⟩ := Reading.map_eq_ok_iff.mp h
    obtain ⟨used, run, rfl, hrun, rfl⟩ := climb_sound maxHeight hm
    exact ⟨used, run, rfl, spellsRun_iff.mpr hrun, height_le_of_climb hm, rfl⟩
  · rintro ⟨used, run, rfl, hrun, hheight, rfl⟩
    rcases expression_of_spells hrun with ⟨-, hread⟩ | ⟨hhigh, -⟩
    · exact hread
    · exact absurd hheight (Nat.not_le.mpr hhigh)

/-- **Climbing is grouping.**  Where a run stands ahead and no operator behind it, a reading
that succeeds takes the run and nothing else, and gives the one tree that the run has by
precedence and side.  It succeeds unless that tree is too high. -/
theorem expression_read_run {ts rest : List Token} {run : Run} (h : SpellsRun ts run rest)
    (n : Node) (rest' : List Token) :
    (expression.read (ts ++ rest) = .ok n rest' ↔
      rest' = rest ∧ n = run.tree ∧ run.tree.height ≤ maxHeight) ∧
    (run.Groups n ↔ n = run.tree) := by
  constructor
  · rcases expression_of_spells h with ⟨hheight, hread⟩ | ⟨hhigh, left, hread⟩
    · rw [hread, Reading.ok.injEq]
      constructor
      · rintro ⟨rfl, rfl⟩
        exact ⟨rfl, rfl, hheight⟩
      · rintro ⟨rfl, rfl, -⟩
        exact ⟨rfl, rfl⟩
    · rw [hread]
      constructor
      · intro hok
        cases hok
      · rintro ⟨-, -, hheight⟩
        exact absurd hheight (Nat.not_le.mpr hhigh)
  · obtain ⟨p, more, rfl, -, hmore⟩ := Run.ofTokens?_eq_some_iff.mp h.1
    exact Run.groups_iff (Run.tabled_of_linksOfTokens? hmore)

/-- `1 - 2 - 3 ^ 4 ^ 5 ;` groups to the left at first and then to the right. -/
theorem expression_read_mixed :
    ∃ ts run, SpellsRun ts run [.symbol .semiColon] ∧
      expression.read (ts ++ [.symbol .semiColon]) =
        .ok (.binary (.binary (.operand .int "1") "-" (.operand .int "2")) "-"
          (.binary (.operand .int "3") "^" (.binary (.operand .int "4") "^" (.operand .int "5"))))
          [.symbol .semiColon] := by
  have h : SpellsRun [⟨.int, "1"⟩, .symbol .minus, ⟨.int, "2"⟩, .symbol .minus, ⟨.int, "3"⟩,
      ⟨.illegal, "^"⟩, ⟨.int, "4"⟩, ⟨.illegal, "^"⟩, ⟨.int, "5"⟩] _ [.symbol .semiColon] :=
    ⟨rfl, rfl⟩
  exact ⟨_, _, h, (expression_read_run h _ _).1.mpr ⟨rfl, by cbv, by cbv⟩⟩

end Reading

end ScriptTree
