import ScriptTree.Proofs.Beginnings
import ScriptTree.Proofs.Depth
import ScriptTree.Proofs.ViablePrefix

/-!
# Overflow

Where an expression that is too deep leaves the tokens (`Session.tooDeep_stops`).

Each of the two checks has its own place to stop.

* Room is asked for before an operand.  The tokens taken end with the operator before it, and as
  many operators wait for their right operands as there may be (`EndsAtOperator`); what comes next
  is not looked at.
* A height is known behind an operand.  The tokens taken are a run, and the tree that is one level
  too high is that of an end part of it (`EndsAtOperand`).

An operator waits (`Operator.waiting`) as long as no later one binds too loosely to stand in its
right operand.  What has been folded never waits: the operator ahead ended it (`countWaiting_folded`).
So those that wait are the ones of the levels of recursion that are open, one each: `chain_stops` is
about one level, and `climb_stops` goes through all of them, by induction on the room.
-/

namespace ScriptTree

/-! ## Waiting operators -/

/-- The operators that wait: their right operands have not ended, as all later operators may stand
in them. -/
def Operator.waiting : List Operator → List Operator
  | [] => []
  | o :: later =>
    if ∀ p ∈ later, o.nextMin ≤ p.precedence then o :: waiting later else waiting later

/-- How many operators of these links wait. -/
def countWaiting (links : List Link) : Nat := (Operator.waiting (links.map (·.op))).length

theorem countWaiting_cons {l : Link} {ls : List Link} (h : AllAtLeast l.op.nextMin ls) :
    countWaiting (l :: ls) = countWaiting ls + 1 := by
  have hall : ∀ p ∈ ls.map (·.op), l.op.nextMin ≤ p.precedence := List.forall_mem_map.mpr h
  simp only [countWaiting, List.map_cons, Operator.waiting, if_pos hall, List.length_cons]

theorem countWaiting_append_cons {ls ms : List Link} {m : Link}
    (h : ∀ l ∈ ls, m.op.precedence < l.op.nextMin) :
    countWaiting (ls ++ m :: ms) = countWaiting (m :: ms) := by
  induction ls with
  | nil => rfl
  | cons l ls ih =>
    obtain ⟨hl, hls⟩ := List.forall_mem_cons.mp h
    rw [← ih hls]
    have hnot : ¬ ∀ p ∈ (ls ++ m :: ms).map (·.op), l.op.nextMin ≤ p.precedence := by
      intro hall
      exact absurd (hall m.op (by simp)) (Nat.not_le.mpr hl)
    simp only [countWaiting, List.cons_append, List.map_cons, Operator.waiting, if_neg hnot]

/-- A link does not wait any more, nor do those of its right operand, when an operator follows that
cannot stand there. -/
theorem countWaiting_folded {l m : Link} {ls ms : List Link} (hls : AllAtLeast l.op.nextMin ls)
    (hm : m.op.precedence < l.op.nextMin) :
    countWaiting (l :: ls ++ m :: ms) = countWaiting (m :: ms) := by
  refine countWaiting_append_cons (List.forall_mem_cons.mpr ⟨hm, ?_⟩)
  intro k hk
  exact Nat.lt_of_lt_of_le hm (Nat.le_trans (hls k hk) (Operator.precedence_le_nextMin k.op))

/-! ## Two places to stop -/

/-- The last token is an operator, and with it as many operators wait as may wait at all. -/
def EndsAtOperator (taken : List Token) : Prop :=
  ∃ us o run op, taken = us ++ [o] ∧ Run.ofTokens? us = some run ∧ o.operator? = some op ∧
    (Operator.waiting (run.links.map (·.op) ++ [op])).length = maxHeight

/-- An end part of the tokens is a run with a tree that is one level too high. -/
def EndsTooHigh (taken : List Token) : Prop :=
  ∃ us run, us <:+ taken ∧ Run.ofTokens? us = some run ∧ run.tree.height = maxHeight + 1

/-- The tokens are a run in which there was room for all operands, but the last one made a tree too
high. -/
def EndsAtOperand (taken : List Token) : Prop :=
  (∃ run, Run.ofTokens? taken = some run ∧
    (Operator.waiting (run.links.map (·.op))).length < maxHeight) ∧
  EndsTooHigh taken

theorem Run.length_of_linksOfTokens? {ts : List Token} {links : List Link}
    (h : Run.linksOfTokens? ts = some links) : ts.length = 2 * links.length := by
  induction links generalizing ts with
  | nil =>
    obtain rfl := Run.linksOfTokens?_eq_nil_iff.mp h
    rfl
  | cons l ls ih =>
    obtain ⟨o, p, more, rfl, -, -, hmore⟩ := Run.linksOfTokens?_eq_cons_iff.mp h
    simp only [List.length_cons, ih hmore]
    omega

theorem Run.length_of_ofTokens? {ts : List Token} {run : Run} (h : Run.ofTokens? ts = some run) :
    ts.length = 2 * run.links.length + 1 := by
  obtain ⟨p, more, rfl, -, hmore⟩ := Run.ofTokens?_eq_some_iff.mp h
  rw [List.length_cons, Run.length_of_linksOfTokens? hmore]

theorem EndsAtOperator.length_mod {taken : List Token} (h : EndsAtOperator taken) :
    taken.length % 2 = 0 := by
  obtain ⟨us, o, run, op, rfl, hrun, -⟩ := h
  rw [List.length_append, List.length_singleton, Run.length_of_ofTokens? hrun]
  omega

theorem EndsAtOperand.length_mod {taken : List Token} (h : EndsAtOperand taken) :
    taken.length % 2 = 1 := by
  obtain ⟨⟨run, hrun, -⟩, -⟩ := h
  rw [Run.length_of_ofTokens? hrun]
  omega

/-- Operands and operators take turns, so that the last token is not both. -/
theorem EndsAtOperator.not_endsAtOperand {taken : List Token} (h : EndsAtOperator taken) :
    ¬ EndsAtOperand taken := by
  intro h'
  cases h.length_mod.symm.trans h'.length_mod

theorem EndsTooHigh.append {taken : List Token} (h : EndsTooHigh taken) (before : List Token) :
    EndsTooHigh (before ++ taken) := by
  obtain ⟨us, run, hsuffix, hrun⟩ := h
  exact ⟨us, run, hsuffix.trans (List.suffix_append before taken), hrun⟩

/-- Without its last operand a run ends with an operator. -/
theorem Run.exists_operator_of_ofTokens? {taken : List Token} {p : Token} {run : Run}
    (h : Run.ofTokens? (taken ++ [p]) = some run) (hne : run.links ≠ []) :
    ∃ us o before op, taken = us ++ [o] ∧ Run.ofTokens? us = some before ∧
      o.operator? = some op ∧ run.links.map (·.op) = before.links.map (·.op) ++ [op] := by
  obtain ⟨q, more, heq, hq, hmore⟩ := Run.ofTokens?_eq_some_iff.mp h
  obtain ⟨init, l, hlinks⟩ := (List.eq_nil_or_concat run.links).resolve_left hne
  rw [hlinks, List.concat_eq_append] at hmore
  obtain ⟨us, vs, rfl, hus, hvs⟩ := Run.exists_of_linksOfTokens?_append hmore
  obtain ⟨o, p', last, rfl, ho, -, hlast⟩ := Run.linksOfTokens?_eq_cons_iff.mp hvs
  obtain rfl := Run.linksOfTokens?_eq_nil_iff.mp hlast
  obtain ⟨rfl, -⟩ : taken = q :: us ++ [o] ∧ [p] = [p'] :=
    List.append_inj' (by simpa using heq) rfl
  refine ⟨q :: us, o, ⟨run.first, init⟩, l.op, rfl, ?_, ho, by simp [hlinks]⟩
  exact Run.ofTokens?_eq_some_iff.mpr ⟨q, us, rfl, hq, hus⟩

namespace Reading

/-! ## One link more -/

variable {min : Nat} {o : Token} {op : Operator} {used : List Token} {run : Run}

/-- Links behind the end of a right operand begin with an operator that ended it. -/
theorem precedence_lt_of_ended {taken rest missing : List Token} {m : Link} {ms : List Link}
    (hended : operatorAhead? min (taken ++ rest) = none) (hne : taken ≠ [])
    (hlinks : Run.linksOfTokens? (taken ++ missing) = some (m :: ms)) : m.op.precedence < min := by
  obtain ⟨t, taken, rfl⟩ := List.exists_cons_of_ne_nil hne
  obtain ⟨o, p, more, heq, ho, -, -⟩ := Run.linksOfTokens?_eq_cons_iff.mp hlinks
  obtain ⟨rfl, -⟩ := List.cons.inj heq
  exact operatorAhead?_eq_none_iff.mp hended m.op ho

/-- What has been folded counts no more. -/
theorem countWaiting_run_append {taken rest missing : List Token} {links : List Link}
    (hrun : SpellsRunAtLeast op.nextMin used run (taken ++ rest)) (hne : taken ≠ [])
    (hlinks : Run.linksOfTokens? (taken ++ missing) = some links) :
    countWaiting (⟨op, run.first⟩ :: run.links ++ links) = countWaiting links := by
  cases links with
  | nil =>
    rw [Run.linksOfTokens?_eq_nil_iff, List.append_eq_nil_iff] at hlinks
    exact absurd hlinks.1 hne
  | cons m ms =>
    exact countWaiting_folded (l := ⟨op, run.first⟩) hrun.atLeast
      (precedence_lt_of_ended hrun.ended hne hlinks)

/-! ## What has been read -/

/-- In a right operand that has been read, fewer operators wait than there was room for. -/
def WaitsBelow (room : Nat) (right : Nat → Reader Measured) : Prop :=
  ∀ {min used run r rest}, (right min).read (used ++ rest) = .ok r rest →
    Run.ofTokens? used = some run → countWaiting run.links < room

theorem countWaiting_le_of_chain {room : Nat} {right : Nat → Reader Measured}
    (hsound : ReadsRuns right) (hright : WaitsBelow room right) {min : Nat} {left m : Measured}
    {ts rest : List Token} (h : chain right min left ts = .ok m rest) :
    ∃ used links, ts = used ++ rest ∧ Run.linksOfTokens? used = some links ∧
      countWaiting links ≤ room := by
  fun_induction chain right min left ts with
  | case1 =>
    cases h
    exact ⟨[], [], rfl, rfl, Nat.zero_le _⟩
  | case2 => cases h
  | case3 left ts op afterOp hahead r mid hr _ ih =>
    obtain ⟨o, rfl, ho, -⟩ := operatorAhead?_eq_some_iff.mp hahead
    obtain ⟨used, run, rfl, hrun, rfl⟩ := hsound hr
    obtain ⟨used', links, rfl, hlinks, hcount⟩ := ih h
    refine ⟨o :: used ++ used', _, by simp,
      Run.linksOfTokens?_append (linksOfTokens?_cons_run ho hrun.spelled) hlinks, ?_⟩
    cases links with
    | nil =>
      have hbelow := hright hr hrun.spelled
      rw [List.append_nil, countWaiting_cons hrun.atLeast]
      exact hbelow
    | cons m ms =>
      have hne : used' ≠ [] := by
        rintro rfl
        cases hlinks
      have hmissing : Run.linksOfTokens? (used' ++ []) = some (m :: ms) := by
        rwa [List.append_nil]
      rw [countWaiting_run_append hrun hne hmissing]
      exact hcount
  | case4 => cases h

theorem waitsBelow_climb (room : Nat) : WaitsBelow room (climb room) := by
  induction room with
  | zero =>
    intro min used run r rest h
    cases h
  | succ room ih =>
    intro min used run r rest h hrun
    obtain ⟨left, mid, hfirst, hchain⟩ := bind_eq_ok_iff.mp h
    obtain ⟨p, n, hused, -, -⟩ := operand_read_eq_ok_iff.mp hfirst
    obtain ⟨p', more, rfl, -, hmore⟩ := Run.ofTokens?_eq_some_iff.mp hrun
    obtain ⟨-, rfl⟩ := List.cons.inj hused
    obtain ⟨more', links, heq, hlinks, hcount⟩ := countWaiting_le_of_chain (climb_sound room) ih hchain
    obtain rfl := List.append_cancel_right heq
    cases hmore.symm.trans hlinks
    exact Nat.lt_succ_of_le hcount

/-! ## What was too deep -/

/-- There was no room for the operand behind `taken`, which was not looked at.  So many operators
wait as there is room for in all; any operand in the place of the missing one would make a run. -/
structure StopsShort (room min : Nat) (taken : List Token) : Prop where
  exists_run : ∃ run, Run.ofTokens? (taken ++ [Token.one]) = some run ∧
    AllAtLeast min run.links ∧ countWaiting run.links = room
  unseen : ∀ rest, (climb room min).read (taken ++ rest) = .error (.tooDeep maxHeight) rest

/-- There was room for all operands of `taken`, but the last one made a tree too high. -/
structure StopsHigh (room min : Nat) (taken : List Token) : Prop where
  exists_run : ∃ run, Run.ofTokens? taken = some run ∧ AllAtLeast min run.links ∧
    countWaiting run.links < room
  high : EndsTooHigh taken

/-- The same for the operators that follow the left operand, which are one level further out. -/
structure ChainStopsShort (room min : Nat) (left : Measured) (taken : List Token) : Prop where
  exists_links : ∃ links, Run.linksOfTokens? (taken ++ [Token.one]) = some links ∧
    AllAtLeast min links ∧ countWaiting links = room + 1
  unseen : ∀ rest, chain (climb room) min left (taken ++ rest) = .error (.tooDeep maxHeight) rest

/-- The tree too high may begin with the left operand, which is that of the run `⟨first, done⟩`. -/
structure ChainStopsHigh (room min : Nat) (first : Node) (done : List Link) (taken : List Token) :
    Prop where
  ne_nil : taken ≠ []
  exists_links : ∃ links, Run.linksOfTokens? taken = some links ∧ AllAtLeast min links ∧
    countWaiting links ≤ room ∧
    (EndsTooHigh taken ∨ (Run.tree ⟨first, done ++ links⟩).height = maxHeight + 1)

theorem StopsShort.chain {room : Nat} {taken : List Token} (ho : o.operator? = some op)
    (hmin : min ≤ op.precedence) (h : StopsShort room op.nextMin taken) (left : Measured) :
    ChainStopsShort room min left (o :: taken) := by
  obtain ⟨⟨run, hrun, hatLeast, hcount⟩, hunseen⟩ := h
  refine ⟨⟨_, linksOfTokens?_cons_run ho hrun, allAtLeast_cons_run hmin hatLeast, ?_⟩, ?_⟩
  · rw [countWaiting_cons hatLeast, hcount]
  · intro rest
    rw [List.cons_append, chain_of_some (operatorAhead?_eq_some_iff.mpr ⟨o, rfl, ho, hmin⟩),
      hunseen rest]
    rfl

theorem StopsHigh.chain {room : Nat} {taken : List Token} (ho : o.operator? = some op)
    (hmin : min ≤ op.precedence) (h : StopsHigh room op.nextMin taken) (first : Node)
    (done : List Link) : ChainStopsHigh room min first done (o :: taken) := by
  obtain ⟨⟨run, hrun, hatLeast, hcount⟩, hhigh⟩ := h
  refine ⟨by simp, _, linksOfTokens?_cons_run ho hrun, allAtLeast_cons_run hmin hatLeast, ?_, ?_⟩
  · rw [countWaiting_cons hatLeast]
    exact hcount
  · exact Or.inl (hhigh.append [o])

theorem ChainStopsShort.ne_nil {room : Nat} {left : Measured} {taken : List Token}
    (h : ChainStopsShort room min left taken) : taken ≠ [] := by
  rintro rfl
  obtain ⟨⟨links, hlinks, -⟩, -⟩ := h
  cases hlinks

theorem ChainStopsShort.fold {room : Nat} {left r : Measured} {taken rest : List Token}
    (ho : o.operator? = some op) (hmin : min ≤ op.precedence)
    (hr : (climb room op.nextMin).read (used ++ (taken ++ rest)) = .ok r (taken ++ rest))
    (hrun : SpellsRunAtLeast op.nextMin used run (taken ++ rest))
    (hheight : (left.join op r).height ≤ maxHeight)
    (h : ChainStopsShort room min (left.join op r) taken) :
    ChainStopsShort room min left (o :: used ++ taken) := by
  have hne := h.ne_nil
  obtain ⟨⟨links, hlinks, hatLeast, hcount⟩, hunseen⟩ := h
  refine ⟨⟨⟨op, run.first⟩ :: run.links ++ links, ?_, ?_, ?_⟩, ?_⟩
  · rw [List.append_assoc]
    exact Run.linksOfTokens?_append (linksOfTokens?_cons_run ho hrun.spelled) hlinks
  · exact allAtLeast_append.mpr ⟨allAtLeast_cons_run hmin hrun.atLeast, hatLeast⟩
  · rw [countWaiting_run_append hrun hne hlinks, hcount]
  · intro rest'
    have hread : (climb room op.nextMin).read (used ++ (taken ++ rest')) = .ok r (taken ++ rest') :=
      (looksAhead_climb room op.nextMin).ok_congr hr (head?_append_of_ne_nil hne rest' rest)
    rw [List.append_assoc, List.cons_append,
      chain_of_some (operatorAhead?_eq_some_iff.mpr ⟨o, rfl, ho, hmin⟩), hread, Reading.bind,
      if_pos hheight, hunseen rest']

theorem ChainStopsHigh.fold {room : Nat} {first : Node} {done : List Link} {taken rest : List Token}
    (ho : o.operator? = some op) (hmin : min ≤ op.precedence)
    (hrun : SpellsRunAtLeast op.nextMin used run (taken ++ rest))
    (h : ChainStopsHigh room min first (done ++ ⟨op, run.first⟩ :: run.links) taken) :
    ChainStopsHigh room min first done (o :: used ++ taken) := by
  obtain ⟨hne, links, hlinks, hatLeast, hcount, hhigh⟩ := h
  refine ⟨by simp, ⟨op, run.first⟩ :: run.links ++ links, ?_, ?_, ?_, ?_⟩
  · exact Run.linksOfTokens?_append (linksOfTokens?_cons_run ho hrun.spelled) hlinks
  · exact allAtLeast_append.mpr ⟨allAtLeast_cons_run hmin hrun.atLeast, hatLeast⟩
  · have hmissing : Run.linksOfTokens? (taken ++ []) = some links := by rwa [List.append_nil]
    rw [countWaiting_run_append hrun hne hmissing]
    exact hcount
  · rw [← List.append_assoc]
    exact hhigh.imp_left fun hends => hends.append (o :: used)

/-- Two trees that are not too high make one that is too high by one level at most. -/
theorem ChainStopsHigh.join {room : Nat} {first : Node} {done : List Link} {ts rest : List Token}
    (ho : o.operator? = some op) (hmin : min ≤ op.precedence) (hdone : Foldable done min ts)
    (hts : ts = o :: used ++ rest) (hleft : (Run.tree ⟨first, done⟩).height ≤ maxHeight)
    (hr : (climb room op.nextMin).read (used ++ rest) = .ok (.ofRun run) rest)
    (hrun : SpellsRunAtLeast op.nextMin used run rest)
    (hhigh : ¬ ((Measured.ofRun ⟨first, done⟩).join op (.ofRun run)).height ≤ maxHeight) :
    ChainStopsHigh room min first done (o :: used) := by
  have hright : run.tree.height ≤ maxHeight := height_le_of_climb hr
  have hahead : operatorAhead? min ts = some (op, used ++ rest) :=
    operatorAhead?_eq_some_iff.mpr ⟨o, hts, ho, hmin⟩
  refine ⟨by simp, _, linksOfTokens?_cons_run ho hrun.spelled,
    allAtLeast_cons_run hmin hrun.atLeast, ?_, Or.inr ?_⟩
  · rw [countWaiting_cons hrun.atLeast]
    exact waitsBelow_climb room hr hrun.spelled
  · have hheight : max (Run.tree ⟨first, done⟩).height run.tree.height + 1 =
        (Run.tree ⟨first, done ++ ⟨op, run.first⟩ :: run.links⟩).height :=
      congrArg Measured.height (hdone.join_run hahead hrun first)
    simp only [Measured.ofRun, Measured.join] at hhigh
    omega

/-- Where a right operand, or an expression, with that much room stops when it is too deep. -/
def Stops (room : Nat) : Prop :=
  ∀ {min ts limit rest}, (climb room min).read ts = .error (.tooDeep limit) rest →
    ∃ taken, ts = taken ++ rest ∧ (StopsShort room min taken ∨ StopsHigh room min taken)

theorem chain_stops {room : Nat} (hright : Stops room) {min limit : Nat} {first : Node}
    {done : List Link} {ts rest : List Token} (hdone : Foldable done min ts)
    (hleft : (Run.tree ⟨first, done⟩).height ≤ maxHeight)
    (h : chain (climb room) min (.ofRun ⟨first, done⟩) ts = .error (.tooDeep limit) rest) :
    ∃ taken, ts = taken ++ rest ∧ (ChainStopsShort room min (.ofRun ⟨first, done⟩) taken ∨
      ChainStopsHigh room min first done taken) := by
  generalize heq : Measured.ofRun ⟨first, done⟩ = left at h ⊢
  fun_induction chain (climb room) min left ts generalizing done with
  | case1 => cases h
  | case2 left ts op afterOp hahead e rest' hr =>
    cases h
    obtain ⟨o, rfl, ho, hmin⟩ := operatorAhead?_eq_some_iff.mp hahead
    obtain ⟨taken, rfl, hshort | hhigh⟩ := hright hr
    · exact ⟨o :: taken, rfl, Or.inl (hshort.chain ho hmin left)⟩
    · exact ⟨o :: taken, rfl, Or.inr (hhigh.chain ho hmin first done)⟩
  | case3 left ts op afterOp hahead r mid hr hheight ih =>
    obtain ⟨o, rfl, ho, hmin⟩ := operatorAhead?_eq_some_iff.mp hahead
    obtain ⟨used, run, rfl, hrun, rfl⟩ := climb_sound room hr
    have hjoin : left.join op (.ofRun run) = .ofRun ⟨first, done ++ ⟨op, run.first⟩ :: run.links⟩ := by
      rw [← heq]
      exact hdone.join_run hahead hrun first
    -- The link just folded belongs to the left operand of the links that follow.
    have hlow : (Run.tree ⟨first, done ++ ⟨op, run.first⟩ :: run.links⟩).height ≤ maxHeight := by
      rw [hjoin] at hheight
      exact hheight
    obtain ⟨taken, rfl, hshort | hhigh⟩ := ih (hdone.step_run hahead hrun) hlow hjoin.symm h
    · exact ⟨o :: used ++ taken, by simp, Or.inl (hshort.fold ho hmin hr hrun hheight)⟩
    · exact ⟨o :: used ++ taken, by simp, Or.inr (hhigh.fold ho hmin hrun)⟩
  | case4 left ts op afterOp hahead r mid hr hhigh =>
    cases h
    obtain ⟨o, rfl, ho, hmin⟩ := operatorAhead?_eq_some_iff.mp hahead
    obtain ⟨used, run, rfl, hrun, rfl⟩ := climb_sound room hr
    subst heq
    exact ⟨o :: used, rfl, Or.inr (.join ho hmin hdone rfl hleft hr hrun hhigh)⟩

theorem climb_stops (room : Nat) : Stops room := by
  induction room with
  | zero =>
    intro min ts limit rest h
    cases h
    exact ⟨[], rfl, Or.inl ⟨⟨Run.one, rfl, by simp [AllAtLeast, Run.one], rfl⟩, fun _ => rfl⟩⟩
  | succ room ih =>
    intro min ts limit rest h
    rcases bind_eq_error_iff.mp h with hfirst | ⟨left, mid, hfirst, hchain⟩
    · cases (operand_read_eq_error_iff.mp hfirst).2.1
    · obtain ⟨p, n, rfl, hp, rfl⟩ := operand_read_eq_ok_iff.mp hfirst
      have hlow : (Run.tree ⟨n, []⟩).height ≤ maxHeight := by
        rw [Run.tree_lone, height_of_operand? hp]
        decide
      obtain ⟨taken, rfl, ⟨⟨links, hlinks, hatLeast, hcount⟩, hunseen⟩ |
        ⟨-, links, hlinks, hatLeast, hcount, hhigh⟩⟩ :=
        chain_stops ih (foldable_nil min mid) hlow hchain
      · refine ⟨p :: taken, rfl, Or.inl ⟨⟨⟨n, links⟩, ?_, hatLeast, hcount⟩, ?_⟩⟩
        · exact Run.ofTokens?_eq_some_iff.mpr ⟨p, _, rfl, hp, hlinks⟩
        · intro rest'
          rw [List.cons_append, climb_succ_read hp, hunseen rest']
      · have hrun : Run.ofTokens? (p :: taken) = some ⟨n, links⟩ :=
          Run.ofTokens?_eq_some_iff.mpr ⟨p, taken, rfl, hp, hlinks⟩
        refine ⟨p :: taken, rfl, Or.inr ⟨⟨⟨n, links⟩, hrun, hatLeast, Nat.lt_succ_of_le hcount⟩, ?_⟩⟩
        rcases hhigh with hends | hwhole
        · exact hends.append [p]
        · exact ⟨p :: taken, ⟨n, links⟩, List.suffix_refl _, hrun, hwhole⟩

/-- An expression that is too deep stops at one of the two places; in the first the token ahead has
not been looked at. -/
theorem expression_stops {ts rest : List Token} {limit : Nat}
    (h : expression.read ts = .error (.tooDeep limit) rest) :
    ∃ taken, taken ≠ [] ∧ ts = taken ++ rest ∧
      (EndsAtOperator taken ∧
          (∀ rest', expression.read (taken ++ rest') = .error (.tooDeep limit) rest') ∨
        EndsAtOperand taken) := by
  have hclimb := map_eq_error_iff.mp h
  obtain ⟨taken, rfl, ⟨⟨run, hrun, -, hcount⟩, hunseen⟩ | ⟨⟨run, hrun, -, hcount⟩, hhigh⟩⟩ :=
    climb_stops maxHeight hclimb
  · have hne : run.links ≠ [] := by
      intro hnil
      rw [hnil] at hcount
      cases hcount
    obtain ⟨us, o, before, op, rfl, hbefore, ho, hops⟩ := Run.exists_operator_of_ofTokens? hrun hne
    rw [countWaiting, hops] at hcount
    cases hclimb.symm.trans (hunseen rest)
    refine ⟨us ++ [o], by simp, rfl, Or.inl ⟨⟨us, o, before, op, rfl, hbefore, ho, hcount⟩, ?_⟩⟩
    exact fun rest' => map_eq_error_iff.mpr (hunseen rest')
  · obtain ⟨p, more, rfl, -⟩ := Run.ofTokens?_eq_some_iff.mp hrun
    exact ⟨p :: more, by simp, rfl, Or.inr ⟨⟨run, hrun, hcount⟩, hhigh⟩⟩

end Reading

/-! ## Sessions -/

namespace Session

open Reading

/-- **Where depth stops.**  When a program is too deep, one of its expressions failed.  Of that one
exactly the tokens `taken` have been taken, and they end in just one of two ways: behind an operator
with no room for its right operand, where the token ahead makes no difference, or behind an operand
that made a tree too high. -/
theorem tooDeep_stops {s s' : Session} {limit : Nat}
    (h : s.parse = (.error (.tooDeep limit), s')) :
    (∃ ts, ExpressionAt s.ahead ts ∧ expression.read ts = .error (.tooDeep limit) s'.ahead) ∧
    ∀ ts e rest, ExpressionAt s.ahead ts → expression.read ts = .error e rest →
      ∃ before taken, s.ahead = before ++ ts ∧ ts = taken ++ s'.ahead ∧
        (EndsAtOperator taken ∧ ¬ EndsAtOperand taken ∧
            (∀ rest', Session.parse ⟨before ++ (taken ++ rest')⟩ =
              (.error (.tooDeep limit), ⟨rest'⟩)) ∨
          EndsAtOperand taken ∧ ¬ EndsAtOperator taken) := by
  have hread := Session.parse_eq_error_iff.mp h
  refine ⟨exists_expressionAt_of_tooDeep hread, ?_⟩
  intro ts e rest hts he
  cases (hts.error he).symm.trans hread
  obtain ⟨before, hbefore, hsame⟩ := hts.exists_before
  obtain ⟨taken, hne, rfl, ⟨hoperator, hunseen⟩ | hoperand⟩ := expression_stops he
  · refine ⟨before, taken, hbefore, rfl, Or.inl ⟨hoperator, hoperator.not_endsAtOperand, ?_⟩⟩
    intro rest'
    have hother : ExpressionAt (before ++ (taken ++ rest')) (taken ++ rest') :=
      hsame _ (head?_append_of_ne_nil hne _ _)
    exact Session.parse_eq_error_iff.mpr (hother.error (hunseen rest'))
  · exact ⟨before, taken, hbefore, rfl,
      Or.inr ⟨hoperand, fun hoperator => hoperator.not_endsAtOperand hoperand⟩⟩

/-- In a block, 256 operators that group to the right have no room for a last operand, whatever it
would be; of 256 that group to the left none but the last waits, and the 257th operand is taken. -/
theorem tooDeep_stops_block :
    ∃ carets minuses rest : List Token,
      carets = (List.replicate 256 [Token.one, ⟨.illegal, "^"⟩]).flatten ∧
      minuses = (List.replicate 256 [Token.one, .symbol .minus]).flatten ++ [Token.one] ∧
      rest = [.symbol .rightBrace] ∧
      Session.parse ⟨.symbol .leftBrace :: (carets ++ rest)⟩ = (.error (.tooDeep 256), ⟨rest⟩) ∧
      EndsAtOperator carets ∧ ¬ EndsAtOperand carets ∧
      (∀ rest', Session.parse ⟨.symbol .leftBrace :: (carets ++ rest')⟩ =
        (.error (.tooDeep 256), ⟨rest'⟩)) ∧
      Session.parse ⟨.symbol .leftBrace :: (minuses ++ rest)⟩ = (.error (.tooDeep 256), ⟨rest⟩) ∧
      EndsAtOperand minuses ∧ ¬ EndsAtOperator minuses := by
  let carets : List Token := (List.replicate 256 [Token.one, ⟨.illegal, "^"⟩]).flatten
  let minuses : List Token := (List.replicate 256 [Token.one, .symbol .minus]).flatten ++ [Token.one]
  let rest : List Token := [.symbol .rightBrace]
  let opening : Token := .symbol .leftBrace
  have hends {taken : List Token} (hat : ExpressionAt (opening :: (taken ++ rest)) (taken ++ rest))
      (he : expression.read (taken ++ rest) = .error (.tooDeep 256) rest) :
      Session.parse ⟨opening :: (taken ++ rest)⟩ = (.error (.tooDeep 256), ⟨rest⟩) ∧
        (EndsAtOperator taken ∧ ¬ EndsAtOperand taken ∧
            (∀ rest', Session.parse ⟨opening :: (taken ++ rest')⟩ =
              (.error (.tooDeep 256), ⟨rest'⟩)) ∨
          EndsAtOperand taken ∧ ¬ EndsAtOperator taken) := by
    have hparse : Session.parse ⟨opening :: (taken ++ rest)⟩ = (.error (.tooDeep 256), ⟨rest⟩) :=
      Session.parse_eq_error_iff.mpr (hat.error he)
    obtain ⟨before, taken', hbefore, htaken, hstops⟩ :=
      (tooDeep_stops hparse).2 _ _ _ hat he
    obtain rfl : taken = taken' := List.append_cancel_right htaken
    obtain rfl : [opening] = before := List.append_cancel_right hbefore
    exact ⟨hparse, hstops⟩
  have hcaretsAt : ExpressionAt (opening :: (carets ++ rest)) (carets ++ rest) :=
    ⟨_, .here rfl, .body rfl (.here (t := Token.one) rfl)⟩
  have hminusesAt : ExpressionAt (opening :: (minuses ++ rest)) (minuses ++ rest) :=
    ⟨_, .here rfl, .body rfl (.here (t := Token.one) rfl)⟩
  obtain ⟨hcarets, ⟨hoperator, hnot, hunseen⟩ | ⟨hoperand, -⟩⟩ := hends hcaretsAt (by decide +kernel)
  · obtain ⟨hminuses, ⟨hoperator', -⟩ | ⟨hoperand', hnot'⟩⟩ :=
      hends hminusesAt (by decide +kernel)
    · exact absurd hoperator'.length_mod (by decide +kernel)
    · exact ⟨carets, minuses, rest, rfl, rfl, rfl, hcarets, hoperator, hnot, hunseen, hminuses,
        hoperand', hnot'⟩
  · exact absurd hoperand.length_mod (by decide +kernel)

end Session

end ScriptTree
