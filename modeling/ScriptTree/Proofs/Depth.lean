import ScriptTree.Proofs.Lookahead

/-!
# Depth

No expression has more than `maxHeight` levels, and for no other reason is one too deep.

* A run is read if its tree is no higher than `maxHeight`, and is too deep if it is higher
  (`Reading.expression_of_spells`).  The two checks, of the room before an operand and of the
  height behind one, guard the same limit.
* What was too deep stays too deep: no stream that begins with the tokens taken is read, with
  whatever behind them (`FinalAt`).  The room is asked for before the next token is looked
  at.  A height is known only when the operand has ended, which other tokens might have gone
  on with; but a longer run is no lower (`height_le_of_extended`).
* `Reading.depth_limit_exact` puts the two together.
-/

namespace ScriptTree

namespace Reading

variable {α β : Type}

/-! ## Longer runs -/

/-- Links that are read where other links stood are these and some more. -/
theorem exists_links_append {min : Nat} {us vs rest rest' : List Token} {ls ms : List Link}
    (hus : Run.linksOfTokens? us = some ls) (hmin : AllAtLeast min ls)
    (hvs : Run.linksOfTokens? vs = some ms) (hended : operatorAhead? min rest' = none)
    (heq : us ++ rest = vs ++ rest') : ∃ more, ms = ls ++ more := by
  induction ls generalizing us vs ms with
  | nil => exact ⟨ms, rfl⟩
  | cons l ls ih =>
    obtain ⟨o, p, us, rfl, ho, hp, husLinks⟩ := Run.linksOfTokens?_eq_cons_iff.mp hus
    obtain ⟨hl, hls⟩ := allAtLeast_cons.mp hmin
    cases ms with
    | nil =>
      obtain rfl := Run.linksOfTokens?_eq_nil_iff.mp hvs
      obtain rfl : o :: p :: us ++ rest = rest' := heq
      have hahead : operatorAhead? min (o :: p :: us ++ rest) = some (l.op, p :: us ++ rest) :=
        operatorAhead?_eq_some_iff.mpr ⟨o, rfl, ho, hl⟩
      cases hahead.symm.trans hended
    | cons m ms =>
      obtain ⟨o', p', vs, rfl, ho', hp', hvsLinks⟩ := Run.linksOfTokens?_eq_cons_iff.mp hvs
      obtain ⟨rfl, rfl, htail⟩ : o = o' ∧ p = p' ∧ us ++ rest = vs ++ rest' := by
        simpa using heq
      obtain ⟨more, rfl⟩ := ih husLinks hls hvsLinks htail
      obtain ⟨op, operand⟩ := l
      obtain ⟨op', operand'⟩ := m
      cases ho.symm.trans ho'
      cases hp.symm.trans hp'
      exact ⟨more, rfl⟩

/-- A run that is read where another run stood is no lower than that one. -/
theorem height_le_of_extended {min : Nat} {us vs rest mid rest' : List Token} {run run' : Run}
    (h : SpellsRunAtLeast min us run mid) (h' : SpellsRunAtLeast min vs run' rest')
    (heq : us ++ rest = vs ++ rest') : run.tree.height ≤ run'.tree.height := by
  obtain ⟨p, us, rfl, hp, hus⟩ := Run.ofTokens?_eq_some_iff.mp h.spelled
  obtain ⟨p', vs, rfl, hp', hvs⟩ := Run.ofTokens?_eq_some_iff.mp h'.spelled
  obtain ⟨rfl, htail⟩ := List.cons.inj heq
  obtain ⟨first, ls⟩ := run
  obtain ⟨first', ms⟩ := run'
  cases hp.symm.trans hp'
  obtain ⟨more, rfl⟩ := exists_links_append hus h.atLeast hvs h'.ended htail
  exact Run.height_tree_append first (Run.tabled_of_linksOfTokens? hvs)

/-- Operators of one level that group to the left nest one below the other. -/
theorem height_tree_replicate {first : Node} {l : Link} (hl : l.op ∈ Operator.table)
    (hleft : l.op.associativity = .left) (hfirst : first.height = 1)
    (hoperand : l.operand.height = 1) (n : Nat) :
    (Run.tree ⟨first, List.replicate n l⟩).height = n + 1 := by
  induction n with
  | zero => rw [List.replicate_zero, Run.tree_lone, hfirst]
  | succ n ih =>
    have hs : Run.Split.IsProper ⟨List.replicate n l, l, []⟩ := by
      refine Run.isProper_iff.mpr ⟨?_, by simp [AllAtLeast]⟩
      intro m hm
      obtain rfl := List.eq_of_mem_replicate hm
      exact Nat.le_of_eq (by rw [Operator.leftMin, hleft])
    have ht : Tabled (List.replicate n l ++ [l]) := by
      intro m hm
      rw [← List.replicate_succ'] at hm
      rwa [List.eq_of_mem_replicate hm]
    rw [List.replicate_succ', Run.tree_of_isProper ht hs, Run.tree_lone, Node.height, ih, hoperand]
    omega

/-! ## Refusals -/

/-- No stream that begins with the tokens `taken` is read. -/
def Refuses (read : List Token → Reading α) (taken : List Token) : Prop :=
  ∀ rest a rest', read (taken ++ rest) ≠ .ok a rest'

theorem head?_append_of_ne_nil {taken : List Token} (h : taken ≠ []) (us vs : List Token) :
    (taken ++ us).head? = (taken ++ vs).head? := by
  obtain ⟨t, taken, rfl⟩ := List.exists_cons_of_ne_nil h
  rfl

/-- Which reader it is may depend on the current token. -/
theorem Refuses.congr {read read' : List Token → Reading α} {taken : List Token} (rest : List Token)
    (h : Refuses read' taken) (hne : taken ≠ [])
    (heq : ∀ {us}, us.head? = (taken ++ rest).head? → read us = read' us) : Refuses read taken := by
  intro rest' a more hok
  rw [heq (head?_append_of_ne_nil hne rest' rest)] at hok
  exact h _ _ _ hok

theorem Refuses.map {p : List Token → Reading α} {taken : List Token} (h : Refuses p taken)
    (f : α → β) : Refuses (fun us => (p us).map f) taken := by
  intro rest b rest' hok
  obtain ⟨a, ha, -⟩ := map_eq_ok_iff.mp hok
  exact h _ _ _ ha

/-- What the first of two readings refuses. -/
theorem Refuses.bind_left {p : List Token → Reading α} {f : α → List Token → Reading β}
    {taken : List Token} (h : Refuses p taken) : Refuses (fun us => (p us).bind f) taken := by
  intro rest b rest' hok
  obtain ⟨a, mid, ha, -⟩ := bind_eq_ok_iff.mp hok
  exact h _ _ _ ha

/-- What the second refuses, behind the tokens of the first. -/
theorem Refuses.bind_right {p : List Token → Reading α} {f : α → List Token → Reading β}
    {ts mid taken taken' rest : List Token} {a : α} (hstops : StopsAt p ts taken)
    (hp : p ts = .ok a mid) (hmid : mid = taken' ++ rest) (hne : taken' ≠ [])
    (h : Refuses (f a) taken') : Refuses (fun us => (p us).bind f) (taken ++ taken') := by
  intro rest' b more hok
  have hhead : (taken' ++ rest').head? = (p ts).unread.head? := by
    rw [hp, hmid]
    exact head?_append_of_ne_nil hne rest' rest
  have hread := hstops.same hhead
  rw [hp] at hread
  simp only [List.append_assoc, hread] at hok
  exact h _ _ _ hok

/-! ## What is too deep stays too deep -/

/-- If reading `ts` comes out too deep, the tokens taken are refused for good. -/
def FinalAt (read : List Token → Reading α) (ts : List Token) : Prop :=
  ∀ limit rest, read ts = .error (.tooDeep limit) rest →
    ∃ taken, ts = taken ++ rest ∧ taken ≠ [] ∧ Refuses read taken

theorem FinalAt.congr {read read' : List Token → Reading α} {ts : List Token}
    (h : FinalAt read' ts) (heq : ∀ {us}, us.head? = ts.head? → read us = read' us) :
    FinalAt read ts := by
  intro limit rest hread
  rw [heq rfl] at hread
  obtain ⟨taken, rfl, hne, hrefuses⟩ := h _ _ hread
  exact ⟨taken, rfl, hne, hrefuses.congr rest hne heq⟩

theorem FinalAt.behind {read : List Token → Reading α} {ts : List Token} (t : Token)
    (h : FinalAt read ts) : FinalAt (fun us => read us.tail) (t :: ts) := by
  intro limit rest hread
  obtain ⟨taken, rfl, -, hrefuses⟩ := h _ _ hread
  exact ⟨t :: taken, rfl, by simp, hrefuses⟩

theorem FinalAt.map {p : List Token → Reading α} {ts : List Token} (h : FinalAt p ts) (f : α → β) :
    FinalAt (fun us => (p us).map f) ts := by
  intro limit rest hread
  cases hp : p ts with
  | ok a mid =>
    simp only [hp] at hread
    cases hread
  | error e mid =>
    simp only [hp] at hread
    cases hread
    obtain ⟨taken, rfl, hne, hrefuses⟩ := h _ _ hp
    exact ⟨taken, rfl, hne, hrefuses.map f⟩

theorem FinalAt.bind {p : List Token → Reading α} {f : α → List Token → Reading β}
    {ts : List Token} (hlook : LooksAhead p) (hp : FinalAt p ts)
    (hf : ∀ {a mid}, p ts = .ok a mid → FinalAt (f a) mid) :
    FinalAt (fun us => (p us).bind f) ts := by
  intro limit rest hread
  cases hfirst : p ts with
  | error e mid =>
    simp only [hfirst] at hread
    cases hread
    obtain ⟨taken, rfl, hne, hrefuses⟩ := hp _ _ hfirst
    exact ⟨taken, rfl, hne, hrefuses.bind_left⟩
  | ok a mid =>
    simp only [hfirst] at hread
    obtain ⟨taken', hmid, hne, hrefuses⟩ := hf hfirst _ _ hread
    obtain ⟨taken, hstops⟩ := hlook ts
    have hts := hstops.taken_append
    rw [hfirst] at hts
    refine ⟨taken ++ taken', ?_, by simp [hne], .bind_right hstops hfirst hmid hne hrefuses⟩
    rw [List.append_assoc, ← hmid]
    exact hts

/-- A single token is never too deep. -/
theorem finalAt_token {accept? : Token → Option α} {e : Token → ParseError}
    (he : ∀ t limit, e t ≠ .tooDeep limit) (ts : List Token) :
    FinalAt (Reader.token accept? e).read ts := by
  intro limit rest hread
  cases ts with
  | nil =>
    simp only [Reader.token, Reading.error.injEq] at hread
    exact absurd hread.1 (he _ limit)
  | cons t ts =>
    simp only [Reader.token] at hread
    split at hread
    · cases hread
    · simp only [Reading.error.injEq] at hread
      exact absurd hread.1 (he _ limit)

theorem finalAt_expect (kind : TokenKind) (what : String) (ts : List Token) :
    FinalAt (Reader.expect kind what).read ts := by
  refine finalAt_token ?_ ts
  intro t limit h
  cases h

theorem finalAt_operand (ts : List Token) : FinalAt operand.read ts := by
  refine finalAt_token ?_ ts
  intro t limit h
  cases h

/-- One step of a repetition: an item, and then the other items. -/
theorem FinalAt.repeated_step {p : Reader α} (hlook : LooksAhead p.read)
    {stop : Token → Bool} {t : Token} {ts : List Token} (hp : FinalAt p.read (t :: ts))
    (ht : stop t = false)
    (hrest : ∀ {a mid}, p.read (t :: ts) = .ok a mid → FinalAt (p.repeated stop) mid) :
    FinalAt (p.repeated stop) (t :: ts) := by
  have hboth : FinalAt (fun us => (p.read us).bind fun a rest => (p.repeated stop rest).map (a :: ·))
      (t :: ts) := .bind hlook hp fun hread => (hrest hread).map _
  refine hboth.congr ?_
  intro us hus
  obtain ⟨us, rfl⟩ := List.head?_eq_some_iff.mp hus
  exact Reader.repeated_step p us ht

theorem finalAt_repeated {p : Reader α} (hlook : LooksAhead p.read) (hp : ∀ ts, FinalAt p.read ts)
    (stop : Token → Bool) (ts : List Token) : FinalAt (p.repeated stop) ts := by
  fun_induction Reader.repeated p stop ts with
  | case1 =>
    intro limit rest hread
    rw [Reader.repeated_nil] at hread
    cases hread
  | case2 t ts hstop =>
    intro limit rest hread
    rw [Reader.repeated_stop p ts hstop] at hread
    cases hread
  | case3 t ts hstop e rest hread =>
    refine .repeated_step hlook (hp _) (by simpa using hstop) ?_
    intro a mid hok
    cases hread.symm.trans hok
  | case4 t ts hstop a rest hread ih =>
    refine .repeated_step hlook (hp _) (by simpa using hstop) ?_
    intro a' mid hok
    cases hread.symm.trans hok
    exact ih

/-! ## Expressions -/

/-- What `right` finds too deep is refused, though it may be so before a token is taken. -/
def RefusesDeep (right : Nat → Reader Measured) : Prop :=
  ∀ {min ts limit rest}, (right min).read ts = .error (.tooDeep limit) rest →
    ∃ taken, ts = taken ++ rest ∧ Refuses (right min).read taken

/-- A chain refuses what it refuses behind the operator. -/
theorem Refuses.chain {right : Nat → Reader Measured} {min : Nat} {left : Measured}
    {o : Token} {op : Operator} {taken : List Token} (ho : o.operator? = some op)
    (hmin : min ≤ op.precedence)
    (h : Refuses (fun us => ((right op.nextMin).read us).bind fun r rest =>
      if (left.join op r).height ≤ maxHeight then Reading.chain right min (left.join op r) rest
      else .error (.tooDeep maxHeight) rest) taken) :
    Refuses (Reading.chain right min left) (o :: taken) := by
  intro rest a more hok
  have hahead : operatorAhead? min (o :: taken ++ rest) = some (op, taken ++ rest) :=
    operatorAhead?_eq_some_iff.mpr ⟨o, rfl, ho, hmin⟩
  rw [chain_of_some hahead] at hok
  exact h _ _ _ hok

theorem finalAt_chain {right : Nat → Reader Measured} (hsound : ReadsRuns right)
    (hlook : ∀ m, LooksAhead (right m).read) (hdeep : RefusesDeep right) (min : Nat)
    (left : Measured) (ts : List Token) : FinalAt (chain right min left) ts := by
  fun_induction chain right min left ts with
  | case1 left ts hnone =>
    intro limit rest h
    rw [chain_of_none hnone] at h
    cases h
  | case2 left ts op afterOp hahead e mid hread =>
    intro limit rest h
    rw [chain_of_some hahead, hread] at h
    cases h
    obtain ⟨o, rfl, ho, hmin⟩ := operatorAhead?_eq_some_iff.mp hahead
    obtain ⟨taken, rfl, hrefuses⟩ := hdeep hread
    exact ⟨o :: taken, rfl, by simp, .chain ho hmin hrefuses.bind_left⟩
  | case3 left ts op afterOp hahead r mid hread hheight ih =>
    intro limit rest h
    rw [chain_of_some hahead, hread, Reading.bind, if_pos hheight] at h
    obtain ⟨o, rfl, ho, hmin⟩ := operatorAhead?_eq_some_iff.mp hahead
    obtain ⟨taken', rfl, hne, hrefuses⟩ := ih _ _ h
    obtain ⟨taken, hstops⟩ := hlook op.nextMin afterOp
    have hafterOp : afterOp = taken ++ (taken' ++ rest) := by
      simpa only [hread, unread] using hstops.taken_append
    refine ⟨o :: (taken ++ taken'), by simp [hafterOp], by simp, .chain ho hmin ?_⟩
    refine .bind_right hstops hread rfl hne ?_
    intro rest' a more hok
    simp only [if_pos hheight] at hok
    exact hrefuses _ _ _ hok
  | case4 left ts op afterOp hahead r mid hread hhigh =>
    intro limit rest h
    rw [chain_of_some hahead, hread, Reading.bind, if_neg hhigh] at h
    cases h
    obtain ⟨o, rfl, ho, hmin⟩ := operatorAhead?_eq_some_iff.mp hahead
    obtain ⟨used, run, rfl, hrun, rfl⟩ := hsound hread
    refine ⟨o :: used, rfl, by simp, .chain ho hmin ?_⟩
    -- Other tokens may go on with the right operand, which then is no lower.
    intro rest' a more hok
    obtain ⟨r', mid', hread', hjoin⟩ := bind_eq_ok_iff.mp hok
    obtain ⟨used', run', heq, hrun', rfl⟩ := hsound hread'
    have hle := height_le_of_extended hrun hrun' heq
    have hhigh' : ¬ (left.join op (.ofRun run')).height ≤ maxHeight := by
      simp only [Measured.join, Measured.ofRun] at hhigh ⊢
      omega
    rw [if_neg hhigh'] at hjoin
    cases hjoin

/-- Nothing is refused before its first operand, as long as there is room. -/
theorem finalAt_climb_succ {room : Nat} (hdeep : RefusesDeep (climb room)) (min : Nat)
    (ts : List Token) : FinalAt (climb (room + 1) min).read ts :=
  .bind looksAhead_operand (finalAt_operand ts) fun _ =>
    finalAt_chain (climb_sound room) (looksAhead_climb room) hdeep min _ _

theorem refusesDeep_climb (room : Nat) : RefusesDeep (climb room) := by
  induction room with
  | zero =>
    intro min ts limit rest h
    cases h
    refine ⟨[], rfl, ?_⟩
    intro rest a rest' hok
    cases hok
  | succ room ih =>
    intro min ts limit rest h
    obtain ⟨taken, hts, -, hrefuses⟩ := finalAt_climb_succ ih min ts _ _ h
    exact ⟨taken, hts, hrefuses⟩

theorem finalAt_expression (ts : List Token) : FinalAt expression.read ts :=
  (finalAt_climb_succ (refusesDeep_climb _) 0 ts).map _

/-! ## Statements -/

theorem finalAt_binding (kind : BindingKind) (ts : List Token) : FinalAt (binding kind).read ts :=
  .bind (looksAhead_token _ _) (finalAt_expect _ _ _) fun _ =>
    .bind (looksAhead_token _ _) (finalAt_expect _ _ _) fun _ =>
      .bind looksAhead_expression (finalAt_expression _) fun _ => (finalAt_expect _ _ _).map _

theorem finalAt_block (ts : List Token) : FinalAt block.read ts :=
  .bind (looksAhead_expression.repeated _)
    (finalAt_repeated looksAhead_expression finalAt_expression _ _) fun _ =>
      (finalAt_expect _ _ _).map _

theorem finalAt_statement (ts : List Token) : FinalAt statement.read ts := by
  cases hopened : opened? (current ts).kind with
  | none =>
    refine (finalAt_expression ts).congr ?_
    intro us hus
    simp only [statement, current_congr hus, hopened]
  | some reader =>
    cases ts with
    | nil => cases hopened
    | cons t ts =>
      have hreader : FinalAt reader.read ts := by
        rcases opened?_eq_some hopened with ⟨kind, -, rfl⟩ | ⟨-, rfl⟩
        · exact finalAt_binding kind ts
        · exact finalAt_block ts
      refine (hreader.behind t).congr ?_
      intro us hus
      simp only [statement, current_congr hus, hopened]

theorem finalAt_statements (ts : List Token) : FinalAt statements ts :=
  finalAt_repeated looksAhead_statement finalAt_statement _ ts

/-! ## The limit -/

/-- **The limit is exact, and final.**  A run is read as its tree if that has no more than
`maxHeight` levels, and is too deep otherwise.  Whatever was too deep, no source is read as a
program that begins with the tokens that had been taken. -/
theorem depth_limit_exact :
    (∀ ts rest run, SpellsRun ts run rest →
      (run.tree.height ≤ maxHeight → expression.read (ts ++ rest) = .ok run.tree rest) ∧
      (maxHeight < run.tree.height →
        ∃ left, expression.read (ts ++ rest) = .error (.tooDeep maxHeight) left)) ∧
    ∀ session limit session', Session.parse session = (.error (.tooDeep limit), session') →
      ∃ taken, session.ahead = taken ++ session'.ahead ∧
        ∀ s : Source, taken <+: s.tokens → ∀ p, s.parse ≠ .ok p := by
  constructor
  · intro ts rest run hrun
    rcases expression_of_spells hrun with ⟨hheight, hread⟩ | ⟨hhigh, hread⟩
    · exact ⟨fun _ => hread, fun hhigh => absurd hheight (Nat.not_le.mpr hhigh)⟩
    · exact ⟨fun hheight => absurd hheight (Nat.not_le.mpr hhigh), fun _ => hread⟩
  · intro session limit session' hparse
    obtain ⟨taken, htaken, -, hrefuses⟩ :=
      finalAt_statements _ _ _ (Session.parse_eq_error_iff.mp hparse)
    refine ⟨taken, htaken, ?_⟩
    rintro s ⟨rest, hs⟩ p hp
    rw [Source.parse_eq_ok_iff, ← hs] at hp
    exact hrefuses _ _ _ hp

/-- Minus signs in a row: 256 operands are read, 257 are not, and neither is any text that
begins with the 257. -/
theorem depth_limit_exact_minus :
    ∃ low high rest, low.links.length = 255 ∧ high.links.length = 256 ∧
      SpellsRun low.tokens low rest ∧ low.tree.height = 256 ∧
      expression.read (low.tokens ++ rest) = .ok low.tree rest ∧
      SpellsRun high.tokens high rest ∧ high.tree.height = 257 ∧
      (∃ left, expression.read (high.tokens ++ rest) = .error (.tooDeep maxHeight) left) ∧
      Session.parse ⟨high.tokens ++ rest⟩ = (.error (.tooDeep 256), ⟨rest⟩) ∧
      ∀ s : Source, high.tokens <+: s.tokens → ∀ p, s.parse ≠ .ok p := by
  let one : Node := .operand .int "1"
  let low : Run := ⟨one, List.replicate 255 ⟨⟨"-", 6, .left⟩, one⟩⟩
  let high : Run := ⟨one, List.replicate 256 ⟨⟨"-", 6, .left⟩, one⟩⟩
  let rest : List Token := [.symbol .rightBrace]
  have hlow : SpellsRun low.tokens low rest := ⟨by decide +kernel, rfl⟩
  have hhigh : SpellsRun high.tokens high rest := ⟨by decide +kernel, rfl⟩
  have hlowHeight : low.tree.height = 256 :=
    height_tree_replicate (by decide) rfl rfl rfl 255
  have hhighHeight : high.tree.height = 257 :=
    height_tree_replicate (by decide) rfl rfl rfl 256
  have hfails : Session.parse ⟨high.tokens ++ rest⟩ = (.error (.tooDeep 256), ⟨rest⟩) :=
    Session.parse_eq_error_iff.mpr (by decide +kernel)
  obtain ⟨hexact, hfinal⟩ := depth_limit_exact
  obtain ⟨taken, htaken, hnone⟩ := hfinal _ _ _ hfails
  obtain rfl : high.tokens = taken := List.append_cancel_right htaken
  refine ⟨low, high, rest, List.length_replicate, List.length_replicate, hlow, hlowHeight, ?_,
    hhigh, hhighHeight, ?_, hfails, hnone⟩
  · exact (hexact _ _ _ hlow).1 (Nat.le_of_eq hlowHeight)
  · exact (hexact _ _ _ hhigh).2 (Nat.lt_of_lt_of_eq (Nat.lt_succ_self maxHeight) hhighHeight.symm)

end Reading

end ScriptTree
