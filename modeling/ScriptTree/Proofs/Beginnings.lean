import ScriptTree.Proofs.Lookahead
import ScriptTree.Proofs.Reports

/-!
# Where expressions begin

The expressions that are begun while a program is read (`ExpressionAt`): one in a binding, any
number in a block, one in any other statement, each only when all before it has been read.

* A program fails as such an expression does (`ExpressionAt.error`), and only such an expression is
  ever too deep (`exists_expressionAt_of_tooDeep`).
* Where an expression begins depends on nothing behind its first token
  (`ExpressionAt.exists_before`).
-/

namespace ScriptTree

namespace Reading

variable {α : Type} {p : Reader α} {stop : Token → Bool} {ts us rest : List Token} {e : ParseError}

/-! ## Items -/

/-- While items are read from `ts`, one is begun at `us`. -/
inductive ComesTo (p : Reader α) (stop : Token → Bool) : List Token → List Token → Prop
  | here {t : Token} {ts : List Token} : stop t = false → ComesTo p stop (t :: ts) (t :: ts)
  | behind {t : Token} {ts mid us : List Token} {a : α} : stop t = false →
      p.read (t :: ts) = .ok a mid → ComesTo p stop mid us → ComesTo p stop (t :: ts) us

/-- An item that fails is the failure of all. -/
theorem ComesTo.error (h : ComesTo p stop ts us) (he : p.read us = .error e rest) :
    p.repeated stop ts = .error e rest := by
  induction h with
  | here hstop => rw [Reader.repeated_step p _ hstop, he, Reading.bind]
  | behind hstop hread _ ih =>
    rw [Reader.repeated_step p _ hstop, hread, Reading.bind, ih he, Reading.map]

theorem exists_comesTo_of_error (h : p.repeated stop ts = .error e rest) :
    ∃ us, ComesTo p stop ts us ∧ p.read us = .error e rest := by
  fun_induction Reader.repeated p stop ts with
  | case1 => cases h
  | case2 => cases h
  | case3 t ts hstop e' rest' hread =>
    cases h
    exact ⟨t :: ts, .here (by simpa using hstop), hread⟩
  | case4 t ts hstop a mid hread ih =>
    obtain ⟨us, hus, he⟩ := ih (map_eq_error_iff.mp h)
    exact ⟨us, .behind (by simpa using hstop) hread hus, he⟩

/-- The tokens before an item are read in the same way if its first token is the same. -/
theorem ComesTo.exists_before (hlook : LooksAhead p.read) (h : ComesTo p stop ts us) :
    ∃ before, ts = before ++ us ∧
      ∀ us', us'.head? = us.head? → ComesTo p stop (before ++ us') us' := by
  induction h with
  | @here t ts hstop =>
    refine ⟨[], rfl, ?_⟩
    intro us' hus'
    obtain ⟨us', rfl⟩ := List.head?_eq_some_iff.mp hus'
    exact .here hstop
  | @behind t ts mid us a hstop hread _ ih =>
    obtain ⟨before, rfl, hbefore⟩ := ih
    obtain ⟨taken, htaken, -⟩ := hlook (t :: ts)
    rw [hread] at htaken
    simp only [unread] at htaken
    refine ⟨taken ++ before, by rw [htaken, List.append_assoc], ?_⟩
    intro us' hus'
    have hmid : (before ++ us').head? = (before ++ us).head? := head?_append_congr before hus'
    rw [htaken] at hread
    have hread' := hlook.ok_congr hread hmid
    have hhead := head?_append_congr taken hmid
    rw [← htaken] at hhead
    obtain ⟨ts', hts'⟩ := List.head?_eq_some_iff.mp hhead
    rw [List.append_assoc, hts']
    rw [hts'] at hread'
    exact .behind hstop hread' (hbefore us' hus')

/-! ## Expressions of a statement -/

/-- The statement that begins at `ts` begins an expression at `us`. -/
inductive ExpressionIn : List Token → List Token → Prop
  | bare {ts : List Token} : opened? (current ts).kind = none → ExpressionIn ts ts
  | value {kind : BindingKind} {word name equals : Token} {ts : List Token} :
      word.kind = .keyword kind.keyword → name.kind = .identifier →
      equals.kind = .symbol .equal → ExpressionIn (word :: name :: equals :: ts) ts
  | body {opening : Token} {ts us : List Token} : opening.kind = .symbol .leftBrace →
      ComesTo expression (·.kind = .symbol .rightBrace) ts us → ExpressionIn (opening :: ts) us

theorem ExpressionIn.error (h : ExpressionIn ts us) (he : expression.read us = .error e rest) :
    statement.read ts = .error e rest := by
  cases h with
  | bare hopened =>
    simp only [statement, hopened]
    exact he
  | @value kind word name equals ts hword hname hequals =>
    have hread : (binding kind).read (name :: equals :: us) = .error e rest := by
      simp only [binding, Reader.bind_read, Reader.expect_read_eq_ok_iff.mpr ⟨rfl, hname⟩,
        Reader.expect_read_eq_ok_iff.mpr ⟨rfl, hequals⟩, he, Reading.bind]
    simpa [statement, current, hword, opened?_keyword] using hread
  | @body opening ts us hopening hbody =>
    have hread : block.read ts = .error e rest := by
      simp only [block, hbody.error he, Reading.bind]
    simpa [statement, current, hopening, opened?] using hread

/-- Only an expression is ever too deep. -/
theorem exists_expressionIn_of_tooDeep {limit : Nat}
    (h : statement.read ts = .error (.tooDeep limit) rest) :
    ∃ us, ExpressionIn ts us ∧ expression.read us = .error (.tooDeep limit) rest := by
  simp only [statement] at h
  split at h
  · next reader hopened =>
    cases ts with
    | nil => cases hopened
    | cons t ts =>
      rcases opened?_eq_some hopened with ⟨kind, hword, rfl⟩ | ⟨hopening, rfl⟩
      · simp only [List.tail_cons, binding, Reader.bind_read, Reader.map_read, bind_eq_error_iff,
          map_eq_error_iff, Reader.expect_read_eq_error_iff, Reader.expect_read_eq_ok_iff,
          reduceCtorEq, false_and, and_false, false_or, or_false, exists_false] at h
        obtain ⟨name, _, ⟨rfl, hname⟩, equals, us, ⟨rfl, hequals⟩, hvalue⟩ := h
        exact ⟨us, .value hword hname hequals, hvalue⟩
      · rcases bind_eq_error_iff.mp h with hbody | ⟨body, mid, hbody, hclose⟩
        · obtain ⟨us, hus, he⟩ := exists_comesTo_of_error hbody
          exact ⟨us, .body hopening hus, he⟩
        · cases (Reader.expect_read_eq_error_iff.mp (map_eq_error_iff.mp hclose)).2.1
  · next hopened => exact ⟨ts, .bare hopened, h⟩

theorem ExpressionIn.exists_before (h : ExpressionIn ts us) :
    ∃ before, ts = before ++ us ∧
      ∀ us', us'.head? = us.head? → ExpressionIn (before ++ us') us' := by
  cases h with
  | bare hopened =>
    refine ⟨[], rfl, ?_⟩
    intro us' hus'
    exact .bare (by rwa [List.nil_append, current_congr hus'])
  | @value kind word name equals ts hword hname hequals =>
    exact ⟨[word, name, equals], rfl, fun us' _ => .value hword hname hequals⟩
  | @body opening ts us hopening hbody =>
    obtain ⟨before, rfl, hbefore⟩ := hbody.exists_before looksAhead_expression
    exact ⟨opening :: before, rfl, fun us' hus' => .body hopening (hbefore us' hus')⟩

/-! ## Expressions of a program -/

/-- While statements are read from `ts`, an expression is begun at `us`. -/
def ExpressionAt (ts us : List Token) : Prop :=
  ∃ mid, ComesTo statement (fun _ => false) ts mid ∧ ExpressionIn mid us

theorem ExpressionAt.error (h : ExpressionAt ts us) (he : expression.read us = .error e rest) :
    statements ts = .error e rest := by
  obtain ⟨mid, hmid, hin⟩ := h
  exact hmid.error (hin.error he)

theorem exists_expressionAt_of_tooDeep {limit : Nat}
    (h : statements ts = .error (.tooDeep limit) rest) :
    ∃ us, ExpressionAt ts us ∧ expression.read us = .error (.tooDeep limit) rest := by
  obtain ⟨mid, hmid, hstatement⟩ := exists_comesTo_of_error h
  obtain ⟨us, hus, he⟩ := exists_expressionIn_of_tooDeep hstatement
  exact ⟨us, ⟨mid, hmid, hus⟩, he⟩

theorem ExpressionAt.exists_before (h : ExpressionAt ts us) :
    ∃ before, ts = before ++ us ∧
      ∀ us', us'.head? = us.head? → ExpressionAt (before ++ us') us' := by
  obtain ⟨mid, hmid, hin⟩ := h
  obtain ⟨outer, rfl, houter⟩ := hmid.exists_before looksAhead_statement
  obtain ⟨inner, rfl, hinner⟩ := hin.exists_before
  refine ⟨outer ++ inner, by rw [List.append_assoc], ?_⟩
  intro us' hus'
  rw [List.append_assoc]
  exact ⟨inner ++ us', houter _ (head?_append_congr inner hus'), hinner us' hus'⟩

end Reading

end ScriptTree
