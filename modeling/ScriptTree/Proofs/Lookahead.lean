import ScriptTree.Proofs.Recognition

/-!
# Lookahead

A reading takes tokens from the front and leaves the others (`Reading.unread`).  Of those
that it leaves it has seen the first one at most: whatever else stands behind the first, the
reading takes the same tokens and ends in the same way (`StopsAt`).

* `LooksAhead` says this of a reader at all token streams; it goes from readers to what is
  put together from them (`LooksAhead.bind`, `LooksAhead.repeated`, `looksAhead_chain`).
* `looksAhead_statement`, `looksAhead_statements`: all readers of the language are such,
  whether they succeed or fail.
* `Session.ahead_parse_suffix`: reading a program leaves an end part of the tokens ahead.
-/

namespace ScriptTree

namespace Reading

variable {α β : Type}

/-- The tokens that a reading leaves. -/
def unread : Reading α → List Token
  | ok _ rest => rest
  | error _ rest => rest

/-- A reading that ends in the same way, with other tokens left. -/
def withUnread (rest : List Token) : Reading α → Reading α
  | ok a _ => ok a rest
  | error e _ => error e rest

/-- From `ts` the tokens `taken` are taken; and they are, with the same result, from every
stream that goes on behind them with the same token. -/
structure StopsAt (read : List Token → Reading α) (ts taken : List Token) : Prop where
  taken_append : ts = taken ++ (read ts).unread
  same : ∀ {rest}, rest.head? = (read ts).unread.head? →
    read (taken ++ rest) = (read ts).withUnread rest

/-- A reading of which nothing depends on more than the tokens taken and the one after. -/
def LooksAhead (read : List Token → Reading α) : Prop := ∀ ts, ∃ taken, StopsAt read ts taken

theorem head?_append_congr {us vs : List Token} (taken : List Token) (h : us.head? = vs.head?) :
    (taken ++ us).head? = (taken ++ vs).head? := by
  simp only [List.head?_append, h]

theorem current_congr {us ts : List Token} (h : us.head? = ts.head?) : current us = current ts := by
  simp only [current, List.headD_eq_head?_getD, h]

/-! ## One reading -/

/-- Which reader it is may depend on the current token. -/
theorem StopsAt.congr {read read' : List Token → Reading α} {ts taken : List Token}
    (h : StopsAt read' ts taken) (heq : ∀ {us}, us.head? = ts.head? → read us = read' us) :
    StopsAt read ts taken := by
  obtain ⟨htaken, hsame⟩ := h
  have hts : read ts = read' ts := heq rfl
  refine ⟨by rwa [hts], ?_⟩
  intro rest hrest
  rw [hts] at hrest ⊢
  have hhead : (taken ++ rest).head? = ts.head? := by
    rw [head?_append_congr taken hrest, ← htaken]
  rw [heq hhead, hsame hrest]

/-- A reading that takes nothing. -/
theorem StopsAt.nothing {read : List Token → Reading α} {ts : List Token} {r : Reading α}
    (h : ∀ {us}, us.head? = ts.head? → read us = r.withUnread us) : StopsAt read ts [] := by
  have hunread : ∀ us, (r.withUnread us).unread = us := by
    intro us
    cases r <;> rfl
  have hwith : StopsAt r.withUnread ts [] := by
    refine ⟨by rw [hunread]; rfl, ?_⟩
    intro rest _
    cases r <;> rfl
  exact hwith.congr h

/-- A reading that begins behind the current token. -/
theorem StopsAt.behind {read : List Token → Reading α} {ts taken : List Token} (t : Token)
    (h : StopsAt read ts taken) : StopsAt (fun us => read us.tail) (t :: ts) (t :: taken) := by
  refine ⟨congrArg (t :: ·) h.taken_append, ?_⟩
  intro rest hrest
  exact h.same hrest

/-- A reading with another value. -/
theorem StopsAt.map {p : List Token → Reading α} {ts taken : List Token} (h : StopsAt p ts taken)
    (f : α → β) : StopsAt (fun us => (p us).map f) ts taken := by
  obtain ⟨htaken, hsame⟩ := h
  have hunread : ∀ r : Reading α, (r.map f).unread = r.unread := by
    intro r
    cases r <;> rfl
  have hwith : ∀ (r : Reading α) (rest : List Token),
      (r.withUnread rest).map f = (r.map f).withUnread rest := by
    intro r rest
    cases r <;> rfl
  refine ⟨by rwa [hunread], ?_⟩
  intro rest hrest
  rw [hunread] at hrest
  simp only [hsame hrest, hwith]

/-- One reading after the other. -/
theorem StopsAt.bind {p : List Token → Reading α} {f : α → List Token → Reading β}
    {ts taken : List Token} (hp : StopsAt p ts taken)
    (hf : ∀ {a mid}, p ts = .ok a mid → ∃ taken, StopsAt (f a) mid taken) :
    ∃ taken, StopsAt (fun us => (p us).bind f) ts taken := by
  obtain ⟨htaken, hsame⟩ := hp
  cases h : p ts with
  | error e rest =>
    rw [h] at htaken hsame
    refine ⟨taken, ?_, ?_⟩
    · simp only [h]
      exact htaken
    · intro rest' hrest'
      simp only [h] at hrest' ⊢
      rw [hsame hrest']
      rfl
  | ok a mid =>
    rw [h] at htaken hsame
    obtain ⟨taken', hmid, hsame'⟩ := hf h
    refine ⟨taken ++ taken', ?_, ?_⟩
    · simp only [h, Reading.bind]
      rw [List.append_assoc, ← hmid]
      exact htaken
    · intro rest hrest
      simp only [h, Reading.bind] at hrest ⊢
      have hhead : (taken' ++ rest).head? = mid.head? := by
        rw [head?_append_congr taken' hrest, ← hmid]
      rw [List.append_assoc, hsame hhead]
      exact hsame' hrest

/-! ## Readers -/

/-- What has been read is read wherever the same token follows. -/
theorem LooksAhead.ok_congr {read : List Token → Reading α} (h : LooksAhead read)
    {used rest rest' : List Token} {a : α} (hok : read (used ++ rest) = .ok a rest)
    (hrest : rest'.head? = rest.head?) : read (used ++ rest') = .ok a rest' := by
  obtain ⟨taken, htaken, hsame⟩ := h (used ++ rest)
  rw [hok] at htaken hsame
  obtain rfl : used = taken := List.append_cancel_right htaken
  exact hsame hrest

theorem LooksAhead.bind {p : List Token → Reading α} {f : α → List Token → Reading β}
    (hp : LooksAhead p) (hf : ∀ a, LooksAhead (f a)) : LooksAhead fun us => (p us).bind f := by
  intro ts
  obtain ⟨taken, htaken⟩ := hp ts
  exact htaken.bind fun _ => hf _ _

theorem LooksAhead.map {p : List Token → Reading α} (hp : LooksAhead p) (f : α → β) :
    LooksAhead fun us => (p us).map f := by
  intro ts
  obtain ⟨taken, htaken⟩ := hp ts
  exact ⟨taken, htaken.map f⟩

theorem looksAhead_refuse (e : ParseError) : LooksAhead (Reader.refuse e : Reader α).read :=
  fun _ => ⟨[], StopsAt.nothing (r := .error e []) fun _ => rfl⟩

theorem looksAhead_token (accept? : Token → Option α) (e : Token → ParseError) :
    LooksAhead (Reader.token accept? e).read := by
  intro ts
  cases ts with
  | nil =>
    refine ⟨[], StopsAt.nothing (r := .error (e Token.eof) []) ?_⟩
    intro us hus
    rw [List.head?_eq_none_iff.mp hus]
    rfl
  | cons t ts =>
    cases ha : accept? t with
    | none =>
      refine ⟨[], StopsAt.nothing (r := .error (e t) []) ?_⟩
      intro us hus
      obtain ⟨us, rfl⟩ := List.head?_eq_some_iff.mp hus
      simp only [Reader.token, ha]
      rfl
    | some a =>
      refine ⟨[t], by simp only [Reader.token, ha]; rfl, ?_⟩
      intro rest _
      simp only [List.singleton_append, Reader.token, ha]
      rfl

/-- One step of a repetition: an item, and then the other items. -/
theorem StopsAt.repeated_step {p : Reader α} (hp : LooksAhead p.read) {stop : Token → Bool}
    {t : Token} {ts : List Token} (ht : stop t = false)
    (hrest : ∀ {a mid}, p.read (t :: ts) = .ok a mid → ∃ taken, StopsAt (p.repeated stop) mid taken) :
    ∃ taken, StopsAt (p.repeated stop) (t :: ts) taken := by
  obtain ⟨taken, hitem⟩ := hp (t :: ts)
  obtain ⟨taken', hboth⟩ := hitem.bind (f := fun a rest => (p.repeated stop rest).map (a :: ·))
    fun {a mid} hread => by
      obtain ⟨taken', hmid⟩ := hrest hread
      exact ⟨taken', hmid.map _⟩
  refine ⟨taken', hboth.congr ?_⟩
  intro us hus
  obtain ⟨us, rfl⟩ := List.head?_eq_some_iff.mp hus
  exact Reader.repeated_step p us ht

theorem LooksAhead.repeated {p : Reader α} (hp : LooksAhead p.read) (stop : Token → Bool) :
    LooksAhead (p.repeated stop) := by
  intro ts
  fun_induction Reader.repeated p stop ts with
  | case1 =>
    refine ⟨[], StopsAt.nothing (r := .ok [] []) ?_⟩
    intro us hus
    rw [List.head?_eq_none_iff.mp hus, Reader.repeated_nil]
    rfl
  | case2 t ts hstop =>
    refine ⟨[], StopsAt.nothing (r := .ok [] []) ?_⟩
    intro us hus
    obtain ⟨us, rfl⟩ := List.head?_eq_some_iff.mp hus
    exact Reader.repeated_stop p us hstop
  | case3 t ts hstop e rest hread =>
    refine StopsAt.repeated_step hp (by simpa using hstop) ?_
    intro a mid hok
    cases hread.symm.trans hok
  | case4 t ts hstop a rest hread ih =>
    refine StopsAt.repeated_step hp (by simpa using hstop) ?_
    intro a' mid hok
    cases hread.symm.trans hok
    exact ih

/-! ## Expressions -/

theorem looksAhead_operand : LooksAhead operand.read := looksAhead_token _ _

/-- The operator ahead is that of the current token. -/
theorem operatorAhead?_congr {min : Nat} {us ts rest : List Token} {op : Operator}
    (hus : us.head? = ts.head?) (h : operatorAhead? min ts = some (op, rest)) :
    operatorAhead? min us = some (op, us.tail) := by
  obtain ⟨t, rfl, hop, hmin⟩ := operatorAhead?_eq_some_iff.mp h
  obtain ⟨us, rfl⟩ := List.head?_eq_some_iff.mp hus
  exact operatorAhead?_eq_some_iff.mpr ⟨t, rfl, hop, hmin⟩

/-- One step of a chain: an operator, its right operand, and then the other operators. -/
theorem StopsAt.chain_step {right : Nat → Reader Measured}
    (hright : ∀ m, LooksAhead (right m).read) {min : Nat} {left : Measured}
    {ts afterOp : List Token} {op : Operator} (hop : operatorAhead? min ts = some (op, afterOp))
    (hrest : ∀ {r mid}, (right op.nextMin).read afterOp = .ok r mid →
      (left.join op r).height ≤ maxHeight →
        ∃ taken, StopsAt (chain right min (left.join op r)) mid taken) :
    ∃ taken, StopsAt (chain right min left) ts taken := by
  obtain ⟨t, rfl, -, -⟩ := operatorAhead?_eq_some_iff.mp hop
  obtain ⟨taken, hoperand⟩ := hright op.nextMin afterOp
  obtain ⟨taken', hboth⟩ := hoperand.bind
    (f := fun r rest =>
      if (left.join op r).height ≤ maxHeight then chain right min (left.join op r) rest
      else .error (.tooDeep maxHeight) rest)
    fun {r mid} hread => by
      split
      · next hheight => exact hrest hread hheight
      · exact ⟨[], StopsAt.nothing (r := .error (.tooDeep maxHeight) []) fun _ => rfl⟩
  refine ⟨t :: taken', (hboth.behind t).congr ?_⟩
  intro us hus
  exact chain_of_some (operatorAhead?_congr hus hop)

theorem looksAhead_chain {right : Nat → Reader Measured} (hright : ∀ m, LooksAhead (right m).read)
    (min : Nat) (left : Measured) : LooksAhead (chain right min left) := by
  intro ts
  fun_induction chain right min left ts with
  | case1 left ts hnone =>
    refine ⟨[], StopsAt.nothing (r := .ok left []) ?_⟩
    intro us hus
    refine chain_of_none (operatorAhead?_eq_none_iff.mpr ?_)
    rw [current_congr hus]
    exact operatorAhead?_eq_none_iff.mp hnone
  | case2 left ts op afterOp hop e rest hread =>
    refine StopsAt.chain_step hright hop ?_
    intro r mid hok
    cases hread.symm.trans hok
  | case3 left ts op afterOp hop r mid hread _ ih =>
    refine StopsAt.chain_step hright hop ?_
    intro r' mid' hok _
    cases hread.symm.trans hok
    exact ih
  | case4 left ts op afterOp hop r mid hread hhigh =>
    refine StopsAt.chain_step hright hop ?_
    intro r' mid' hok hheight
    cases hread.symm.trans hok
    exact absurd hheight hhigh

theorem looksAhead_climb (room min : Nat) : LooksAhead (climb room min).read := by
  induction room generalizing min with
  | zero => exact looksAhead_refuse _
  | succ room ih => exact looksAhead_operand.bind fun left => looksAhead_chain ih min left

theorem looksAhead_expression : LooksAhead expression.read := (looksAhead_climb maxHeight 0).map _

/-! ## Statements -/

theorem looksAhead_binding (kind : BindingKind) : LooksAhead (binding kind).read :=
  (looksAhead_token _ _).bind fun _ => (looksAhead_token _ _).bind fun _ =>
    looksAhead_expression.bind fun _ => (looksAhead_token _ _).map _

theorem looksAhead_block : LooksAhead block.read :=
  (looksAhead_expression.repeated _).bind fun _ => (looksAhead_token _ _).map _

theorem looksAhead_opened? {kind : TokenKind} {reader : Reader Node}
    (h : opened? kind = some reader) : LooksAhead reader.read := by
  rcases opened?_eq_some h with ⟨kind, -, rfl⟩ | ⟨-, rfl⟩
  · exact looksAhead_binding kind
  · exact looksAhead_block

theorem looksAhead_statement : LooksAhead statement.read := by
  intro ts
  cases hopened : opened? (current ts).kind with
  | none =>
    obtain ⟨taken, hexpression⟩ := looksAhead_expression ts
    refine ⟨taken, hexpression.congr ?_⟩
    intro us hus
    simp only [statement, current_congr hus, hopened]
  | some reader =>
    cases ts with
    | nil => cases hopened
    | cons t ts =>
      obtain ⟨taken, hreader⟩ := looksAhead_opened? hopened ts
      refine ⟨t :: taken, (hreader.behind t).congr ?_⟩
      intro us hus
      simp only [statement, current_congr hus, hopened]

theorem looksAhead_statements : LooksAhead statements := looksAhead_statement.repeated _

end Reading

/-! ## Sessions -/

/-- What a session leaves ahead was ahead before. -/
theorem Session.ahead_parse_suffix (s : Session) : s.parse.2.ahead <:+ s.ahead := by
  obtain ⟨taken, htaken, -⟩ := Reading.looksAhead_statements s.ahead
  refine ⟨taken, ?_⟩
  unfold Session.parse
  split
  · next h =>
    rw [h] at htaken
    exact htaken.symm
  · next h =>
    rw [h] at htaken
    exact htaken.symm

end ScriptTree
