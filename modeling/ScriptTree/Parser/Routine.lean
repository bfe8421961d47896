import ScriptTree.Parser.Window
import ScriptTree.Reading.Statement

/-!
# Routines

What a parser does, step by step on its window.  A `Routine` belongs to a way of reading a list of
tokens: from every parser, whatever token was before, it comes to what is read from the tokens
unread (`Routine.follows`), and it does so by moving on over them (`Routine.moves`).  That the
loops end is known from the reader that a routine follows, which takes a token for every item.

A parser that has come to its end leaves no trace of how often it was moved.  So every move is told
to an observer, whoever that is: to nobody (`Routine.run`), or to one that writes down the tokens
(`Record`).  An observer makes no difference to the rest (`Routine.observe_eq`).
-/

namespace ScriptTree

namespace Parser

variable {α β σ τ : Type}

/-- A parser, and what is known to an observer of its moves. -/
structure Observed (σ : Type) where
  parser : Parser
  known : σ
  deriving DecidableEq, Repr

namespace Observed

/-- Moves on, and tells the observer which token it leaves behind.  Every move asks the source for
one token. -/
def advance (note : σ → Token → σ) (o : Observed σ) : Observed σ :=
  ⟨o.parser.advance, note o.known o.parser.current⟩

/-- Moves on if the current token is of this kind. -/
def matchToken (note : σ → Token → σ) (kind : TokenKind) (o : Observed σ) : Bool × Observed σ :=
  if o.parser.current.kind = kind then (true, o.advance note) else (false, o)

/-- The parser has moved on over some tokens, none of them the end of the input, and these are what
the observer was told. -/
def Moves (note : σ → Token → σ) (o o' : Observed σ) : Prop :=
  ∃ taken, Takes o.parser taken o'.parser ∧ o'.known = taken.foldl note o.known

variable {note : σ → Token → σ} {o o' o'' : Observed σ}

theorem Moves.refl (note : σ → Token → σ) (o : Observed σ) : Moves note o o :=
  ⟨[], .nothing _, rfl⟩

theorem Moves.trans (h : Moves note o o') (h' : Moves note o' o'') : Moves note o o'' := by
  obtain ⟨taken, htaken, hknown⟩ := h
  obtain ⟨more, hmore, hknown'⟩ := h'
  exact ⟨taken ++ more, htaken.trans hmore, by rw [hknown', hknown, List.foldl_append]⟩

theorem moves_advance (note : σ → Token → σ) (h : o.parser.current.isEof = false) :
    Moves note o (o.advance note) :=
  ⟨[o.parser.current], takes_advance h, rfl⟩

theorem matchToken_of_eq (note : σ → Token → σ) {kind : TokenKind}
    (h : o.parser.current.kind = kind) : o.matchToken note kind = (true, o.advance note) :=
  if_pos h

theorem matchToken_of_ne (note : σ → Token → σ) {kind : TokenKind}
    (h : o.parser.current.kind ≠ kind) : o.matchToken note kind = (false, o) :=
  if_neg h

end Observed

/-- A result, and what is unread behind it, as a reading. -/
def outcome (result : Except ParseError α) (rest : List Token) : Reading α :=
  match result with
  | .ok a => .ok a rest
  | .error e => .error e rest

theorem outcome_inj {a b : Except ParseError α} {ts us : List Token}
    (h : outcome a ts = outcome b us) : a = b ∧ ts = us := by
  cases a <;> cases b <;> simp_all [outcome]

/-- A way for a parser to do what `read` does on a list of tokens. -/
structure Routine (read : List Token → Reading α) where
  observe : {σ : Type} → (note : σ → Token → σ) → Observed σ → Except ParseError α × Observed σ
  follows : ∀ {σ : Type} (note : σ → Token → σ) (o : Observed σ),
    outcome (observe note o).1 (observe note o).2.parser.unread = read o.parser.unread
  moves : ∀ {σ : Type} (note : σ → Token → σ) (o : Observed σ),
    Observed.Moves note o (observe note o).2

/-! ## One token -/

theorem token_read_unread {accept? : Token → Option α} {e : Token → ParseError} {p : Parser} {a : α}
    (hp : p.current.isEof = false) (ha : accept? p.current = some a) :
    (Reader.token accept? e).read p.unread = .ok a p.advance.unread := by
  rw [unread_eq_cons hp]
  simp only [Reader.token, ha]

theorem token_read_unread_none {accept? : Token → Option α} {e : Token → ParseError} {p : Parser}
    (ha : accept? p.current = none) :
    (Reader.token accept? e).read p.unread =
      .error (e (ScriptTree.current p.unread)) p.unread := by
  cases hp : p.current.isEof with
  | true =>
    rw [unread_of_isEof hp]
    rfl
  | false =>
    rw [unread_eq_cons hp]
    simp only [Reader.token, ha, ScriptTree.current, List.headD_cons]

namespace Routine

section

variable {read : List Token → Reading α} {note : σ → Token → σ} {o o' : Observed σ}
  {result : Except ParseError α}

theorem outcome_of_observe (r : Routine read) (h : r.observe note o = (result, o')) :
    read o.parser.unread = outcome result o'.parser.unread := by
  rw [← r.follows note o, h]

theorem outcome_behind (r : Routine read) (h : r.observe note (o.advance note) = (result, o')) :
    read o.parser.advance.unread = outcome result o'.parser.unread :=
  r.outcome_of_observe h

theorem moves_of_observe (r : Routine read) (h : r.observe note o = (result, o')) :
    Observed.Moves note o o' := by
  have hmoves := r.moves note o
  rwa [h] at hmoves

theorem moves_behind (r : Routine read) (note : σ → Token → σ)
    (h : o.parser.current.isEof = false) :
    Observed.Moves note o (r.observe note (o.advance note)).2 :=
  (Observed.moves_advance note h).trans (r.moves note _)

end

theorem length_unread_lt {reader : Reader α} (r : Routine reader.read) {note : σ → Token → σ}
    {o o' : Observed σ} {a : α} (h : r.observe note o = (.ok a, o')) :
    o'.parser.unread.length < o.parser.unread.length :=
  reader.progress (r.outcome_of_observe h)

def refuse (e : ParseError) : Routine (Reader.refuse e : Reader α).read where
  observe _ o := (.error e, o)
  follows _ _ := rfl
  moves note o := .refl note o

/-- The token matched is the previous one by the time it is asked for. -/
def expect (kind : TokenKind) (what : String) (hkind : kind ≠ .eof) :
    Routine (Reader.expect kind what).read where
  observe note o :=
    match o.matchToken note kind with
    | (true, o') => (.ok o'.parser.previous, o')
    | (false, o') => (.error (.expected what o'.parser.current.describe), o')
  follows note o := by
    by_cases h : o.parser.current.kind = kind
    · rw [Observed.matchToken_of_eq note h]
      exact (token_read_unread (isEof_eq_false h hkind) (if_pos h)).symm
    · rw [Observed.matchToken_of_ne note h, Reader.expect, token_read_unread_none (if_neg h),
        describe_current_unread]
      rfl
  moves note o := by
    by_cases h : o.parser.current.kind = kind
    · rw [Observed.matchToken_of_eq note h]
      exact Observed.moves_advance note (isEof_eq_false h hkind)
    · rw [Observed.matchToken_of_ne note h]
      exact .refl note o

theorem isEof_of_operand {p : Parser} {k : OperandKind}
    (h : OperandKind.ofToken? p.current.kind = some k) : p.current.isEof = false :=
  isEof_eq_false (OperandKind.ofToken?_eq_some_iff.mp h) (by cases k <;> decide)

/-- The lexeme is that of the previous token, which is the operand matched. -/
def operand : Routine Reading.operand.read where
  observe note o :=
    match OperandKind.ofToken? o.parser.current.kind with
    | some k => (.ok ⟨.operand k (o.advance note).parser.previous.lexeme, 1⟩, o.advance note)
    | none => (.error (.expectedPrimary o.parser.current.describe), o)
  follows note o := by
    cases hk : OperandKind.ofToken? o.parser.current.kind with
    | none =>
      rw [Reading.operand, token_read_unread_none (by simp [Token.operand?, hk]),
        describe_current_unread]
      rfl
    | some k =>
      refine (token_read_unread (isEof_of_operand hk) ?_).symm
      simp [Token.operand?, hk, Observed.advance, Parser.advance]
  moves note o := by
    cases hk : OperandKind.ofToken? o.parser.current.kind with
    | none => exact .refl note o
    | some k => exact Observed.moves_advance note (isEof_of_operand hk)

/-! ## Routines put together -/

def map {read : List Token → Reading α} (f : α → β) (r : Routine read) :
    Routine fun ts => (read ts).map f where
  observe note o :=
    let (result, o') := r.observe note o
    (result.map f, o')
  follows note o := by
    rw [← r.follows note o]
    obtain ⟨_ | _, _⟩ := r.observe note o <;> rfl
  moves note o := r.moves note o

def bind {read : List Token → Reading α} {next : α → List Token → Reading β} (r : Routine read)
    (s : ∀ a, Routine (next a)) : Routine fun ts => (read ts).bind next where
  observe note o :=
    match r.observe note o with
    | (.error e, o') => (.error e, o')
    | (.ok a, o') => (s a).observe note o'
  follows note o := by
    split
    · next hrun =>
      rw [r.outcome_of_observe hrun]
      rfl
    · next a o' hrun =>
      rw [r.outcome_of_observe hrun]
      exact (s a).follows note o'
  moves note o := by
    split
    · next hrun => exact r.moves_of_observe hrun
    · next a o' hrun => exact (r.moves_of_observe hrun).trans ((s a).moves note o')

/-- Goes on until the current token is one at which to stop. -/
def observeRepeated {reader : Reader α} (r : Routine reader.read) (stop : Token → Bool)
    (note : σ → Token → σ) (o : Observed σ) : Except ParseError (List α) × Observed σ :=
  if o.parser.current.isEof || stop o.parser.current then (.ok [], o)
  else
    match _ : r.observe note o with
    | (.error e, o') => (.error e, o')
    | (.ok a, o') =>
      let (result, o'') := observeRepeated r stop note o'
      (result.map (a :: ·), o'')
termination_by o.parser.unread.length
decreasing_by exact r.length_unread_lt ‹_›

/-- At the end of the input or at a token at which to stop, nothing is read. -/
theorem repeated_read_unread_stop {reader : Reader α} {stop : Token → Bool} {p : Parser}
    (h : (p.current.isEof || stop p.current) = true) :
    reader.repeated stop p.unread = .ok [] p.unread := by
  cases hp : p.current.isEof with
  | true => rw [unread_of_isEof hp, Reader.repeated_nil]
  | false =>
    rw [unread_eq_cons hp]
    exact Reader.repeated_stop _ _ (by simpa [hp] using h)

theorem repeated_read_unread_step {reader : Reader α} {stop : Token → Bool} {p : Parser}
    (h : ¬ (p.current.isEof || stop p.current) = true) :
    reader.repeated stop p.unread =
      (reader.read p.unread).bind fun a rest => (reader.repeated stop rest).map (a :: ·) := by
  have hboth : p.current.isEof = false ∧ stop p.current = false := by simpa using h
  rw [unread_eq_cons hboth.1]
  exact Reader.repeated_step _ _ hboth.2

def repeated {reader : Reader α} (r : Routine reader.read) (stop : Token → Bool) :
    Routine (reader.repeated stop) where
  observe := r.observeRepeated stop
  follows note o := by
    fun_induction observeRepeated r stop note o with
    | case1 o hstop => exact (repeated_read_unread_stop hstop).symm
    | case2 o hstop e o' hrun =>
      rw [repeated_read_unread_step hstop, r.outcome_of_observe hrun]
      rfl
    | case3 o hstop a o' hrun result o'' hrest ih =>
      rw [repeated_read_unread_step hstop, r.outcome_of_observe hrun]
      show _ = (reader.repeated stop o'.parser.unread).map _
      rw [← ih, hrest]
      cases result <;> rfl
  moves note o := by
    fun_induction observeRepeated r stop note o with
    | case1 o => exact .refl note o
    | case2 o _ e o' hrun => exact r.moves_of_observe hrun
    | case3 o _ a o' hrun result o'' hrest ih =>
      rw [hrest] at ih
      exact (r.moves_of_observe hrun).trans ih

end Routine

/-! ## Expressions -/

/-- The operator that the current token is, if it binds at least as tightly as `min`. -/
def operatorAhead? (min : Nat) (p : Parser) : Option Operator :=
  p.current.operator?.filter (min ≤ ·.precedence)

theorem isEof_of_operatorAhead? {min : Nat} {p : Parser} {op : Operator}
    (h : p.operatorAhead? min = some op) : p.current.isEof = false := by
  have hop := (Option.filter_eq_some_iff.mp h).1
  exact isEof_eq_false rfl (Token.operator?_eq_some_iff.mp hop).1

theorem operatorAhead?_unread (min : Nat) (p : Parser) :
    Reading.operatorAhead? min p.unread = (p.operatorAhead? min).map (·, p.advance.unread) := by
  cases hp : p.current.isEof with
  | true =>
    have hnone : p.operatorAhead? min = none := by
      simp [operatorAhead?, Token.operator?, Token.isEof_iff.mp hp]
    rw [unread_of_isEof hp, hnone]
    rfl
  | false => rw [unread_eq_cons hp, Reading.operatorAhead?, operatorAhead?]

namespace Routine

open Reading (Measured)

variable {reader : Nat → Reader Measured}

/-- Folds the operators ahead into `left`, one by one. -/
def observeChain (right : ∀ m, Routine (reader m).read) (min : Nat) (note : σ → Token → σ)
    (left : Measured) (o : Observed σ) : Except ParseError Measured × Observed σ :=
  match _ : o.parser.operatorAhead? min with
  | none => (.ok left, o)
  | some op =>
    match _ : (right op.nextMin).observe note (o.advance note) with
    | (.error e, o') => (.error e, o')
    | (.ok r, o') =>
      if (left.join op r).height ≤ maxHeight then
        observeChain right min note (left.join op r) o'
      else (.error (.tooDeep maxHeight), o')
termination_by o.parser.unread.length
decreasing_by
  have hright := (right _).length_unread_lt ‹_›
  have hop := unread_eq_cons (isEof_of_operatorAhead? ‹o.parser.operatorAhead? min = _›)
  rw [hop, List.length_cons]
  exact Nat.lt_succ_of_lt hright

theorem chain_read_unread_none {min : Nat} {left : Measured} {p : Parser}
    (h : p.operatorAhead? min = none) :
    Reading.chain reader min left p.unread = .ok left p.unread :=
  Reading.chain_of_none (by rw [operatorAhead?_unread, h]; rfl)

theorem chain_read_unread_some {min : Nat} {left : Measured} {p : Parser} {op : Operator}
    (h : p.operatorAhead? min = some op) :
    Reading.chain reader min left p.unread =
      ((reader op.nextMin).read p.advance.unread).bind fun r rest =>
        if (left.join op r).height ≤ maxHeight then Reading.chain reader min (left.join op r) rest
        else .error (.tooDeep maxHeight) rest :=
  Reading.chain_of_some (by rw [operatorAhead?_unread, h]; rfl)

def chain (right : ∀ m, Routine (reader m).read) (min : Nat) (left : Measured) :
    Routine (Reading.chain reader min left) where
  observe note o := observeChain right min note left o
  follows note o := by
    fun_induction observeChain right min note left o with
    | case1 left o hop => exact (chain_read_unread_none hop).symm
    | case2 left o op hop e o' hrun =>
      rw [chain_read_unread_some hop, (right op.nextMin).outcome_behind hrun]
      rfl
    | case3 left o op hop r o' hrun hheight ih =>
      rw [chain_read_unread_some hop, (right op.nextMin).outcome_behind hrun]
      exact ih.trans (if_pos hheight).symm
    | case4 left o op hop r o' hrun hheight =>
      rw [chain_read_unread_some hop, (right op.nextMin).outcome_behind hrun]
      exact (if_neg hheight).symm
  moves note o := by
    fun_induction observeChain right min note left o with
    | case1 left o => exact .refl note o
    | case2 left o op hop e o' hrun =>
      have hoperator := Observed.moves_advance note (isEof_of_operatorAhead? hop)
      exact hoperator.trans ((right op.nextMin).moves_of_observe hrun)
    | case3 left o op hop r o' hrun _ ih =>
      have hoperator := Observed.moves_advance note (isEof_of_operatorAhead? hop)
      exact (hoperator.trans ((right op.nextMin).moves_of_observe hrun)).trans ih
    | case4 left o op hop r o' hrun =>
      have hoperator := Observed.moves_advance note (isEof_of_operatorAhead? hop)
      exact hoperator.trans ((right op.nextMin).moves_of_observe hrun)

def climb : (room min : Nat) → Routine (Reading.climb room min).read
  | 0, _ => refuse (.tooDeep maxHeight)
  | room + 1, min => operand.bind fun left => chain (climb room) min left

def expression : Routine Reading.expression.read := (climb maxHeight 0).map Measured.node

/-! ## Statements -/

def binding (kind : BindingKind) : Routine (Reading.binding kind).read :=
  (expect .identifier kind.wanted (by decide)).bind fun name =>
  (expect (.symbol .equal) "'=' after binding name" (by decide)).bind fun _ =>
  expression.bind fun value =>
  (expect (.symbol .semiColon) "';' after binding" (by decide)).map fun _ =>
  Node.binding kind name.lexeme value

def block : Routine Reading.block.read :=
  (expression.repeated (·.kind = .symbol .rightBrace)).bind fun body =>
  (expect (.symbol .rightBrace) "'\x7d' to close block" (by decide)).map fun _ =>
  Node.block body

theorem isEof_of_opened? {p : Parser} {reader : Reader Node}
    (h : Reading.opened? p.current.kind = some reader) : p.current.isEof = false := by
  refine isEof_eq_false rfl fun heof => ?_
  rw [heof] at h
  cases h

theorem statement_read_unread {p : Parser} {reader : Reader Node}
    (h : Reading.opened? p.current.kind = some reader) :
    Reading.statement.read p.unread = reader.read p.advance.unread := by
  rw [unread_eq_cons (isEof_of_opened? h)]
  simp only [Reading.statement, ScriptTree.current, List.headD_cons, h, List.tail_cons]

theorem statement_read_unread_none {p : Parser} (h : Reading.opened? p.current.kind = none) :
    Reading.statement.read p.unread = Reading.expression.read p.unread := by
  simp only [Reading.statement, kind_current_unread, h]

/-- What the current token opens is read behind it. -/
def statement : Routine Reading.statement.read where
  observe note o :=
    match o.parser.current.kind with
    | .keyword .letWord => (binding .letBinding).observe note (o.advance note)
    | .keyword .constWord => (binding .constBinding).observe note (o.advance note)
    | .symbol .leftBrace => block.observe note (o.advance note)
    | _ => expression.observe note o
  follows note o := by
    split
    · next hkind =>
      rw [statement_read_unread (by rw [hkind]; rfl)]
      exact (binding .letBinding).follows note (o.advance note)
    · next hkind =>
      rw [statement_read_unread (by rw [hkind]; rfl)]
      exact (binding .constBinding).follows note (o.advance note)
    · next hkind =>
      rw [statement_read_unread (by rw [hkind]; rfl)]
      exact block.follows note (o.advance note)
    · next hlet hconst hbrace =>
      rw [statement_read_unread_none (by unfold Reading.opened?; split <;> simp_all)]
      exact expression.follows note o
  moves note o := by
    split
    · next hkind => exact moves_behind _ note (isEof_eq_false hkind (by decide))
    · next hkind => exact moves_behind _ note (isEof_eq_false hkind (by decide))
    · next hkind => exact moves_behind _ note (isEof_eq_false hkind (by decide))
    · exact expression.moves note o

def statements : Routine Reading.statements := statement.repeated fun _ => false

/-- Statements up to the end of the input, as a program. -/
def program : Routine fun ts => (Reading.statements ts).map Program.mk :=
  statements.map Program.mk

/-! ## Observers -/

variable {read read' : List Token → Reading α}

/-- What a routine does, when nobody is told of its moves. -/
def run (r : Routine read) (p : Parser) : Except ParseError α × Parser :=
  (r.observe (fun _ _ => ()) ⟨p, ()⟩).map id Observed.parser

/-- Routines that read the same come to the same result and leave the same parser, whoever is told
of their moves. -/
theorem observe_congr (r : Routine read) (r' : Routine read') (note : σ → Token → σ)
    (note' : τ → Token → τ) {p : Parser} (known : σ) (known' : τ)
    (h : read p.unread = read' p.unread) :
    (r.observe note ⟨p, known⟩).1 = (r'.observe note' ⟨p, known'⟩).1 ∧
      (r.observe note ⟨p, known⟩).2.parser = (r'.observe note' ⟨p, known'⟩).2.parser := by
  obtain ⟨taken, htaken, -⟩ := r.moves note ⟨p, known⟩
  obtain ⟨taken', htaken', -⟩ := r'.moves note' ⟨p, known'⟩
  have hends := (r.follows note ⟨p, known⟩).trans (h.trans (r'.follows note' ⟨p, known'⟩).symm)
  obtain ⟨hresult, hrest⟩ := outcome_inj hends
  -- What is left is the same, and so is what was taken before it.
  have hsplit := htaken.unread_eq.symm.trans htaken'.unread_eq
  rw [hrest, List.append_left_inj] at hsplit
  subst hsplit
  exact ⟨hresult, htaken.unique htaken'⟩

/-- An observer makes no difference, and is told the tokens taken. -/
theorem observe_eq (r : Routine read) (note : σ → Token → σ) (p : Parser) (known : σ) :
    ∃ taken, Takes p taken (r.run p).2 ∧
      r.observe note ⟨p, known⟩ = ((r.run p).1, ⟨(r.run p).2, taken.foldl note known⟩) := by
  obtain ⟨hresult, hparser⟩ := r.observe_congr r note (fun _ _ => ()) known () rfl (p := p)
  obtain ⟨taken, htaken, hknown⟩ := r.moves note ⟨p, known⟩
  generalize r.observe note ⟨p, known⟩ = observed at hresult hparser htaken hknown
  obtain ⟨result, p', known'⟩ := observed
  obtain rfl : p' = (r.run p).2 := hparser
  obtain rfl : result = (r.run p).1 := hresult
  obtain rfl : known' = taken.foldl note known := hknown
  exact ⟨taken, htaken, rfl⟩

theorem run_congr (r : Routine read) (r' : Routine read') {p : Parser}
    (h : read p.unread = read' p.unread) : r.run p = r'.run p := by
  obtain ⟨hresult, hparser⟩ := r.observe_congr r' (fun _ _ => ()) (fun _ _ => ()) () () h
  exact Prod.ext hresult hparser

theorem follows_run (r : Routine read) (p : Parser) :
    outcome (r.run p).1 (r.run p).2.unread = read p.unread :=
  r.follows _ ⟨p, ()⟩

theorem takes_run (r : Routine read) (p : Parser) : ∃ taken, Takes p taken (r.run p).2 := by
  obtain ⟨taken, htaken, -⟩ := r.moves (fun _ _ => ()) ⟨p, ()⟩
  exact ⟨taken, htaken⟩

theorem outcome_of_run (r : Routine read) {p p' : Parser} {result : Except ParseError α}
    (h : r.run p = (result, p')) : read p.unread = outcome result p'.unread := by
  rw [← r.follows_run, h]

theorem takes_of_run (r : Routine read) {p p' : Parser} {result : Except ParseError α}
    (h : r.run p = (result, p')) : ∃ taken, Takes p taken p' := by
  have htakes := r.takes_run p
  rwa [h] at htakes

theorem exists_run_of_read (r : Routine read) {p : Parser} {a : α} {rest : List Token}
    (h : read p.unread = .ok a rest) : ∃ p', r.run p = (.ok a, p') ∧ p'.unread = rest := by
  have houtcome : outcome (r.run p).1 (r.run p).2.unread = outcome (.ok a) rest :=
    (r.follows_run p).trans h
  obtain ⟨hresult, hrest⟩ := outcome_inj houtcome
  exact ⟨(r.run p).2, Prod.ext hresult rfl, hrest⟩

end Routine

/-- Reads statements up to the end of the input. -/
def parse (p : Parser) : Except ParseError Program × Parser := Routine.program.run p

/-- The results of reading `n` programs in a row, and the parser after them. -/
def parseTimes : Nat → Parser → List (Except ParseError Program) × Parser
  | 0, p => ([], p)
  | n + 1, p =>
    let (result, p₁) := p.parse
    let (results, p₂) := parseTimes n p₁
    (result :: results, p₂)

/-- A parser, and the tokens over which it has moved. -/
abbrev Record := Observed (List Token)

/-- Reads statements up to the end of the input, and writes down every move. -/
def Record.parse (m : Record) : Except ParseError Program × Record :=
  Routine.program.observe (fun moves t => moves ++ [t]) m

end Parser

end ScriptTree
