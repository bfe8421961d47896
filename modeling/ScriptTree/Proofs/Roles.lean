import Mathlib.Data.List.Forall2
import ScriptTree.Proofs.Flattening
import ScriptTree.Proofs.Reports

/-!
# Roles

Reading asks for nothing of a token but its role in the grammar (`Token.role`).  So two sources whose
tokens have the same roles, one by one, are read in the same way: the trees of the one are those of
the other with the texts changed, and an error of the one is that of the other with another token
reported (`Source.parse_recast`).

* `Token.apply_kind_eq`, `Token.strength?_role`: what a reader asks of a token is told by its role.
* `Reading.InStep`: two readings that end in the same way.  Readers that keep step
  (`Reading.KeepsStep`) are put together into ones that do: `InStep.bind`, `keepsStep_repeated`,
  `recasts_chain`.
-/

namespace ScriptTree

/-! ## Roles of tokens -/

/-- What a token can be to the grammar. -/
inductive Role
  /-- A literal, or an identifier that is no operator. -/
  | operand (kind : OperandKind)
  /-- One of the identifiers `or`, `and` and `not`, which are operators as well. -/
  | wordOperator
  /-- `+` or `-`. -/
  | sum
  /-- `*` or `/`. -/
  | product
  /-- `<`, `<=`, `>` or `>=`. -/
  | comparison
  /-- A token that no other one can stand for. -/
  | other (t : Token)
  deriving DecidableEq, Repr

def Token.role (t : Token) : Role :=
  match t.kind with
  | .int => .operand .int
  | .float => .operand .float
  | .string => .operand .string
  | .identifier =>
    if t.lexeme ∈ ["or", "and", "not"] then .wordOperator else .operand .identifier
  | .symbol .plus | .symbol .minus => .sum
  | .symbol .star | .symbol .slash => .product
  | .symbol .lessThan | .symbol .lessThanEqual | .symbol .greaterThan
  | .symbol .greaterThanEqual => .comparison
  | _ => .other t

namespace Role

/-- The kind of a token with this role, which may be one of several. -/
def kind : Role → TokenKind
  | operand k => k.toToken
  | wordOperator => .identifier
  | sum => .symbol .plus
  | product => .symbol .star
  | comparison => .symbol .lessThan
  | other t => t.kind

/-- How tightly the operators with this role bind, and to which side they group. -/
def strength? : Role → Option (Nat × Associativity)
  | operand _ => none
  | wordOperator => some (0, .left)
  | sum => some (6, .left)
  | product => some (7, .left)
  | comparison => some (1, .left)
  | other t => t.operator?.map fun o => (o.precedence, o.associativity)

end Role

namespace Token

theorem role_identifier (lexeme : String) : role ⟨.identifier, lexeme⟩ =
    if lexeme ∈ ["or", "and", "not"] then .wordOperator else .operand .identifier := rfl

/-- Only the token itself has the role that no other one has. -/
theorem eq_of_role_eq_other {t u : Token} (h : u.role = .other t) : u = t := by
  obtain ⟨kind, lexeme⟩ := u
  cases kind with
  | symbol s => cases s <;> cases h <;> rfl
  | identifier =>
    rw [role_identifier] at h
    split at h <;> cases h
  | _ => cases h <;> rfl

/-- What does not tell apart the symbols of one role is told by the role. -/
theorem apply_kind_eq {γ : Type} {f : TokenKind → γ}
    (hf : ∀ s : Symbol, f (.symbol s) = f (symbol s).role.kind) (t : Token) :
    f t.kind = f t.role.kind := by
  obtain ⟨kind, lexeme⟩ := t
  cases kind with
  | symbol s =>
    have hkind : (role ⟨.symbol s, lexeme⟩).kind = (symbol s).role.kind := by cases s <;> rfl
    rw [hkind]
    exact hf s
  | identifier =>
    rw [role_identifier]
    split <;> rfl
  | _ => rfl

/-- How an operator binds is told by its role, and so is that a token is none. -/
theorem strength?_role {w : Whitespace} {t : Token} (h : t.HasForm w) :
    t.role.strength? = t.operator?.map fun o => (o.precedence, o.associativity) := by
  cases ho : t.operator? with
  | some o =>
    -- The token of an operator is that of its text, so the table says everything.
    have hall : ∀ o ∈ Operator.table,
        (ofText o.lexeme).role.strength? = some (o.precedence, o.associativity) := by
      decide
    have hstrength := hall o (mem_table_of_operator? ho)
    rwa [ofText_of_operator? h ho] at hstrength
  | none =>
    obtain ⟨kind, lexeme⟩ := t
    cases kind with
    | symbol s =>
      obtain rfl : lexeme = s.text := h
      have hall : ∀ s, (symbol s).operator? = none → (symbol s).role.strength? = none := by decide
      exact hall s ho
    | identifier =>
      have hall : ∀ word ∈ ["or", "and", "not"], Operator.lookup? word ≠ none := by decide
      have hword : lexeme ∉ ["or", "and", "not"] := fun hmem => hall lexeme hmem ho
      rw [role_identifier, if_neg hword]
      rfl
    | int => rfl
    | float => rfl
    | string => rfl
    | keyword k => exact congrArg (Option.map _) ho
    | illegal => exact congrArg (Option.map _) ho
    | eof => exact congrArg (Option.map _) ho

end Token

/-! ## Changed tokens -/

namespace Node

mutual

/-- The tree of changed tokens: its operands, names and operators are those of the tokens that a
change `σ` makes of their tokens. -/
def recast (σ : Token → Token) : Node → Node
  | operand kind text => operand kind (σ ⟨kind.toToken, text⟩).lexeme
  | binary left op right => binary (left.recast σ) (σ (.ofText op)).lexeme (right.recast σ)
  | binding kind name value => binding kind (σ ⟨.identifier, name⟩).lexeme (value.recast σ)
  | block body => block (recastBody σ body)

def recastBody (σ : Token → Token) : List Node → List Node
  | [] => []
  | n :: ns => n.recast σ :: recastBody σ ns

end

theorem recastBody_eq (σ : Token → Token) (ns : List Node) : recastBody σ ns = ns.map (recast σ) := by
  induction ns with
  | nil => rfl
  | cons n ns ih => rw [recastBody, ih, List.map_cons]

end Node

/-- The program of changed tokens. -/
def Program.recast (σ : Token → Token) (p : Program) : Program := ⟨p.nodes.map (Node.recast σ)⟩

/-- The operator of a changed token. -/
def Operator.recast (σ : Token → Token) (o : Operator) : Operator :=
  { o with lexeme := (σ (.ofText o.lexeme)).lexeme }

/-- The same error with another token reported. -/
def ParseError.reporting (t : Token) : ParseError → ParseError
  | expected what _ => expected what t.describe
  | expectedPrimary _ => expectedPrimary t.describe
  | tooDeep limit => tooDeep limit

/-- The change `σ` makes `u` of `t`, both are tokens of some source, and the role is the same. -/
structure Token.Recast (σ : Token → Token) (t u : Token) : Prop where
  eq : u = σ t
  form : ∃ w, t.HasForm w
  form' : ∃ w, u.HasForm w
  role : u.role = t.role

namespace Token

variable {σ : Token → Token} {t u : Token}

theorem Recast.kind_congr {γ : Type} (h : Recast σ t u) {f : TokenKind → γ}
    (hf : ∀ s : Symbol, f (.symbol s) = f (symbol s).role.kind) : f u.kind = f t.kind := by
  rw [apply_kind_eq hf u, apply_kind_eq hf t, h.role]

/-- An operand is changed into an operand of the same kind. -/
theorem Recast.operand? (h : Recast σ t u) : u.operand? = t.operand?.map (Node.recast σ) := by
  have hkind : OperandKind.ofToken? u.kind = OperandKind.ofToken? t.kind :=
    h.kind_congr fun s => by cases s <;> rfl
  unfold Token.operand?
  rw [hkind]
  cases hk : OperandKind.ofToken? t.kind with
  | none => rfl
  | some k =>
    have ht : (⟨k.toToken, t.lexeme⟩ : Token) = t := by
      rw [← OperandKind.ofToken?_eq_some_iff.mp hk]
    simp only [Option.map_some, Node.recast, ht, h.eq]

/-- An operator is changed into one that binds in the same way, and nothing else into one. -/
theorem Recast.operator? (h : Recast σ t u) :
    u.operator? = t.operator?.map (Operator.recast σ) := by
  obtain ⟨w, hform⟩ := h.form
  obtain ⟨w', hform'⟩ := h.form'
  have hstrength : u.operator?.map (fun o => (o.precedence, o.associativity)) =
      t.operator?.map fun o => (o.precedence, o.associativity) := by
    rw [← strength?_role hform, ← strength?_role hform', h.role]
  cases ht : t.operator? with
  | none =>
    rw [ht] at hstrength
    exact Option.map_eq_none_iff.mp hstrength
  | some o =>
    rw [ht] at hstrength
    obtain ⟨o', ho', hsame⟩ := Option.map_eq_some_iff.mp hstrength
    -- Nothing but the lexeme of an operator is free when its strength is given.
    obtain ⟨-, -, -, hlexeme⟩ := operator?_eq_some_iff.mp ho'
    have hof : Token.ofText o.lexeme = t := ofText_of_operator? hform ht
    obtain ⟨lexeme, precedence, associativity⟩ := o'
    obtain ⟨rfl, rfl⟩ := Prod.mk.inj hsame
    rw [ho', Option.map_some, Operator.recast, hof, ← h.eq, ← hlexeme]

end Token

namespace Reading

variable {α β γ δ : Type}

/-- Two readings of different tokens that end in the same way: both with values, or both with an
error, which differs in the token that it reports alone.  What they leave differs as all tokens
do. -/
inductive InStep (R : Token → Token → Prop) (S : α → β → Prop) : Reading α → Reading β → Prop
  | ok {a : α} {b : β} {rest rest' : List Token} : S a b → List.Forall₂ R rest rest' →
      InStep R S (.ok a rest) (.ok b rest')
  | error {e : ParseError} {rest rest' : List Token} : List.Forall₂ R rest rest' →
      InStep R S (.error e rest) (.error (e.reporting (current rest')) rest')

variable {R : Token → Token → Prop} {S : α → β → Prop} {T : γ → δ → Prop}

theorem InStep.exists_ok {a : α} {rest : List Token} {r : Reading β}
    (h : InStep R S (.ok a rest) r) :
    ∃ b rest', r = .ok b rest' ∧ S a b ∧ List.Forall₂ R rest rest' := by
  cases h with
  | ok hvalue hrest => exact ⟨_, _, rfl, hvalue, hrest⟩

theorem InStep.exists_error {e : ParseError} {rest : List Token} {r : Reading β}
    (h : InStep R S (.error e rest : Reading α) r) :
    ∃ rest', r = .error (e.reporting (current rest')) rest' ∧ List.Forall₂ R rest rest' := by
  cases h with
  | error hrest => exact ⟨_, rfl, hrest⟩

theorem InStep.bind {r : Reading α} {r' : Reading β} {f : α → List Token → Reading γ}
    {g : β → List Token → Reading δ} (h : InStep R S r r')
    (hf : ∀ {a b rest rest'}, S a b → List.Forall₂ R rest rest' →
      InStep R T (f a rest) (g b rest')) : InStep R T (r.bind f) (r'.bind g) := by
  cases h with
  | ok hvalue hrest => exact hf hvalue hrest
  | error hrest => exact .error hrest

theorem InStep.map {r : Reading α} {r' : Reading β} {f : α → γ} {g : β → δ} (h : InStep R S r r')
    (hf : ∀ {a b}, S a b → T (f a) (g b)) : InStep R T (r.map f) (r'.map g) := by
  cases h with
  | ok hvalue hrest => exact .ok (hf hvalue) hrest
  | error hrest => exact .error hrest

theorem InStep.imp {S' : α → β → Prop} {r : Reading α} {r' : Reading β} (h : InStep R S r r')
    (himp : ∀ {a b}, S a b → S' a b) : InStep R S' r r' := by
  cases h with
  | ok hvalue hrest => exact .ok (himp hvalue) hrest
  | error hrest => exact .error hrest

/-- Two ways of reading that go in step on tokens that differ in the same way. -/
def KeepsStep (R : Token → Token → Prop) (S : α → β → Prop) (read : List Token → Reading α)
    (read' : List Token → Reading β) : Prop :=
  ∀ {ts us}, List.Forall₂ R ts us → InStep R S (read ts) (read' us)

theorem keepsStep_token {accept? : Token → Option α} {accept?' : Token → Option β}
    {e : Token → ParseError} (haccept : ∀ {t u}, R t u → Option.Rel S (accept? t) (accept?' u))
    (he : ∀ t u, (e t).reporting u = e u) :
    KeepsStep R S (Reader.token accept? e).read (Reader.token accept?' e).read := by
  intro ts us h
  cases h with
  | nil =>
    have hnone : InStep R S (.error (e Token.eof) [])
        (.error ((e Token.eof).reporting (current [])) []) := .error .nil
    rwa [he] at hnone
  | @cons t u ts us htu hrest =>
    have hboth := haccept htu
    simp only [Reader.token]
    generalize accept? t = a?, accept?' u = b? at hboth
    cases hboth with
    | some hab => exact .ok hab hrest
    | none =>
      have hleft : InStep R S (.error (e t) (t :: ts))
          (.error ((e t).reporting (current (u :: us))) (u :: us)) := .error (.cons htu hrest)
      rwa [he] at hleft

theorem keepsStep_repeated {p : Reader α} {q : Reader β} {stop : Token → Bool}
    (hp : KeepsStep R S p.read q.read) (hstop : ∀ {t u}, R t u → stop u = stop t) :
    KeepsStep R (List.Forall₂ S) (p.repeated stop) (q.repeated stop) := by
  intro ts us h
  fun_induction Reader.repeated p stop ts generalizing us with
  | case1 =>
    cases h
    rw [Reader.repeated_nil]
    exact .ok .nil .nil
  | case2 t ts ht =>
    cases h with
    | cons htu hrest =>
      rw [Reader.repeated_stop q _ ((hstop htu).trans ht)]
      exact .ok .nil (.cons htu hrest)
  | case3 t ts ht e rest hread =>
    cases h with
    | cons htu hrest =>
      have hitem := hp (.cons htu hrest)
      rw [hread] at hitem
      obtain ⟨rest', hread', hleft⟩ := hitem.exists_error
      rw [Reader.repeated_step q _ ((hstop htu).trans (by simpa using ht)), hread', Reading.bind]
      exact .error hleft
  | case4 t ts ht a rest hread ih =>
    cases h with
    | cons htu hrest =>
      have hitem := hp (.cons htu hrest)
      rw [hread] at hitem
      obtain ⟨b, rest', hread', hab, hleft⟩ := hitem.exists_ok
      rw [Reader.repeated_step q _ ((hstop htu).trans (by simpa using ht)), hread', Reading.bind]
      exact (ih hleft).map fun hmore => .cons hab hmore

/-! ## Expressions -/

section Recast

variable {σ : Token → Token} {ts us : List Token}

/-- The same measure of the tree of changed tokens. -/
def Measured.recast (σ : Token → Token) (m : Measured) : Measured := ⟨m.node.recast σ, m.height⟩

theorem Measured.height_recast (m : Measured) : (m.recast σ).height = m.height := rfl

theorem Measured.join_recast (left right : Measured) (op : Operator) :
    (left.recast σ).join (op.recast σ) (right.recast σ) = (left.join op right).recast σ := by
  simp only [recast, join, Operator.recast, Node.recast]

/-- Reading changed tokens gives what reading the tokens gives, changed in the same way. -/
def Recasts (σ : Token → Token) (f : α → α) (read : List Token → Reading α) : Prop :=
  KeepsStep (Token.Recast σ) (fun a b => f a = b) read read

theorem map_eq_of_forall₂ {f : α → α} {as bs : List α}
    (h : List.Forall₂ (fun a b => f a = b) as bs) : as.map f = bs := by
  have hmap : List.Forall₂ (· = ·) (as.map f) bs := List.forall₂_map_left_iff.mpr h
  rwa [List.forall₂_eq_eq_eq] at hmap

theorem recasts_operand : Recasts σ (Measured.recast σ) operand.read := by
  refine keepsStep_token ?_ fun _ _ => rfl
  intro t u h
  rw [h.operand?]
  cases t.operand? with
  | none => exact .none
  | some n => exact .some rfl

/-- The operator ahead changes with its token, and goes on binding as it did. -/
theorem operatorAhead?_recast (h : List.Forall₂ (Token.Recast σ) ts us) (min : Nat) :
    operatorAhead? min us =
      (operatorAhead? min ts).map fun next => (next.1.recast σ, us.tail) := by
  cases h with
  | nil => rfl
  | @cons t u ts us ht hrest =>
    simp only [operatorAhead?, ht.operator?]
    cases t.operator? with
    | none => rfl
    | some op =>
      by_cases hmin : min ≤ op.precedence
      · simp [Option.filter, hmin, Operator.recast]
      · simp [Option.filter, hmin, Operator.recast]

theorem nextMin_recast (op : Operator) : (op.recast σ).nextMin = op.nextMin := rfl

theorem afterOperator_recast {min : Nat} {op : Operator} {afterOp : List Token}
    (h : List.Forall₂ (Token.Recast σ) ts us)
    (hahead : operatorAhead? min ts = some (op, afterOp)) :
    operatorAhead? min us = some (op.recast σ, us.tail) ∧
      List.Forall₂ (Token.Recast σ) afterOp us.tail := by
  have hahead' := operatorAhead?_recast h min
  rw [hahead] at hahead'
  obtain ⟨t, rfl, -⟩ := operatorAhead?_eq_some_iff.mp hahead
  cases h with
  | cons _ hafter => exact ⟨hahead', hafter⟩

/-- Both chains fold in operators that bind alike, and with them grow to the same height. -/
theorem recasts_chain {right : Nat → Reader Measured}
    (hright : ∀ m, Recasts σ (Measured.recast σ) (right m).read) (min : Nat) (left : Measured)
    (h : List.Forall₂ (Token.Recast σ) ts us) :
    InStep (Token.Recast σ) (fun m m' => m.recast σ = m') (chain right min left ts)
      (chain right min (left.recast σ) us) := by
  fun_induction chain right min left ts generalizing us with
  | case1 left ts hahead =>
    have hahead' := operatorAhead?_recast h min
    rw [hahead] at hahead'
    rw [chain_of_none hahead']
    exact .ok rfl h
  | case2 left ts op afterOp hahead e rest hread =>
    obtain ⟨hahead', hafter⟩ := afterOperator_recast h hahead
    have hoperand := hright op.nextMin hafter
    rw [hread] at hoperand
    obtain ⟨rest', hread', hrest⟩ := hoperand.exists_error
    rw [chain_of_some hahead', nextMin_recast, hread', bind]
    exact .error hrest
  | case3 left ts op afterOp hahead r mid hread hheight ih =>
    obtain ⟨hahead', hafter⟩ := afterOperator_recast h hahead
    have hoperand := hright op.nextMin hafter
    rw [hread] at hoperand
    obtain ⟨_, mid', hread', rfl, hmid⟩ := hoperand.exists_ok
    rw [chain_of_some hahead', nextMin_recast, hread', bind, Measured.join_recast,
      Measured.height_recast, if_pos hheight]
    exact ih hmid
  | case4 left ts op afterOp hahead r mid hread hhigh =>
    obtain ⟨hahead', hafter⟩ := afterOperator_recast h hahead
    have hoperand := hright op.nextMin hafter
    rw [hread] at hoperand
    obtain ⟨_, mid', hread', rfl, hmid⟩ := hoperand.exists_ok
    rw [chain_of_some hahead', nextMin_recast, hread', bind, Measured.join_recast,
      Measured.height_recast, if_neg hhigh]
    exact .error hmid

/-- Room is used up by operators, of which there are as many. -/
theorem recasts_climb (room min : Nat) : Recasts σ (Measured.recast σ) (climb room min).read := by
  induction room generalizing min with
  | zero =>
    intro ts us h
    exact .error h
  | succ room ih =>
    intro ts us h
    refine (recasts_operand h).bind ?_
    rintro left _ rest rest' rfl hrest
    exact recasts_chain ih min left hrest

theorem recasts_expression : Recasts σ (Node.recast σ) expression.read := by
  intro ts us h
  refine (recasts_climb maxHeight 0 h).map ?_
  rintro m _ rfl
  rfl

/-! ## Statements -/

/-- What is expected by its kind is there in both readings or in neither. -/
theorem keepsStep_expect {kind : TokenKind} (what : String)
    (hkind : ∀ s : Symbol, (.symbol s = kind ↔ (Token.symbol s).role.kind = kind)) :
    KeepsStep (Token.Recast σ) (fun t u => Token.Recast σ t u ∧ t.kind = kind)
      (Reader.expect kind what).read (Reader.expect kind what).read := by
  refine keepsStep_token ?_ fun _ _ => rfl
  intro t u h
  have hsame : (u.kind = kind) = (t.kind = kind) :=
    h.kind_congr (f := fun k => k = kind) fun s => propext (hkind s)
  simp only [hsame]
  by_cases ht : t.kind = kind
  · rw [if_pos ht, if_pos ht]
    exact .some ⟨h, ht⟩
  · rw [if_neg ht, if_neg ht]
    exact .none

theorem recasts_binding (kind : BindingKind) : Recasts σ (Node.recast σ) (binding kind).read := by
  intro ts us h
  refine (keepsStep_expect kind.wanted (by decide) h).bind ?_
  rintro name name' afterName afterName' ⟨hname, hidentifier⟩ h
  refine (keepsStep_expect "'=' after binding name" (by decide) h).bind ?_
  rintro - - afterEquals afterEquals' - h
  refine (recasts_expression h).bind ?_
  rintro value _ afterValue afterValue' rfl h
  refine (keepsStep_expect "';' after binding" (by decide) h).map ?_
  rintro - - -
  have hof : (⟨.identifier, name.lexeme⟩ : Token) = name := by rw [← hidentifier]
  rw [Node.recast, hof, hname.eq]

theorem recasts_block : Recasts σ (Node.recast σ) block.read := by
  intro ts us h
  have hstop : ∀ {t u}, Token.Recast σ t u →
      decide (u.kind = .symbol .rightBrace) = decide (t.kind = .symbol .rightBrace) := by
    intro t u h
    exact h.kind_congr (f := fun k => decide (k = .symbol .rightBrace)) (by decide)
  refine (keepsStep_repeated recasts_expression hstop h).bind ?_
  rintro body body' afterBody afterBody' hbody h
  refine (keepsStep_expect _ (by decide) h).map ?_
  rintro - - -
  rw [Node.recast, Node.recastBody_eq, map_eq_of_forall₂ hbody]

/-- The same is opened, for what opens anything is not changed. -/
theorem recasts_statement : Recasts σ (Node.recast σ) statement.read := by
  intro ts us h
  have hopened : opened? (current us).kind = opened? (current ts).kind := by
    cases h with
    | nil => rfl
    | cons htu _ => exact htu.kind_congr fun s => by cases s <;> rfl
  have htail : List.Forall₂ (Token.Recast σ) ts.tail us.tail := by
    cases h with
    | nil => exact .nil
    | cons _ hrest => exact hrest
  simp only [statement, hopened]
  cases hreader : opened? (current ts).kind with
  | none => exact recasts_expression h
  | some reader =>
    rcases opened?_eq_some hreader with ⟨kind, -, rfl⟩ | ⟨-, rfl⟩
    · exact recasts_binding kind htail
    · exact recasts_block htail

theorem recasts_statements : Recasts σ (List.map (Node.recast σ)) statements := by
  intro ts us h
  exact (keepsStep_repeated recasts_statement (fun _ => rfl) h).imp map_eq_of_forall₂

end Recast

end Reading

/-! ## Sources -/

theorem ParseError.ReportedAt.reporting_current {e : ParseError} {rest : List Token}
    (h : e.ReportedAt rest) : e.reporting (current rest) = e := by
  cases e with
  | expected what found => rw [reporting, h.2.1]
  | expectedPrimary found => rw [reporting, h]
  | tooDeep limit => rfl

theorem Token.eq_map_of_recast {σ : Token → Token} {ts us : List Token}
    (h : List.Forall₂ (Recast σ) ts us) : us = ts.map σ := by
  induction h with
  | nil => rfl
  | cons htu _ ih => rw [List.map_cons, htu.eq, ih]

namespace Source

variable {σ : Token → Token} {s s' : Source}

/-- The end of the input is not changed. -/
theorem recast_eof (hσ : ∀ t ∈ s.tokenize, (σ t).role = t.role) : σ Token.eof = Token.eof :=
  Token.eq_of_role_eq_other (hσ Token.eof (List.mem_append_right _ (List.mem_singleton_self _)))

theorem recast_tokens (hσ : ∀ t ∈ s.tokenize, (σ t).role = t.role)
    (h : s'.tokenize = s.tokenize.map σ) :
    List.Forall₂ (Token.Recast σ) s.tokens s'.tokens := by
  have htokens : s'.tokens = s.tokens.map σ := by
    rw [tokenize, tokenize, List.map_append, List.map_singleton, recast_eof hσ] at h
    exact List.append_cancel_right h
  rw [htokens, List.forall₂_map_right_iff, List.forall₂_same]
  intro t ht
  have ht' : σ t ∈ s'.tokens := htokens ▸ List.mem_map_of_mem ht
  exact ⟨rfl, ⟨_, hasForm_of_mem_tokens ht⟩, ⟨_, hasForm_of_mem_tokens ht'⟩,
    hσ t (List.mem_append_left _ ht)⟩

/-- **The form of what is read depends on the roles of the tokens alone.**  Where a change `σ` keeps
the roles of the tokens of `s` and makes the tokens of `s'` of them, the program of `s'` is that of
`s` changed by `σ`, and an error of `s` is one of `s'`, of the same kind and with the same words
about what was expected, which reports the changed token in place of the first one left. -/
theorem parse_recast (hσ : ∀ t ∈ s.tokenize, (σ t).role = t.role)
    (h : s'.tokenize = s.tokenize.map σ) :
    (∀ p, s.parse = .ok p → s'.parse = .ok (p.recast σ)) ∧
      ∀ e after, (Session.ofSource s).parse = (.error e, after) →
        e.reporting (current after.ahead) = e ∧
          (Session.ofSource s').parse =
            (.error (e.reporting (σ (current after.ahead))), ⟨after.ahead.map σ⟩) := by
  have hread := Reading.recasts_statements (recast_tokens hσ h)
  constructor
  · intro p hp
    rw [parse_eq_ok_iff] at hp ⊢
    rw [hp] at hread
    obtain ⟨_, _, hread', rfl, hrest⟩ := hread.exists_ok
    cases hrest
    exact hread'
  · intro e after he
    refine ⟨(Session.reportedAt_of_parse he).reporting_current, ?_⟩
    rw [Session.parse_eq_error_iff] at he ⊢
    rw [Session.ofSource] at he
    rw [he] at hread
    obtain ⟨rest', hread', hrest⟩ := hread.exists_error
    obtain rfl := Token.eq_map_of_recast hrest
    have hcurrent : current (after.ahead.map σ) = σ (current after.ahead) := by
      rw [current, current, ← recast_eof hσ, List.headD_map, recast_eof hσ]
    rw [← hcurrent]
    exact hread'

/-- Words that are operators in one place and operands in another, a string that holds a sign, and
a minus where a plus was, under another policy.  Then an error at that sign. -/
theorem parse_recast_words :
    ∃ (σ : Token → Token) (s s' t t' : Source), s = ofString .space "let or = x + \"+\"; and or x" ∧
      s' = ofString .ascii "let not=y-\"*\";\nor not y" ∧ t = ofString .space "or or + x" ∧
      t' = ofString .ascii "not\tnot\t-\ty" ∧ s'.tokenize = s.tokenize.map σ ∧
      t'.tokenize = t.tokenize.map σ ∧
      s.parse = .ok ⟨[.binding .letBinding "or"
        (.binary (.operand .identifier "x") "+" (.operand .string "+")),
        .binary (.operand .identifier "and") "or" (.operand .identifier "x")]⟩ ∧
      s'.parse = .ok ⟨[.binding .letBinding "not"
        (.binary (.operand .identifier "y") "-" (.operand .string "*")),
        .binary (.operand .identifier "or") "not" (.operand .identifier "y")]⟩ ∧
      (Session.ofSource t).parse =
        (.error (.expectedPrimary "'+'"), ⟨[.symbol .plus, .word "x"]⟩) ∧
      (Session.ofSource t').parse =
        (.error (.expectedPrimary "'-'"), ⟨[.symbol .minus, .word "y"]⟩) := by
  let changes : List (Token × Token) :=
    [(.word "or", .word "not"), (.word "and", .word "or"), (.word "x", .word "y"),
      (.symbol .plus, .symbol .minus), (⟨.string, "+"⟩, ⟨.string, "*"⟩)]
  let σ (t : Token) : Token := (changes.lookup t).getD t
  let s := ofString .space "let or = x + \"+\"; and or x"
  let s' := ofString .ascii "let not=y-\"*\";\nor not y"
  let t := ofString .space "or or + x"
  let t' := ofString .ascii "not\tnot\t-\ty"
  have hσs : ∀ u ∈ s.tokenize, (σ u).role = u.role := by decide +kernel
  have hσt : ∀ u ∈ t.tokenize, (σ u).role = u.role := by decide +kernel
  have hs : s'.tokenize = s.tokenize.map σ := by decide +kernel
  have ht : t'.tokenize = t.tokenize.map σ := by decide +kernel
  have hp : s.parse = .ok ⟨[.binding .letBinding "or"
      (.binary (.operand .identifier "x") "+" (.operand .string "+")),
      .binary (.operand .identifier "and") "or" (.operand .identifier "x")]⟩ :=
    sameResult_iff.mp (by decide +kernel)
  have he : (Session.ofSource t).parse =
      (.error (.expectedPrimary "'+'"), ⟨[.symbol .plus, .word "x"]⟩) := by
    decide +kernel
  exact ⟨σ, s, s', t, t', rfl, rfl, rfl, rfl, hs, ht, hp, (parse_recast hσs hs).1 _ hp, he,
    ((parse_recast hσt ht).2 _ _ he).2⟩

end Source

end ScriptTree
