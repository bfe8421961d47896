import ScriptTree.Proofs.Reports
import ScriptTree.Proofs.WellFormedness

/-!
# Legibility

The written form of a result tells which result it is (`Source.parse_eq_iff_written_eq`).

Nothing is escaped in it, and a string may hold commas, brackets and what looks like a node.
But a string holds no quote, a word or number no bracket, an operator or a name no comma: each
part ends where its own end mark first stands (`part_unique`).  So well-formed nodes are told
apart in front of any text (`Node.legible_wellFormed`), and lists of them with what follows.
-/

namespace ScriptTree

/-- A part without its end mark ends at the first one. -/
theorem part_unique {α : Type} [DecidableEq α] {stop : α} {a b u v : List α} (ha : stop ∉ a) (hb : stop ∉ b)
    (h : a ++ stop :: u = b ++ stop :: v) : a = b ∧ u = v := by
  obtain ⟨htakeA, hdropA⟩ := span_eq (stop :: u) (forall_ne_of_not_mem ha) (by simp)
  obtain ⟨htakeB, hdropB⟩ := span_eq (stop :: v) (forall_ne_of_not_mem hb) (by simp)
  rw [h] at htakeA hdropA
  exact ⟨htakeA.symm.trans htakeB, (List.cons.inj (hdropA.symm.trans hdropB)).2⟩

/-- Parts that all have the same end mark are known one by one. -/
theorem parts_unique {α : Type} [DecidableEq α] {stop : α} {as bs : List (List α)}
    (has : ∀ a ∈ as, stop ∉ a) (hbs : ∀ b ∈ bs, stop ∉ b)
    (h : (as.flatMap fun a => a ++ [stop]) = bs.flatMap fun b => b ++ [stop]) : as = bs := by
  induction as generalizing bs with
  | nil =>
    cases bs with
    | nil => rfl
    | cons b bs => simp at h
  | cons a as ih =>
    cases bs with
    | nil => simp at h
    | cons b bs =>
      obtain ⟨ha, has'⟩ := List.forall_mem_cons.mp has
      obtain ⟨hb, hbs'⟩ := List.forall_mem_cons.mp hbs
      simp only [List.flatMap_cons, List.append_assoc, List.singleton_append] at h
      obtain ⟨rfl, htail⟩ := part_unique ha hb h
      rw [ih has' hbs' htail]

/-- Whatever stands behind it, what is written is known, and where it ends. -/
def Legible {α : Type} (p : α → Prop) (write : α → List Char) : Prop :=
  ∀ a b u v, p a → p b → write a ++ u = write b ++ v → a = b ∧ u = v

/-- A list is known as well if nothing can be read from what stands behind it. -/
theorem Legible.flatMap {α : Type} {p : α → Prop} {write : α → List Char}
    (hlegible : Legible p write) {as bs : List α} {u v : List Char} (has : ∀ a ∈ as, p a)
    (hbs : ∀ b ∈ bs, p b) (hu : ∀ b, ¬ write b <+: u) (hv : ∀ a, ¬ write a <+: v)
    (h : as.flatMap write ++ u = bs.flatMap write ++ v) : as = bs ∧ u = v := by
  induction as generalizing bs with
  | nil =>
    cases bs with
    | nil => exact ⟨rfl, h⟩
    | cons b bs =>
      rw [List.flatMap_cons, List.append_assoc] at h
      exact absurd ⟨_, h.symm⟩ (hu b)
  | cons a as ih =>
    cases bs with
    | nil =>
      rw [List.flatMap_cons, List.append_assoc] at h
      exact absurd ⟨_, h⟩ (hv a)
    | cons b bs =>
      obtain ⟨ha, has'⟩ := List.forall_mem_cons.mp has
      obtain ⟨hb, hbs'⟩ := List.forall_mem_cons.mp hbs
      rw [List.flatMap_cons, List.flatMap_cons, List.append_assoc, List.append_assoc] at h
      obtain ⟨rfl, htail⟩ := hlegible _ _ _ _ ha hb h
      obtain ⟨rfl, rfl⟩ := ih has' hbs' htail
      exact ⟨rfl, rfl⟩

/-! ## Heads -/

/-- What a node is, as its written form says first. -/
inductive Head
  | operand (kind : OperandKind)
  | binary
  | binding (kind : BindingKind)
  | block
  deriving DecidableEq, Repr

namespace Head

def all : List Head :=
  [operand .int, operand .float, operand .string, operand .identifier, binary,
    binding .letBinding, binding .constBinding, block]

def label : Head → String
  | operand .int => "IntLiteral"
  | operand .float => "FloatLiteral"
  | operand .string => "StringLiteral"
  | operand .identifier => "Identifier"
  | binary => "BinaryExpr"
  | binding .letBinding => "LetBinding"
  | binding .constBinding => "ConstBinding"
  | block => "Block"

theorem mem_all (h : Head) : h ∈ all := by
  cases h with
  | operand kind => cases kind <;> decide
  | binding kind => cases kind <;> decide
  | _ => decide

private theorem all_label_injective : ∀ a ∈ all, ∀ b ∈ all, a.label = b.label → a = b := by
  decide

theorem label_injective {a b : Head} (h : a.label = b.label) : a = b :=
  all_label_injective a (mem_all a) b (mem_all b) h

private theorem all_bracket_not_mem : ∀ a ∈ all, '(' ∉ a.label.toList := by decide

theorem bracket_not_mem_label (a : Head) : '(' ∉ a.label.toList :=
  all_bracket_not_mem a (mem_all a)

theorem exists_letter (a : Head) : ∃ c cs, a.label.toList = c :: cs ∧ c.isAlpha = true := by
  cases a with
  | operand kind => cases kind <;> exact ⟨_, _, rfl, rfl⟩
  | binding kind => cases kind <;> exact ⟨_, _, rfl, rfl⟩
  | _ => exact ⟨_, _, rfl, rfl⟩

end Head

namespace Node

def head : Node → Head
  | operand kind _ => .operand kind
  | binary .. => .binary
  | binding kind .. => .binding kind
  | block _ => .block

/-- What stands between the brackets. -/
def inner : Node → List Char
  | operand .string text => '"' :: (text.toList ++ ['"'])
  | operand _ text => text.toList
  | binary left op right =>
    left.render.toList ++ ',' :: ' ' :: (op.toList ++ ',' :: ' ' :: right.render.toList)
  | binding _ name value => name.toList ++ ',' :: ' ' :: value.render.toList
  | block body => (renderBody body).toList

theorem toList_render (n : Node) :
    n.render.toList = n.head.label.toList ++ '(' :: (n.inner ++ [')']) := by
  -- Opening `render` by its equations is slow here, and stating what it writes is not.
  cases n with
  | operand kind text =>
    cases kind with
    | int =>
      show ("IntLiteral(" ++ text ++ ")").toList = _
      simp [head, Head.label, inner]
    | float =>
      show ("FloatLiteral(" ++ text ++ ")").toList = _
      simp [head, Head.label, inner]
    | string =>
      show ("StringLiteral(\"" ++ text ++ "\")").toList = _
      simp [head, Head.label, inner]
    | identifier =>
      show ("Identifier(" ++ text ++ ")").toList = _
      simp [head, Head.label, inner]
  | binary left op right =>
    show ("BinaryExpr(" ++ left.render ++ ", " ++ op ++ ", " ++ right.render ++ ")").toList = _
    simp [head, Head.label, inner]
  | binding kind name value =>
    cases kind with
    | letBinding =>
      show ("LetBinding(" ++ name ++ ", " ++ value.render ++ ")").toList = _
      simp [head, Head.label, inner]
    | constBinding =>
      show ("ConstBinding(" ++ name ++ ", " ++ value.render ++ ")").toList = _
      simp [head, Head.label, inner]
  | block body =>
    show ("Block(" ++ renderBody body ++ ")").toList = _
    simp [head, Head.label, inner]

/-- Equal texts begin with equal heads, and go on with equal texts. -/
theorem head_eq_of_render_append {m n : Node} {u v : List Char}
    (h : m.render.toList ++ u = n.render.toList ++ v) :
    m.head = n.head ∧ m.inner ++ ')' :: u = n.inner ++ ')' :: v := by
  simp only [toList_render, List.append_assoc, List.cons_append, List.nil_append] at h
  obtain ⟨hlabel, hinner⟩ :=
    part_unique m.head.bracket_not_mem_label n.head.bracket_not_mem_label h
  exact ⟨Head.label_injective (String.toList_injective hlabel), hinner⟩

/-- Every written form begins with a letter. -/
theorem exists_head_render (n : Node) :
    ∃ c cs, n.render.toList = c :: cs ∧ c.isAlpha = true := by
  obtain ⟨c, cs, hlabel, hc⟩ := n.head.exists_letter
  exact ⟨c, cs ++ '(' :: (n.inner ++ [')']), by rw [toList_render, hlabel]; rfl, hc⟩

/-! ## Expressions -/

/-- Only a string can hold the bracket that ends an operand. -/
theorem bracket_not_mem_of_isExpression {k : OperandKind} {text : String}
    (h : (operand k text).IsExpression) (hk : k ≠ .string) : ')' ∉ text.toList := by
  have hplain : ∀ c ∈ text.toList, IsPlain c := by
    cases k with
    | int => exact (h .space : IsDigits text.toList).isPlain
    | float => exact (h .space : IsPointed text.toList).isPlain
    | string => exact absurd rfl hk
    | identifier => exact (h .space : IsWord text.toList ∧ _).1.isPlain
  exact fun hmem => absurd (hplain _ hmem) (by decide)

theorem operand_unique {k : OperandKind} {text text' : String} {u v : List Char}
    (hm : (operand k text).IsExpression) (hn : (operand k text').IsExpression)
    (h : (operand k text).inner ++ ')' :: u = (operand k text').inner ++ ')' :: v) :
    text = text' ∧ u = v := by
  by_cases hk : k = .string
  · subst hk
    have hquoted : text.toList ++ '"' :: ')' :: u = text'.toList ++ '"' :: ')' :: v := by
      simpa [inner] using h
    obtain ⟨htext, htail⟩ := part_unique (hm .space) (hn .space) hquoted
    exact ⟨String.toList_injective htext, (List.cons.inj htail).2⟩
  · have hinner (t : String) : (operand k t).inner = t.toList := by
      cases k <;> first | rfl | exact absurd rfl hk
    rw [hinner, hinner] at h
    obtain ⟨htext, rfl⟩ := part_unique (bracket_not_mem_of_isExpression hm hk)
      (bracket_not_mem_of_isExpression hn hk) h
    exact ⟨String.toList_injective htext, rfl⟩

private theorem all_comma_not_mem : ∀ o ∈ Operator.table, ',' ∉ o.lexeme.toList := by decide

theorem comma_not_mem_of_lookup? {op : String} {o : Operator}
    (h : Operator.lookup? op = some o) : ',' ∉ op.toList := by
  obtain ⟨ho, rfl⟩ := Operator.lookup?_eq_some_iff.mp h
  exact all_comma_not_mem o ho

/-- Expressions are told apart in front of any text. -/
theorem legible_isExpression : Legible IsExpression fun n => n.render.toList
  | .operand k text, n, u, v, hm, hn, h => by
    obtain ⟨hhead, hinner⟩ := head_eq_of_render_append h
    cases n with
    | operand =>
      cases hhead
      obtain ⟨rfl, rfl⟩ := operand_unique hm hn hinner
      exact ⟨rfl, rfl⟩
    | _ => cases hhead
  | .binary left op right, n, u, v, ⟨hleft, hright, o, ho, _⟩, hn, h => by
    obtain ⟨hhead, hinner⟩ := head_eq_of_render_append h
    cases n with
    | binary left' op' right' =>
      obtain ⟨hleft', hright', o', ho', -⟩ := hn
      simp only [inner, List.append_assoc, List.cons_append] at hinner
      obtain ⟨rfl, hop⟩ := legible_isExpression _ _ _ _ hleft hleft' hinner
      obtain ⟨hsame, hrest⟩ := part_unique (comma_not_mem_of_lookup? ho)
        (comma_not_mem_of_lookup? ho') (List.cons.inj (List.cons.inj hop).2).2
      obtain ⟨rfl, hend⟩ := legible_isExpression _ _ _ _ hright hright' (List.cons.inj hrest).2
      exact ⟨by rw [String.toList_injective hsame], (List.cons.inj hend).2⟩
    | _ => cases hhead
  | .binding .., _, _, _, hm, _, _ => False.elim hm
  | .block _, _, _, _, hm, _, _ => False.elim hm

/-! ## Statements -/

theorem toList_renderBody (n : Node) (ns : List Node) :
    (renderBody (n :: ns)).toList =
      n.render.toList ++ ns.flatMap fun m => ',' :: ' ' :: m.render.toList := by
  induction ns generalizing n with
  | nil =>
    show n.render.toList = _
    simp
  | cons m ns ih =>
    show (n.render ++ ", " ++ renderBody (m :: ns)).toList = _
    simp [ih]

/-- The expressions of a block are told apart in front of its bracket. -/
theorem body_unique {ns ms : List Node} {u v : List Char} (hns : ∀ n ∈ ns, n.IsExpression)
    (hms : ∀ m ∈ ms, m.IsExpression)
    (h : (renderBody ns).toList ++ ')' :: u = (renderBody ms).toList ++ ')' :: v) :
    ns = ms ∧ u = v := by
  have hempty {n : Node} {ns : List Node} {u v : List Char} :
      ')' :: u ≠ (renderBody (n :: ns)).toList ++ v := by
    obtain ⟨c, cs, hrender, hc⟩ := exists_head_render n
    rw [toList_renderBody, hrender]
    rintro ⟨⟩
    cases hc
  have hmore : Legible IsExpression fun m => ',' :: ' ' :: m.render.toList := by
    intro a b u v ha hb hab
    exact legible_isExpression a b u v ha hb (by simpa using hab)
  have hbracket (m : Node) (u : List Char) : ¬ ',' :: ' ' :: m.render.toList <+: ')' :: u := by
    rintro ⟨_, ⟨⟩⟩
  match ns, ms with
  | [], [] => exact ⟨rfl, (List.cons.inj h).2⟩
  | [], m :: ms => exact absurd h hempty
  | n :: ns, [] => exact absurd h.symm hempty
  | n :: ns, m :: ms =>
    obtain ⟨hn, hns'⟩ := List.forall_mem_cons.mp hns
    obtain ⟨hm, hms'⟩ := List.forall_mem_cons.mp hms
    rw [toList_renderBody, toList_renderBody, List.append_assoc, List.append_assoc] at h
    obtain ⟨rfl, htail⟩ := legible_isExpression _ _ _ _ hn hm h
    obtain ⟨rfl, hend⟩ := hmore.flatMap hns' hms' (hbracket · u) (hbracket · v) htail
    exact ⟨rfl, (List.cons.inj hend).2⟩

/-- Statements are told apart in front of any text. -/
theorem legible_wellFormed : Legible WellFormed fun n => n.render.toList := by
  intro m n u v hm hn h
  obtain ⟨hhead, hinner⟩ := head_eq_of_render_append h
  cases m with
  | operand =>
    cases n with
    | operand => exact legible_isExpression _ _ _ _ hm.1 hn.1 h
    | _ => cases hhead
  | binary =>
    cases n with
    | binary => exact legible_isExpression _ _ _ _ hm.1 hn.1 h
    | _ => cases hhead
  | binding kind name value =>
    cases n with
    | binding kind' name' value' =>
      cases hhead
      have hcomma {name : String} {value : Node} (hwell : (binding kind name value).WellFormed) :
          ',' ∉ name.toList :=
        fun hmem => absurd ((hwell.1 .space : IsWord name.toList ∧ _).1.isPlain _ hmem) (by decide)
      simp only [inner, List.append_assoc, List.cons_append] at hinner
      obtain ⟨hname, hvalue⟩ := part_unique (hcomma hm) (hcomma hn) hinner
      obtain ⟨rfl, hend⟩ :=
        legible_isExpression _ _ _ _ hm.2.1 hn.2.1 (List.cons.inj hvalue).2
      exact ⟨by rw [String.toList_injective hname], (List.cons.inj hend).2⟩
    | _ => cases hhead
  | block body =>
    cases n with
    | block body' =>
      obtain ⟨rfl, rfl⟩ :=
        body_unique (fun n hn => (hm.1 n hn).1) (fun m hm => (hn.1 m hm).1) hinner
      exact ⟨rfl, rfl⟩
    | _ => cases hhead

end Node

theorem Program.toList_render (p : Program) :
    p.render.toList = p.nodes.flatMap fun n => n.render.toList ++ ['\n'] := by
  rw [render, Text.toList_unlines, List.flatMap_map]

/-- A well-formed program is known by its written form. -/
theorem Program.eq_of_render_eq {p q : Program} (hp : p.WellFormed) (hq : q.WellFormed)
    (h : p.render = q.render) : p = q := by
  have hlines : Legible Node.WellFormed fun n => n.render.toList ++ ['\n'] := by
    intro a b u v ha hb hab
    simp only [List.append_assoc] at hab
    obtain ⟨rfl, hend⟩ := Node.legible_wellFormed a b _ _ ha hb hab
    exact ⟨rfl, (List.cons.inj hend).2⟩
  have htexts := congrArg String.toList h
  rw [toList_render, toList_render] at htexts
  obtain ⟨hnodes, -⟩ := hlines.flatMap (u := []) (v := []) hp.1 hq.1 (by simp) (by simp)
    (by simpa using htexts)
  obtain ⟨nodes⟩ := p
  exact congrArg Program.mk hnodes

/-! ## Errors -/

namespace ParseError

theorem missing_unique {what what' found found' : String} (hwhat : ',' ∉ what.toList)
    (hwhat' : ',' ∉ what'.toList)
    (h : "expected " ++ what ++ ", got " ++ found = "expected " ++ what' ++ ", got " ++ found') :
    what = what' ∧ found = found' := by
  have hgot : ", got ".toList = ',' :: " got ".toList := rfl
  have hchars := congrArg String.toList h
  simp only [String.toList_append, List.append_assoc, hgot, List.cons_append] at hchars
  obtain ⟨hsame, hfound⟩ := part_unique hwhat hwhat' (List.append_cancel_left hchars)
  exact ⟨String.toList_injective hsame, String.toList_injective (List.append_cancel_left hfound)⟩

/-- Messages about tokens and about depth differ in their fourth letter. -/
theorem missing_ne_tooDeep (what found levels : String) :
    "expected " ++ what ++ ", got " ++ found ≠ "expression nested deeper than " ++ levels := by
  intro h
  have hchars := congrArg String.toList h
  simp only [String.toList_append, List.append_assoc] at hchars
  have hletters := congrArg (List.take 4) hchars
  rw [List.take_append_of_le_length (by decide), List.take_append_of_le_length (by decide)]
    at hletters
  exact absurd hletters (by decide)

/-- What a message says to be missing, unless it is about depth.  No operand is one case of it. -/
def missing? : ParseError → Option (String × String)
  | expected what found => some (what, found)
  | expectedPrimary found => some ("a primary token", found)
  | tooDeep _ => none

theorem message_of_missing? {e : ParseError} {what found : String}
    (h : e.missing? = some (what, found)) :
    e.message = "expected " ++ what ++ ", got " ++ found := by
  cases e with
  | expected => cases h; rfl
  | expectedPrimary => cases h; rfl
  | tooDeep => cases h

/-- What is wanted holds no comma, and is never an operand. -/
theorem comma_not_mem_of_missing? {e : ParseError} {ts : List Token} {what found : String}
    (he : e.ReportedAt ts) (h : e.missing? = some (what, found)) : ',' ∉ what.toList := by
  have hall : ∀ what ∈ wanted, ',' ∉ what.toList := by decide
  cases e with
  | expected => cases h; exact hall _ he.1
  | expectedPrimary => cases h; decide
  | tooDeep => cases h

theorem eq_of_missing?_eq {e f : ParseError} {ts us : List Token} (he : e.ReportedAt ts)
    (hf : f.ReportedAt us) (h : e.missing? = f.missing?) : e = f := by
  have hprimary : "a primary token" ∉ wanted := by decide
  cases e with
  | expected what =>
    cases f with
    | expected => cases h; rfl
    | expectedPrimary => cases h; exact absurd he.1 hprimary
    | tooDeep => cases h
  | expectedPrimary =>
    cases f with
    | expected => cases h; exact absurd hf.1 hprimary
    | expectedPrimary => cases h; rfl
    | tooDeep => cases h
  | tooDeep limit =>
    cases f with
    | tooDeep limit' => rw [he, hf]
    | _ => cases h

theorem message_of_missing?_eq_none {e : ParseError} (h : e.missing? = none) :
    ∃ levels, e.message = "expression nested deeper than " ++ levels := by
  cases e with
  | tooDeep limit => exact ⟨limit.repr ++ " levels", String.append_assoc ..⟩
  | _ => cases h

/-- A reported error is known by its message. -/
theorem eq_of_message_eq {e f : ParseError} {ts us : List Token} (he : e.ReportedAt ts)
    (hf : f.ReportedAt us) (h : e.message = f.message) : e = f := by
  refine eq_of_missing?_eq he hf ?_
  cases hme : e.missing? with
  | none =>
    cases hmf : f.missing? with
    | none => rfl
    | some missing =>
      obtain ⟨levels, hlevels⟩ := message_of_missing?_eq_none hme
      rw [hlevels, message_of_missing? hmf] at h
      exact absurd h.symm (missing_ne_tooDeep _ _ _)
  | some missing =>
    cases hmf : f.missing? with
    | none =>
      obtain ⟨levels, hlevels⟩ := message_of_missing?_eq_none hmf
      rw [hlevels, message_of_missing? hme] at h
      exact absurd h (missing_ne_tooDeep _ _ _)
    | some missing' =>
      rw [message_of_missing? hme, message_of_missing? hmf] at h
      obtain ⟨hwhat, hfound⟩ := missing_unique (comma_not_mem_of_missing? he hme)
        (comma_not_mem_of_missing? hf hmf) h
      exact congrArg some (Prod.ext hwhat hfound)

end ParseError

/-! ## Results -/

namespace Source

theorem wellFormed_of_parse {s : Source} {p : Program} (h : s.parse = .ok p) : p.WellFormed :=
  Session.wellFormed_of_parse (fun _ => hasForm_of_mem_tokens) h

theorem reportedAt_of_parse {s : Source} {e : ParseError} (h : s.parse = .error e) :
    ∃ rest, e.ReportedAt rest :=
  ⟨_, Session.reportedAt_of_parse (Prod.ext h rfl)⟩

/-- **Written results tell results apart.**  Two sources, whatever each of them skips, hold the
same program if and only if it is written the same, and fail with the same error if and only if
the messages are the same. -/
theorem parse_eq_iff_written_eq (s s' : Source) :
    (∀ p q, s.parse = .ok p → s'.parse = .ok q → (s.parse = s'.parse ↔ p.render = q.render)) ∧
      ∀ e f, s.parse = .error e → s'.parse = .error f →
        (s.parse = s'.parse ↔ e.message = f.message) := by
  constructor
  · intro p q hp hq
    rw [hp, hq, Except.ok.injEq]
    exact ⟨congrArg Program.render,
      Program.eq_of_render_eq (wellFormed_of_parse hp) (wellFormed_of_parse hq)⟩
  · intro e f he hf
    obtain ⟨_, hreportE⟩ := reportedAt_of_parse he
    obtain ⟨_, hreportF⟩ := reportedAt_of_parse hf
    rw [he, hf, Except.error.injEq]
    exact ⟨congrArg ParseError.message, ParseError.eq_of_message_eq hreportE hreportF⟩

/-- Two operands and a string that looks like them, and two errors of which one holds the text
of the other. -/
theorem parse_eq_iff_written_eq_string :
    (∃ p q, (ofString .space "\x7b \"a\" b\x7d").parse = .ok p ∧
      (ofString .ascii "\x7b\"a), Identifier(b\"\x7d\n").parse = .ok q ∧
      p.render = "Block(StringLiteral(\"a\"), Identifier(b))\n" ∧
      q.render = "Block(StringLiteral(\"a), Identifier(b\"))\n" ∧
      (ofString .space "\x7b \"a\" b\x7d").parse ≠
        (ofString .ascii "\x7b\"a), Identifier(b\"\x7d\n").parse) ∧
    ∃ e f, (ofString .space "let \", got end of input").parse = .error e ∧
      (ofString .ascii "let").parse = .error f ∧
      e.message = "expected identifier after 'let', got string \", got end of input\"" ∧
      f.message = "expected identifier after 'let', got end of input" ∧
      (ofString .space "let \", got end of input").parse ≠ (ofString .ascii "let").parse := by
  constructor
  · let p : Program := ⟨[.block [.operand .string "a", .operand .identifier "b"]]⟩
    let q : Program := ⟨[.block [.operand .string "a), Identifier(b"]]⟩
    have hp : (ofString .space "\x7b \"a\" b\x7d").parse = .ok p :=
      sameResult_iff.mp (by decide +kernel)
    have hq : (ofString .ascii "\x7b\"a), Identifier(b\"\x7d\n").parse = .ok q :=
      sameResult_iff.mp (by decide +kernel)
    have hiff := (parse_eq_iff_written_eq _ _).1 p q hp hq
    exact ⟨p, q, hp, hq, by decide +kernel, by decide +kernel,
      fun h => absurd (hiff.mp h) (by decide +kernel)⟩
  · let e : ParseError := .expected "identifier after 'let'" "string \", got end of input\""
    let f : ParseError := .expected "identifier after 'let'" "end of input"
    have he : (ofString .space "let \", got end of input").parse = .error e :=
      sameResult_iff.mp (by decide +kernel)
    have hf : (ofString .ascii "let").parse = .error f := sameResult_iff.mp (by decide +kernel)
    have hiff := (parse_eq_iff_written_eq _ _).2 e f he hf
    exact ⟨e, f, he, hf, by decide +kernel, by decide +kernel,
      fun h => absurd (hiff.mp h) (by decide +kernel)⟩

end Source

end ScriptTree
