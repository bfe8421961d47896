import ScriptTree.Proofs.Flattening
import ScriptTree.Proofs.Settling

/-!
# Progress

Reading goes forward, and no further than there is anything to read.

* A routine that succeeds has moved on (`Parser.Routine.exists_takes_of_ok`).
* All moves made while a program is read are moves over tokens that were left
  (`Parser.parse_recorded`), none of them the end of the input.
* A tree has no more nodes than tokens (`Node.count_le_length_tokens`).
* `Parser.reads_within` says this of parsers that have read any number of programs.
-/

namespace ScriptTree

/-! ## Nodes and tokens -/

namespace Node

mutual

/-- Every node stands for a token of its own. -/
theorem count_le_length_tokens : (n : Node) → n.count ≤ n.tokens.length
  | operand .. => Nat.le_refl _
  | binary left _ right => by
    have hleft := left.count_le_length_tokens
    have hright := right.count_le_length_tokens
    simp only [count, tokens, List.length_append, List.length_cons]
    omega
  | binding _ _ value => by
    have hvalue := value.count_le_length_tokens
    simp only [count, tokens, List.length_append, List.length_cons]
    omega
  | block body => by
    have hbody := countBody_le_length_tokensBody body
    simp only [count, tokens, List.length_append, List.length_cons]
    omega

theorem countBody_le_length_tokensBody : (ns : List Node) → countBody ns ≤ (tokensBody ns).length
  | [] => Nat.le_refl _
  | n :: ns => by
    have hfirst := n.count_le_length_tokens
    have hothers := countBody_le_length_tokensBody ns
    simp only [countBody, tokensBody, List.length_append]
    omega

end

end Node

theorem Program.count_le_length_tokens (p : Program) : p.count ≤ p.tokens.length := by
  rw [tokens, ← Node.tokensBody_eq]
  exact Node.countBody_le_length_tokensBody p.nodes

namespace Parser

variable {α : Type}

/-! ## Moves -/

/-- A routine that succeeds has moved on. -/
theorem Routine.exists_takes_of_ok {reader : Reader α} (r : Routine reader.read) {p p' : Parser}
    {a : α} (h : r.run p = (.ok a, p')) : ∃ taken, taken ≠ [] ∧ Takes p taken p' := by
  obtain ⟨taken, htaken⟩ := r.takes_of_run h
  refine ⟨taken, ?_, htaken⟩
  rintro rfl
  have hprogress : p'.unread.length < p.unread.length := reader.progress (r.outcome_of_run h)
  rw [htaken.unread_eq] at hprogress
  exact absurd hprogress (Nat.lt_irrefl _)

theorem Takes.isEof_of_mem {p q : Parser} {ts : List Token} {t : Token} (h : Takes p ts q)
    (ht : t ∈ ts) : t.isEof = false := by
  induction h with
  | nothing => cases ht
  | token hp _ ih =>
    rcases List.mem_cons.mp ht with rfl | hmore
    · exact hp
    · exact ih hmore

theorem Takes.length_le {p q : Parser} {ts : List Token} (h : Takes p ts q) :
    ts.length ≤ p.unread.length := by
  rw [h.unread_eq, List.length_append]
  exact Nat.le_add_right _ _

/-- With an empty record at hand, what is written down is what is taken. -/
theorem parse_recorded (p : Parser) :
    ∃ moves, Takes p moves p.parse.2 ∧ Record.parse ⟨p, []⟩ = (p.parse.1, ⟨p.parse.2, moves⟩) := by
  obtain ⟨moves, htakes, hrecord⟩ := Routine.program.observe_eq (fun moves t => moves ++ [t]) p []
  rw [List.foldl_append_eq_append, List.nil_append, ← List.flatMap_def,
    List.flatMap_singleton'] at hrecord
  exact ⟨moves, htakes, hrecord⟩

/-! ## Programs -/

theorem hasForm_of_mem_unread {s : Source} {p : Parser} {ts : List Token} {t : Token}
    (h : Takes (ofSource s) ts p) (ht : t ∈ p.unread) : t.HasForm s.whitespace := by
  have hmem : t ∈ (ofSource s).unread := by
    rw [h.unread_eq]
    exact List.mem_append_right _ ht
  rw [unread_ofSource] at hmem
  exact Source.hasForm_of_mem_tokens hmem

/-- A program that is read takes all tokens, and they are those that it stands for. -/
theorem tokens_of_parse {s : Source} {p : Parser} {ts : List Token} {program : Program}
    (h : Takes (ofSource s) ts p) (hparse : p.parse.1 = .ok program) :
    program.tokens = p.unread := by
  rw [(parse_eq p).1] at hparse
  obtain ⟨-, cut, hcut, -, hnodes⟩ := Reading.statements_eq_ok_iff.mp (Session.parse_eq_ok_iff.mp hparse)
  rw [Program.tokens, hnodes]
  exact hcut.tokens_nodes fun _ ht => hasForm_of_mem_unread h ht

/-- **Reading goes forward and ends in time.**  Every statement that is read takes a token, and so
does every expression, those of a block included, whatever the parser.  While a program is read, by
a parser that may have read others before, no move is made at the end of the input; so no more
tokens are asked for than were left.  The program has no more nodes than tokens were taken. -/
theorem reads_within (s : Source) (calls : Nat) :
    (∀ p p' n, Routine.statement.run p = (.ok n, p') → ∃ taken, taken ≠ [] ∧ Takes p taken p') ∧
    (∀ p p' n, Routine.expression.run p = (.ok n, p') → ∃ taken, taken ≠ [] ∧ Takes p taken p') ∧
    let p := ((ofSource s).parseTimes calls).2
    ∃ moves, Record.parse ⟨p, []⟩ = (p.parse.1, ⟨p.parse.2, moves⟩) ∧
      (∀ t ∈ moves, t.isEof = false) ∧ moves.length ≤ p.unread.length ∧
      ∀ program, p.parse.1 = .ok program → program.count ≤ moves.length := by
  refine ⟨fun _ _ _ h => Routine.statement.exists_takes_of_ok h,
    fun _ _ _ h => Routine.expression.exists_takes_of_ok h, ?_⟩
  intro p
  obtain ⟨moves, htakes, hrecord⟩ := parse_recorded p
  refine ⟨moves, hrecord, fun t ht => htakes.isEof_of_mem ht, htakes.length_le, ?_⟩
  intro program hprogram
  obtain ⟨before, hbefore⟩ := takes_parseTimes (ofSource s) calls
  have htokens := tokens_of_parse hbefore hprogram
  have hend : p.parse.2.unread = [] := by
    rw [(parse_eq p).2, Session.parse_snd_of_ok ((parse_eq p).1.symm.trans hprogram)]
  have hmoves : p.unread = moves := by rw [htakes.unread_eq, hend, List.append_nil]
  rw [← hmoves, ← htokens]
  exact program.count_le_length_tokens

/-- Behind an error in a binding: three statements with six nodes and seven tokens. -/
theorem reads_within_resumed :
    let p := ((ofSource (.ofString .space "let 5 x + 1 \x7b y \x7d")).parseTimes 1).2
    p.unread.length = 7 ∧
      (∃ n p', Routine.statement.run p = (.ok n, p') ∧ ∃ taken, taken ≠ [] ∧ Takes p taken p') ∧
      ∃ moves program, Record.parse ⟨p, []⟩ = (.ok program, ⟨p.parse.2, moves⟩) ∧
        (∀ t ∈ moves, t.isEof = false) ∧ moves.length ≤ 7 ∧ program.count = 6 ∧
        program.count ≤ moves.length := by
  intro p
  have hlength : p.unread.length = 7 := by decide +kernel
  obtain ⟨hstatement, -, moves, hrecord, hend, hle, hcount⟩ :=
    reads_within (.ofString .space "let 5 x + 1 \x7b y \x7d") 1
  have hread : Reading.statement.read p.unread = .ok (.operand .int "5") p.unread.tail := by
    decide +kernel
  obtain ⟨p', hrun, -⟩ := Routine.statement.exists_run_of_read hread
  let program : Program :=
    ⟨[.operand .int "5", .binary (.operand .identifier "x") "+" (.operand .int "1"),
      .block [.operand .identifier "y"]]⟩
  have hparse : p.parse.1 = .ok program := sameResult_iff.mp (by decide +kernel)
  rw [hparse] at hrecord
  refine ⟨hlength, ⟨_, p', hrun, hstatement _ _ _ hrun⟩, moves, program, hrecord, hend, ?_, rfl,
    hcount program hparse⟩
  rw [← hlength]
  exact hle

end Parser

end ScriptTree
