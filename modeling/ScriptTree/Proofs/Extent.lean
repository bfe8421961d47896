import ScriptTree.Parser.Routine
import ScriptTree.Proofs.Climbing

/-!
# The extent of climbing

How far a climb goes, for any least precedence and any room.

* `Reading.prefix_of_spellsRunAtLeast`: the run taken is the longest one ahead whose operators bind
  tightly enough, as every other such run is a front part of it.
* `Run.operators_tree`: no operator gets into the tree but those of the run.
* `Reading.climb_mono`: more room changes nothing where there has been enough.  This is not clear
  from the run alone, as room is asked for one operand after the other.
* `Parser.climb_extent` puts them together for parsers.  What a routine does depends on nothing but
  what it reads (`Parser.Routine.run_congr`), so that the parser left is the same as well.
-/

namespace ScriptTree

/-! ## The operators of a tree -/

namespace Node

mutual

/-- The operators of a node, from left to right. -/
def operators : Node → List String
  | operand .. => []
  | binary left op right => left.operators ++ op :: right.operators
  | binding _ _ value => value.operators
  | block body => operatorsBody body

def operatorsBody : List Node → List String
  | [] => []
  | n :: ns => n.operators ++ operatorsBody ns

end

end Node

namespace Run

/-- Grouping keeps the operators and their order. -/
theorem operators_tree (r : Run) :
    r.tree.operators =
      r.first.operators ++ r.links.flatMap fun l => l.op.lexeme :: l.operand.operators := by
  fun_induction tree r with
  | case1 r h => simp [h]
  | case2 r l ls h s ihb iha =>
    have hparts := split_parts l ls
    simp only [Node.operators, ihb, iha]
    simp only [h, ← hparts, List.flatMap_append, List.flatMap_cons, List.append_assoc,
      List.cons_append, s]

theorem operators_of_operand? {t : Token} {n : Node} (h : t.operand? = some n) :
    n.operators = [] := by
  obtain ⟨k, -, rfl⟩ := Token.operand?_eq_some_iff.mp h
  rfl

theorem operators_of_linksOfTokens? {ts : List Token} {links : List Link}
    (h : linksOfTokens? ts = some links) :
    (links.flatMap fun l => l.op.lexeme :: l.operand.operators) = links.map (·.op.lexeme) := by
  induction links generalizing ts with
  | nil => rfl
  | cons l ls ih =>
    obtain ⟨o, p, more, rfl, -, hp, hmore⟩ := linksOfTokens?_eq_cons_iff.mp h
    rw [List.flatMap_cons, operators_of_operand? hp, ih hmore, List.map_cons]
    rfl

/-- Every operator of the tree stands in a link of the run. -/
theorem exists_of_mem_operators_tree {ts : List Token} {run : Run} {op : String}
    (h : ofTokens? ts = some run) (hop : op ∈ run.tree.operators) :
    ∃ l ∈ run.links, l.op ∈ Operator.table ∧ l.op.lexeme = op := by
  obtain ⟨p, more, rfl, hp, hmore⟩ := ofTokens?_eq_some_iff.mp h
  rw [operators_tree, operators_of_operand? hp, operators_of_linksOfTokens? hmore,
    List.nil_append, List.mem_map] at hop
  obtain ⟨l, hl, hlexeme⟩ := hop
  exact ⟨l, hl, tabled_of_linksOfTokens? hmore l hl, hlexeme⟩

end Run

namespace Reading

/-! ## The longest run -/

theorem prefix_of_spellsLinksAtLeast {min : Nat} {used rest us vs : List Token}
    {links ls : List Link} (h : SpellsLinksAtLeast min used links rest)
    (hls : Run.linksOfTokens? us = some ls) (hmin : AllAtLeast min ls)
    (heq : us ++ vs = used ++ rest) : us <+: used := by
  induction ls generalizing used us links with
  | nil =>
    rw [Run.linksOfTokens?_eq_nil_iff.mp hls]
    exact List.nil_prefix
  | cons l ls ih =>
    obtain ⟨hl, hmin⟩ := allAtLeast_cons.mp hmin
    obtain ⟨o, p, more, rfl, ho, -, hmore⟩ := Run.linksOfTokens?_eq_cons_iff.mp hls
    cases links with
    | nil =>
      -- The links end here, though an operator is ahead that binds tightly enough.
      have hend := h.ended
      obtain rfl := Run.linksOfTokens?_eq_nil_iff.mp h.spelled
      rw [← show o :: p :: more ++ vs = rest from heq, operatorAhead?_eq_none_iff] at hend
      exact absurd hl (Nat.not_le.mpr (hend l.op ho))
    | cons k ks =>
      obtain ⟨o', p', more', rfl, -, -, hmore'⟩ := Run.linksOfTokens?_eq_cons_iff.mp h.spelled
      obtain ⟨rfl, rfl, htail⟩ : o = o' ∧ p = p' ∧ more ++ vs = more' ++ rest := by
        simpa using heq
      have hrest : SpellsLinksAtLeast min more' ks rest :=
        ⟨hmore', (allAtLeast_cons.mp h.atLeast).2, h.ended⟩
      have hfront : more <+: more' := ih hrest hmore hmin htail
      exact List.cons_prefix_cons.mpr ⟨rfl, List.cons_prefix_cons.mpr ⟨rfl, hfront⟩⟩

/-- Where a run ends because no operator ahead binds tightly enough, every other run of such
operators is a front part of it. -/
theorem prefix_of_spellsRunAtLeast {min : Nat} {used rest us vs : List Token} {run other : Run}
    (h : SpellsRunAtLeast min used run rest) (hother : Run.ofTokens? us = some other)
    (hmin : AllAtLeast min other.links) (heq : us ++ vs = used ++ rest) : us <+: used := by
  obtain ⟨p, more, rfl, -, hmore⟩ := Run.ofTokens?_eq_some_iff.mp h.spelled
  obtain ⟨q, us, rfl, -, hus⟩ := Run.ofTokens?_eq_some_iff.mp hother
  obtain ⟨rfl, htail⟩ := List.cons.inj heq
  have hlinks : SpellsLinksAtLeast min more run.links rest := ⟨hmore, h.atLeast, h.ended⟩
  exact List.cons_prefix_cons.mpr ⟨rfl, prefix_of_spellsLinksAtLeast hlinks hus hmin htail⟩

/-! ## More room -/

theorem chain_mono {right right' : Nat → Reader Measured}
    (hright : ∀ {min ts r rest}, (right min).read ts = .ok r rest →
      (right' min).read ts = .ok r rest)
    {min : Nat} {left m : Measured} {ts rest : List Token}
    (h : chain right min left ts = .ok m rest) : chain right' min left ts = .ok m rest := by
  fun_induction chain right min left ts with
  | case1 left ts hnone =>
    rw [chain_of_none hnone]
    exact h
  | case2 => cases h
  | case3 left ts op afterOp hahead r mid hr hheight ih =>
    rw [chain_of_some hahead, hright hr, Reading.bind, if_pos hheight]
    exact ih h
  | case4 => cases h

/-- Where there has been enough room, more of it changes nothing. -/
theorem climb_mono {room room' min : Nat} {ts rest : List Token} {m : Measured}
    (hroom : room ≤ room') (h : (climb room min).read ts = .ok m rest) :
    (climb room' min).read ts = .ok m rest := by
  induction room generalizing room' min ts m rest with
  | zero => cases h
  | succ room ih =>
    obtain ⟨room', rfl⟩ := Nat.exists_eq_add_of_lt hroom
    obtain ⟨left, mid, hleft, hchain⟩ := Reading.bind_eq_ok_iff.mp h
    exact Reading.bind_eq_ok_iff.mpr
      ⟨left, mid, hleft, chain_mono (fun hr => ih (by omega) hr) hchain⟩

end Reading

/-! ## Parsers -/

namespace Parser

theorem current_operator?_unread (p : Parser) :
    (ScriptTree.current p.unread).operator? = p.current.operator? := by
  rw [current_unread]
  split
  · next h => simp [Token.operator?, Token.isEof_iff.mp h, Token.eof]
  · rfl

/-- **The extent of a climb.**  A climb that succeeds, at any depth and for any least precedence,
takes the longest run ahead that has no operator below that precedence, and stops before a token
that is no operator or one below it.  No operator below it is in the tree.  The height is that of
the tree, and is not too high.  From fewer levels down the same parser comes to the same. -/
theorem climb_extent {p p' : Parser} {depth min : Nat} {m : Reading.Measured}
    (h : (Routine.climb (maxHeight - depth) min).run p = (.ok m, p')) :
    (∃ taken run, Takes p taken p' ∧ Run.ofTokens? taken = some run ∧
      (∀ l ∈ run.links, min ≤ l.op.precedence) ∧
      ∀ front rest other, p.unread = front ++ rest → Run.ofTokens? front = some other →
        (∀ l ∈ other.links, min ≤ l.op.precedence) → front <+: taken) ∧
    (∀ op, p'.current.operator? = some op → op.precedence < min) ∧
    (∀ op ∈ m.node.operators, ∃ o, Operator.lookup? op = some o ∧ min ≤ o.precedence) ∧
    m.height = m.node.height ∧ m.height ≤ maxHeight ∧
    ∀ less ≤ depth, (Routine.climb (maxHeight - less) min).run p = (.ok m, p') := by
  have hread := (Routine.climb (maxHeight - depth) min).outcome_of_run h
  simp only [outcome] at hread
  obtain ⟨taken, htaken⟩ := (Routine.climb (maxHeight - depth) min).takes_of_run h
  obtain ⟨used, run, hused, hrun, rfl⟩ := Reading.climb_sound _ hread
  obtain rfl : taken = used := List.append_cancel_right (htaken.unread_eq.symm.trans hused)
  refine ⟨⟨taken, run, htaken, hrun.spelled, hrun.atLeast, ?_⟩, ?_, ?_, rfl, ?_, ?_⟩
  · intro front rest other hfront hother hmin
    exact Reading.prefix_of_spellsRunAtLeast hrun hother hmin (hfront.symm.trans hused)
  · intro op hop
    rw [← current_operator?_unread] at hop
    exact Reading.operatorAhead?_eq_none_iff.mp hrun.ended op hop
  · intro op hop
    obtain ⟨l, hl, htable, hlexeme⟩ := Run.exists_of_mem_operators_tree hrun.spelled hop
    exact ⟨l.op, Operator.lookup?_eq_some_iff.mpr ⟨htable, hlexeme⟩, hrun.atLeast l hl⟩
  · exact Reading.height_le_of_climb hread
  · intro less hless
    rw [← h]
    refine Routine.run_congr _ _ ?_
    rw [hread]
    exact Reading.climb_mono (by omega) hread

/-- `1 + 2 * 3` in front of `<`, with the least room that will do. -/
theorem climb_extent_sum :
    let p := ofSource (.ofString .space "1 + 2 * 3 < 4")
    ∃ m p', (Routine.climb (maxHeight - 253) 6).run p = (.ok m, p') ∧
      (∃ taken, Takes p taken p' ∧ taken.length = 5) ∧ p'.current = .symbol .lessThan ∧
      m.node.operators = ["+", "*"] ∧ m.height = 3 ∧
      (Routine.climb maxHeight 6).run p = (.ok m, p') := by
  intro p
  let m : Reading.Measured :=
    ⟨.binary (.operand .int "1") "+" (.binary (.operand .int "2") "*" (.operand .int "3")), 3⟩
  have hread : (Reading.climb (maxHeight - 253) 6).read p.unread =
      .ok m [.symbol .lessThan, ⟨.int, "4"⟩] := by
    decide +kernel
  obtain ⟨p', hrun, hrest⟩ := (Routine.climb (maxHeight - 253) 6).exists_run_of_read hread
  obtain ⟨⟨taken, run, htaken, -, -, -⟩, -, -, -, -, hless⟩ := climb_extent hrun
  have hlength : p.unread.length = 7 := by decide +kernel
  have hcurrent : p'.current = .symbol .lessThan := by
    unfold unread at hrest
    split at hrest
    · cases hrest
    · exact (List.cons.inj hrest).1
  refine ⟨m, p', hrun, ⟨taken, htaken, ?_⟩, hcurrent, rfl, rfl, hless 0 (Nat.zero_le _)⟩
  have hsplit := congrArg List.length htaken.unread_eq
  rw [List.length_append, hlength, hrest] at hsplit
  simpa using hsplit.symm

end Parser

end ScriptTree
