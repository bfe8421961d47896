import ScriptTree.Parser.Routine
import ScriptTree.Proofs.Reports

/-!
# Resumption

After an error a parser goes on where it stopped, as if it had been made there.

* `Parser.parseTimes_fst_eq`: a parser gives what a session gives on the tokens unread; nothing
  else of it counts.
* `Parser.Takes.eq_ofSource`: by moving on a parser comes to be, but for the token before, the
  parser made behind as many pulled tokens.
* `Parser.resumes` puts the two together, for parsers after any number of programs and errors.
-/

namespace ScriptTree

namespace Parser

/-! ## One program -/

/-- A parser does what a session does that has the unread tokens ahead. -/
theorem parse_eq (p : Parser) :
    p.parse.1 = (Session.parse ⟨p.unread⟩).1 ∧
      p.parse.2.unread = (Session.parse ⟨p.unread⟩).2.ahead := by
  have hread : outcome p.parse.1 p.parse.2.unread = (Reading.statements p.unread).map Program.mk :=
    Routine.program.follows_run p
  rw [Session.parse]
  cases h : Reading.statements p.unread with
  | ok ns rest =>
    rw [h] at hread
    exact outcome_inj hread
  | error e rest =>
    rw [h] at hread
    exact outcome_inj hread

/-- A parser made of a source reads the program that the source holds. -/
theorem parse_ofSource (s : Source) : (ofSource s).parse.1 = s.parse := by
  rw [(parse_eq (ofSource s)).1, unread_ofSource]
  rfl

theorem takes_parse (p : Parser) : ∃ taken, Takes p taken p.parse.2 :=
  Routine.program.takes_run p

/-- What an error found is the current token of the parser that it leaves. -/
theorem found_of_parse {p next : Parser} {e : ParseError} {found : String}
    (h : p.parse = (.error e, next)) (hfound : found ∈ e.found?) :
    found = next.current.describe := by
  obtain ⟨hresult, hahead⟩ := parse_eq p
  rw [h] at hresult hahead
  have hreport := Session.reportedAt_of_parse (s := ⟨p.unread⟩) (Prod.ext hresult.symm rfl)
  rw [← hahead] at hreport
  rw [← describe_current_unread]
  exact hreport.eq_describe hfound

/-! ## Many programs -/

theorem parseTimes_fst_eq (p : Parser) (n : Nat) :
    (p.parseTimes n).1 = (Session.parseTimes n ⟨p.unread⟩).1 := by
  induction n generalizing p with
  | zero => rfl
  | succ n ih =>
    obtain ⟨hresult, hahead⟩ := parse_eq p
    show p.parse.1 :: (p.parse.2.parseTimes n).1 = _ :: _
    rw [ih, hresult, hahead]
    rfl

theorem takes_parseTimes (p : Parser) (n : Nat) : ∃ taken, Takes p taken (p.parseTimes n).2 := by
  induction n generalizing p with
  | zero => exact ⟨[], .nothing p⟩
  | succ n ih =>
    obtain ⟨taken, htaken⟩ := takes_parse p
    obtain ⟨more, hmore⟩ := ih p.parse.2
    exact ⟨taken ++ more, htaken.trans hmore⟩

/-- The results of parsers are the same where the same tokens are unread. -/
theorem parseTimes_fst_congr {p q : Parser} (h : p.unread = q.unread) (n : Nat) :
    (p.parseTimes n).1 = (q.parseTimes n).1 := by
  rw [parseTimes_fst_eq, parseTimes_fst_eq, h]

/-- **A parser resumes where it stopped.**  However many programs and errors it has come to, it
is, but for the token before, a parser made behind the tokens that it has taken, and its results
are those of that one; the token before has no part in any result; and what an error found is the
token at which the next program begins. -/
theorem resumes (s : Source) (skip calls : Nat) :
    let begun := ofSource (s.pull skip).2
    let after := (begun.parseTimes calls).2
    ∃ taken, Takes begun taken after ∧
      after = { ofSource (s.pull (skip + taken.length)).2 with previous := after.previous } ∧
      (∀ n, (after.parseTimes n).1 =
        ((ofSource (s.pull (skip + taken.length)).2).parseTimes n).1) ∧
      (∀ previous n, (parseTimes n { after with previous := previous }).1 =
        (after.parseTimes n).1) ∧
      ∀ e next, after.parse = (.error e, next) →
        ∀ found ∈ e.found?, found = next.current.describe := by
  intro begun after
  obtain ⟨taken, htaken⟩ := takes_parseTimes begun calls
  have hafter : after = { ofSource (s.pull (skip + taken.length)).2 with
      previous := after.previous } := by
    rw [Source.pull_add]
    exact htaken.eq_ofSource
  refine ⟨taken, htaken, hafter, ?_, ?_, ?_⟩
  · intro n
    refine parseTimes_fst_congr ?_ n
    rw [hafter]
    rfl
  · intro previous n
    have hunread : unread { after with previous := previous } = after.unread := rfl
    exact parseTimes_fst_congr hunread n
  · intro e next h found hfound
    exact found_of_parse h hfound

/-- Behind an error in the middle of a binding the value is a program's beginning, and a second
error follows. -/
theorem resumes_binding :
    let s := Source.ofString .space "x let y 5 + 2 let"
    let after := ((ofSource (s.pull 1).2).parseTimes 1).2
    after.previous.lexeme = "y" ∧
      (after.parseTimes 2).1 = ((ofSource (s.pull (1 + 2)).2).parseTimes 2).1 ∧
      ∃ e next, after.parse = (.error e, next) ∧
        e = .expected "identifier after 'let'" "end of input" ∧
        "end of input" = next.current.describe := by
  intro s after
  obtain ⟨taken, htaken, -, hlater, -, hfound⟩ := resumes s 1 1
  have hlength : taken.length = 2 := by
    have hbegun : (ofSource (s.pull 1).2).unread.length = 6 := by decide +kernel
    have hafter : after.unread.length = 4 := by decide +kernel
    have hsplit := congrArg List.length htaken.unread_eq
    rw [List.length_append, hbegun, hafter] at hsplit
    omega
  rw [hlength] at hlater
  let e : ParseError := .expected "identifier after 'let'" "end of input"
  have he : after.parse.1 = .error e := sameResult_iff.mp (by decide +kernel)
  have hfails : after.parse = (.error e, after.parse.2) := Prod.ext he rfl
  exact ⟨by decide +kernel, hlater 2, e, _, hfails, rfl, hfound e _ hfails _ rfl⟩

end Parser

end ScriptTree
