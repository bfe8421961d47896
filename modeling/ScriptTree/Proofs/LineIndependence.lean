import ScriptTree.Proofs.Modes

/-!
# Lines are independent

A run over two texts, the first of which ends with a line feed, writes what a run over the one
writes and then what a run over the other does (`Surroundings.run_append`).  The lines of the two
texts are the lines of the whole (`Text.LineEnd.lines_append`), and nothing goes from one line to
the next but the count of lines: in the messages of a file the numbers go on where the first text
ends.
-/

namespace ScriptTree

open Text (LineEnd isBlank)

/-! ## Runs -/

/-- The arguments ask for a run with these options, and the run has this text to read, from a file
or from standard input. -/
structure Surroundings.Reads (s : Surroundings) (args : List String) (o : Options)
    (text : List Char) : Prop where
  request : Request.ofArgs args = .run o
  input : o.inputIn s = .ok (Text.encode text)

namespace Options

/-- Options that make no difference to the answer: files are answered as files, whatever their
names. -/
structure Alike (o o' : Options) : Prop where
  file : o.file.isSome = o'.file.isSome
  policy : o.policy = o'.policy
  tokens : o.tokens = o'.tokens
  verbose : o.verbose = o'.verbose

variable {o o' : Options}

theorem Alike.answerText_eq (h : o.Alike o') : o.answerText = o'.answerText := by
  funext log text
  have hshown : o.shown = o'.shown := by
    funext number
    have hfile := h.file
    unfold shown
    cases ho : o.file <;> cases ho' : o'.file <;> simp_all
  simp only [answerText, linesFor, answerLine, h.file, h.policy, h.tokens, h.verbose, hshown]

end Options

/-- A run that has a text to read answers it, and succeeds whatever the answers are. -/
theorem Surroundings.Reads.run_eq {s : Surroundings} {args : List String} {o : Options}
    {text : List Char} (h : s.Reads args o text) :
    s.run args = .success (o.answerText s.log text) :=
  run_eq_answerText h.request h.input (decodeUtf8?_encode text)

/-! ## Lines of two texts -/

/-- Behind a complete text the lines are numbered as if from the start, and further on by its line
feeds. -/
theorem Text.zipIdx_lines_append {first : List Char} (h : LineEnd.ofChars.Complete first)
    (second : List Char) :
    (LineEnd.ofChars.lines (first ++ second)).zipIdx 1 =
      (LineEnd.ofChars.lines first).zipIdx 1 ++
        ((LineEnd.ofChars.lines second).zipIdx 1).map
          fun line => (line.1, line.2 + first.count '\n') := by
  have hnumbers : (LineEnd.ofChars.lines second).zipIdx (1 + first.count '\n') =
      ((LineEnd.ofChars.lines second).zipIdx 1).map
        fun line => (line.1, line.2 + first.count '\n') := by
    rw [Nat.add_comm, ← List.map_snd_add_zipIdx_eq_zipIdx]
    rfl
  have hlength : (LineEnd.ofChars.lines first).length = first.count '\n' :=
    LineEnd.ofChars.length_lines h
  rw [LineEnd.ofChars.lines_append h, List.zipIdx_append, hlength, hnumbers]

/-- The same fault on a line further on. -/
def Fault.shift (k : Nat) (x : Fault) : Fault := { x with number := x.number + k }

namespace Options

variable {o : Options} {first second : List Char}

theorem linesFor_append (o : Options) (h : LineEnd.ofChars.Complete first) (second : List Char) :
    o.linesFor (first ++ second) = o.linesFor first ++
      (o.linesFor second).map fun line => (line.1, line.2 + first.count '\n') := by
  unfold linesFor
  split
  · rw [Text.numberedLines, Text.zipIdx_lines_append h, List.filter_append, List.filter_map]
    rfl
  · exact Text.zipIdx_lines_append h second

/-! ## Outputs of two texts -/

/-- Whatever is logged of the one and of the other. -/
theorem out_answerText_append (o : Options) (h : LineEnd.ofChars.Complete first)
    (second : List Char) (log log₁ log₂ : Nat → Nat → String) :
    (o.answerText log (first ++ second)).out =
      (o.answerText log₁ first).out ++ (o.answerText log₂ second).out := by
  simp only [out_answerText, linesFor_append o h, List.map_append, List.map_map,
    String.join_append]
  rfl

theorem fault?_shift (o : Options) (line : List Char × Nat) (k : Nat) :
    o.fault? (line.1, line.2 + k) = (o.fault? line).map (Fault.shift k) := by
  simp only [fault?]
  cases (⟨o.policy, line.1⟩ : Source).parse with
  | ok p => rfl
  | error e => rfl

theorem messages_append (o : Options) (h : LineEnd.ofChars.Complete first) (second : List Char) :
    o.messages (first ++ second) =
      o.messages first ++ (o.messages second).map (Fault.shift (first.count '\n')) := by
  unfold messages
  split
  · rfl
  · rw [linesFor_append o h, List.filterMap_append, List.filterMap_map, List.map_filterMap]
    simp only [Function.comp_def, fault?_shift]

theorem err_answerText_append (hquiet : o.Quiet) (h : LineEnd.ofChars.Complete first)
    (second : List Char) (log log₁ : Nat → Nat → String) :
    (o.answerText log (first ++ second)).err = (o.answerText log₁ first).err ++
      String.join ((o.messages second).map fun x =>
        x.error.report (o.shown (x.number + first.count '\n'))) := by
  simp only [err_answerText hquiet, messages_append o h, List.map_append, List.map_map,
    String.join_append]
  rfl

end Options

namespace Surroundings

variable {s s₁ s₂ : Surroundings} {args args₁ args₂ : List String} {o o₁ o₂ : Options}
  {first second : List Char}

/-- **Lines are independent.**  Let two runs read a text each, the first of which is empty or ends
with a line feed, and let a third run read the one text and then the other, with the same options
but for the names of files.  All three succeed, and the third writes what the first two write, one
after the other; but in the messages of a file the numbers of the second text's lines are higher by
the number of line feeds in the first.  What is logged tells the time as well, and is no part of
this. -/
theorem run_append (hcomplete : first = [] ∨ first.getLast? = some '\n')
    (h₁ : s₁.Reads args₁ o₁ first) (h₂ : s₂.Reads args₂ o₂ second)
    (h : s.Reads args o (first ++ second)) (halike₁ : o₁.Alike o) (halike₂ : o₂.Alike o) :
    ∃ written₁ written₂ written, s₁.run args₁ = .success written₁ ∧
      s₂.run args₂ = .success written₂ ∧ s.run args = .success written ∧
      written.out = written₁.out ++ written₂.out ∧
      (o.Quiet → o.file = none → written.err = written₁.err ++ written₂.err) ∧
      (o.Quiet → o.file.isSome = true →
        written₂.err =
          String.join ((o.messages second).map fun x => x.error.report (some x.number)) ∧
        written.err = written₁.err ++ String.join ((o.messages second).map fun x =>
          x.error.report (some (x.number + first.count '\n')))) := by
  refine ⟨_, _, _, h₁.run_eq, h₂.run_eq, h.run_eq, ?_⟩
  rw [halike₁.answerText_eq, halike₂.answerText_eq]
  refine ⟨o.out_answerText_append hcomplete second _ _ _, fun hquiet hfile => ?_,
    fun hquiet hfile => ?_⟩
  · rw [Options.err_answerText_append hquiet hcomplete second s.log s₁.log,
      Options.err_answerText hquiet _ second]
    simp only [Options.shown, hfile, Option.map_none]
  · obtain ⟨path, hpath⟩ := Option.isSome_iff_exists.mp hfile
    rw [Options.err_answerText_append hquiet hcomplete second s.log s₁.log,
      Options.err_answerText hquiet _ second]
    simp only [Options.shown, hpath, Option.map_some, true_and]

/-- An error and a blank line, and behind them a string that is left open and a second error.  As
files the texts have numbers in their messages, on standard input they have none. -/
theorem run_append_numbers :
    ∃ first second, first = "1 +\r\n\u00a0\n".toList ∧ second = "\"x\n ]\r".toList ∧
      (first = [] ∨ first.getLast? = some '\n') ∧
      (∃ s₁ s₂ s : Surroundings, ∃ o : Options, s₁.Reads ["f"] o first ∧ s₂.Reads ["f"] o second ∧
        s.Reads ["f"] o (first ++ second) ∧ o.Alike o ∧
        ∃ written₁ written₂ written, s₁.run ["f"] = .success written₁ ∧
          s₂.run ["f"] = .success written₂ ∧ s.run ["f"] = .success written ∧
          written.out = written₁.out ++ written₂.out ∧
          written₂.err = inRed "line 2: parse error: expected a primary token, got ']'" ∧
          written.err = written₁.err ++
            inRed "line 4: parse error: expected a primary token, got ']'") ∧
      ∃ s₁ s₂ s : Surroundings, ∃ o : Options, s₁.Reads [] o first ∧ s₂.Reads [] o second ∧
        s.Reads [] o (first ++ second) ∧
        ∃ written₁ written₂ written, s₁.run [] = .success written₁ ∧
          s₂.run [] = .success written₂ ∧ s.run [] = .success written ∧
          written.out = written₁.out ++ written₂.out ∧
          written.err = written₁.err ++ written₂.err := by
  let first := "1 +\r\n\u00a0\n".toList
  let second := "\"x\n ]\r".toList
  have hcomplete : first = [] ∨ first.getLast? = some '\n' := Or.inr (by decide)
  let reading (text : List Char) := Surroundings.ofBytes (Text.encode text)
  -- Files.
  let o : Options := ⟨some "f", false, false, none⟩
  have hfile (text : List Char) : (reading text).Reads ["f"] o text := ⟨by decide, rfl⟩
  have halike : o.Alike o := ⟨rfl, rfl, rfl, rfl⟩
  have hmessages : o.messages second = [⟨" ]\r".toList, 2, .expectedPrimary "']'"⟩] := by
    decide +kernel
  obtain ⟨f₁, f₂, f, hf₁, hf₂, hf, hout, -, herr⟩ :=
    run_append hcomplete (hfile first) (hfile second) (hfile _) halike halike
  obtain ⟨hsecond, hwhole⟩ := herr (Or.inr rfl) rfl
  rw [hmessages] at hsecond hwhole
  -- Standard input.
  have hinput (text : List Char) : (reading text).Reads [] .initial text := ⟨rfl, rfl⟩
  have hsame : Options.initial.Alike .initial := ⟨rfl, rfl, rfl, rfl⟩
  obtain ⟨i₁, i₂, i, hi₁, hi₂, hi, hout', herr', -⟩ :=
    run_append hcomplete (hinput first) (hinput second) (hinput _) hsame hsame
  exact ⟨first, second, rfl, rfl, hcomplete,
    ⟨_, _, _, o, hfile first, hfile second, hfile _, halike, f₁, f₂, f, hf₁, hf₂, hf, hout,
      hsecond.trans (by decide), hwhole.trans (congrArg (f₁.err ++ ·) (by decide))⟩,
    ⟨_, _, _, .initial, hinput first, hinput second, hinput _, i₁, i₂, i, hi₁, hi₂, hi, hout',
      herr' (Or.inr rfl) rfl⟩⟩

end Surroundings

end ScriptTree
