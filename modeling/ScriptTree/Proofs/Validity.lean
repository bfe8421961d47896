import ScriptTree.Proofs.Modes

/-!
# Bytes that are no text

A file is read as a whole or not at all, standard input up to the first line that cannot be decoded
(`Surroundings.run_unencoded`).  Either way a run fails on the same bytes, since bytes can be
decoded as a whole exactly if every line of them can (`Text.LineEnd.isEncoded_iff_lines`).
-/

namespace ScriptTree

open Text (LineEnd IsEncoded)

/-! ## The first line that cannot be decoded -/

/-- Bytes parted at a line, up to its line feed, that cannot be decoded, though all lines before it
can. -/
structure FirstUnencoded (bytes before line after : List UInt8) : Prop where
  parts : bytes = before ++ (line ++ after)
  complete : LineEnd.ofBytes.Complete before
  encoded : ∀ earlier ∈ LineEnd.ofBytes.lines before, IsEncoded earlier
  single : LineEnd.ofBytes.lineFeed ∉ line
  ended : after = [] ∨ after.head? = some LineEnd.ofBytes.lineFeed
  unencoded : ¬ IsEncoded line

namespace FirstUnencoded

variable {bytes before line after : List UInt8}

/-- A line that can be decoded may be put in front. -/
theorem cons_line (h : FirstUnencoded bytes before line after) {first : List UInt8}
    (hfirst : LineEnd.ofBytes.lineFeed ∉ first) (hencoded : IsEncoded first) :
    FirstUnencoded (first ++ LineEnd.ofBytes.lineFeed :: bytes)
      (first ++ LineEnd.ofBytes.lineFeed :: before) line after := by
  refine ⟨by simp [h.parts], h.complete.cons_line first, ?_, h.single, h.ended, h.unencoded⟩
  rw [LineEnd.lines_append_lineFeed _ before hfirst, List.forall_mem_cons]
  exact ⟨LineEnd.isEncoded_dropReturn_iff.mpr hencoded, h.encoded⟩

/-- Bytes that are no text have such a line. -/
theorem exists_of_not_isEncoded (h : ¬ IsEncoded bytes) :
    ∃ before line after, FirstUnencoded bytes before line after := by
  have hnone : ∀ earlier ∈ LineEnd.ofBytes.lines [], IsEncoded earlier := by
    simp [LineEnd.lines_nil]
  induction bytes using LineEnd.ofBytes.lines_induction with
  | nil => exact absurd Text.isEncoded_nil h
  | unended line _ hline =>
    exact ⟨[], line, [], by simp, Or.inl rfl, hnone, hline, Or.inl rfl, h⟩
  | ended line rest hline ih =>
    rw [LineEnd.isEncoded_append_lineFeed_iff] at h
    by_cases hencoded : IsEncoded line
    · obtain ⟨before, bad, after, hrest⟩ := ih fun hrest => h ⟨hencoded, hrest⟩
      exact ⟨_, bad, after, hrest.cons_line hline hencoded⟩
    · exact ⟨[], line, LineEnd.ofBytes.lineFeed :: rest, rfl, Or.inl rfl, hnone, hline, Or.inr rfl,
        hencoded⟩

/-- What is before the line can be decoded. -/
theorem isEncoded_before (h : FirstUnencoded bytes before line after) : IsEncoded before :=
  LineEnd.isEncoded_iff_lines.mpr h.encoded

/-- The line comes behind the lines of what is before it. -/
theorem exists_lines (h : FirstUnencoded bytes before line after) :
    ∃ bad later, LineEnd.ofBytes.lines bytes = LineEnd.ofBytes.lines before ++ bad :: later ∧
      ¬ IsEncoded bad := by
  obtain ⟨rfl, hcomplete, -, hsingle, hended, hline⟩ := h
  rw [LineEnd.lines_append _ hcomplete]
  rcases hended with rfl | hfeed
  · have hne : line ≠ [] := fun hnil => hline (hnil ▸ Text.isEncoded_nil)
    rw [List.append_nil, LineEnd.lines_of_not_mem _ hne hsingle]
    exact ⟨line, [], rfl, hline⟩
  · obtain ⟨rest, rfl⟩ := List.head?_eq_some_iff.mp hfeed
    rw [LineEnd.lines_append_lineFeed _ rest hsingle]
    exact ⟨_, _, rfl, mt LineEnd.isEncoded_dropReturn_iff.mp hline⟩

end FirstUnencoded

/-! ## Answers -/

/-- What was written first comes first, however often something is put before it. -/
theorem Report.after_after (r : Report) (a b : Output) :
    (r.after b).after a = r.after (a ++ b) := by
  have hassoc : a ++ (b ++ r.output) = a ++ b ++ r.output := by
    show Output.mk (a.out ++ (b.out ++ r.output.out)) (a.err ++ (b.err ++ r.output.err)) = _
    rw [← String.append_assoc, ← String.append_assoc]
    rfl
  exact congrArg (Report.mk r.status) hassoc

theorem Report.failure_after (f : InputFailure) (written : Output) :
    (failure f).after written = ⟨1, ⟨written.out, written.err ++ f.message⟩⟩ := by
  show Report.mk 1 ⟨written.out ++ "", written.err ++ f.message⟩ = _
  rw [String.append_empty]

namespace Options

variable {bytes before line after : List UInt8} {path : String}

/-- A line that cannot be decoded ends the answer, behind those to the lines before it. -/
theorem answerLines_append_unencoded (o : Options) (log : Nat → Nat → String)
    (texts : List (List Char × Nat)) {bad : List UInt8} (hbad : ¬ IsEncoded bad) (number : Nat)
    (later : List (List UInt8 × Nat)) :
    o.answerLines log (texts.map (Prod.map Text.encode id) ++ (bad, number) :: later) =
      (Report.failure .invalidText).after
        (Output.concat (texts.map fun line => o.answerLine (log line.2) none line.1)) := by
  induction texts with
  | nil =>
    rw [List.map_nil, List.nil_append, answerLines, decodeUtf8?_eq_none_iff.mpr hbad]
    rfl
  | cons text texts ih =>
    rw [List.map_cons, List.cons_append, Prod.map, answerLines, decodeUtf8?_encode]
    simp only [ih, Report.after_after]
    rfl

theorem answer_unencoded_of_some (o : Options) (hfile : o.file = some path)
    (log : Nat → Nat → String) (h : ¬ IsEncoded bytes) :
    o.answer log (.ok bytes) = .failure .invalidText := by
  simp only [answer, hfile, answerFile, decodeUtf8?_eq_none_iff.mpr h]

/-- Standard input is answered up to the line, as the text before it is. -/
theorem answer_unencoded_of_none (o : Options) (hfile : o.file = none) (log : Nat → Nat → String)
    (h : FirstUnencoded bytes before line after) {text : List Char}
    (htext : before = Text.encode text) :
    o.answer log (.ok bytes) = (Report.failure .invalidText).after (o.answerText log text) := by
  obtain ⟨bad, later, hlines, hbad⟩ := h.exists_lines
  simp only [answer, hfile]
  rw [answerStandardInput, hlines, htext, LineEnd.lines_encode, List.zipIdx_append,
    List.zipIdx_map, List.zipIdx_cons, answerLines_append_unencoded o log _ hbad]
  simp only [answerText, linesFor, shown, hfile]
  rfl

end Options

/-! ## Runs -/

namespace Surroundings

variable {s s' : Surroundings} {args args' : List String} {o o' : Options} {path : String}

/-- **Bad bytes.**  Let one run read some bytes from a file and another read them from standard
input.  Both succeed if the bytes are those of a text, and both fail otherwise.  The first then
writes nothing but the failure.  The second answers what stands before the first line that cannot be
decoded, as a run does that has nothing else to read, and then writes the failure.  On standard
error this is said of runs that log nothing, as what is logged tells the time. -/
theorem run_unencoded (hargs : Request.ofArgs args = .run o)
    (hargs' : Request.ofArgs args' = .run o') (hfile : o.file = some path) (hinput : o'.file = none)
    (hread : s.fileAt path = .ok s'.standardInput) :
    ((s.run args).status = 0 ↔ IsEncoded s'.standardInput) ∧
    ((s'.run args').status = 0 ↔ IsEncoded s'.standardInput) ∧
    (¬ IsEncoded s'.standardInput →
      s.run args = ⟨1, ⟨"", InputFailure.invalidText.message⟩⟩ ∧
      (∃ before line after, FirstUnencoded s'.standardInput before line after) ∧
      ∀ before line after, FirstUnencoded s'.standardInput before line after →
        ∀ earlier : Surroundings, earlier.standardInput = before →
          ∃ written, earlier.run args' = .success written ∧
            (s'.run args').status = 1 ∧ (s'.run args').output.out = written.out ∧
            (o'.Quiet → (s'.run args').output.err =
              written.err ++ InputFailure.invalidText.message)) := by
  have hfilerun : s.run args = o.answer s.log (.ok s'.standardInput) :=
    run_eq_answer hargs ((Options.inputIn_of_some hfile).trans hread)
  have hinputrun (t : Surroundings) : t.run args' = o'.answer t.log (.ok t.standardInput) :=
    run_eq_answer hargs' (Options.inputIn_of_none hinput)
  have hbad : ∀ before line after, FirstUnencoded s'.standardInput before line after →
      ∃ text, before = Text.encode text ∧
        s'.run args' = ⟨1, ⟨(o'.answerText s'.log text).out,
          (o'.answerText s'.log text).err ++ InputFailure.invalidText.message⟩⟩ := by
    intro before line after h
    obtain ⟨text, htext⟩ := h.isEncoded_before
    refine ⟨text, htext, ?_⟩
    rw [hinputrun, o'.answer_unencoded_of_none hinput s'.log h htext, Report.failure_after]
  by_cases hbytes : IsEncoded s'.standardInput
  · obtain ⟨text, htext⟩ := hbytes
    have hdecode := decodeUtf8?_eq_some_iff.mpr htext
    rw [hfilerun, hinputrun, o.answer_eq s.log hdecode, o'.answer_eq s'.log hdecode]
    exact ⟨iff_of_true rfl ⟨text, htext⟩, iff_of_true rfl ⟨text, htext⟩,
      fun hnot => absurd ⟨text, htext⟩ hnot⟩
  · obtain ⟨before, line, after, hfirst⟩ := FirstUnencoded.exists_of_not_isEncoded hbytes
    obtain ⟨text, -, hfails⟩ := hbad before line after hfirst
    have hfile' := hfilerun.trans (o.answer_unencoded_of_some hfile s.log hbytes)
    refine ⟨iff_of_false ?_ hbytes, iff_of_false ?_ hbytes, fun _ =>
      ⟨hfile', ⟨before, line, after, hfirst⟩, ?_⟩⟩
    · rw [hfile']
      exact Nat.one_ne_zero
    · rw [hfails]
      exact Nat.one_ne_zero
    · intro before line after hfirst earlier hbefore
      obtain ⟨text, htext, hfails⟩ := hbad before line after hfirst
      have hearlier : earlier.run args' = .success (o'.answerText earlier.log text) := by
        rw [hinputrun, hbefore]
        exact o'.answer_eq earlier.log (decodeUtf8?_eq_some_iff.mpr htext)
      rw [hfails]
      refine ⟨_, hearlier, rfl, ?_, fun hquiet => ?_⟩
      · rw [Options.out_answerText, Options.out_answerText]
      · rw [Options.err_answerText hquiet, Options.err_answerText hquiet]

/-- Two errors and a tree, and then a character that is broken off by the end of its line. -/
theorem run_unencoded_broken_off :
    ∃ (s earlier : Surroundings) (file input : Options) (before line after : List UInt8),
      Request.ofArgs ["f"] = .run file ∧ Request.ofArgs [] = .run input ∧
      file.file = some "f" ∧ input.file = none ∧ s.fileAt "f" = .ok s.standardInput ∧
      before = Text.encode "1 +\r\n\u00e9\n2\n".toList ∧ line = [51, 195, 13] ∧
      after = Text.encode "\n3".toList ∧ FirstUnencoded s.standardInput before line after ∧
      ¬ IsEncoded s.standardInput ∧ (s.run []).status ≠ 0 ∧
      s.run ["f"] = ⟨1, ⟨"", InputFailure.invalidText.message⟩⟩ ∧
      earlier.standardInput = before ∧ input.Quiet ∧
      ∃ written, earlier.run [] = .success written ∧ written.out = "IntLiteral(2)\n" ∧
        written.err = inRed "parse error: expected a primary token, got end of input" ++
          inRed "parse error: expected a primary token, got '\u00e9'" ∧
        s.run [] = ⟨1, ⟨written.out, written.err ++ InputFailure.invalidText.message⟩⟩ := by
  let text := "1 +\r\n\u00e9\n2\n".toList
  let line : List UInt8 := [51, 195, 13]
  let after := Text.encode "\n3".toList
  let bytes := Text.encode text ++ (line ++ after)
  let s := Surroundings.ofBytes bytes
  let earlier := Surroundings.ofBytes (Text.encode text)
  let file : Options := ⟨some "f", false, false, none⟩
  have hline : ¬ IsEncoded line := decodeUtf8?_eq_none_iff.mp (by decide +kernel)
  have hbytes : ¬ IsEncoded bytes := decodeUtf8?_eq_none_iff.mp (by decide +kernel)
  have hfirst : FirstUnencoded s.standardInput (Text.encode text) line after :=
    ⟨rfl, Or.inr (by decide +kernel), LineEnd.isEncoded_iff_lines.mp ⟨text, rfl⟩, by decide,
      Or.inr rfl, hline⟩
  have hargs : Request.ofArgs ["f"] = .run file := by decide
  have hargs' : Request.ofArgs [] = .run .initial := rfl
  have hread : s.fileAt "f" = .ok s.standardInput := rfl
  have hquiet : Options.initial.Quiet := Or.inr rfl
  obtain ⟨-, hstatus, hfails⟩ := run_unencoded hargs hargs' rfl rfl hread
  obtain ⟨hfile, -, hinput⟩ := hfails hbytes
  obtain ⟨written, hwritten, hone, hout, herr⟩ := hinput _ _ _ hfirst earlier rfl
  have hanswer : written = Options.initial.answerText earlier.log text :=
    congrArg Report.output
      (hwritten.symm.trans (run_eq_answerText hargs' rfl (decodeUtf8?_encode text)))
  have hshown : written.out = "IntLiteral(2)\n" :=
    (congrArg Output.out hanswer).trans (by decide +kernel)
  have hmessages : written.err =
      inRed "parse error: expected a primary token, got end of input" ++
        inRed "parse error: expected a primary token, got '\u00e9'" :=
    (congrArg Output.err hanswer).trans (by decide +kernel)
  have hrun : s.run [] = ⟨1, ⟨written.out, written.err ++ InputFailure.invalidText.message⟩⟩ := by
    generalize s.run [] = report at hone hout herr
    obtain ⟨status, out, err⟩ := report
    obtain rfl : status = 1 := hone
    obtain rfl : out = written.out := hout
    obtain rfl : err = written.err ++ InputFailure.invalidText.message := herr hquiet
    rfl
  exact ⟨s, earlier, file, .initial, _, line, after, hargs, hargs', rfl, rfl, hread, rfl, rfl, rfl,
    hfirst, hbytes, mt hstatus.mp hbytes, hfile, rfl, hquiet, written, hwritten, hshown,
    hmessages, hrun⟩

end Surroundings

end ScriptTree
