import ScriptTree.Proofs.Encoding
import ScriptTree.Proofs.Policies

/-!
# A file and standard input

The same text is answered alike as a file and as standard input (`Surroundings.run_file_eq_input`).

* `Options.answer_eq`: either way of reading comes down to one answer for each line of the text.
* `Source.nodes_eq_nil_of_isBlank`: the lines that a file passes over may be errors, but are never
  programs with anything in them.  To a source, Unicode white space is either skipped or illegal,
  and no program has such an illegal token (`IsCut.hasPlace`).
* `Options.out_answerText`, `Options.err_answerText`: standard output does not depend on the log,
  and standard error holds the errors alone where nothing is logged.
-/

namespace ScriptTree

open Text (LineEnd isBlank)

/-! ## Blank lines -/

/-- What begins a token is visible and in ASCII. -/
theorem BeginsToken.toNat_mem {c : Char} (h : BeginsToken c) : 33 ≤ c.toNat ∧ c.toNat ≤ 126 := by
  have hval : c.toNat = c.val.toNat := rfl
  rcases h with rfl | hdigit | halpha | ⟨s, hs⟩
  · decide
  · have hrange : (decide ('0'.val ≤ c.val) && decide (c.val ≤ '9'.val)) = true := hdigit
    simp only [Bool.and_eq_true, decide_eq_true_eq, UInt32.le_iff_toNat_le] at hrange
    have : '0'.val.toNat = 48 := rfl
    have : '9'.val.toNat = 57 := rfl
    omega
  · have hrange : (decide ('A'.val ≤ c.val ∧ c.val ≤ 'Z'.val) ||
        (decide ('a'.val ≤ c.val) && decide (c.val ≤ 'z'.val))) = true := halpha
    simp only [Bool.or_eq_true, Bool.and_eq_true, decide_eq_true_eq,
      UInt32.le_iff_toNat_le] at hrange
    have : 'A'.val.toNat = 65 := rfl
    have : 'Z'.val.toNat = 90 := rfl
    have : 'a'.val.toNat = 97 := rfl
    have : 'z'.val.toNat = 122 := rfl
    omega
  · cases s <;> cases hs <;> decide

/-- White space begins no token, in Unicode as in ASCII. -/
theorem not_beginsToken_of_isWhiteSpace {c : Char} (h : Text.isWhiteSpace c = true) :
    ¬ BeginsToken c := by
  intro hbegins
  have hvisible := hbegins.toNat_mem
  simp only [Text.isWhiteSpace, Text.whiteSpaceRanges, List.any_cons, List.any_nil, Bool.or_eq_true,
    Bool.and_eq_true, decide_eq_true_eq, Bool.false_eq_true, or_false] at h
  omega

namespace Source

/-- The next token of a blank line is illegal and white space itself, and the rest of the line is
blank. -/
theorem isBlank_of_next? {s s' : Source} {t : Token} (hs : isBlank s.rest = true)
    (h : s.next? = some (t, s')) :
    t.kind = .illegal ∧ isBlank t.lexeme.toList = true ∧ isBlank s'.rest = true := by
  unfold next? at h
  split at h
  · cases h
  · next c cs hdrop =>
    cases h
    have hsuffix : c :: cs <:+ s.rest := hdrop ▸ List.dropWhile_suffix _
    have hall : ∀ d ∈ c :: cs, Text.isWhiteSpace d = true :=
      fun d hd => List.all_eq_true.mp hs d (hsuffix.mem hd)
    obtain ⟨hc, hcs⟩ := List.forall_mem_cons.mp hall
    rw [Token.scan_illegal cs (not_beginsToken_of_isWhiteSpace hc)]
    exact ⟨rfl, by simp [isBlank, hc], List.all_eq_true.mpr hcs⟩

/-- All tokens of a blank line are illegal, and white space themselves. -/
theorem isBlank_of_mem_tokens {s : Source} (hs : isBlank s.rest = true) :
    ∀ t ∈ s.tokens, t.kind = .illegal ∧ isBlank t.lexeme.toList = true := by
  fun_induction tokens s with
  | case1 => simp
  | case2 s t s' hnext ih =>
    obtain ⟨hkind, hlexeme, hrest⟩ := isBlank_of_next? hs hnext
    exact List.forall_mem_cons.mpr ⟨⟨hkind, hlexeme⟩, ih hrest⟩

/-- A blank line is no program, unless it is the empty one. -/
theorem nodes_eq_nil_of_isBlank {s : Source} (hs : isBlank s.rest = true) {p : Program}
    (hp : s.parse = .ok p) : p.nodes = [] := by
  have hread := parse_eq_ok_iff.mp hp
  obtain ⟨-, cut, hcut, -, -⟩ := Reading.statements_eq_ok_iff.mp hread
  have hnone : s.tokens = [] := by
    refine List.eq_nil_iff_forall_not_mem.mpr fun t ht => ?_
    obtain ⟨hkind, hblank⟩ := isBlank_of_mem_tokens hs t ht
    have hvisible := (hcut.hasPlace t ht).isBlank_eq_false hkind
    rw [hblank] at hvisible
    cases hvisible
  rw [hnone, Reading.statements, Reader.repeated_nil] at hread
  simpa using hread.symm

end Source

/-! ## Joined outputs -/

namespace Output

theorem out_concat (outputs : List Output) :
    (concat outputs).out = String.join (outputs.map Output.out) := by
  induction outputs with
  | nil => rfl
  | cons a rest ih =>
    rw [List.map_cons, String.join_cons, ← ih]
    rfl

theorem err_concat (outputs : List Output) :
    (concat outputs).err = String.join (outputs.map Output.err) := by
  induction outputs with
  | nil => rfl
  | cons a rest ih =>
    rw [List.map_cons, String.join_cons, ← ih]
    rfl

end Output

section Joining

variable {α β : Type}

/-- What writes nothing can be left out of what is joined. -/
theorem join_map_filter {keep : α → Bool} {write : α → String} {xs : List α}
    (h : ∀ x ∈ xs, keep x = false → write x = "") :
    String.join ((xs.filter keep).map write) = String.join (xs.map write) := by
  induction xs with
  | nil => rfl
  | cons x xs ih =>
    obtain ⟨hx, hxs⟩ := List.forall_mem_cons.mp h
    cases hkeep : keep x with
    | true =>
      rw [List.filter_cons_of_pos hkeep, List.map_cons, List.map_cons, String.join_cons,
        String.join_cons, ih hxs]
    | false =>
      rw [List.filter_cons_of_neg (by simp [hkeep]), List.map_cons, String.join_cons, hx hkeep,
        String.empty_append, ih hxs]

theorem join_map_empty {write : α → String} {xs : List α} (h : ∀ x ∈ xs, write x = "") :
    String.join (xs.map write) = "" := by
  have hnone : xs.filter (fun _ => false) = [] := by simp
  rw [← join_map_filter fun x hx _ => h x hx, hnone, List.map_nil, String.join_nil]

/-- What is not found is not joined. -/
theorem join_map_filterMap (find? : α → Option β) (write : β → String) (xs : List α) :
    String.join (xs.map fun x => ((find? x).map write).getD "") =
      String.join ((xs.filterMap find?).map write) := by
  induction xs with
  | nil => rfl
  | cons x xs ih =>
    rw [List.map_cons, String.join_cons, ih]
    cases hfind : find? x with
    | none => rw [List.filterMap_cons_none hfind, Option.map_none, Option.getD_none,
        String.empty_append]
    | some y => rw [List.filterMap_cons_some hfind, List.map_cons, String.join_cons,
        Option.map_some, Option.getD_some]

end Joining

/-! ## Errors, line by line -/

/-- A line that is no program. -/
structure Fault where
  line : List Char
  /-- The number of the line among all lines, from 1. -/
  number : Nat
  error : ParseError
  deriving DecidableEq, Repr

/-- What is said of a fault, behind its place. -/
def Fault.text (x : Fault) : String := "parse error: " ++ x.error.message

/-- A text in red on a line of its own. -/
def inRed (text : String) : String := "\x1b[38;5;9m" ++ text ++ "\x1b[39m\n"

namespace Fault

theorem report_none (x : Fault) : x.error.report none = inRed x.text := by
  simp only [ParseError.report, inRed, text, String.append_assoc, String.empty_append]

theorem report_number (x : Fault) :
    x.error.report (some x.number) = inRed ("line " ++ x.number.repr ++ ": " ++ x.text) := by
  simp only [ParseError.report, inRed, text, String.append_assoc]

end Fault

/-! ## Lines and their answers -/

/-- The lines of a file that are answered. -/
theorem Text.map_fst_numberedLines (text : List Char) :
    (Text.numberedLines text).map Prod.fst =
      (LineEnd.ofChars.lines text).filter fun line => !isBlank line := by
  conv => rhs; rw [← List.zipIdx_map_fst 1 (LineEnd.ofChars.lines text)]
  rw [List.filter_map]
  rfl

namespace Options

variable {o o' : Options} {line text : List Char}

/-- The tokens of a line, written one below the other. -/
def dump (o : Options) (line : List Char) : String :=
  Text.unlines ((⟨o.policy, line⟩ : Source).tokenize.map Token.render)

/-- The trees of a line, written one below the other.  An error has none. -/
def trees (o : Options) (line : List Char) : String :=
  match (⟨o.policy, line⟩ : Source).parse with
  | .ok p => p.render
  | .error _ => ""

/-- What a line writes to standard output. -/
def shows (o : Options) (line : List Char) : String :=
  if o.tokens then o.dump line else o.trees line

/-- The fault of a line, if it has one. -/
def fault? (o : Options) (line : List Char × Nat) : Option Fault :=
  match (⟨o.policy, line.1⟩ : Source).parse with
  | .ok _ => none
  | .error e => some ⟨line.1, line.2, e⟩

/-- The faults of a text. -/
def faults (o : Options) (text : List Char) : List Fault :=
  ((LineEnd.ofChars.lines text).zipIdx 1).filterMap o.fault?

/-- The lines of a text that a run answers, with their numbers: of standard input all, of a file
those that are not blank. -/
def linesFor (o : Options) (text : List Char) : List (List Char × Nat) :=
  if o.file.isSome then Text.numberedLines text else (LineEnd.ofChars.lines text).zipIdx 1

/-- Only the lines of a file show their numbers. -/
def shown (o : Options) (number : Nat) : Option Nat := o.file.map fun _ => number

/-- All that is written in answer to a text. -/
def answerText (o : Options) (log : Nat → Nat → String) (text : List Char) : Output :=
  Output.concat ((o.linesFor text).map fun line =>
    o.answerLine (log line.2) (o.shown line.2) line.1)

/-- The errors of the lines that are answered.  There are none in a dump. -/
def messages (o : Options) (text : List Char) : List Fault :=
  if o.tokens then [] else (o.linesFor text).filterMap o.fault?

/-- Lines that are all valid UTF-8 are all answered. -/
theorem answerLines_encode (o : Options) (log : Nat → Nat → String)
    (lines : List (List Char × Nat)) :
    o.answerLines log (lines.map (Prod.map Text.encode id)) =
      .success (Output.concat (lines.map fun line => o.answerLine (log line.2) none line.1)) := by
  induction lines with
  | nil => rfl
  | cons line rest ih =>
    rw [List.map_cons, Prod.map, answerLines, decodeUtf8?_encode]
    simp only [ih]
    rfl

/-- A text is answered line by line, as a file or as standard input. -/
theorem answer_eq (o : Options) (log : Nat → Nat → String) {bytes : List UInt8}
    (h : decodeUtf8? bytes = some text) :
    o.answer log (.ok bytes) = .success (o.answerText log text) := by
  unfold answer answerText linesFor shown
  cases o.file with
  | none =>
    simp only [answerStandardInput, decodeUtf8?_eq_some_iff.mp h, LineEnd.lines_encode,
      List.zipIdx_map, answerLines_encode]
    rfl
  | some path =>
    simp only [answerFile, h]
    rfl

theorem shows_congr (hpolicy : o'.policy = o.policy) (htokens : o'.tokens = o.tokens) :
    o'.shows = o.shows := by
  funext line
  simp only [shows, dump, trees, hpolicy, htokens]

theorem faults_congr (hpolicy : o'.policy = o.policy) : o'.faults = o.faults := by
  funext text
  have hfault : o'.fault? = o.fault? := by
    funext line
    simp only [fault?, hpolicy]
  rw [faults, faults, hfault]

theorem shows_eq_dump (htokens : o.tokens = true) : o.shows = o.dump := by
  funext line
  rw [shows, if_pos htokens]

theorem shows_eq_trees (htokens : o.tokens = false) : o.shows = o.trees := by
  funext line
  rw [shows, if_neg (by simp [htokens])]

/-- A blank line has no trees. -/
theorem trees_of_isBlank (o : Options) (hline : isBlank line = true) : o.trees line = "" := by
  unfold trees
  cases h : (⟨o.policy, line⟩ : Source).parse with
  | ok p =>
    have hnodes := Source.nodes_eq_nil_of_isBlank hline h
    simp only [Program.render, hnodes, List.map_nil, Text.unlines]
  | error e => rfl

/-! ## Standard output -/

theorem answerLine_tokens (htokens : o.tokens = true) (log : Nat → String) (number : Option Nat)
    (line : List Char) : o.answerLine log number line = ⟨o.dump line, ""⟩ := by
  rw [answerLine, if_pos htokens]
  rfl

theorem answerLine_of_ok (htokens : o.tokens = false) {p : Program}
    (h : (⟨o.policy, line⟩ : Source).parse = .ok p) (log : Nat → String) (number : Option Nat) :
    o.answerLine log number line =
      ⟨p.render, if o.verbose then log p.nodes.length else ""⟩ := by
  rw [answerLine, if_neg (by simp [htokens]), h]

/-- Two statements on one line, which is the third and is logged. -/
example :
    answerLine ⟨none, false, true, none⟩ (fun n => "3: " ++ n.repr) none ['1', ' ', 'x'] =
      ⟨"IntLiteral(1)\nIdentifier(x)\n", "3: 2"⟩ := by
  decide +kernel

theorem answerLine_of_error (htokens : o.tokens = false) {e : ParseError}
    (h : (⟨o.policy, line⟩ : Source).parse = .error e) (log : Nat → String)
    (number : Option Nat) : o.answerLine log number line = ⟨"", e.report number⟩ := by
  rw [answerLine, if_neg (by simp [htokens]), h]

/-- Neither the log nor the number of the line is on standard output. -/
theorem out_answerLine (o : Options) (log : Nat → String) (number : Option Nat)
    (line : List Char) : (o.answerLine log number line).out = o.shows line := by
  cases htokens : o.tokens with
  | true => rw [answerLine_tokens htokens, shows_eq_dump htokens]
  | false =>
    rw [shows_eq_trees htokens, trees]
    cases h : (⟨o.policy, line⟩ : Source).parse with
    | ok p => rw [answerLine_of_ok htokens h]
    | error e => rw [answerLine_of_error htokens h]

theorem out_answerText (o : Options) (log : Nat → Nat → String) (text : List Char) :
    (o.answerText log text).out = String.join (((o.linesFor text).map Prod.fst).map o.shows) := by
  rw [answerText, Output.out_concat, List.map_map, List.map_map]
  simp only [Function.comp_def, out_answerLine]

theorem map_fst_linesFor_of_none (hfile : o.file = none) (text : List Char) :
    (o.linesFor text).map Prod.fst = LineEnd.ofChars.lines text := by
  rw [linesFor, hfile]
  exact List.zipIdx_map_fst 1 _

theorem map_fst_linesFor_of_some {path : String} (hfile : o.file = some path) (text : List Char) :
    (o.linesFor text).map Prod.fst =
      (LineEnd.ofChars.lines text).filter fun line => !isBlank line := by
  rw [linesFor, hfile]
  exact Text.map_fst_numberedLines text

/-- Blank lines have no trees, so passing over them changes nothing. -/
theorem join_trees_filter (o : Options) (text : List Char) :
    String.join (((LineEnd.ofChars.lines text).filter fun line => !isBlank line).map o.trees) =
      String.join ((LineEnd.ofChars.lines text).map o.trees) :=
  join_map_filter fun _ _ hline => o.trees_of_isBlank (by simpa using hline)

/-! ## Standard error -/

/-- Where nothing is logged, what a line writes to standard error is its fault. -/
theorem err_answerLine (htokens : o.tokens = false) (hverbose : o.verbose = false)
    (log : Nat → String) (line : List Char × Nat) :
    (o.answerLine log (o.shown line.2) line.1).err =
      ((o.fault? line).map fun x => x.error.report (o.shown x.number)).getD "" := by
  unfold fault?
  cases h : (⟨o.policy, line.1⟩ : Source).parse with
  | ok p =>
    rw [answerLine_of_ok htokens h, hverbose]
    rfl
  | error e =>
    rw [answerLine_of_error htokens h]
    rfl

theorem err_answerText (h : o.Quiet) (log : Nat → Nat → String) (text : List Char) :
    (o.answerText log text).err =
      String.join ((o.messages text).map fun x => x.error.report (o.shown x.number)) := by
  rw [answerText, Output.err_concat, List.map_map, messages]
  cases htokens : o.tokens with
  | true =>
    rw [if_pos rfl, List.map_nil, String.join_nil]
    apply join_map_empty
    intro line _
    rw [Function.comp_apply, answerLine_tokens htokens]
  | false =>
    have hverbose : o.verbose = false := h.resolve_left (by simp [htokens])
    rw [if_neg (by simp), ← join_map_filterMap]
    simp only [Function.comp_def, err_answerLine htokens hverbose]

/-- The messages of standard input are all faults. -/
theorem messages_of_none (htokens : o.tokens = false) (hfile : o.file = none) (text : List Char) :
    o.messages text = o.faults text := by
  rw [messages, if_neg (by simp [htokens]), linesFor, hfile]
  rfl

/-- The messages of a file are the faults of lines that are not blank. -/
theorem messages_of_some (htokens : o.tokens = false) {path : String} (hfile : o.file = some path)
    (text : List Char) :
    o.messages text = (o.faults text).filter fun x => !isBlank x.line := by
  rw [messages, if_neg (by simp [htokens]), linesFor, hfile, Option.isSome_some, if_pos rfl,
    Text.numberedLines, faults, List.filterMap_filter, List.filter_filterMap]
  congr 1
  funext line
  unfold fault?
  cases (⟨o.policy, line.1⟩ : Source).parse with
  | ok p => simp
  | error e => simp [Option.filter_some]

end Options

/-! ## Runs -/

theorem Options.inputIn_of_some {s : Surroundings} {o : Options} {path : String}
    (h : o.file = some path) : o.inputIn s = s.fileAt path := by
  rw [inputIn, h]

theorem Options.inputIn_of_none {s : Surroundings} {o : Options} (h : o.file = none) :
    o.inputIn s = .ok s.standardInput := by
  rw [inputIn, h]

namespace Surroundings

variable {s s' : Surroundings} {args args' : List String} {o o' : Options} {path : String}
  {text : List Char} {bytes : List UInt8}

/-- A run that has something to read answers it. -/
theorem run_eq_answer (hargs : Request.ofArgs args = .run o) (hinput : o.inputIn s = .ok bytes) :
    s.run args = o.answer s.log (.ok bytes) := by
  rw [run, hargs, ← hinput]

/-- A run that has a text to read succeeds, whatever the answers to its lines are. -/
theorem run_eq_answerText (hargs : Request.ofArgs args = .run o) (hinput : o.inputIn s = .ok bytes)
    (htext : decodeUtf8? bytes = some text) : s.run args = .success (o.answerText s.log text) :=
  (run_eq_answer hargs hinput).trans (o.answer_eq s.log htext)

/-- **A file is answered as standard input is.**  Let one run read a text from a file and another
read it from standard input, with the same policy.  Both succeed.  Without the tokens they print
the same trees, and the errors of the file are those of standard input, with their line numbers put
in, less those in blank lines; a run that keeps a log has that on standard error as well.  With the
tokens, the file shows all lines that standard input shows, less the blank ones. -/
theorem run_file_eq_input (hargs : Request.ofArgs args = .run o)
    (hargs' : Request.ofArgs args' = .run o') (hfile : o.file = some path) (hinput : o'.file = none)
    (hpolicy : o'.policy = o.policy) (htokens : o'.tokens = o.tokens)
    (hread : s.fileAt path = .ok s'.standardInput)
    (htext : decodeUtf8? s'.standardInput = some text) :
    ∃ file input, s.run args = .success file ∧ s'.run args' = .success input ∧
      (o.tokens = false →
        input.out = String.join ((LineEnd.ofChars.lines text).map o.trees) ∧
        file.out = input.out ∧
        (o'.verbose = false →
          input.err = String.join ((o.faults text).map fun x => inRed x.text)) ∧
        (o.verbose = false →
          file.err = String.join (((o.faults text).filter fun x => !isBlank x.line).map fun x =>
            inRed ("line " ++ x.number.repr ++ ": " ++ x.text)))) ∧
      (o.tokens = true →
        input.out = String.join ((LineEnd.ofChars.lines text).map o.dump) ∧
        file.out = String.join (((LineEnd.ofChars.lines text).filter fun line =>
          !isBlank line).map o.dump) ∧
        input.err = "" ∧ file.err = "") := by
  have hfilerun : s.run args = .success (o.answerText s.log text) :=
    run_eq_answerText hargs ((Options.inputIn_of_some hfile).trans hread) htext
  have hinputrun : s'.run args' = .success (o'.answerText s'.log text) :=
    run_eq_answerText hargs' (Options.inputIn_of_none hinput) htext
  have hfileout : (o.answerText s.log text).out =
      String.join (((LineEnd.ofChars.lines text).filter fun line => !isBlank line).map o.shows) := by
    rw [Options.out_answerText, Options.map_fst_linesFor_of_some hfile]
  have hinputout : (o'.answerText s'.log text).out =
      String.join ((LineEnd.ofChars.lines text).map o.shows) := by
    rw [Options.out_answerText, Options.map_fst_linesFor_of_none hinput,
      Options.shows_congr hpolicy htokens]
  refine ⟨_, _, hfilerun, hinputrun, fun hparse => ?_, fun hdump => ?_⟩
  · have hparse' : o'.tokens = false := htokens.trans hparse
    rw [hfileout, hinputout, Options.shows_eq_trees hparse]
    refine ⟨rfl, o.join_trees_filter text, fun hverbose => ?_, fun hverbose => ?_⟩
    · simp only [Options.err_answerText (Or.inr hverbose), Options.messages_of_none hparse' hinput,
        Options.shown, hinput, Option.map_none, Fault.report_none, Options.faults_congr hpolicy]
    · simp only [Options.err_answerText (Or.inr hverbose), Options.messages_of_some hparse hfile,
        Options.shown, hfile, Option.map_some, Fault.report_number]
  · have hdump' : o'.tokens = true := htokens.trans hdump
    rw [hfileout, hinputout, Options.shows_eq_dump hdump, Options.err_answerText (Or.inl hdump),
      Options.err_answerText (Or.inl hdump'), Options.messages, Options.messages, if_pos hdump,
      if_pos hdump']
    exact ⟨rfl, rfl, rfl, rfl⟩

/-- Two blank lines, of which standard input reports the one that is not skipped, and an error in
the last of four lines.  The same lines with their tokens. -/
theorem run_file_eq_input_blank :
    ∃ s : Surroundings, ∃ text file input shown shown',
      text = "1\r\n\u00a0\n \n\t)\r".toList ∧ decodeUtf8? s.standardInput = some text ∧
      s.fileAt "f" = .ok s.standardInput ∧
      s.run ["--whitespace", "ascii", "f"] = .success file ∧
      s.run ["--whitespace=ascii"] = .success input ∧
      input.out = "IntLiteral(1)\n" ∧ file.out = input.out ∧
      input.err = inRed "parse error: expected a primary token, got '\u00a0'" ++
        inRed "parse error: expected a primary token, got ')'" ∧
      file.err = inRed "line 4: parse error: expected a primary token, got ')'" ∧
      s.run ["-t", "--whitespace=ascii", "f"] = .success shown ∧
      s.run ["-t", "--whitespace=ascii"] = .success shown' ∧
      shown'.out = "Token(int, '1')\nToken(eof, 'eof')\n" ++
        "Token(illegal_token, '\u00a0')\nToken(eof, 'eof')\n" ++ "Token(eof, 'eof')\n" ++
        "Token(right_paren, ')')\nToken(eof, 'eof')\n" ∧
      shown.out = "Token(int, '1')\nToken(eof, 'eof')\n" ++
        "Token(right_paren, ')')\nToken(eof, 'eof')\n" := by
  let text := "1\r\n\u00a0\n \n\t)\r".toList
  let s := Surroundings.ofBytes (Text.encode text)
  have htext : decodeUtf8? s.standardInput = some text := decodeUtf8?_encode text
  have hread : s.fileAt "f" = .ok s.standardInput := rfl
  -- The trees.
  let o : Options := ⟨some "f", false, false, some .ascii⟩
  let o' : Options := ⟨none, false, false, some .ascii⟩
  have hargs : Request.ofArgs ["--whitespace", "ascii", "f"] = .run o := by decide
  have hargs' : Request.ofArgs ["--whitespace=ascii"] = .run o' := by decide
  obtain ⟨file, input, hfile, hinput, hparse, -⟩ :=
    run_file_eq_input hargs hargs' rfl rfl rfl rfl hread htext
  obtain ⟨htrees, hout, herr', herr⟩ := hparse rfl
  have hfaults : o.faults text = [⟨['\u00a0'], 2, .expectedPrimary "'\u00a0'"⟩,
      ⟨['\t', ')', '\r'], 4, .expectedPrimary "')'"⟩] := by
    decide +kernel
  rw [hfaults] at herr herr'
  -- The tokens.
  let t : Options := ⟨some "f", true, false, some .ascii⟩
  let t' : Options := ⟨none, true, false, some .ascii⟩
  have htokens : Request.ofArgs ["-t", "--whitespace=ascii", "f"] = .run t := by decide
  have htokens' : Request.ofArgs ["-t", "--whitespace=ascii"] = .run t' := by decide
  obtain ⟨shown, shown', hshown, hshown', -, hdump⟩ :=
    run_file_eq_input htokens htokens' rfl rfl rfl rfl hread htext
  obtain ⟨hout', hout'', -⟩ := hdump rfl
  exact ⟨s, text, file, input, shown, shown', rfl, htext, hread, hfile, hinput,
    htrees.trans (by decide +kernel), hout, (herr' rfl).trans (by decide),
    (herr rfl).trans (by decide), hshown, hshown', hout'.trans (by decide +kernel),
    hout''.trans (by decide +kernel)⟩

end Surroundings

end ScriptTree
