import ScriptTree.Command.Input
import ScriptTree.Command.Request
import ScriptTree.Session
import ScriptTree.Text.Lines
import ScriptTree.Text.WhiteSpace

/-!
# Answers

What a request writes, and how it ends, given the bytes of its input (`Options.answer`)
or all that a run meets (`Surroundings.run`).  Every line is read by itself.  The lines of a
file are numbered, and the blank ones passed over; a file must be valid UTF-8 as a whole.
Standard input is answered line by line, so what stands before a bad line has been answered
when that line is met.  Errors go to standard error, and so does the log, if one is asked for.
-/

namespace ScriptTree

/-- What is written on the two output streams. -/
structure Output where
  out : String
  err : String
  deriving DecidableEq, Repr

namespace Output

def empty : Output := ⟨"", ""⟩

/-- First the one, then the other. -/
protected def append (a b : Output) : Output := ⟨a.out ++ b.out, a.err ++ b.err⟩

instance : Append Output := ⟨Output.append⟩

def concat (outputs : List Output) : Output := outputs.foldr (· ++ ·) empty

end Output

/-- How a run ends: the exit status and all that was written. -/
structure Report where
  status : Nat
  output : Output
  deriving DecidableEq, Repr

namespace Report

def success (output : Output) : Report := ⟨0, output⟩

def failure (f : InputFailure) : Report := ⟨1, ⟨"", f.message⟩⟩

/-- The same end, after something else was written. -/
def after (first : Output) (r : Report) : Report := ⟨r.status, first ++ r.output⟩

end Report

/-- The characters that some bytes encode in UTF-8. -/
def decodeUtf8? (bytes : List UInt8) : Option (List Char) :=
  (String.fromUTF8? bytes.toByteArray).map String.toList

/-- An error as the terminal shows it, in red, with the number of its line if it has one. -/
def ParseError.report (number : Option Nat) (e : ParseError) : String :=
  let place := match number with
    | some n => "line " ++ n.repr ++ ": "
    | none => ""
  "\x1b[38;5;9m" ++ place ++ "parse error: " ++ e.message ++ "\x1b[39m\n"

/-- The lines of a text that are not blank, with their numbers among all lines. -/
def Text.numberedLines (text : List Char) : List (List Char × Nat) :=
  ((LineEnd.ofChars.lines text).zipIdx 1).filter fun line => !isBlank line.1

namespace Options

/-- Nothing is logged: no line is read as a program, or no log is asked for. -/
def Quiet (o : Options) : Prop := o.tokens = true ∨ o.verbose = false

/-- The answer to one line, with what is logged of it if it is read as a program of so many
statements. -/
def answerLine (o : Options) (log : Nat → String) (number : Option Nat) (line : List Char) :
    Output :=
  let source : Source := ⟨o.policy, line⟩
  if o.tokens then ⟨Text.unlines (source.tokenize.map Token.render), ""⟩
  else
    match source.parse with
    | .ok p => ⟨p.render, if o.verbose then log p.nodes.length else ""⟩
    | .error e => ⟨"", e.report number⟩

/-- The answer to the bytes of a file. -/
def answerFile (o : Options) (log : Nat → Nat → String) (bytes : List UInt8) : Report :=
  match decodeUtf8? bytes with
  | none => .failure .invalidText
  | some text =>
    .success (Output.concat ((Text.numberedLines text).map fun line =>
      o.answerLine (log line.2) (some line.2) line.1))

/-- The answer to numbered lines of bytes, up to the first that is not valid UTF-8.  The numbers
are for the log, and are not shown. -/
def answerLines (o : Options) (log : Nat → Nat → String) : List (List UInt8 × Nat) → Report
  | [] => .success .empty
  | (bytes, number) :: rest =>
    match decodeUtf8? bytes with
    | none => .failure .invalidText
    | some line => (o.answerLines log rest).after (o.answerLine (log number) none line)

/-- The answer to the bytes of standard input. -/
def answerStandardInput (o : Options) (log : Nat → Nat → String) (bytes : List UInt8) : Report :=
  o.answerLines log ((Text.LineEnd.ofBytes.lines bytes).zipIdx 1)

/-- The answer to the input that the options name, or to the failure to read it. -/
def answer (o : Options) (log : Nat → Nat → String) : Except InputFailure (List UInt8) → Report
  | .error f => .failure f
  | .ok bytes =>
    match o.file with
    | some _ => o.answerFile log bytes
    | none => o.answerStandardInput log bytes

/-- The bytes that the options ask for. -/
def inputIn (o : Options) (s : Surroundings) : Except InputFailure (List UInt8) :=
  match o.file with
  | some path => s.fileAt path
  | none => .ok s.standardInput

end Options

/-- The answer to a command line. -/
def Surroundings.run (s : Surroundings) (args : List String) : Report :=
  match Request.ofArgs args with
  | .run o => o.answer s.log (o.inputIn s)
  | .version => .success ⟨"sprig 0.1.0\n", ""⟩
  | .help => .success ⟨s.help, ""⟩
  | .misuse m => ⟨2, ⟨"", s.misuse m⟩⟩

end ScriptTree
