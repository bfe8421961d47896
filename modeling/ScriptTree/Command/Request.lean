import ScriptTree.Source

/-!
# Requests

What the arguments of a command line ask for (`Request.ofArgs`).  Arguments are taken
from left to right, and the first of them that decides the outcome does so: a fault,
or a flag that asks for the version or for help.
-/

namespace ScriptTree

structure Options where
  /-- The file to read; standard input is read without one. -/
  file : Option String
  /-- Write the tokens in place of the tree. -/
  tokens : Bool
  /-- Log every program that is read. -/
  verbose : Bool
  /-- The policy, if one was given. -/
  whitespace : Option Whitespace
  deriving DecidableEq, Repr

/-- What stands where no option says otherwise. -/
def Options.initial : Options := ⟨none, false, false, none⟩

def Options.policy (o : Options) : Whitespace := o.whitespace.getD .space

/-- What can be wrong with a command line. -/
inductive Misuse
  | unknownFlag (flag : String)
  | repeatedFlag (flag : String)
  | unwantedValue (flag : String)
  | missingValue (flag : String)
  | badValue (flag value : String)
  | secondFile (path : String)
  | emptyFile
  deriving DecidableEq, Repr

inductive Request
  | run (o : Options)
  | version
  | help
  | misuse (m : Misuse)
  deriving DecidableEq, Repr

/-- An argument by its outer form. -/
inductive Argument
  /-- Two hyphens: every later argument is a file name. -/
  | ending
  /-- `--name` or `--name=value`. -/
  | long (name : String) (value : Option String)
  /-- One hyphen and the letters after it, of which there is at least one. -/
  | short (letters : List Char)
  /-- Anything else, a single hyphen included. -/
  | plain (text : String)
  deriving DecidableEq, Repr

def Argument.ofString (text : String) : Argument :=
  match text.toList with
  | ['-', '-'] => .ending
  | '-' :: '-' :: cs =>
    .long (String.ofList (cs.takeWhile (· ≠ '=')))
      (match cs.dropWhile (· ≠ '=') with
      | [] => none
      | _ :: value => some (String.ofList value))
  | '-' :: c :: cs => .short (c :: cs)
  | _ => .plain text

/-- The flags that take no value. -/
inductive Flag
  | tokens
  | verbose
  | version
  | help
  deriving DecidableEq, Repr

namespace Flag

def ofName? : String → Option Flag
  | "tokens" => some tokens
  | "verbose" => some verbose
  | "version" => some version
  | "help" => some help
  | _ => none

def ofLetter? : Char → Option Flag
  | 't' => some tokens
  | 'v' => some verbose
  | 'V' => some version
  | 'h' => some help
  | _ => none

end Flag

namespace Options

/-- Takes a flag: further options, or the request that it decides. -/
def takeFlag (o : Options) : Flag → Except Request Options
  | .tokens =>
    if o.tokens then .error (.misuse (.repeatedFlag "--tokens"))
    else .ok { o with tokens := true }
  | .verbose =>
    if o.verbose then .error (.misuse (.repeatedFlag "--verbose"))
    else .ok { o with verbose := true }
  | .version => .error .version
  | .help => .error .help

/-- Takes the flags that stand together behind one hyphen. -/
def takeLetters (o : Options) : List Char → Except Request Options
  | [] => .ok o
  | c :: cs =>
    match Flag.ofLetter? c with
    | none => .error (.misuse (.unknownFlag (String.ofList ['-', c])))
    | some f =>
      match o.takeFlag f with
      | .error r => .error r
      | .ok o' => o'.takeLetters cs

/-- Takes a flag by its name. -/
def takeNamed (o : Options) (name : String) (value : Option String) : Except Request Options :=
  match Flag.ofName? name with
  | none => .error (.misuse (.unknownFlag ("--" ++ name)))
  | some f =>
    match value with
    | none => o.takeFlag f
    | some _ => .error (.misuse (.unwantedValue ("--" ++ name)))

/-- Takes the value of the whitespace option. -/
def takePolicy (o : Options) (value : String) : Except Request Options :=
  let given (w : Whitespace) : Except Request Options :=
    if o.whitespace.isSome then .error (.misuse (.repeatedFlag "--whitespace"))
    else .ok { o with whitespace := some w }
  match value with
  | "space" => given .space
  | "ascii" => given .ascii
  | _ => .error (.misuse (.badValue "--whitespace" value))

/-- Takes the file name; there is one at most. -/
def takePath (o : Options) (path : String) : Except Request Options :=
  if path.isEmpty then .error (.misuse .emptyFile)
  else if o.file.isSome then .error (.misuse (.secondFile path))
  else .ok { o with file := some path }

/-- Takes file names only. -/
def takePaths (o : Options) : List String → Request
  | [] => .run o
  | arg :: rest =>
    match o.takePath arg with
    | .error r => r
    | .ok o' => o'.takePaths rest

/-- Takes the arguments left.  The value of the whitespace option stands behind an equals
sign or is the next argument, which must not look like a flag then. -/
def takeArgs (o : Options) : List String → Request
  | [] => .run o
  | arg :: rest =>
    match Argument.ofString arg with
    | .ending => o.takePaths rest
    | .plain text =>
      match o.takePath text with
      | .error r => r
      | .ok o' => o'.takeArgs rest
    | .short cs =>
      match o.takeLetters cs with
      | .error r => r
      | .ok o' => o'.takeArgs rest
    | .long "whitespace" (some value) =>
      match o.takePolicy value with
      | .error r => r
      | .ok o' => o'.takeArgs rest
    | .long "whitespace" none =>
      match rest with
      | [] => .misuse (.missingValue "--whitespace")
      | next :: rest' =>
        match Argument.ofString next with
        | .plain value =>
          match o.takePolicy value with
          | .error r => r
          | .ok o' => o'.takeArgs rest'
        | _ => .misuse (.missingValue "--whitespace")
    | .long name value =>
      match o.takeNamed name value with
      | .error r => r
      | .ok o' => o'.takeArgs rest

end Options

def Request.ofArgs (args : List String) : Request := Options.initial.takeArgs args

end ScriptTree
