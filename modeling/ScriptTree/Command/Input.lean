import ScriptTree.Command.Request

/-!
# Surroundings

What a run meets outside itself (`Surroundings`), and why there may be nothing to read
(`InputFailure`).

Three things are taken for granted.  Standard input is no terminal, so nobody is asked for the
next line; no variable of the environment says what is logged, so the options alone do; and none
turns colours off.
-/

namespace ScriptTree

/-- Why there is nothing to read. -/
inductive InputFailure
  | notFound
  | noDevice
  | permissionDenied
  | notADirectory
  | isADirectory
  | nameTooLong
  | linkLoop
  | invalidText
  deriving DecidableEq, Repr

namespace InputFailure

/-- The failure of a call to the system: its code, its kind and its text. -/
private def systemFailure (code kind text : String) : String :=
  "Error: Os \x7b code: " ++ code ++ ", kind: " ++ kind ++ ", message: \"" ++ text ++ "\" \x7d\n"

def message : InputFailure → String
  | notFound => systemFailure "2" "NotFound" "No such file or directory"
  | noDevice => systemFailure "6" "Uncategorized" "No such device or address"
  | permissionDenied => systemFailure "13" "PermissionDenied" "Permission denied"
  | notADirectory => systemFailure "20" "NotADirectory" "Not a directory"
  | isADirectory => systemFailure "21" "IsADirectory" "Is a directory"
  | nameTooLong => systemFailure "36" "InvalidFilename" "File name too long"
  | linkLoop => systemFailure "40" "FilesystemLoop" "Too many levels of symbolic links"
  | invalidText =>
    "Error: Error \x7b kind: InvalidData, message: \"stream did not contain valid UTF-8\" \x7d\n"

end InputFailure

/-- What a run reads, and the texts that the libraries under it make. -/
structure Surroundings where
  /-- What there is to read at a path. -/
  fileAt : String → Except InputFailure (List UInt8)
  standardInput : List UInt8
  /-- What is logged when the line of input with this number has been read as a program of so many
  statements.  It shows the time, so it may be different for lines that are alike. -/
  log : (number statements : Nat) → String
  help : String
  misuse : Misuse → String

/-- The same bytes at every path as on standard input.  The log does without the time, and one line
stands for the texts about command lines. -/
def Surroundings.ofBytes (bytes : List UInt8) : Surroundings where
  fileAt _ := .ok bytes
  standardInput := bytes
  log _ statements := "DEBUG parse complete statements=" ++ statements.repr ++ "\n"
  help := "Usage: sprig [OPTIONS] [FILE]\n"
  misuse _ := "Usage: sprig [OPTIONS] [FILE]\n"

end ScriptTree
