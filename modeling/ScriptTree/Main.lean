import ScriptTree.Command.Answer

/-!
# The program

Reads what the request needs, writes the report and exits with its status.
-/

namespace ScriptTree

/-- The failures that the system reports by these numbers. -/
def InputFailure.ofCode? : UInt32 → Option InputFailure
  | 2 => some .notFound
  | 6 => some .noDevice
  | 13 => some .permissionDenied
  | 20 => some .notADirectory
  | 21 => some .isADirectory
  | 36 => some .nameTooLong
  | 40 => some .linkLoop
  | _ => none

/-- The reason that the system gives for not reading a file, if it is one that has a
report of its own.  Its number comes with either sign. -/
def InputFailure.ofError? : IO.Error → Option InputFailure
  | .noFileOrDirectory _ code _ | .noSuchThing _ code _ | .permissionDenied _ code _
  | .inappropriateType _ code _ | .invalidArgument _ code _ => (ofCode? code).or (ofCode? (-code))
  | _ => none

/-- What reading the file at a path gives. -/
def readFile (path : String) : IO (Except InputFailure (List UInt8)) := do
  try
    let bytes ← IO.FS.readBinFile path
    return .ok bytes.toList
  catch e =>
    match InputFailure.ofError? e with
    | some f => return .error f
    | none => throw e

/-- What a request meets.  Nothing is read that is not asked for. -/
def Request.surroundings : Request → IO Surroundings
  | .run o => do
    match o.file with
    | none =>
      let bytes ← (← IO.getStdin).readBinToEnd
      return .ofBytes bytes.toList
    | some path =>
      let content ← readFile path
      return { Surroundings.ofBytes [] with fileAt := fun _ => content }
  | _ => return .ofBytes []

def Report.write (r : Report) : IO UInt32 := do
  IO.print r.output.out
  IO.eprint r.output.err
  return r.status.toUInt32

end ScriptTree

open ScriptTree in
def main (args : List String) : IO UInt32 := do
  let s ← (Request.ofArgs args).surroundings
  (s.run args).write
