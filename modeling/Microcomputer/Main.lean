import Microcomputer.Console.Session

/-!
# The program

Gives the command line and the file system to the console and prints its report.
-/

namespace Microcomputer

/-- A reason that the running system gives, with its number or the negative of it. -/
def FileError.ofReason (code : UInt32) (reason : String) : FileError :=
  match code.toInt32.toInt.natAbs with
  | 2 => .noSuchFile
  | 20 => .notDirectory
  | 21 => .isDirectory
  | 36 => .nameTooLong
  | n => .other (reason ++ " (os error " ++ Text.decimal n ++ ")")

/-- A file error of the running system. -/
def FileError.ofSystem : IO.Error → FileError
  | .noFileOrDirectory _ code reason => .ofReason code reason
  | .inappropriateType _ code reason => .ofReason code reason
  | .permissionDenied _ code reason => .ofReason code reason
  | .resourceExhausted _ code reason => .ofReason code reason
  | .invalidArgument _ code reason => .ofReason code reason
  | .otherError code reason => .ofReason code reason
  | e => .other e.toString

/-- The file system of the running program. -/
def FileSystem.ofSystem : FileSystem IO where
  read path := do
    match ← (IO.FS.readBinFile path).toBaseIO with
    | .ok bytes => return .ok bytes.data.toList
    | .error e => return .error (.ofSystem e)
  write path contents := do
    match ← (IO.FS.writeBinFile path ⟨contents.toArray⟩).toBaseIO with
    | .ok () => return .ok ()
    | .error e => return .error (.ofSystem e)

end Microcomputer

/-- Runs the program. -/
def main (args : List String) : IO UInt32 := do
  let report ← Microcomputer.Console.execute .ofSystem args
  IO.print report.transcript.output
  IO.eprint report.transcript.errors
  return report.code
