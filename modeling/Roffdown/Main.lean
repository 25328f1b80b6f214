import Roffdown.CommandLine.Report
import Std.Time

/-!
# The program

Reads the files and the input that a run may need, runs it, and writes what it says.  All decisions
are made by `CommandLine.run`.
-/

namespace Roffdown.Program

/-- The number of a system error; some calls give the negative of it. -/
def errorNumber (code : UInt32) : Nat :=
  if code.toNat < 0x80000000 then code.toNat else 0x100000000 - code.toNat

/-- The cause of a failure to read a file. -/
def causeOf : IO.Error → OsError
  | .alreadyExists _ code details => .other details.toList (errorNumber code)
  | .otherError code details => .other details.toList (errorNumber code)
  | .resourceBusy code details => .other details.toList (errorNumber code)
  | .resourceVanished code details => .other details.toList (errorNumber code)
  | .unsupportedOperation code details => .other details.toList (errorNumber code)
  | .hardwareFault code details => .other details.toList (errorNumber code)
  | .unsatisfiedConstraints code details => .other details.toList (errorNumber code)
  | .illegalOperation code details => .other details.toList (errorNumber code)
  | .protocolError code details => .other details.toList (errorNumber code)
  | .timeExpired code details => .other details.toList (errorNumber code)
  | .interrupted _ code details => .other details.toList (errorNumber code)
  | .noFileOrDirectory _ _ _ => .notFound
  | .invalidArgument _ code details => .other details.toList (errorNumber code)
  | .permissionDenied _ code details => .other details.toList (errorNumber code)
  | .resourceExhausted _ code details => .other details.toList (errorNumber code)
  | .inappropriateType _ code details => .other details.toList (errorNumber code)
  | .noSuchThing _ code details => .other details.toList (errorNumber code)
  | .unexpectedEof => .other "unexpected end of file".toList 0
  | .userError details => .other details.toList 0

/-- What a path names. -/
def lookUp (path : Text) : IO (Except OsError Node) := do
  try
    return .ok (.file (← IO.FS.readBinFile (String.ofList path)).toList)
  catch e =>
    match causeOf e with
    | .other details code =>
      return if code = 20 then .error .notADirectory
        else if code = 21 then .ok .directory
        else if code = 36 then .error .nameTooLong
        else if code = 40 then .error (.other "Too many levels of symbolic links".toList code)
        else .error (.other details code)
    | cause => return .error cause

/-- The local date. -/
def today : IO Date := do
  let now ←
    try Std.Time.PlainDateTime.now
    catch _ => return ⟨1970, 1, 1⟩
  return ⟨now.date.year, now.date.month.toNat, now.date.day.toNat⟩

/-- All of standard input. -/
def readInput : IO (List UInt8) := do
  return (← (← IO.getStdin).readBinToEnd).toList

/-- Runs with arguments: reads what a run may need, and writes what it says. -/
def runWith (arguments : List Text) : IO UInt32 := do
  let found ← (CommandLine.pathsOf arguments).mapM fun path => do
    return (path, ← lookUp path)
  let input ← if CommandLine.readsInput arguments then readInput else pure []
  let report := CommandLine.run ⟨.ofFound found, input, ← today⟩ arguments
  for diagnostic in report.diagnostics do
    IO.eprint (String.ofList diagnostic.text)
  try
    IO.print (String.ofList report.output)
    (← IO.getStdout).flush
    return UInt32.ofNat report.status
  catch e =>
    IO.eprintln ("Error writing output: " ++ toString e)
    return 1

end Roffdown.Program

/-- The program. -/
def main (arguments : List String) : IO UInt32 :=
  Roffdown.Program.runWith (arguments.map String.toList)
