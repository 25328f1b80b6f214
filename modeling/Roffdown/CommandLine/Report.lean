import Roffdown.CommandLine.Help
import Roffdown.CommandLine.Request
import Roffdown.Conversion
import Roffdown.Settings.Layer
import Roffdown.Text.Visible

/-!
# Running the program

A run converts its inputs one after the other, up to the first that fails.  It writes the documents
converted before, and reports what is to be said in diagnostics.

* `convertAll`: the documents of a run.
* `run`: what a run writes, reports and returns.
-/

namespace Roffdown.CommandLine

open Settings (Layer LayerError)

/-! ## Diagnostics -/

/-- Why a document is not converted. -/
inductive DocumentError
  | load (e : LoadFailure)
  | unclosed (e : UnclosedCode)
deriving DecidableEq, Repr

/-- The text of the error. -/
def DocumentError.message : DocumentError → Text
  | load e => e.message
  | unclosed e => e.message

/-- What a run reports. -/
inductive Diagnostic
  /-- A flag that is skipped. -/
  | unknownFlag (flag : Text)
  | warning (w : Warning)
  | failed (e : DocumentError)
  | noSettings (e : LayerError)
  | usage (e : UsageError)
deriving DecidableEq, Repr

/-- The text of a warning. -/
def warningText : Warning → Text
  | .tooDeep => "list nesting too deep, continuing the innermost list depth=32".toList
  | .unclosedFence => "code block not closed before end of input".toList

/-- What a diagnostic begins with: all of it, unless its detail is worded by another part. -/
def Diagnostic.heading : Diagnostic → Text
  | unknownFlag flag => " WARN unknown option: [".toList ++ Text.visible flag ++ "]\n".toList
  | warning w => " WARN ".toList ++ warningText w ++ ['\n']
  | failed e => "Error: ".toList ++ e.message ++ ['\n']
  | noSettings _ => "Failed to load configuration: ".toList
  | usage _ => []

/-- What a diagnostic goes on with. -/
def Diagnostic.detail : Diagnostic → Text
  | noSettings e => e.message ++ ['\n']
  | usage e =>
    "error: ".toList ++ e.message ++
      "\n\nUsage: md2roff [OPTIONS] [inputs]...\n\nFor more information, try '--help'.\n".toList
  | _ => []

/-- The text of a diagnostic. -/
def Diagnostic.text (d : Diagnostic) : Text := d.heading ++ d.detail

theorem Diagnostic.text_unknownFlag (flag : Text) : (unknownFlag flag).text =
    " WARN unknown option: [".toList ++ Text.visible flag ++ "]\n".toList :=
  List.append_nil _

/-- What a run writes, reports and returns. -/
structure Report where
  status : Nat
  output : Text
  diagnostics : List Diagnostic

/-- A diagnostic before the others. -/
def Report.after (diagnostics : List Diagnostic) (r : Report) : Report :=
  { r with diagnostics := diagnostics ++ r.diagnostics }

/-- All that a run reports, as one text. -/
def Report.errorText (r : Report) : Text := r.diagnostics.flatMap Diagnostic.text

theorem Report.errorText_after (diagnostics : List Diagnostic) (r : Report) :
    (r.after diagnostics).errorText = diagnostics.flatMap Diagnostic.text ++ r.errorText :=
  List.flatMap_append

/-! ## Documents -/

/-- What surrounds a run. -/
structure Environment where
  files : Files
  /-- All of standard input. -/
  input : List UInt8
  today : Date

/-- The input that means standard input. -/
def standardInput : Text := ['-']

/-- The document of an input; `bytes` is what is left of standard input. -/
def documentOf (files : Files) (bytes : List UInt8) (input : Text) :
    Except LoadFailure Document :=
  if input = standardInput then .ok (.ofBytes Document.standardInputName bytes)
  else Document.load files input

/-- What is left of standard input after an input: nothing once it has been read. -/
def inputAfter (bytes : List UInt8) (input : Text) : List UInt8 :=
  if input = standardInput then [] else bytes

/-- What becomes of one input: its text or an error, and warnings. -/
def convertInput (settings : Settings) (today : Date) (files : Files) (bytes : List UInt8)
    (input : Text) : Except DocumentError Text × List Warning :=
  match documentOf files bytes input with
  | .error e => (.error (.load e), [])
  | .ok document =>
    let c := document.toRoff settings.dialect settings.fields today
    match c.result with
    | .ok lines => (.ok (Text.ofLines lines), c.warnings)
    | .error e => (.error (.unclosed e), c.warnings)

/-- Converts inputs up to the first that fails. -/
def convertAll (settings : Settings) (today : Date) (files : Files) :
    List UInt8 → List Text → Report
  | _, [] => ⟨0, [], []⟩
  | bytes, input :: inputs =>
    let (result, warnings) := convertInput settings today files bytes input
    let warnings := warnings.map Diagnostic.warning
    match result with
    | .error e => ⟨1, [], warnings ++ [.failed e]⟩
    | .ok output =>
      let r := convertAll settings today files (inputAfter bytes input) inputs
      ⟨r.status, output ++ r.output, warnings ++ r.diagnostics⟩

/-! ## The whole run -/

/-- The file that gives settings for a directory. -/
def localFile : Text := "md2roff.toml".toList

/-- The layers of settings of a job. -/
def Job.layers (j : Job) : List Layer :=
  .optionalFile localFile :: (j.config.map Layer.file).toList ++
    (j.dialect.map fun d => Layer.override Setting.dialect.key d.name).toList

/-- Does what a request asks for. -/
def Request.run (env : Environment) : Request → Report
  | .help long => ⟨0, helpText long, []⟩
  | .version => ⟨0, versionLine, []⟩
  | .job j =>
    if j.listDialects then ⟨0, dialectList, []⟩
    else
      match Layer.build env.files j.layers with
      | .error e => ⟨1, [], [.noSettings e]⟩
      | .ok settings => convertAll settings env.today env.files env.input j.inputs

/-- Runs the program with arguments; flags that are not understood are reported and skipped. -/
def run (env : Environment) (arguments : List Text) : Report :=
  let (known, unknown) := sift arguments
  let report : Report :=
    match Request.ofArguments known with
    | .error e => ⟨2, [], [.usage e]⟩
    | .ok request => request.run env
  report.after (unknown.map Diagnostic.unknownFlag)

/-! ## Files that a run reads -/

/-- The paths at which a run may look for files. -/
def pathsOf (arguments : List Text) : List Text :=
  match Request.ofArguments (sift arguments).1 with
  | .ok (.job j) =>
    let configs := localFile :: j.config.toList
    configs ++ configs.filterMap Settings.withExtension? ++
      j.inputs.filter fun input => input != standardInput
  | _ => []

/-- Whether a run may read standard input. -/
def readsInput (arguments : List Text) : Bool :=
  match Request.ofArguments (sift arguments).1 with
  | .ok (.job j) => !j.listDialects && j.inputs.contains standardInput
  | _ => false

end Roffdown.CommandLine
