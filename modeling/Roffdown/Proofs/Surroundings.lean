import Mathlib.Data.List.Basic
import Roffdown.Proofs.Inputs
import Roffdown.Proofs.Layering

/-!
# What a run looks at

A run looks at no more of what surrounds it than its arguments tell beforehand: the files under the
paths of `pathsOf`, standard input if `readsInput` says so, and the date.  So the program may fetch
these before it runs.

* `Settings.Layer.build_congr`: settings depend on the files of their layers.
* `CommandLine.convertAll_congr`: documents depend on the files of their inputs.
* `CommandLine.run_congr`: a run depends on what it looks at.
* `CommandLine.run_ofFound`: a run on what was fetched before.
-/

namespace Roffdown

/-! ## Settings -/

namespace Settings

variable {files files' : Files}

theorem findFile?_congr {path : Text} (h : files' path = files path)
    (hext : ∀ p ∈ withExtension? path, files' p = files p) :
    findFile? files' path = findFile? files path := by
  have hregular {p : Text} (hp : files' p = files p) : files'.regular? p = files.regular? p := by
    rw [Files.regular?, Files.regular?, hp]
  rw [findFile?, findFile?, hregular h]
  cases hp : withExtension? path with
  | none => rfl
  | some p => rw [Option.bind_some, Option.bind_some, hregular (hext p hp)]

namespace Layer

/-- The path of a file that gives a layer. -/
def path? : Layer → Option Text
  | file path | optionalFile path => some path
  | override _ _ => none

theorem assignments_congr {l : Layer}
    (h : ∀ path ∈ l.path?, findFile? files' path = findFile? files path) :
    assignments files' l = assignments files l := by
  cases l with
  | file path => rw [assignments, assignments, h path rfl]
  | optionalFile path => rw [assignments, assignments, h path rfl]
  | override key value => rfl

theorem mapM_assignments_congr {layers : List Layer}
    (h : ∀ l ∈ layers, assignments files' l = assignments files l) :
    layers.mapM (assignments files') = layers.mapM (assignments files) := by
  induction layers with
  | nil => rfl
  | cons l layers ih =>
    obtain ⟨hl, hlayers⟩ := List.forall_mem_cons.1 h
    rw [List.mapM_cons, List.mapM_cons, hl, ih hlayers]

/-- The settings of layers depend on nothing but the files that they mean. -/
theorem build_congr {layers : List Layer} (h : ∀ l ∈ layers, ∀ path ∈ l.path?,
    findFile? files' path = findFile? files path) : build files' layers = build files layers := by
  rw [build, build, mapM_assignments_congr fun l hl => assignments_congr (h l (mem_ordered.1 hl))]

end Layer

end Settings

/-! ## Documents -/

namespace CommandLine

open Settings (Layer)

variable {env env' : Environment} {arguments : List Text}

theorem convertAll_congr (settings : Settings) {inputs : List Text} (earlier : List Text)
    (h : SameFor inputs env env') :
    convertAll settings env'.today env'.files (inputLeft env' earlier) inputs =
      convertAll settings env.today env.files (inputLeft env earlier) inputs := by
  induction inputs generalizing earlier with
  | nil => rfl
  | cons input inputs ih =>
    rw [convertAll, convertAll, convertInput_congr h.head, inputAfter_inputLeft,
      inputAfter_inputLeft, ih _ h.tail]

/-! ## The program -/

theorem path_mem_of_mem_layers {j : Job} {l : Layer} (hl : l ∈ j.layers) :
    ∀ path ∈ l.path?, path ∈ localFile :: j.config.toList := by
  rintro path hp
  rcases List.mem_append.1 hl with hl | hl
  · rcases List.mem_cons.1 hl with rfl | hl
    · obtain rfl := Option.some.inj hp
      exact List.mem_cons_self
    · obtain ⟨config, hconfig, rfl⟩ := Option.map_eq_some_iff.1 (Option.mem_toList.1 hl)
      obtain rfl := Option.some.inj hp
      exact List.mem_cons_of_mem _ (Option.mem_toList.2 hconfig)
  · obtain ⟨d, -, rfl⟩ := Option.map_eq_some_iff.1 (Option.mem_toList.1 hl)
    cases hp

section

variable {j : Job} (hj : Request.ofArguments (sift arguments).1 = .ok (.job j))

include hj

theorem pathsOf_of_job : pathsOf arguments =
    (localFile :: j.config.toList) ++
      (localFile :: j.config.toList).filterMap Settings.withExtension? ++
      j.inputs.filter fun input => input != standardInput := by
  rw [pathsOf, hj]

theorem readsInput_of_job :
    readsInput arguments = (!j.listDialects && j.inputs.contains standardInput) := by
  rw [readsInput, hj]

/-- The settings of a job come from files under paths of the run. -/
theorem build_congr_of_job (h : ∀ path ∈ pathsOf arguments, env'.files path = env.files path) :
    Layer.build env'.files j.layers = Layer.build env.files j.layers := by
  rw [pathsOf_of_job hj] at h
  refine Layer.build_congr fun l hl path hp => ?_
  have hpath := path_mem_of_mem_layers hl path hp
  refine Settings.findFile?_congr (h path ?_) fun p hext => h p ?_
  · exact List.mem_append_left _ (List.mem_append_left _ hpath)
  · have hp := List.mem_filterMap.2 ⟨path, hpath, hext⟩
    exact List.mem_append_left _ (List.mem_append_right _ hp)

/-- What the inputs of a job are read from is what the run looks at. -/
theorem sameFor_of_job (htoday : env'.today = env.today)
    (hfiles : ∀ path ∈ pathsOf arguments, env'.files path = env.files path)
    (hinput : readsInput arguments → env'.input = env.input) (hlist : j.listDialects = false) :
    SameFor j.inputs env env' where
  today := htoday
  files input hi hne := by
    rw [pathsOf_of_job hj] at hfiles
    exact hfiles input (List.mem_append_right _ (List.mem_filter.2 ⟨hi, bne_iff_ne.2 hne⟩))
  input hi := by
    rw [readsInput_of_job hj, hlist] at hinput
    exact hinput (List.contains_iff_mem.2 hi)

end

/-- **A run depends on nothing but what it looks at.** -/
theorem run_congr (htoday : env'.today = env.today)
    (hfiles : ∀ path ∈ pathsOf arguments, env'.files path = env.files path)
    (hinput : readsInput arguments → env'.input = env.input) :
    run env' arguments = run env arguments := by
  simp only [run]
  cases hr : Request.ofArguments (sift arguments).1 with
  | error => rfl
  | ok r =>
    cases r with
    | help => rfl
    | version => rfl
    | job j =>
      cases hlist : j.listDialects with
      | true => simp only [Request.run, hlist, if_true]
      | false =>
        have hsame := sameFor_of_job hr htoday hfiles hinput hlist
        simp only [Request.run, hlist, Bool.false_eq_true, if_false, build_congr_of_job hr hfiles]
        cases Layer.build env.files j.layers with
        | error => rfl
        | ok settings =>
          exact congrArg (Report.after _) (convertAll_congr settings [] hsame)

/-- **The program may fetch beforehand what a run looks at**: the files under the paths that its
arguments name, and standard input if they mean it. -/
theorem run_ofFound (env : Environment) (arguments : List Text) :
    run ⟨.ofFound ((pathsOf arguments).map fun path => (path, env.files path)),
      if readsInput arguments then env.input else [], env.today⟩ arguments = run env arguments := by
  refine run_congr rfl (fun path hpath => ?_) fun h => if_pos h
  show (List.lookup path _).getD _ = _
  rw [List.lookup_graph env.files hpath, Option.getD_some]

end CommandLine

end Roffdown
