import Roffdown.Proofs.Acceptance
import Roffdown.Proofs.Overlay

/-!
# Which dialect is used

The dialect of a run is chosen by its flags, of which the last one counts, however it is spelled.
Without such a flag it is the one in the configuration file that the command line names last, or
else the one in the file for the directory, or else the standard one.  Flags for dialects choose
nothing else.

* `dialectsChosen`: the dialects that a command line chooses.
* `Matches.exists_choices`: what a job has of the dialects and paths of its command line.
* `Job.build_layers_eq_ok_iff`: its settings are those of two files, under its dialect.
* `last_dialect_counts`: the dialect of every document.
-/

namespace Roffdown.CommandLine

open Text
open Settings hiding standard

/-! ## Command lines -/

/-- The dialects that a command line chooses, from left to right.  The value of the configuration
flag chooses none, nor does what follows the end of the flags. -/
def dialectsChosen : List Text → List Dialect
  | [] => []
  | argument :: rest =>
    if argument = endOfFlags then []
    else if argument = configFlag then
      match rest with
      | [] => []
      | _ :: rest => dialectsChosen rest
    else dialectsOf argument ++ dialectsChosen rest

theorem dialectsChosen_endOfFlags (rest : List Text) :
    dialectsChosen (endOfFlags :: rest) = [] := by
  unfold dialectsChosen
  exact if_pos rfl

theorem dialectsChosen_configFlag (value : Text) (rest : List Text) :
    dialectsChosen (configFlag :: value :: rest) = dialectsChosen rest := by
  conv => lhs; unfold dialectsChosen
  rw [if_neg (by decide), if_pos rfl]

theorem dialectsChosen_of_ne {argument : Text} (hend : argument ≠ endOfFlags)
    (hconfig : argument ≠ configFlag) (rest : List Text) :
    dialectsChosen (argument :: rest) = dialectsOf argument ++ dialectsChosen rest := by
  conv => lhs; unfold dialectsChosen
  rw [if_neg hend, if_neg hconfig]

theorem isUnderstood_name (d : Dialect) : isUnderstood ('-' :: '-' :: d.name) := by
  cases d <;> decide

theorem dialectsOf_joined (value : Text) : dialectsOf (configFlag ++ '=' :: value) = [] := by
  show (Dialect.ofName? (configName ++ '=' :: value)).toList = []
  cases h : Dialect.ofName? (configName ++ '=' :: value) with
  | none => rfl
  | some d =>
    have hmem : '=' ∈ d.name := by
      rw [Dialect.name_of_ofName? h]
      exact List.mem_append_right _ List.mem_cons_self
    have hnot : '=' ∉ d.name := by cases d <;> decide
    exact absurd hmem hnot

theorem dialectsOf_of_not_understood {argument : Text} (h : ¬ isUnderstood argument) :
    dialectsOf argument = [] := by
  unfold dialectsOf
  split
  · rename_i name
    cases hd : Dialect.ofName? name with
    | none => rfl
    | some d =>
      rw [← Dialect.name_of_ofName? hd] at h
      exact absurd (isUnderstood_name d) h
  · rename_i letters hshape
    refine if_neg fun hletters => h ?_
    unfold isUnderstood
    split
    · rename_i he
      exact (hshape _ (List.cons.inj he).2).elim
    · rename_i he
      cases he
      exact hletters
    · rfl
  · rfl

/-- **A job has the last path of its command line, and the flags of its dialects stand** as they are
given one after the other. -/
theorem Matches.exists_choices {arguments : List Text} {m : Matches} {k : Job}
    (h : m.read (sift arguments).1 = .ok (.job k)) :
    ∃ values paths, ConfigPaths arguments values paths ∧
      k.config = paths.getLast?.or m.config ∧
      k.dialect = standing? ((dialectsChosen arguments).foldl give m.dialects) := by
  induction arguments using sift_induction generalizing m with
  | nil =>
    obtain rfl : m.job = k := by simpa [sift, read] using h
    exact ⟨[], [], .nil, rfl, rfl⟩
  | endOfFlags rest =>
    rw [sift_endOfFlags, read_endOfFlags] at h
    cases h
    rw [dialectsChosen_endOfFlags]
    exact ⟨[], [], .endOfFlags rest, rfl, rfl⟩
  | configAtEnd =>
    have herror : m.read [configFlag] = .error .missingValue := by
      unfold read
      rfl
    cases herror.symm.trans h
  | config value rest ih =>
    rw [sift_configFlag, read_configFlag] at h
    split at h
    · obtain ⟨values, paths, hpaths, hc, hd⟩ := ih h
      rw [dialectsChosen_configFlag]
      exact ⟨_, _, hpaths.apart value, hc.trans (getLast?_cons_or value paths _).symm, hd⟩
    · cases h
  | understood argument rest hend hconfig hknown ih =>
    rw [sift_of_understood hend hconfig hknown] at h
    rw [dialectsChosen_of_ne hend hconfig]
    by_cases hjoined : ∃ value, argument = configFlag ++ '=' :: value
    · obtain ⟨value, rfl⟩ := hjoined
      rw [read_joined] at h
      obtain ⟨values, paths, hpaths, hc, hd⟩ := ih h
      rw [dialectsOf_joined]
      exact ⟨_, _, hpaths.joined value, hc.trans (getLast?_cons_or value paths _).symm, hd⟩
    · have hne : ∀ value, argument ≠ configFlag ++ '=' :: value := fun value he =>
        hjoined ⟨value, he⟩
      obtain ⟨r, htakes, hr⟩ := m.exists_goOn hknown hend hconfig hne (sift rest).1
      rw [hr] at h
      cases htakes with
      | answered hrequest => exact absurd (Except.ok.inj h) (hrequest k)
      | @goesOn n hc' hd' =>
        obtain ⟨values, paths, hpaths, hc, hd⟩ := ih h
        refine ⟨_, _, .other hend hconfig hne hpaths, hc' ▸ hc, ?_⟩
        rw [hd, hd', List.foldl_append]
  | setAside argument rest hend hconfig hknown ih =>
    rw [sift_of_not_understood hend hconfig hknown] at h
    rw [dialectsChosen_of_ne hend hconfig, dialectsOf_of_not_understood hknown]
    obtain ⟨values, paths, hpaths, hc, hd⟩ := ih h
    have hne : ∀ value, argument ≠ configFlag ++ '=' :: value := by
      rintro value rfl
      exact hknown (isUnderstood_joined value)
    exact ⟨_, _, .other hend hconfig hne hpaths, hc, hd⟩

/-! ## Files -/

section

variable (files : Files)

/-- What a store holds after the files of some paths, over the standard settings. -/
def storeAfter (paths : List Text) : Content :=
  assignAll (paths.flatMap fun path => (Layer.file path).given files) standardStore

/-- The dialect that the file of a path gives, after the files of earlier paths. -/
def dialectIn? (earlier : List Text) (path : Text) : Option Dialect :=
  (Layer.document? files path).bind (dialectOver? (storeAfter files earlier))

variable {files}

theorem storeAfter_concat (earlier : List Text) (path : Text) :
    storeAfter files (earlier ++ [path]) =
      assignAll ((Layer.file path).given files) (storeAfter files earlier) := by
  rw [storeAfter, List.flatMap_append, assignAll_append, List.flatMap_singleton]
  rfl

/-- The dialect of a file counts, or else the one that was there before. -/
theorem dialectIn?_or {earlier : List Text} {path : Text} {d : Dialect}
    (h : dialectOf? (contentOf (storeAfter files (earlier ++ [path])) .dialect) = some d) :
    (dialectIn? files earlier path).or
      (dialectOf? (contentOf (storeAfter files earlier) .dialect)) = some d := by
  rw [storeAfter_concat, Layer.given] at h
  rw [dialectIn?]
  cases hd : Layer.document? files path with
  | none =>
    rw [hd] at h
    exact h
  | some document =>
    rw [hd] at h
    exact dialectOver?_or _ document h

theorem dialectIn?_eq {path : Text} {document : Toml.Table}
    (hd : Layer.document? files path = some document) (h : CountsForward .dialect document)
    (earlier : List Text) : dialectIn? files earlier path =
      dialectOf? (contentOf (assignAll (assignmentsOf document) .nothing) .dialect) := by
  rw [dialectIn?, hd]
  exact dialectOver?_eq _ document h

end

/-! ## Settings of a job -/

namespace Job

/-- The paths of the files that give settings for a job. -/
def settingsPaths (j : Job) : List Text := localFile :: j.config.toList

/-- What the dialect of a job gives for settings. -/
def flagAssignments (j : Job) : List Assignment :=
  (j.dialect.map fun d => ⟨Setting.dialect.path, .text d.name⟩).toList

variable (j : Job) (files : Files)

theorem ordered_layers : Layer.ordered j.layers = j.layers := by
  obtain ⟨dialect, config, listDialects, inputs⟩ := j
  cases dialect <;> cases config <;> rfl

theorem assignments_dialect (d : Dialect) :
    (Layer.override Setting.dialect.key d.name).assignments files =
      .ok [⟨Setting.dialect.path, .text d.name⟩] := by
  have hpath : path? Setting.dialect.key = some Setting.dialect.path := path?_of_folded (by decide)
  rw [Layer.assignments, hpath]

/-- The layers of a job give what its files give, and then its dialect. -/
theorem assignAll_layers : assignAll (j.layers.flatMap (Layer.given files)) standardStore =
    assignAll j.flagAssignments (storeAfter files j.settingsPaths) := by
  have hflags : ((j.dialect.map fun d => Layer.override Setting.dialect.key d.name).toList).flatMap
      (Layer.given files) = j.flagAssignments := by
    unfold flagAssignments
    cases j.dialect with
    | none => rfl
    | some d =>
      have hgiven := Layer.eq_given_of_assignments (assignments_dialect files d)
      exact (List.flatMap_singleton _ _).trans hgiven.symm
  have hfiles : (Layer.optionalFile localFile :: (j.config.map Layer.file).toList).flatMap
      (Layer.given files) = j.settingsPaths.flatMap fun path => (Layer.file path).given files := by
    unfold settingsPaths
    cases j.config <;> rfl
  rw [layers, List.flatMap_append, assignAll_append, hflags, hfiles]
  rfl

/-- Two stores of settings, with and without the dialect of a job, differ for the dialect only. -/
theorem contentOf_flagAssignments (store : Content) {s : Setting} (hs : s ≠ .dialect) :
    contentOf (assignAll j.flagAssignments store) s = contentOf store s := by
  unfold flagAssignments
  cases j.dialect with
  | none => rfl
  | some d =>
    refine contentOf_congr
      ((Content.child_assign_path .dialect d.name store s.table).trans (if_neg ?_))
    cases s with
    | dialect => exact absurd rfl hs
    | _ => decide

theorem dialectOf?_flagAssignments {d : Dialect} (hd : j.dialect = some d) (store : Content) :
    dialectOf? (contentOf (assignAll j.flagAssignments store) .dialect) = some d := by
  have hchild := Content.child_assign_path .dialect d.name store Setting.dialect.table
  rw [if_pos rfl] at hchild
  rw [flagAssignments, hd]
  show dialectOf? (contentOf (store.assign Setting.dialect.path (.text d.name)) .dialect) = some d
  rw [contentOf_of_table hchild, find_alter, if_pos rfl]
  cases d <;> rfl

variable {j files} {settings : Settings}

/-- The settings of a job are those that its files and its dialect give, if its files can be
read. -/
theorem build_layers_eq_ok_iff : Layer.build files j.layers = .ok settings ↔
    (∀ l ∈ j.layers, ∃ g, l.assignments files = .ok g) ∧
      dialectOf? (contentOf (assignAll j.flagAssignments (storeAfter files j.settingsPaths))
        .dialect) = some settings.dialect ∧
      ∀ s ≠ .dialect,
        contentOf (storeAfter files j.settingsPaths) s = .text (settings.get s) := by
  rw [Layer.build_eq_ok_iff, ordered_layers, assignAll_layers, ofStore_eq_ok_iff]
  refine and_congr_right fun _ => and_congr_right fun _ => forall_congr' fun s =>
    forall_congr' fun hs => ?_
  rw [contentOf_flagAssignments j _ hs]

/-- Without a flag the dialect is that of the file which is named, or of the one for the
directory. -/
theorem dialect_of_files {d : Dialect}
    (h : dialectOf? (contentOf (storeAfter files j.settingsPaths) .dialect) = some d) :
    d = ((j.config.bind (dialectIn? files [localFile])).or
      (dialectIn? files [] localFile)).getD .man := by
  have hlocal {d : Dialect}
      (h : dialectOf? (contentOf (storeAfter files [localFile]) .dialect) = some d) :
      d = (dialectIn? files [] localFile).getD .man := by
    have hor := @dialectIn?_or files [] localFile d h
    cases hin : dialectIn? files [] localFile with
    | none =>
      rw [hin] at hor
      exact (Option.some.inj hor).symm
    | some d' =>
      rw [hin] at hor
      exact (Option.some.inj hor).symm
  cases hc : j.config with
  | none =>
    rw [settingsPaths, hc] at h
    exact hlocal h
  | some path =>
    rw [settingsPaths, hc] at h
    have hor := @dialectIn?_or files [localFile] path d h
    rw [Option.bind_some]
    cases hin : dialectIn? files [localFile] path with
    | none =>
      rw [hin] at hor
      exact hlocal hor
    | some d' =>
      rw [hin] at hor
      exact (Option.some.inj hor).symm

theorem readable_of_config {k : Job} (hc : k.config = j.config)
    (h : ∀ l ∈ j.layers, ∃ g, l.assignments files = .ok g) :
    ∀ l ∈ k.layers, ∃ g, l.assignments files = .ok g := by
  intro l hl
  rcases List.mem_append.1 hl with hfile | hflag
  · rw [hc] at hfile
    exact h l (List.mem_append_left _ hfile)
  · obtain ⟨d, -, rfl⟩ := Option.map_eq_some_iff.1 (Option.mem_toList.1 hflag)
    exact ⟨_, assignments_dialect files d⟩

end Job

theorem fields_eq_of_get {settings settings' : Settings}
    (h : ∀ s ≠ .dialect, settings'.get s = settings.get s) :
    settings'.fields = settings.fields := by
  obtain ⟨d, ⟨a, b, c, e, f⟩⟩ := settings
  obtain ⟨d', ⟨a', b', c', e', f'⟩⟩ := settings'
  obtain rfl : a' = a := h .manualSection nofun
  obtain rfl : b' = b := h .origin nofun
  obtain rfl : c' = c := h .author nofun
  obtain rfl : e' = e := h .paper nofun
  obtain rfl : f' = f := h .printStyle nofun
  rfl

/-! ## Runs -/

section

variable {env : Environment} {arguments : List Text} {j : Job} {settings : Settings}

/-- **The last dialect that a command line chooses counts.**  When a command line is converted, all
its documents are converted in this dialect.  If it chooses none, the file that its last
configuration flag names decides, if it gives a dialect; or else the file for the directory; or else
it is the standard one.  What dialect a file gives, it decides by itself, unless it counts from the
end the items of an array that another file may have given.  And with another dialect, or none, all
other settings are the same. -/
theorem last_dialect_counts (h : Converts env arguments j settings) :
    ∃ values paths, ConfigPaths arguments values paths ∧ j.config = paths.getLast? ∧
      run env arguments = (convertAll settings env.today env.files env.input j.inputs).after
        ((sift arguments).2.map .unknownFlag) ∧
      settings.dialect = ((dialectsChosen arguments).getLast?.or
        ((paths.getLast?.bind (dialectIn? env.files [localFile])).or
          (dialectIn? env.files [] localFile))).getD .man ∧
      (∀ earlier path document, Layer.document? env.files path = some document →
        CountsForward .dialect document → dialectIn? env.files earlier path =
          dialectOf? (contentOf (assignAll (assignmentsOf document) .nothing) .dialect)) ∧
      ∀ k : Job, k.config = j.config →
        (∀ settings', Layer.build env.files k.layers = .ok settings' →
          settings'.fields = settings.fields) ∧
        ∀ d, k.dialect = some d → Layer.build env.files k.layers = .ok ⟨d, settings.fields⟩ := by
  obtain ⟨values, paths, hpaths, hc, hd⟩ := Matches.exists_choices h.request
  change j.config = paths.getLast?.or none at hc
  rw [standing?_giveAll] at hd
  change j.dialect = (dialectsChosen arguments).getLast?.or none at hd
  rw [Option.or_none] at hc hd
  obtain ⟨hread, hdialect, htexts⟩ := Job.build_layers_eq_ok_iff.1 h.settings
  refine ⟨values, paths, hpaths, hc, run_of_converts h, ?_,
    fun earlier path document hfound hcount => dialectIn?_eq hfound hcount earlier,
    fun k hk => ⟨fun settings' hbuild => ?_, fun d hkd => ?_⟩⟩
  · rw [← hd, ← hc]
    cases hj : j.dialect with
    | some d =>
      rw [j.dialectOf?_flagAssignments hj] at hdialect
      exact (Option.some.inj hdialect).symm
    | none =>
      rw [Job.flagAssignments, hj] at hdialect
      exact Job.dialect_of_files hdialect
  · obtain ⟨-, -, htexts'⟩ := Job.build_layers_eq_ok_iff.1 hbuild
    rw [Job.settingsPaths, hk, ← Job.settingsPaths] at htexts'
    refine fields_eq_of_get fun s hs => ?_
    exact Content.text.inj ((htexts' s hs).symm.trans (htexts s hs))
  · refine Job.build_layers_eq_ok_iff.2 ⟨Job.readable_of_config hk hread,
      Job.dialectOf?_flagAssignments k hkd _, fun s hs => ?_⟩
    rw [Job.settingsPaths, hk, ← Job.settingsPaths, htexts s hs]
    cases s with
    | dialect => exact absurd rfl hs
    | _ => rfl

end

theorem eq_ok_of_toOption {ε α : Type} {x : Except ε α} {a : α} (h : x.toOption = some a) :
    x = .ok a := by
  cases x with
  | ok b => exact congrArg Except.ok (Option.some.inj h)
  | error e => cases h

/-- A bundle and a name, among a path, a bundle that is set aside and an input that looks like a
flag; and the same file without them. -/
theorem last_dialect_counts_bundle :
    let file : Text := "convert.dialect = 'Mom'\n[Header]\nsection = '1'\n".toList
    let path : Text := "c.toml".toList
    let env : Environment := ⟨fun p =>
      if p = path then .ok (.file (Utf8.encode file)) else .error .notFound, [], ⟨2024, 5, 1⟩⟩
    let arguments : List Text := ["-nd".toList, "--mm".toList, configFlag ++ '=' :: path,
      "-ox".toList, "a.md".toList, endOfFlags, "-o".toList]
    let plain : List Text := [configFlag, path, "a.md".toList]
    dialectsChosen arguments = [.man, .mdoc, .mm] ∧ dialectsChosen plain = [] ∧
    ∃ j settings j' settings', Converts env arguments j settings ∧
      Converts env plain j' settings' ∧ j'.config = j.config ∧
      settings.dialect = .mm ∧ settings'.dialect = .mom ∧
      settings'.fields = settings.fields ∧ settings.fields.manualSection = "1".toList := by
  intro file path env arguments plain
  let fields : HeaderFields := { HeaderFields.standard with manualSection := "1".toList }
  let j : Job := ⟨some .mm, some path, false, ["a.md".toList, "-o".toList]⟩
  let j' : Job := ⟨none, some path, false, ["a.md".toList]⟩
  have hconverts : Converts env arguments j ⟨.mm, fields⟩ :=
    ⟨eq_ok_of_toOption (by decide +kernel), rfl, eq_ok_of_toOption (by decide +kernel)⟩
  have hplain : Converts env plain j' ⟨.mom, fields⟩ :=
    ⟨eq_ok_of_toOption (by decide +kernel), rfl, eq_ok_of_toOption (by decide +kernel)⟩
  have hchosen : dialectsChosen arguments = [.man, .mdoc, .mm] := by decide +kernel
  have hnone : dialectsChosen plain = [] := by decide +kernel
  have hgiven : dialectIn? env.files [localFile] path = some .mom := by decide +kernel
  obtain ⟨_, _, -, -, -, hd, -, hother⟩ := last_dialect_counts hconverts
  obtain ⟨_, _, -, hc, -, hd', -⟩ := last_dialect_counts hplain
  rw [hchosen, List.getLast?_cons_cons, List.getLast?_cons_cons, List.getLast?_singleton,
    Option.some_or, Option.getD_some] at hd
  rw [hnone, List.getLast?_nil, Option.none_or, ← hc, Option.bind_some, hgiven, Option.some_or,
    Option.getD_some] at hd'
  have hfields := (hother j' rfl).1 ⟨.mom, fields⟩ hplain.settings
  exact ⟨hchosen, hnone, j, ⟨.mm, fields⟩, j', ⟨.mom, fields⟩, hconverts, hplain, rfl, hd, hd',
    hfields, rfl⟩

end Roffdown.CommandLine
