import Roffdown.Proofs.Inputs
import Roffdown.Proofs.Sifting

/-!
# Arguments that are accepted

What sifting keeps of the arguments is then read as a request.  Both go through the arguments from
left to right, and they agree on which are flags, bundles of letters and inputs; so nothing that is
kept is an unknown flag, or a flag with a value that it does not take.  They disagree in one case:
sifting takes whatever stands after the configuration flag for its value, and reading refuses a
value that looks like a flag itself.

* `ConfigPaths`: arguments in which every configuration flag has a value.
* `Matches.exists_goOn`: reading an argument that is kept.
* `Matches.outcome_read_sift`: what reading makes of the arguments that are kept.
* `accepted_but_for_hyphen_values`: they are accepted, unless a value looks like a flag.
-/

namespace Roffdown.CommandLine

open Text

/-! ## Configuration flags -/

/-- Arguments in which every configuration flag before the end of the flags has a value: the values
that are arguments of their own, and the paths of all configuration flags, in order. -/
inductive ConfigPaths : List Text → List Text → List Text → Prop
  | nil : ConfigPaths [] [] []
  | endOfFlags (inputs : List Text) : ConfigPaths (endOfFlags :: inputs) [] []
  | apart (value : Text) {rest values paths : List Text} (h : ConfigPaths rest values paths) :
      ConfigPaths (configFlag :: value :: rest) (value :: values) (value :: paths)
  | joined (value : Text) {rest values paths : List Text} (h : ConfigPaths rest values paths) :
      ConfigPaths ((configFlag ++ '=' :: value) :: rest) values (value :: paths)
  | other {argument : Text} {rest values paths : List Text} (hend : argument ≠ endOfFlags)
      (hconfig : argument ≠ configFlag) (hjoined : ∀ value, argument ≠ configFlag ++ '=' :: value)
      (h : ConfigPaths rest values paths) : ConfigPaths (argument :: rest) values paths

/-- What reading can make of arguments with such values and paths, after others. -/
inductive Matches.Outcome (m : Matches) (values paths : List Text) :
    Except UsageError Request → Prop
  | refused (hv : ∃ value ∈ values, isValue value = false) :
      Outcome m values paths (.error .missingValue)
  /-- Help or version is asked for. -/
  | answered {request : Request} (h : ∀ k, request ≠ .job k) : Outcome m values paths (.ok request)
  | job {k : Job} (hv : ∀ value ∈ values, isValue value)
      (hc : k.config = paths.getLast?.or m.config) : Outcome m values paths (.ok (.job k))

theorem Matches.Outcome.congr {m n : Matches} {values paths : List Text}
    {r : Except UsageError Request} (h : n.Outcome values paths r) (hc : n.config = m.config) :
    m.Outcome values paths r := by
  cases h with
  | refused hv => exact .refused hv
  | answered h => exact .answered h
  | job hv hk => exact .job hv (hc ▸ hk)

theorem Matches.Outcome.joined {m : Matches} {value : Text} {values paths : List Text}
    {r : Except UsageError Request}
    (h : { m with config := some value }.Outcome values paths r) :
    m.Outcome values (value :: paths) r := by
  cases h with
  | refused hv => exact .refused hv
  | answered h => exact .answered h
  | job hv hk => exact .job hv (hk.trans (getLast?_cons_or value paths _).symm)

theorem Matches.Outcome.apart {m : Matches} {value : Text} {values paths : List Text}
    {r : Except UsageError Request}
    (h : { m with config := some value }.Outcome values paths r) (hv : isValue value) :
    m.Outcome (value :: values) (value :: paths) r := by
  cases h.joined with
  | refused hr =>
    obtain ⟨v, hmem, hv⟩ := hr
    exact .refused ⟨v, List.mem_cons_of_mem value hmem, hv⟩
  | answered hr => exact .answered hr
  | job hvs hk => exact .job (List.forall_mem_cons.2 ⟨hv, hvs⟩) hk

/-! ## Sifting one argument -/

theorem splitAtFirst_joined (value : Text) :
    splitAtFirst '=' (configName ++ '=' :: value) = some (configName, value) :=
  splitAtFirst_eq_some_iff.2 ⟨rfl, by decide⟩

theorem isUnderstood_joined (value : Text) : isUnderstood (configFlag ++ '=' :: value) := by
  show isUnderstood ('-' :: '-' :: (configName ++ '=' :: value))
  simp only [isUnderstood, splitAtFirst_joined]
  exact contains_valueFlags_iff.2 rfl

theorem sift_joined (value : Text) (rest : List Text) :
    sift ((configFlag ++ '=' :: value) :: rest) =
      ((configFlag ++ '=' :: value) :: (sift rest).1, (sift rest).2) := by
  have hend : configFlag ++ '=' :: value ≠ endOfFlags := nofun
  have hconfig : configFlag ++ '=' :: value ≠ configFlag := by simp
  exact sift_of_understood hend hconfig (isUnderstood_joined value) rest

theorem letters_of_isUnderstood {c : Char} {letters : Text} (hc : c ≠ '-')
    (h : isUnderstood ('-' :: c :: letters)) :
    ∀ d ∈ c :: letters, (Flag.ofLetter? d).isSome := by
  unfold isUnderstood at h
  split at h
  · rename_i he
    cases he
    exact absurd rfl hc
  · rename_i he
    cases he
    intro d hd
    rw [← contains_understoodLetters]
    exact List.all_eq_true.1 h d hd
  · rename_i he
    exact absurd rfl (he _)

/-! ## Dialects that are chosen -/

/-- The dialect that a letter chooses. -/
def letterDialect? : Char → Option Dialect
  | 'n' => some .man
  | 'd' => some .mdoc
  | 'm' => some .mm
  | 'o' => some .mom
  | _ => none

/-- The letters of flags. -/
def flagLetters : List Char := ['n', 'd', 'm', 'o', 'h', 'v']

/-- The dialects that an argument chooses: a name one, and the letters of a bundle each its own,
from left to right, if all letters are those of flags. -/
def dialectsOf : Text → List Dialect
  | '-' :: '-' :: name => (Dialect.ofName? name).toList
  | '-' :: letters =>
    if letters.all flagLetters.contains then letters.filterMap letterDialect? else []
  | _ => []

theorem dialectsOf_of_input {input : Text} (h : ∀ c letters, input ≠ '-' :: c :: letters) :
    dialectsOf input = [] := by
  unfold dialectsOf
  split
  · exact absurd rfl (h '-' _)
  · rename_i letters _
    cases letters with
    | nil => rfl
    | cons c letters => exact absurd rfl (h c letters)
  · rfl

theorem dialectsOf_of_letters {c : Char} {letters : Text} (hc : c ≠ '-')
    (h : (c :: letters).all flagLetters.contains) :
    dialectsOf ('-' :: c :: letters) = (c :: letters).filterMap letterDialect? := by
  unfold dialectsOf
  split
  · rename_i he
    cases he
    exact absurd rfl hc
  · rename_i he
    cases he
    exact if_pos h
  · rename_i he
    exact absurd rfl (he _)

/-- The dialect that a flag chooses. -/
def Flag.dialect? : Flag → Option Dialect
  | dialect d => some d
  | _ => none

theorem isSome_ofLetter? (c : Char) : (Flag.ofLetter? c).isSome = flagLetters.contains c :=
  (contains_understoodLetters c).symm

theorem letterDialect?_of_ofLetter? {c : Char} {flag : Flag} (h : Flag.ofLetter? c = some flag) :
    letterDialect? c = flag.dialect? := by
  have hc : c ∈ flagLetters := List.contains_iff_mem.1 (by rw [← isSome_ofLetter?, h]; rfl)
  simp only [flagLetters, List.mem_cons, List.not_mem_nil, or_false] at hc
  rcases hc with rfl | rfl | rfl | rfl | rfl | rfl <;> cases h <;> rfl

theorem dialect?_of_ofName? {name : Text} {flag : Flag} (h : Flag.ofName? name = some flag) :
    Dialect.ofName? name = flag.dialect? := by
  by_cases hname : name ∈ ["help".toList, "version".toList, "list-dialects".toList]
  · simp only [List.mem_cons, List.not_mem_nil, or_false] at hname
    rcases hname with rfl | rfl | rfl <;> cases h <;> rfl
  · simp only [List.mem_cons, List.not_mem_nil, or_false, not_or] at hname
    obtain ⟨hhelp, hversion, hlist⟩ := hname
    rw [Flag.ofName?, if_neg hhelp, if_neg hversion, if_neg hlist] at h
    obtain ⟨d, hd, rfl⟩ := Option.map_eq_some_iff.1 h
    exact hd

/-! ## Reading one argument -/

namespace Matches

variable {m n : Matches} {rest : List Text}

theorem read_endOfFlags (m : Matches) (inputs : List Text) :
    m.read (endOfFlags :: inputs) = .ok (.job { m with inputs := m.inputs ++ inputs }.job) := by
  unfold read
  rfl

theorem read_configFlag (m : Matches) (value : Text) (rest : List Text) :
    m.read (configFlag :: value :: rest) =
      if isValue value then { m with config := some value }.read rest
      else .error .missingValue := by
  conv => lhs; unfold read
  rfl

theorem read_joined (m : Matches) (value : Text) (rest : List Text) :
    m.read ((configFlag ++ '=' :: value) :: rest) = { m with config := some value }.read rest := by
  have hname : configName ++ '=' :: value ≠ configName := by simp
  show read m (('-' :: '-' :: (configName ++ '=' :: value)) :: rest) = _
  conv => lhs; unfold read
  simp only [applyName, splitAtFirst_joined, if_neg hname]
  rfl

/-- What flags without a value set: they put an end to reading, or give dialects one after the
other.  The configuration stays. -/
inductive Takes (m : Matches) (dialects : List Dialect) : Except Request Matches → Prop
  | answered {request : Request} (h : ∀ k, request ≠ .job k) : Takes m dialects (.error request)
  | goesOn {n : Matches} (hc : n.config = m.config)
      (hd : n.dialects = dialects.foldl give m.dialects) : Takes m dialects (.ok n)

theorem takes_apply (m : Matches) (flag : Flag) : m.Takes flag.dialect?.toList (m.apply flag) := by
  cases flag with
  | dialect d => exact .goesOn rfl rfl
  | listDialects => exact .goesOn rfl rfl
  | help long => exact .answered nofun
  | version => exact .answered nofun

/-- One flag after another. -/
theorem Takes.append {dialects later : List Dialect} {r : Except Request Matches}
    (hc : n.config = m.config) (hd : n.dialects = dialects.foldl give m.dialects)
    (h : n.Takes later r) : m.Takes (dialects ++ later) r := by
  cases h with
  | answered h => exact .answered h
  | goesOn hc' hd' =>
    refine .goesOn (hc'.trans hc) ?_
    rw [hd', hd, List.foldl_append]

/-- A bundle of known letters is read letter by letter. -/
theorem exists_applyLetters {letters : Text} (m : Matches)
    (h : ∀ c ∈ letters, (Flag.ofLetter? c).isSome) :
    ∃ r, m.applyLetters letters = .ok r ∧ m.Takes (letters.filterMap letterDialect?) r := by
  induction letters generalizing m with
  | nil => exact ⟨.ok m, rfl, .goesOn rfl rfl⟩
  | cons c letters ih =>
    obtain ⟨hc, hletters⟩ := List.forall_mem_cons.1 h
    obtain ⟨flag, hflag⟩ := Option.isSome_iff_exists.1 hc
    have htakes := m.takes_apply flag
    have hcons : (c :: letters).filterMap letterDialect? =
        flag.dialect?.toList ++ letters.filterMap letterDialect? := by
      rw [List.filterMap_cons, letterDialect?_of_ofLetter? hflag]
      cases flag.dialect? <;> rfl
    simp only [applyLetters, hflag, hcons]
    generalize m.apply flag = r at htakes
    cases htakes with
    | answered hr => exact ⟨_, rfl, .answered hr⟩
    | @goesOn n hc hd =>
      obtain ⟨r, hr, hrest⟩ := ih n hletters
      exact ⟨r, hr, hrest.append hc hd⟩

/-- A name that is kept is the name of a flag, unless a path is joined to it. -/
theorem exists_applyName {name : Text} (m : Matches) (h : isUnderstood ('-' :: '-' :: name))
    (hjoined : ∀ value, '-' :: '-' :: name ≠ configFlag ++ '=' :: value) :
    ∃ r, m.applyName name = .ok r ∧ m.Takes (Dialect.ofName? name).toList r := by
  unfold isUnderstood at h
  unfold applyName
  cases hs : splitAtFirst '=' name with
  | some p =>
    obtain ⟨n, value⟩ := p
    obtain ⟨rfl, -⟩ := splitAtFirst_eq_some_iff.1 hs
    simp only [hs] at h
    have hname := contains_valueFlags_iff.1 h
    exact absurd (congrArg (· ++ '=' :: value) hname) (hjoined value)
  | none =>
    simp only [hs, contains_understoodFlags] at h
    obtain ⟨flag, hflag⟩ := Option.isSome_iff_exists.1 h
    rw [hflag, dialect?_of_ofName? hflag]
    exact ⟨_, rfl, m.takes_apply flag⟩

/-- What is read after an argument that did this. -/
def goOn (rest : List Text) : Except Request Matches → Except UsageError Request
  | .error request => .ok request
  | .ok n => n.read rest

theorem read_name {name : Text} {r : Except Request Matches} (hne : name ≠ [])
    (hconfig : name ≠ configName) (hr : m.applyName name = .ok r) (rest : List Text) :
    m.read (('-' :: '-' :: name) :: rest) = goOn rest r := by
  have hempty : name.isEmpty = false := List.isEmpty_eq_false_iff.2 hne
  unfold read
  simp only [hempty, if_neg hconfig, hr]
  cases r <;> rfl

theorem read_letters {c : Char} {letters : Text} {r : Except Request Matches} (hc : c ≠ '-')
    (hr : m.applyLetters (c :: letters) = .ok r) (rest : List Text) :
    m.read (('-' :: c :: letters) :: rest) = goOn rest r := by
  unfold read
  split
  · rename_i h
    cases h
    exact absurd rfl hc
  · rename_i h
    cases h
    simp only [hr]
    cases r <;> rfl
  · rename_i h
    exact absurd rfl (h c letters)

/-- An argument is an input when it does not start with a hyphen, or is nothing else. -/
theorem read_input {input : Text} (m : Matches) (h : ∀ c letters, input ≠ '-' :: c :: letters)
    (rest : List Text) :
    m.read (input :: rest) = { m with inputs := m.inputs ++ [input] }.read rest := by
  conv => lhs; unfold read
  split
  · exact absurd rfl (h '-' _)
  · exact absurd rfl (h _ _)
  · rfl

/-- An argument that is kept is an input, or flags that set something or put an end to reading. -/
theorem exists_goOn {argument : Text} (m : Matches) (h : isUnderstood argument)
    (hend : argument ≠ endOfFlags) (hconfig : argument ≠ configFlag)
    (hjoined : ∀ value, argument ≠ configFlag ++ '=' :: value) (rest : List Text) :
    ∃ r, m.Takes (dialectsOf argument) r ∧ m.read (argument :: rest) = goOn rest r := by
  have hinput (hshape : ∀ c letters, argument ≠ '-' :: c :: letters) :
      ∃ r, m.Takes (dialectsOf argument) r ∧ m.read (argument :: rest) = goOn rest r := by
    refine ⟨.ok { m with inputs := m.inputs ++ [argument] }, .goesOn rfl ?_,
      m.read_input hshape rest⟩
    rw [dialectsOf_of_input hshape]
    rfl
  rcases argument with _ | ⟨d, _ | ⟨c, letters⟩⟩
  · exact hinput nofun
  · exact hinput nofun
  by_cases hd : d = '-'
  · subst hd
    by_cases hc : c = '-'
    · subst hc
      have hne : letters ≠ [] := by
        rintro rfl
        exact hend rfl
      have hname : letters ≠ configName := by
        rintro rfl
        exact hconfig rfl
      obtain ⟨r, hr, htakes⟩ := m.exists_applyName h hjoined
      exact ⟨r, htakes, read_name hne hname hr rest⟩
    · have hletters := letters_of_isUnderstood hc h
      obtain ⟨r, hr, htakes⟩ := m.exists_applyLetters hletters
      simp only [isSome_ofLetter?] at hletters
      rw [← dialectsOf_of_letters hc (List.all_eq_true.2 hletters)] at htakes
      exact ⟨r, htakes, read_letters hc hr rest⟩
  · refine hinput fun c' letters' he => hd ?_
    exact (List.cons.inj he).1

/-! ## Reading what is kept -/

/-- **What is kept is accepted**, unless a value of a configuration flag looks like a flag. -/
theorem outcome_read_sift {arguments values paths : List Text}
    (h : ConfigPaths arguments values paths) (m : Matches) :
    m.Outcome values paths (m.read (sift arguments).1) := by
  induction h generalizing m with
  | nil =>
    exact .job nofun rfl
  | endOfFlags inputs =>
    rw [sift_endOfFlags, read_endOfFlags]
    exact .job nofun rfl
  | @apart value rest values paths _ ih =>
    rw [sift_configFlag, read_configFlag]
    by_cases hv : isValue value
    · rw [if_pos hv]
      exact (ih _).apart hv
    · rw [if_neg hv]
      exact .refused ⟨value, List.mem_cons_self, Bool.eq_false_iff.2 hv⟩
  | @joined value rest values paths _ ih =>
    rw [sift_joined, read_joined]
    exact (ih _).joined
  | @other argument rest values paths hend hconfig hjoined _ ih =>
    by_cases hkept : isUnderstood argument
    · rw [sift_of_understood hend hconfig hkept]
      obtain ⟨r, htakes, hr⟩ := m.exists_goOn hkept hend hconfig hjoined (sift rest).1
      rw [hr]
      cases htakes with
      | answered hrequest => exact .answered hrequest
      | @goesOn n hn _ => exact (ih n).congr hn
    · rw [sift_of_not_understood hend hconfig hkept]
      exact ih m

end Matches

/-! ## Runs -/

theorem status_convertAll_le (settings : Settings) (today : Date) (files : Files)
    (bytes : List UInt8) (inputs : List Text) :
    (convertAll settings today files bytes inputs).status ≤ 1 := by
  induction inputs generalizing bytes with
  | nil => exact Nat.zero_le 1
  | cons input inputs ih =>
    cases hr : (convertInput settings today files bytes input).1 with
    | error e =>
      rw [convertAll_of_error inputs hr]
      exact Nat.le_refl 1
    | ok output =>
      rw [convertAll_of_ok inputs hr]
      exact ih (inputAfter bytes input)

theorem Request.status_run_le (env : Environment) (request : Request) :
    (request.run env).status ≤ 1 := by
  cases request with
  | help long => exact Nat.zero_le 1
  | version => exact Nat.zero_le 1
  | job j =>
    simp only [Request.run]
    split
    · exact Nat.zero_le 1
    · split
      · exact Nat.le_refl 1
      · exact status_convertAll_le _ _ _ _ _

section

variable {arguments : List Text}

theorem status_run_of_ok {request : Request}
    (h : Request.ofArguments (sift arguments).1 = .ok request) (env : Environment) :
    (run env arguments).status ≠ 2 := by
  have hle := request.status_run_le env
  have hstatus : (run env arguments).status = (request.run env).status := by
    simp only [run, h]
    rfl
  omega

theorem status_run_of_error {e : UsageError}
    (h : Request.ofArguments (sift arguments).1 = .error e) (env : Environment) :
    (run env arguments).status = 2 := by
  simp only [run, h]
  rfl

/-- **Arguments with a value for every configuration flag are accepted, if no value looks like a
flag.**  Then what sifting keeps makes a request, the last path is the one that is used, and the run
does not end as one that is called wrongly.  With a value that looks like a flag nothing is
converted: help or version is given, or the value is said to be missing. -/
theorem accepted_but_for_hyphen_values {values paths : List Text}
    (h : ConfigPaths arguments values paths) :
    ((∀ value ∈ values, isValue value) →
      (∃ request, Request.ofArguments (sift arguments).1 = .ok request) ∧
      (∀ j, Request.ofArguments (sift arguments).1 = .ok (.job j) → j.config = paths.getLast?) ∧
      ∀ env, (run env arguments).status ≠ 2) ∧
    ((∃ value ∈ values, isValue value = false) →
      (∀ j, Request.ofArguments (sift arguments).1 ≠ .ok (.job j)) ∧
      ∀ e, Request.ofArguments (sift arguments).1 = .error e →
        e = .missingValue ∧ ∀ env, (run env arguments).status = 2) := by
  have hread := Matches.empty.outcome_read_sift h
  change Matches.empty.Outcome values paths (Request.ofArguments (sift arguments).1) at hread
  constructor
  · intro hv
    generalize hr : Request.ofArguments (sift arguments).1 = r at hread
    cases hread with
    | refused hbad =>
      obtain ⟨value, hmem, hvalue⟩ := hbad
      rw [hv value hmem] at hvalue
      cases hvalue
    | answered hrequest =>
      refine ⟨⟨_, rfl⟩, fun j hj => ?_, status_run_of_ok hr⟩
      exact absurd (Except.ok.inj hj) (hrequest j)
    | job _ hconfig =>
      refine ⟨⟨_, rfl⟩, fun j hj => ?_, status_run_of_ok hr⟩
      cases hj
      simpa [Matches.empty] using hconfig
  · rintro ⟨value, hmem, hvalue⟩
    generalize hr : Request.ofArguments (sift arguments).1 = r at hread
    cases hread with
    | refused _ =>
      refine ⟨nofun, fun e he => ?_⟩
      cases he
      exact ⟨rfl, status_run_of_error hr⟩
    | answered hrequest =>
      refine ⟨fun j hj => ?_, nofun⟩
      exact hrequest j (Except.ok.inj hj)
    | job hv _ =>
      rw [hv value hmem] at hvalue
      cases hvalue

end

/-- A hyphen as a value, a path that is joined to its flag, and a flag that is set aside. -/
theorem accepted_but_for_hyphen_values_joined :
    let arguments : List Text := ["--config".toList, "-".toList, "-nd".toList,
      "--config=b.toml".toList, "-q".toList, "--".toList, "--config".toList]
    let values : List Text := ["-".toList]
    let paths : List Text := ["-".toList, "b.toml".toList]
    ConfigPaths arguments values paths ∧ (∀ value ∈ values, isValue value) ∧
    (∃ request, Request.ofArguments (sift arguments).1 = .ok request) ∧
    (∀ j, Request.ofArguments (sift arguments).1 = .ok (.job j) →
      j.config = some "b.toml".toList) ∧
    ∀ env, (run env arguments).status ≠ 2 := by
  intro arguments values paths
  have hflag (argument : Text) (rest : List Text) (hc : argument[2]? ≠ some 'c')
      (hend : argument ≠ endOfFlags) {values paths : List Text}
      (h : ConfigPaths rest values paths) : ConfigPaths (argument :: rest) values paths := by
    refine .other hend ?_ ?_ h
    · rintro rfl
      exact hc rfl
    · rintro value rfl
      exact hc rfl
  have hconfig : ConfigPaths arguments values paths :=
    .apart _ (hflag _ _ (by decide) (by decide)
      (.joined _ (hflag _ _ (by decide) (by decide) (.endOfFlags _))))
  have hvalues : ∀ value ∈ values, isValue value := by decide
  exact ⟨hconfig, hvalues, (accepted_but_for_hyphen_values hconfig).1 hvalues⟩

/-- A path that begins with a hyphen is kept as the value of its flag, and then refused. -/
theorem hyphen_value_is_refused :
    let arguments : List Text := ["--config".toList, "-odd.toml".toList, "a.md".toList]
    let path : Text := "-odd.toml".toList
    ConfigPaths arguments [path] [path] ∧ sift arguments = (arguments, []) ∧
    Request.ofArguments (sift arguments).1 = .error .missingValue ∧
    ∀ env, (run env arguments).status = 2 := by
  intro arguments path
  have hinput : ConfigPaths ["a.md".toList] [] [] := by
    refine .other (by decide) (by decide) ?_ .nil
    intro value h
    cases h
  have hsift : sift arguments = (arguments, []) := by decide +kernel
  have herror : Request.ofArguments (sift arguments).1 = .error .missingValue := by
    rw [hsift]
    show Matches.empty.read (configFlag :: path :: ["a.md".toList]) = _
    rw [Matches.read_configFlag, if_neg (by decide)]
  exact ⟨.apart path hinput, hsift, herror, status_run_of_error herror⟩

end Roffdown.CommandLine
