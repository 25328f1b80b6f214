import Roffdown.Roff.Dialect

/-!
# Flags

The flags of the command line, by letter and by name.

* `Flag.ofLetter?`: the flag of a letter.
* `Flag.ofName?`: the flag of a name that takes no value.
* `understoodLetters`, `understoodFlags`, `valueFlags`: the flags that are not set aside.
* `sift`: the arguments that are understood, and the flags that are not.
* `contains_understoodLetters`, `contains_understoodFlags`, `contains_valueFlags_iff`: these are the
  flags that there are.
-/

namespace Roffdown.CommandLine

open Text

/-- A flag that takes no value. -/
inductive Flag
  | dialect (d : Dialect)
  /-- The help text, at length or in short. -/
  | help (long : Bool)
  | version
  | listDialects
deriving DecidableEq, Repr

/-- The flag of a letter. -/
def Flag.ofLetter? (c : Char) : Option Flag :=
  if c = 'n' then some (dialect .man)
  else if c = 'd' then some (dialect .mdoc)
  else if c = 'm' then some (dialect .mm)
  else if c = 'o' then some (dialect .mom)
  else if c = 'h' then some (help false)
  else if c = 'v' then some version
  else none

/-- The flag of a name. -/
def Flag.ofName? (name : Text) : Option Flag :=
  if name = "help".toList then some (help true)
  else if name = "version".toList then some version
  else if name = "list-dialects".toList then some listDialects
  else (Dialect.ofName? name).map dialect

/-- The name of the flag that takes a path as its value. -/
def configName : Text := "config".toList

/-- The flag that takes a path as its value, when the value is the next argument. -/
def configFlag : Text := "--config".toList

/-- The argument after which all are inputs. -/
def endOfFlags : Text := "--".toList

/-! ## Arguments that are understood

Arguments are sifted before they are read, by tables of their own. -/

/-- The letters that are understood in a bundle. -/
def understoodLetters : List Char := ['n', 'd', 'm', 'o', 'h', 'v']

/-- The flags that are understood by name and take no value. -/
def understoodFlags : List Text :=
  ["--man".toList, "--mdoc".toList, "--mm".toList, "--mom".toList, "--help".toList,
    "--version".toList, "--list-dialects".toList]

/-- The flags that take the next argument as their value. -/
def valueFlags : List Text := ["--config".toList]

/-- Whether an argument is an input or a flag that is understood.  A single hyphen is an input, and
letters after one hyphen are a bundle of flags. -/
def isUnderstood (argument : Text) : Bool :=
  match argument with
  | '-' :: '-' :: name =>
    match splitAtFirst '=' name with
    | some (name, _) => valueFlags.contains ('-' :: '-' :: name)
    | none => understoodFlags.contains argument
  | '-' :: letters => letters.all understoodLetters.contains
  | _ => true

/-- Parts the arguments into those that are understood and the flags that are not. -/
def sift : List Text → List Text × List Text
  | [] => ([], [])
  | argument :: rest =>
    if argument = endOfFlags then (argument :: rest, [])
    else if valueFlags.contains argument then
      match rest with
      | [] => ([argument], [])
      | value :: rest =>
        let (known, unknown) := sift rest
        (argument :: value :: known, unknown)
    else
      let (known, unknown) := sift rest
      if isUnderstood argument then (argument :: known, unknown) else (known, argument :: unknown)

/-- Parts a whole command line, which starts with the name of the program. -/
def siftCommandLine : List Text → List Text × List Text
  | [] => ([], [])
  | program :: arguments =>
    let (known, unknown) := sift arguments
    (program :: known, unknown)

/-! ## The tables agree -/

/-- The letters that are understood are those of flags. -/
theorem contains_understoodLetters (c : Char) :
    understoodLetters.contains c = (Flag.ofLetter? c).isSome := by
  simp only [understoodLetters, Flag.ofLetter?]
  grind

/-- The names of the flags that take no value. -/
def Flag.names : List Text :=
  Dialect.all.map Dialect.name ++ ["help".toList, "version".toList, "list-dialects".toList]

theorem Flag.isSome_ofName?_iff {name : Text} : (ofName? name).isSome ↔ name ∈ names := by
  constructor
  · intro h
    unfold ofName? at h
    rw [names, List.mem_append]
    repeat' split at h
    · exact .inr (by simp [*])
    · exact .inr (by simp [*])
    · exact .inr (by simp [*])
    · rw [Option.isSome_map] at h
      obtain ⟨d, hd⟩ := Option.isSome_iff_exists.1 h
      rw [← Dialect.name_of_ofName? hd]
      exact .inl (List.mem_map_of_mem d.mem_all)
  · intro h
    have hall : ∀ n ∈ names, (ofName? n).isSome := by decide
    exact hall name h

/-- The names that are understood are those of flags. -/
theorem contains_understoodFlags (name : Text) :
    understoodFlags.contains ('-' :: '-' :: name) = (Flag.ofName? name).isSome := by
  have htable : understoodFlags = Flag.names.map fun n => '-' :: '-' :: n := by decide
  rw [Bool.eq_iff_iff, Flag.isSome_ofName?_iff, List.contains_iff_mem, htable, List.mem_map]
  constructor
  · rintro ⟨n, hn, he⟩
    obtain rfl := (List.cons.inj (List.cons.inj he).2).2
    exact hn
  · intro h
    exact ⟨name, h, rfl⟩

theorem contains_valueFlags_iff {argument : Text} :
    valueFlags.contains argument ↔ argument = configFlag := by
  rw [List.contains_iff_mem]
  exact List.mem_singleton

end Roffdown.CommandLine
