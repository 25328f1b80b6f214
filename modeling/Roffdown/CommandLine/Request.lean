import Roffdown.CommandLine.Flag

/-!
# Requests

What the arguments of a run ask for.  They are read from left to right; help and version are given
at once, before what follows is looked at.  Each dialect has a flag of its own, which overrides the
flags of all others; so at most one of them stands at the end, and a scan in a fixed order finds it.

* `overriddenBy`, `give`: the flags that a dialect flag overrides, and those that stand after it.
* `standing?_giveAll`: the scan finds the flag that was given last.
* `Request.ofArguments`: the request of a list of arguments, or why it is none.
-/

namespace Roffdown.CommandLine

open Text

/-! ## Flags of dialects -/

/-- The dialects whose flags the flag of a dialect overrides: all others. -/
def overriddenBy (d : Dialect) : List Dialect := Dialect.all.filter (· ≠ d)

/-- The dialects whose flags stand after one more flag.  It does not stand twice. -/
def give (given : List Dialect) (d : Dialect) : List Dialect :=
  given.filter (fun e => e ≠ d ∧ e ∉ overriddenBy d) ++ [d]

/-- The first dialect, in the order in which they are listed, whose flag stands. -/
def standing? (given : List Dialect) : Option Dialect := Dialect.all.find? given.contains

/-- Of the flags of dialects, only the one that was given last stands. -/
theorem give_eq (given : List Dialect) (d : Dialect) : give given d = [d] := by
  have hnone : given.filter (fun e => e ≠ d ∧ e ∉ overriddenBy d) = [] := by
    rw [List.filter_eq_nil_iff]
    intro e _ he
    obtain ⟨hne, hnot⟩ := of_decide_eq_true he
    exact hnot (List.mem_filter.2 ⟨e.mem_all, decide_eq_true hne⟩)
  rw [give, hnone]
  rfl

theorem standing?_give (given : List Dialect) (d : Dialect) :
    standing? (give given d) = some d := by
  rw [give_eq]
  cases d <;> rfl

theorem getLast?_cons_or {α : Type} (x : α) (l : List α) (d : Option α) :
    (x :: l).getLast?.or d = l.getLast?.or (some x) := by
  rw [List.getLast?_cons]
  cases l.getLast? <;> rfl

/-- **The scan finds the flag that was given last**, wherever it comes in the order of the scan. -/
theorem standing?_giveAll (given ds : List Dialect) :
    standing? (ds.foldl give given) = ds.getLast?.or (standing? given) := by
  induction ds generalizing given with
  | nil => rfl
  | cons d ds ih => rw [List.foldl_cons, ih, standing?_give, getLast?_cons_or]

/-! ## Reading -/

/-- What a run converts, and how. -/
structure Job where
  /-- The dialect of the last dialect flag. -/
  dialect : Option Dialect
  /-- The path of the last configuration flag. -/
  config : Option Text
  /-- Only the dialects are to be listed. -/
  listDialects : Bool
  inputs : List Text
deriving DecidableEq, Repr

/-- What the arguments ask for. -/
inductive Request
  | help (long : Bool)
  | version
  | job (j : Job)
deriving DecidableEq, Repr

/-- Why arguments make no request. -/
inductive UsageError
  /-- No value stands after the configuration flag. -/
  | missingValue
  /-- A flag that takes no value has one. -/
  | unexpectedValue (name : Text)
  | unknownFlag (flag : Text)
deriving DecidableEq, Repr

/-- The text of the error. -/
def UsageError.message : UsageError → Text
  | missingValue => "a value is required for '--config <PATH>' but none was supplied".toList
  | unexpectedValue name => "unexpected value for '--".toList ++ name ++ "' found".toList
  | unknownFlag flag => "unexpected argument '".toList ++ flag ++ "' found".toList

/-- What the arguments that were read so far have set. -/
structure Matches where
  /-- The dialects whose flags stand. -/
  dialects : List Dialect
  /-- The path of the last configuration flag. -/
  config : Option Text
  /-- Only the dialects are to be listed. -/
  listDialects : Bool
  inputs : List Text

namespace Matches

/-- Nothing has been read yet. -/
def empty : Matches := ⟨[], none, false, []⟩

/-- What is asked for when all has been read. -/
def job (m : Matches) : Job := ⟨standing? m.dialects, m.config, m.listDialects, m.inputs⟩

/-- What a flag sets; help and version put an end to reading. -/
def apply (m : Matches) : Flag → Except Request Matches
  | .dialect d => .ok { m with dialects := give m.dialects d }
  | .listDialects => .ok { m with listDialects := true }
  | .help long => .error (.help long)
  | .version => .error .version

/-- What a bundle of letters sets. -/
def applyLetters (m : Matches) : Text → Except UsageError (Except Request Matches)
  | [] => .ok (.ok m)
  | c :: letters =>
    match Flag.ofLetter? c with
    | none => .error (.unknownFlag ['-', c])
    | some flag =>
      match m.apply flag with
      | .ok m => m.applyLetters letters
      | .error r => .ok (.error r)

/-- What an argument after two hyphens sets, unless it takes the next argument. -/
def applyName (m : Matches) (argument : Text) : Except UsageError (Except Request Matches) :=
  match splitAtFirst '=' argument with
  | some (name, value) =>
    if name = configName then .ok (.ok { m with config := some value })
    else if (Flag.ofName? name).isSome then .error (.unexpectedValue name)
    else .error (.unknownFlag ('-' :: '-' :: name))
  | none =>
    match Flag.ofName? argument with
    | some flag => .ok (m.apply flag)
    | none => .error (.unknownFlag ('-' :: '-' :: argument))

end Matches

/-- Whether an argument can be the value of a flag: it does not look like a flag itself. -/
def isValue : Text → Bool
  | '-' :: _ :: _ => false
  | _ => true

/-- Reads the arguments that are left. -/
def Matches.read (m : Matches) : List Text → Except UsageError Request
  | [] => .ok (.job m.job)
  | argument :: rest =>
    let continued (r : Except UsageError (Except Request Matches)) : Except UsageError Request :=
      match r with
      | .error e => .error e
      | .ok (.error request) => .ok request
      | .ok (.ok m) => m.read rest
    match argument with
    | '-' :: '-' :: name =>
      if name.isEmpty then .ok (.job { m with inputs := m.inputs ++ rest }.job)
      else if name = configName then
        match rest with
        | value :: rest =>
          if isValue value then { m with config := some value }.read rest
          else .error .missingValue
        | [] => .error .missingValue
      else continued (m.applyName name)
    | '-' :: c :: letters => continued (m.applyLetters (c :: letters))
    | input => { m with inputs := m.inputs ++ [input] }.read rest

/-- The request of the arguments of a run. -/
def Request.ofArguments (arguments : List Text) : Except UsageError Request :=
  Matches.empty.read arguments

end Roffdown.CommandLine
