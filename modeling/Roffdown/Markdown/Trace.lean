import Roffdown.Markdown.BlockRules
import Roffdown.Markdown.TextRules

/-!
# Reading a document

A document is read step by step from a place to the end of its text, or to inline code that is
never closed.  `State.scan` takes the steps, and `Zipper.trace` also closes what is open at the end.

* `State.length_rest_step`: every step moves forward, so reading ends.
* `State.scan_of_step`, `State.scan_of_error`, `State.scan_of_end`: the equations of `scan`.
* `Trace.events`: the events of a reading under a spelling of the font marks.
-/

namespace Roffdown

namespace State

open Markdown

/-! ## One step -/

/-- One step from a state that is not at the end of the text. -/
def step (s : State) : Except UnclosedCode Move :=
  if s.inFence then .ok s.fencedLine
  else if s.input.next? = some '\\' then .ok s.backslash
  else if s.freshLine then
    match { s with freshLine := false }.blockRule? with
    | some m => .ok m
    | none => { s with freshLine := false }.textRule
  else s.textRule

/-- Every step moves forward. -/
theorem length_rest_step {s : State} {m : Move} (h : s.step = .ok m)
    (hs : s.input.rest ≠ []) : m.next.input.rest.length < s.input.rest.length := by
  unfold step at h
  split at h
  · cases h
    rw [input_fencedLine]
    exact Zipper.length_rest_splitLine_lt hs
  split at h
  · cases h
    exact length_rest_backslash hs
  split at h
  · split at h
    · cases h
      exact length_rest_blockRule? (s := { s with freshLine := false }) ‹_› hs
    · exact length_rest_textRule (s := { s with freshLine := false }) h hs
  · exact length_rest_textRule h hs

/-! ## All steps -/

/-- What the steps of a reading raise, and where they end. -/
structure Scan where
  raised : List (Raised Signal)
  warnings : List Warning
  /-- The state at the end of the text, or the error that stops the reading. -/
  stop : Except UnclosedCode State

/-- Adds what was raised before. -/
def Scan.after (m : Move) (r : Scan) : Scan :=
  ⟨m.raised ++ r.raised, m.warnings ++ r.warnings, r.stop⟩

/-- Takes all steps; what was raised before is given newest first. -/
def scanOnto (raised : List (Raised Signal)) (warnings : List Warning) (s : State) : Scan :=
  if _ : s.input.rest = [] then ⟨raised.reverse, warnings.reverse, .ok s⟩
  else
    match _ : s.step with
    | .error e => ⟨raised.reverse, warnings.reverse, .error e⟩
    | .ok m => scanOnto (m.raised.reverse ++ raised) (m.warnings.reverse ++ warnings) m.next
termination_by s.input.rest.length
decreasing_by exact length_rest_step ‹_› ‹_›

/-- Takes all steps from a state. -/
def scan (s : State) : Scan := scanOnto [] [] s

theorem scanOnto_eq (raised : List (Raised Signal)) (warnings : List Warning) (s : State) :
    scanOnto raised warnings s =
      ⟨raised.reverse ++ s.scan.raised, warnings.reverse ++ s.scan.warnings, s.scan.stop⟩ := by
  induction hn : s.input.rest.length using Nat.strongRecOn generalizing s raised warnings with
  | ind n ih =>
    subst hn
    unfold scan
    rw [scanOnto.eq_def raised, scanOnto.eq_def []]
    split
    · simp
    · split
      · simp
      · rename_i m hm
        have hlt := length_rest_step hm ‹_›
        rw [ih _ hlt _ _ _ rfl, ih _ hlt (m.raised.reverse ++ []) _ _ rfl]
        simp

theorem scan_of_end {s : State} (h : s.input.rest = []) : s.scan = ⟨[], [], .ok s⟩ := by
  rw [scan, scanOnto, dif_pos h]
  rfl

theorem scan_of_error {s : State} {e : UnclosedCode} (hs : s.input.rest ≠ [])
    (h : s.step = .error e) : s.scan = ⟨[], [], .error e⟩ := by
  rw [scan, scanOnto, dif_neg hs]
  split
  · simp_all
  · simp_all

theorem scan_of_step {s : State} {m : Move} (hs : s.input.rest ≠ []) (h : s.step = .ok m) :
    s.scan = m.next.scan.after m := by
  rw [scan, scanOnto, dif_neg hs]
  split
  · simp_all
  · rename_i m' hm
    obtain rfl : m = m' := by simpa [h] using hm
    rw [scanOnto_eq]
    simp [Scan.after]

/-! ## The end of the text -/

/-- Closes what is open at the end of the text. -/
def wrapUp (s : State) : Move :=
  s.release.andThen fun s =>
    (if s.inFence then
      ({ s with inFence := false }.announce [.fenceClose]).andThen (warn .unclosedFence)
    else Move.silent s).andThen fun s => s.closeMany s.lists.depth

end State

/-- What reading a document raises. -/
structure Trace where
  raised : List (Raised Signal)
  warnings : List Warning
  /-- The error that stopped the reading. -/
  failure? : Option UnclosedCode
deriving DecidableEq, Repr

/-- Reads what is after a place. -/
def Zipper.trace (z : Zipper) : Trace :=
  let scan := (State.initial z).scan
  match scan.stop with
  | .error e => ⟨scan.raised, scan.warnings, some e⟩
  | .ok s => ⟨scan.raised ++ s.wrapUp.raised, scan.warnings ++ s.wrapUp.warnings, none⟩

/-- The events of a reading under a spelling of the font marks. -/
def Trace.events (m : Markup) (t : Trace) : List (Raised Event) := Raised.events m t.raised

end Roffdown
