import Roffdown.Roff.Dialect
import Roffdown.Settings.Store

/-!
# Settings

What a run can be told besides its documents: the dialect and the fields of headers.

* `Setting.path`: the path under which a setting is given.
* `Settings.standard`: the settings when nothing is given.
* `Settings.ofStore`: the settings that a store gives, if something fits for every one.
* `Settings.ofStore_eq_ok_iff`: they are what the store holds.
-/

namespace Roffdown

/-- One of the settings. -/
inductive Setting
  | dialect
  | manualSection
  | origin
  | author
  | paper
  | printStyle
deriving DecidableEq, Repr

namespace Setting

/-- All settings. -/
def all : List Setting := [dialect, manualSection, origin, author, paper, printStyle]

/-- The table of a setting. -/
def table : Setting → Text
  | dialect => "convert".toList
  | manualSection => "header".toList
  | origin => "header".toList
  | author => "mom".toList
  | paper => "mom".toList
  | printStyle => "mom".toList

/-- The name of a setting in its table. -/
def name : Setting → Text
  | dialect => "dialect".toList
  | manualSection => "section".toList
  | origin => "source".toList
  | author => "author".toList
  | paper => "paper".toList
  | printStyle => "printstyle".toList

/-- The place of a setting in its table. -/
def index : Setting → Nat
  | dialect => 0
  | manualSection => 0
  | origin => 1
  | author => 0
  | paper => 1
  | printStyle => 2

/-- The path under which a setting is given. -/
def path (s : Setting) : Settings.Path := [.name s.table, .name s.name]

/-- The table and the name of a setting with a point between them. -/
def key (s : Setting) : Text := s.table ++ '.' :: s.name

end Setting

/-- What a run can be told besides its documents. -/
structure Settings where
  dialect : Dialect
  fields : HeaderFields
deriving DecidableEq, Repr

namespace Settings

/-- The settings when nothing is given. -/
def standard : Settings := ⟨.standard, .standard⟩

/-- The text of a setting. -/
def get (s : Settings) : Setting → Text
  | .dialect => s.dialect.name
  | .manualSection => s.fields.manualSection
  | .origin => s.fields.origin
  | .author => s.fields.author
  | .paper => s.fields.paper
  | .printStyle => s.fields.printStyle

/-- Settings as texts given under their paths. -/
def assignments (s : Settings) : List Assignment :=
  Setting.all.map fun x => ⟨x.path, .text (s.get x)⟩

/-! ## Reading settings -/

/-- What a store holds for a setting: under its path, or in its place where an array was given for
its table. -/
def contentOf (store : Content) (s : Setting) : Content :=
  match store.child s.table with
  | .array items => items[s.index]?.getD .nothing
  | table => table.child s.name

/-- The dialect that is given by its name, in any case of letters: as a text, or as the only entry
of a table. -/
def dialectOf? : Content → Option Dialect
  | .text t => Dialect.ofName? (folded t)
  | .table [(name, _)] => Dialect.ofName? (folded name)
  | _ => none

/-- The settings of a store, or the first setting for which nothing fits. -/
def ofStore (store : Content) : Except Setting Settings := do
  let text (s : Setting) : Except Setting Text :=
    match (contentOf store s).text? with
    | some t => .ok t
    | none => .error s
  let dialect ←
    match dialectOf? (contentOf store .dialect) with
    | some d => Except.ok d
    | none => .error .dialect
  return {
    dialect := dialect
    fields := {
      manualSection := ← text .manualSection
      origin := ← text .origin
      author := ← text .author
      paper := ← text .paper
      printStyle := ← text .printStyle } }

theorem ofStore_standard :
    ofStore (assignAll standard.assignments .nothing) = .ok standard := by rfl

/-- The settings of a store are what it holds for them. -/
theorem ofStore_eq_ok_iff {store : Content} {settings : Settings} :
    ofStore store = .ok settings ↔
      dialectOf? (contentOf store .dialect) = some settings.dialect ∧
        ∀ s ≠ .dialect, contentOf store s = .text (settings.get s) := by
  simp only [← Content.text?_eq_some_iff]
  constructor
  · intro h
    simp only [ofStore] at h
    rcases hd : dialectOf? (contentOf store .dialect) with _ | d
    · simp [hd, bind, Except.bind] at h
    rcases h₁ : (contentOf store .manualSection).text? with _ | t₁
    · simp [hd, h₁, bind, Except.bind] at h
    rcases h₂ : (contentOf store .origin).text? with _ | t₂
    · simp [hd, h₁, h₂, bind, Except.bind] at h
    rcases h₃ : (contentOf store .author).text? with _ | t₃
    · simp [hd, h₁, h₂, h₃, bind, Except.bind] at h
    rcases h₄ : (contentOf store .paper).text? with _ | t₄
    · simp [hd, h₁, h₂, h₃, h₄, bind, Except.bind] at h
    rcases h₅ : (contentOf store .printStyle).text? with _ | t₅
    · simp [hd, h₁, h₂, h₃, h₄, h₅, bind, Except.bind] at h
    simp only [hd, h₁, h₂, h₃, h₄, h₅] at h
    obtain rfl := Except.ok.inj h
    refine ⟨rfl, fun s hs => ?_⟩
    cases s with
    | dialect => exact absurd rfl hs
    | manualSection => exact h₁
    | origin => exact h₂
    | author => exact h₃
    | paper => exact h₄
    | printStyle => exact h₅
  · rintro ⟨hd, hs⟩
    simp [ofStore, hd, hs]
    rfl

end Settings

end Roffdown
