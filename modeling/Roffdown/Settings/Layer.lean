import Roffdown.Files.Basic
import Roffdown.Settings.Basic
import Roffdown.Text.Utf8
import Roffdown.Toml.Document

/-!
# Layers of settings

Settings are given in layers over the standard ones: files, and texts that are given directly.
Later layers win, and texts given directly win over all files.

* `findFile?`: the file that a path means.
* `Layer.build`: the settings of a sequence of layers.
-/

namespace Roffdown.Settings

open Text

/-- One layer of settings. -/
inductive Layer
  /-- A file that must exist. -/
  | file (path : Text)
  /-- A file that need not exist, nor be UTF-8. -/
  | optionalFile (path : Text)
  /-- A text that is given under a path. -/
  | override (key value : Text)
deriving DecidableEq, Repr

/-- Why there are no settings. -/
inductive LayerError
  /-- The key of a value is no path. -/
  | badKey (key : Text)
  | missingFile (path : Text)
  /-- The content of a file is not UTF-8. -/
  | undecodable (path : Text)
  /-- The content of a file is not TOML. -/
  | malformed (path : Text)
  /-- Nothing fits for a setting. -/
  | unfit (setting : Setting)
deriving DecidableEq, Repr

/-- The text of the error. -/
def LayerError.message : LayerError → Text
  | badKey key => "invalid key '".toList ++ key ++ "'".toList
  | missingFile path => "configuration file '".toList ++ path ++ "' not found".toList
  | undecodable path => "configuration file '".toList ++ path ++ "' is not UTF-8".toList
  | malformed path => "configuration file '".toList ++ path ++ "' is not valid TOML".toList
  | unfit setting => "no valid value for '".toList ++ setting.key ++ "'".toList

/-! ## Files -/

/-- What is appended to the path of a file. -/
def fileExtension : Text := ".toml".toList

/-- The path with the extension appended to its last name, if it ends in a name. -/
def withExtension? (path : Text) : Option Text :=
  match (split '/' path).reverse.dropWhile fun n => n.isEmpty || n = ".".toList with
  | [] => none
  | last :: before =>
    if last = "..".toList then none
    else some (join '/' ((last ++ fileExtension) :: before).reverse)

/-- The content of the file that a path means: the path itself, or with the extension. -/
def findFile? (files : Files) (path : Text) : Option (List UInt8) :=
  match files.regular? path with
  | some bytes => some bytes
  | none => (withExtension? path).bind files.regular?

/-- What a file gives. -/
def readFile (path : Text) (bytes : List UInt8) : Except LayerError (List Assignment) :=
  match Utf8.decode? bytes with
  | none => .error (.undecodable path)
  | some t =>
    match Toml.parse? t with
    | none => .error (.malformed path)
    | some table => .ok (assignmentsOf table)

namespace Layer

/-- Whether a text is given directly. -/
def isOverride : Layer → Bool
  | override _ _ => true
  | _ => false

/-- What a layer gives. -/
def assignments (files : Files) : Layer → Except LayerError (List Assignment)
  | file path =>
    match findFile? files path with
    | some bytes => readFile path bytes
    | none => .error (.missingFile path)
  | optionalFile path =>
    match findFile? files path with
    | some bytes =>
      match readFile path bytes with
      | .error (.undecodable _) => .ok []
      | given => given
    | none => .ok []
  | override key value =>
    match path? key with
    | some path => .ok [⟨path, .text value⟩]
    | none => .error (.badKey key)

/-- The layers in the order in which they count: texts given directly after all files. -/
def ordered (layers : List Layer) : List Layer :=
  (layers.filter fun l => !l.isOverride) ++ layers.filter isOverride

/-- The settings of a sequence of layers over the standard ones. -/
def build (files : Files) (layers : List Layer) : Except LayerError Settings := do
  let given ← (ordered layers).mapM (assignments files)
  let store := assignAll given.flatten (assignAll standard.assignments .nothing)
  match ofStore store with
  | .ok settings => return settings
  | .error setting => throw (.unfit setting)

end Layer

end Roffdown.Settings
