import Roffdown.Settings.Layer

/-!
# What is given last

Settings are given in layers: by files that must or may exist, and directly.  When all that is given
for settings is text, each setting goes its own way.  It is the text that was given directly last;
or else the text in the last file that has one; or else it is as in the standard settings.

* `path?_of_folded`: a key leads to its setting, in any case of letters.
* `Content.child_ontoEntries`: what a table does to one of the names below it.
* `GivesTexts.contentOf_assignAll`: what a document does to one of the settings.
* `Layer.exists_store`: what a sequence of layers does to all of them.
* `Layer.each_setting_is_given_last`: when there are settings, and what they are; the layers may be
  exchanged when they do not compete.
-/

namespace Roffdown.Toml

/-- The entries of a table; nothing else has any. -/
def Value.entries : Value → Table
  | table _ entries => entries
  | _ => []

end Roffdown.Toml

namespace Roffdown.Setting

open Settings

theorem isNameChar_table (s : Setting) : ∀ c ∈ s.table, isNameChar c :=
  List.all_eq_true.1 (by cases s <;> rfl)

theorem isNameChar_name (s : Setting) : ∀ c ∈ s.name, isNameChar c :=
  List.all_eq_true.1 (by cases s <;> rfl)

theorem table_ne_nil (s : Setting) : s.table ≠ [] := by cases s <;> decide

theorem name_ne_nil (s : Setting) : s.name ≠ [] := by cases s <;> decide

end Roffdown.Setting

namespace Roffdown.Settings

open Text

/-! ## Keys -/

theorem isNameChar_of_toLower {c : Char} (h : isNameChar c.toLower) : isNameChar c := by
  by_cases hu : c.val ≥ 'A'.val ∧ c.val ≤ 'Z'.val
  · have hupper : c.isUpper := decide_eq_true hu
    show (c.isUpper || c.isLower || c.isDigit || c == '_' || c == '-' || c == ' ') = true
    rw [hupper]
    rfl
  · rwa [show c.toLower = c from dif_neg hu] at h

theorem eq_point_of_toLower {c : Char} (h : c.toLower = '.') : c = '.' := by
  by_cases hu : c.val ≥ 'A'.val ∧ c.val ≤ 'Z'.val
  · have hlower : c.toLower.val = c.val + 32 := congrArg Char.val (dif_pos hu)
    have hval : c.val + 32 = 46 := by rw [← hlower, h]; rfl
    have hmin : 65 ≤ c.val.toNat := UInt32.le_iff_toNat_le.1 hu.1
    have hmax : c.val.toNat ≤ 90 := UInt32.le_iff_toNat_le.1 hu.2
    have hsum : (c.val.toNat + 32) % 4294967296 = 46 := by
      simpa [UInt32.toNat_add] using congrArg UInt32.toNat hval
    omega
  · rwa [show c.toLower = c from dif_neg hu] at h

theorem isNameChar_of_folded {x y : Text} (h : folded x = y) (hy : ∀ c ∈ y, isNameChar c) :
    ∀ c ∈ x, isNameChar c := fun _ hc =>
  isNameChar_of_toLower (hy _ (h ▸ List.mem_map_of_mem hc))

theorem ne_nil_of_folded {x y : Text} (h : folded x = y) (hy : y ≠ []) : x ≠ [] := by
  rintro rfl
  exact hy h.symm

theorem pathName?_append {name rest : Text} (hne : name ≠ []) (hname : ∀ c ∈ name, isNameChar c)
    (hrest : ∀ c ∈ rest.head?, isNameChar c = false) :
    pathName? (name ++ rest) = some (.name (folded name), rest) := by
  have hstop : rest.takeWhile isNameChar = [] := by
    cases rest with
    | nil => rfl
    | cons c rest => rw [List.takeWhile_cons_of_neg (by simp [hrest c rfl])]
  have htake : (name ++ rest).takeWhile isNameChar = name := by
    rw [List.takeWhile_append_of_pos hname, hstop, List.append_nil]
  unfold pathName?
  rw [htake]
  split
  · contradiction
  · rw [List.drop_left]

theorem exists_of_pathName? {t rest : Text} {step : Step} (h : pathName? t = some (step, rest)) :
    ∃ name, step = .name name := by
  unfold pathName? at h
  split at h
  · cases h
  · cases h
    exact ⟨_, rfl⟩

/-- A path begins with a name. -/
theorem exists_name_of_path? {t : Text} {path : Path} (h : path? t = some path) :
    ∃ name rest, path = .name name :: rest := by
  obtain ⟨⟨step, rest⟩, hfirst, h⟩ := Option.bind_eq_some_iff.1 h
  obtain ⟨steps, -, h⟩ := Option.bind_eq_some_iff.1 h
  obtain ⟨name, rfl⟩ := exists_of_pathName? hfirst
  exact ⟨name, steps, (Option.some.inj h).symm⟩

/-- Two names with a point between them are the path from the one to the other. -/
theorem path?_pair {table name : Text} (htable : table ≠ []) (hname : name ≠ [])
    (ht : ∀ c ∈ table, isNameChar c) (hn : ∀ c ∈ name, isNameChar c) :
    path? (table ++ '.' :: name) = some [.name (folded table), .name (folded name)] := by
  have hfirst : pathName? (table ++ '.' :: name) = some (.name (folded table), '.' :: name) := by
    refine pathName?_append htable ht fun c hc => ?_
    obtain rfl : '.' = c := Option.some.inj hc
    rfl
  have hsecond : pathName? name = some (.name (folded name), []) := by
    simpa using @pathName?_append name [] hname hn nofun
  obtain ⟨c, name', rfl⟩ := List.exists_cons_of_ne_nil hname
  simp [path?, hfirst, pathSteps?, hsecond]

/-- A name by itself is the path to it. -/
theorem path?_name {name : Text} (hne : name ≠ []) (h : ∀ c ∈ name, isNameChar c) :
    path? name = some [.name (folded name)] := by
  have hname : pathName? name = some (.name (folded name), []) := by
    simpa using @pathName?_append name [] hne h nofun
  simp [path?, hname, pathSteps?]

/-- A key leads to its setting, in any case of letters. -/
theorem path?_of_folded {key : Text} {s : Setting} (h : folded key = s.key) :
    path? key = some s.path := by
  obtain ⟨table, rest, rfl, ht, hrest⟩ := List.map_eq_append_iff.1 h
  obtain ⟨c, name, rfl, hc, hn⟩ := List.map_eq_cons_iff.1 hrest
  obtain rfl := eq_point_of_toLower hc
  rw [path?_pair (ne_nil_of_folded ht s.table_ne_nil) (ne_nil_of_folded hn s.name_ne_nil)
    (isNameChar_of_folded ht s.isNameChar_table) (isNameChar_of_folded hn s.isNameChar_name),
    Setting.path, ← ht, ← hn]
  rfl

/-! ## What lies under a name -/

/-- All that entries have under a name, in any case of letters. -/
def under {α : Type} (name : Text) (entries : List (Text × α)) : List α :=
  (entries.filter fun e => folded e.1 = name).map Prod.snd

section

variable {α : Type} {name : Text} {e : Text × α}

theorem under_cons_of_eq (h : folded e.1 = name) (entries : List (Text × α)) :
    under name (e :: entries) = e.2 :: under name entries := by
  simp [under, h]

theorem under_cons_of_ne (h : folded e.1 ≠ name) (entries : List (Text × α)) :
    under name (e :: entries) = under name entries := by
  simp [under, h]

end

theorem under_ofTomlEntries (name : Text) (entries : Toml.Table) :
    under name (Content.ofTomlEntries entries) = (under name entries).map .ofToml := by
  induction entries with
  | nil => rfl
  | cons e entries ih =>
    obtain ⟨n, v⟩ := e
    rw [Content.ofTomlEntries, Content.ofTomlEntry]
    by_cases h : folded n = name
    · rw [under_cons_of_eq h, under_cons_of_eq h, List.map_cons, ih]
    · rw [under_cons_of_ne h, under_cons_of_ne h, ih]

namespace Content

/-- A single value takes the place of all that was there. -/
theorem onto_text (t : Text) (old : Content) : (text t).onto old = text t := by
  cases old <;> rfl

theorem child_ontoEntry (name other : Text) (given old : Content) :
    (ontoEntry (name, given) old).child other =
      if other = folded name then given.onto (old.child other) else old.child other := by
  rw [ontoEntry, child, entries, find_alter]
  by_cases h : other = folded name
  · rw [if_pos h, if_pos h, h]
    rfl
  · rw [if_neg h, if_neg h]
    rfl

/-- Of the entries of a table, those with one name change what lies under it, one after the
other. -/
theorem child_ontoEntries (name : Text) (given : List (Text × Content)) (old : Content) :
    (ontoEntries given old).child name =
      (under name given).foldl (fun c g => g.onto c) (old.child name) := by
  induction given generalizing old with
  | nil => rfl
  | cons e given ih =>
    obtain ⟨n, g⟩ := e
    rw [ontoEntries, ih, child_ontoEntry]
    by_cases hn : folded n = name
    · rw [under_cons_of_eq hn, if_pos hn.symm, List.foldl_cons]
    · rw [under_cons_of_ne hn, if_neg (Ne.symm hn)]

/-- Of texts the last one counts. -/
theorem foldl_onto_of_texts {given : List Content} (h : ∀ c ∈ given, ∃ t, c = text t)
    (old : Content) : given.foldl (fun c g => g.onto c) old = given.getLast?.getD old := by
  induction given generalizing old with
  | nil => rfl
  | cons g given ih =>
    obtain ⟨⟨t, rfl⟩, hrest⟩ := List.forall_mem_cons.1 h
    rw [List.foldl_cons, ih hrest, onto_text, List.getLast?_cons, Option.getD_some]

theorem exists_ontoEntries_table (given old : List (Text × Content)) :
    ∃ new, ontoEntries given (table old) = table new := by
  induction given generalizing old with
  | nil => exact ⟨old, rfl⟩
  | cons e given ih =>
    obtain ⟨n, c⟩ := e
    rw [ontoEntries, ontoEntry]
    exact ih _

/-- What is given under a name at the top is merged into what is there. -/
theorem child_assign_name (name : Text) (given c : Content) :
    (c.assign [.name name] given).child name = given.onto (c.child name) := by
  rw [assign, child_update, if_pos rfl]
  rfl

/-- What a text changes that is given for a setting. -/
theorem child_assign_path (s : Setting) (t : Text) (store : Content) (other : Text) :
    (store.assign s.path (.text t)).child other =
      if other = s.table then
        .table (alter s.name (fun _ => .text t) (store.child s.table).entries)
      else store.child other := by
  rw [assign, Setting.path, child_update]
  rfl

end Content

/-! ## Stores with tables -/

/-- The tables of all settings are tables. -/
def HasTables (store : Content) : Prop :=
  ∀ s : Setting, ∃ entries, store.child s.table = .table entries

/-- The store of the standard settings. -/
def standardStore : Content := assignAll Settings.standard.assignments .nothing

theorem hasTables_standardStore : HasTables standardStore := by
  intro s
  cases s <;> exact ⟨_, rfl⟩

theorem contentOf_standardStore (s : Setting) :
    contentOf standardStore s = .text (Settings.standard.get s) := by
  cases s <;> rfl

theorem contentOf_of_table {store : Content} {s : Setting} {entries : List (Text × Content)}
    (h : store.child s.table = .table entries) : contentOf store s = find s.name entries := by
  rw [contentOf, h]
  rfl

theorem contentOf_congr {store store' : Content} {s : Setting}
    (h : store.child s.table = store'.child s.table) : contentOf store s = contentOf store' s := by
  rw [contentOf, contentOf, h]

/-- What a store holds for the settings decides what they are. -/
theorem ofStore_congr {store store' : Content} (h : ∀ s, contentOf store s = contentOf store' s) :
    ofStore store = ofStore store' := by
  simp only [ofStore, h]

namespace HasTables

variable {store : Content} (h : HasTables store)

include h

/-- What a table changes for the settings in it. -/
theorem contentOf_assign_table {s : Setting} {given : List (Text × Content)}
    (ht : ∀ c ∈ under s.name given, ∃ t, c = .text t) :
    contentOf (store.assign [.name s.table] (.table given)) s =
      (under s.name given).getLast?.getD (contentOf store s) := by
  obtain ⟨old, hold⟩ := h s
  have hchild : (store.assign [.name s.table] (.table given)).child s.table =
      .ontoEntries given (.table old) := by
    rw [Content.child_assign_name, hold]
    rfl
  obtain ⟨new, hnew⟩ := Content.exists_ontoEntries_table given old
  rw [contentOf_of_table (hchild.trans hnew), contentOf_of_table hold]
  show (Content.table new).child s.name = _
  rw [← hnew, Content.child_ontoEntries, Content.foldl_onto_of_texts ht]
  rfl

theorem assign_table (name : Text) (given : List (Text × Content)) :
    HasTables (store.assign [.name name] (.table given)) := by
  intro s
  obtain ⟨old, hold⟩ := h s
  by_cases hs : s.table = name
  · subst hs
    rw [Content.child_assign_name, hold]
    exact Content.exists_ontoEntries_table given old
  · exact ⟨old, (Content.child_assign_of_ne hs [] _ _).trans hold⟩

theorem assign_elsewhere {name : Text} (hname : ∀ s : Setting, s.table ≠ name) (path : Path)
    (given : Content) : HasTables (store.assign (.name name :: path) given) := by
  intro s
  obtain ⟨old, hold⟩ := h s
  exact ⟨old, (Content.child_assign_of_ne (hname s) path _ _).trans hold⟩

theorem assign_path (s : Setting) (t : Text) : HasTables (store.assign s.path (.text t)) := by
  intro s'
  obtain ⟨old, hold⟩ := h s'
  rw [Content.child_assign_path]
  by_cases hs : s'.table = s.table
  · exact ⟨_, if_pos hs⟩
  · exact ⟨old, (if_neg hs).trans hold⟩

/-- A text that is given for a setting is found there, and changes no other setting. -/
theorem contentOf_assign_path (s s' : Setting) (t : Text) :
    contentOf (store.assign s.path (.text t)) s' =
      if s' = s then .text t else contentOf store s' := by
  have hsame : s' = s ↔ s'.table = s.table ∧ s'.name = s.name := by
    cases s <;> cases s' <;> decide
  by_cases ht : s'.table = s.table
  · obtain ⟨old, hold⟩ := h s'
    have hchild := Content.child_assign_path s t store s'.table
    rw [if_pos ht, ← ht, hold] at hchild
    rw [contentOf_of_table hchild, contentOf_of_table hold, Content.entries, find_alter]
    simp only [hsame, ht, true_and]
  · have hne : s' ≠ s := fun he => ht (congrArg Setting.table he)
    rw [if_neg hne]
    exact contentOf_congr ((Content.child_assign_path s t _ _).trans (if_neg ht))

end HasTables

/-! ## Documents -/

/-- The path under which something is given at the top of a document. -/
def topPath (name : Text) : Path := (path? name).getD [.name (folded name)]

/-- The values that a document has for a setting. -/
def valuesOf (document : Toml.Table) (s : Setting) : List Toml.Value :=
  (under s.table document).flatMap fun v => under s.name v.entries

/-- The text that a document gives for a setting: its only value for it. -/
def textIn? (document : Toml.Table) (s : Setting) : Option Text :=
  match valuesOf document s with
  | [.text t] => some t
  | _ => none

/-- An entry at the top of a document that is about none of the settings, or has a table under the
name of their table. -/
def GivesTable (e : Text × Toml.Value) : Prop :=
  ∀ s : Setting, (topPath e.1).head? = some (.name s.table) →
    folded e.1 = s.table ∧ ∃ form entries, e.2 = .table form entries

/-- A document that gives nothing but texts for settings, in their tables, and none of them
twice. -/
structure GivesTexts (document : Toml.Table) : Prop where
  tables : ∀ e ∈ document, GivesTable e
  texts : ∀ s, valuesOf document s = [] ∨ ∃ t, valuesOf document s = [.text t]

/-! ### What a document does -/

theorem exists_topPath (name : Text) : ∃ n path, topPath name = .name n :: path := by
  cases h : path? name with
  | none => exact ⟨folded name, [], by rw [topPath, h]; rfl⟩
  | some path =>
    obtain ⟨n, rest, rfl⟩ := exists_name_of_path? h
    exact ⟨n, rest, by rw [topPath, h]; rfl⟩

/-- The name of a table leads to it, in any case of letters. -/
theorem topPath_of_folded {name : Text} {s : Setting} (h : folded name = s.table) :
    topPath name = [.name s.table] := by
  rw [topPath, path?_name (ne_nil_of_folded h s.table_ne_nil)
    (isNameChar_of_folded h s.isNameChar_table), h]
  rfl

theorem givesTable_of_folded {name : Text} {s : Setting} (h : folded name = s.table)
    (form : Toml.TableForm) (entries : Toml.Table) : GivesTable (name, .table form entries) := by
  intro s' hs'
  rw [topPath_of_folded h] at hs'
  exact ⟨h.trans (Step.name.inj (Option.some.inj hs')), form, entries, rfl⟩

theorem valuesOf_singleton_of_eq {e : Text × Toml.Value} {s : Setting} (h : folded e.1 = s.table) :
    valuesOf [e] s = under s.name e.2.entries := by
  simp [valuesOf, under, h]

theorem valuesOf_singleton_of_ne {e : Text × Toml.Value} {s : Setting} (h : folded e.1 ≠ s.table) :
    valuesOf [e] s = [] := by
  simp [valuesOf, under, h]

theorem valuesOf_cons (e : Text × Toml.Value) (document : Toml.Table) (s : Setting) :
    valuesOf (e :: document) s = valuesOf [e] s ++ valuesOf document s := by
  by_cases h : folded e.1 = s.table
  · simp [valuesOf, under, h]
  · simp [valuesOf, under, h]

section

variable {store : Content} (h : HasTables store)

include h

/-- What an entry at the top of a document does to the settings. -/
theorem HasTables.assign_entry {e : Text × Toml.Value} (htable : GivesTable e)
    (htexts : ∀ s, ∀ v ∈ valuesOf [e] s, ∃ t, v = .text t) :
    HasTables (store.assign (topPath e.1) (.ofToml e.2)) ∧
      ∀ s, contentOf (store.assign (topPath e.1) (.ofToml e.2)) s =
        ((valuesOf [e] s).map .ofToml).getLast?.getD (contentOf store s) := by
  by_cases hs : ∃ s : Setting, folded e.1 = s.table
  · obtain ⟨s, hs⟩ := hs
    have hpath := topPath_of_folded hs
    obtain ⟨-, form, entries, hv⟩ := htable s (by rw [hpath]; rfl)
    rw [hpath, hv, Content.ofToml]
    refine ⟨h.assign_table _ _, fun s' => ?_⟩
    by_cases hs' : s'.table = s.table
    · have hvalues : valuesOf [e] s' = under s'.name entries := by
        rw [valuesOf_singleton_of_eq (hs.trans hs'.symm), hv]
        rfl
      rw [hvalues, ← under_ofTomlEntries, ← hs']
      refine h.contentOf_assign_table fun c hc => ?_
      rw [under_ofTomlEntries, ← hvalues] at hc
      obtain ⟨v, hmem, rfl⟩ := List.mem_map.1 hc
      obtain ⟨t, rfl⟩ := htexts s' v hmem
      exact ⟨t, by rw [Content.ofToml]⟩
    · rw [valuesOf_singleton_of_ne fun he => hs' (he.symm.trans hs)]
      exact contentOf_congr (Content.child_assign_of_ne hs' [] _ _)
  · obtain ⟨n, path, hpath⟩ := exists_topPath e.1
    have hne : ∀ s : Setting, s.table ≠ n := fun s he =>
      hs ⟨s, (htable s (by rw [hpath, he]; rfl)).1⟩
    rw [hpath]
    refine ⟨h.assign_elsewhere hne path _, fun s => ?_⟩
    rw [valuesOf_singleton_of_ne fun he => hs ⟨s, he⟩]
    exact contentOf_congr (Content.child_assign_of_ne (hne s) path _ _)

/-- What a document does to the settings: the last of its values counts. -/
theorem HasTables.assign_document {document : Toml.Table}
    (htables : ∀ e ∈ document, GivesTable e)
    (htexts : ∀ s, ∀ v ∈ valuesOf document s, ∃ t, v = .text t) :
    HasTables (assignAll (assignmentsOf document) store) ∧
      ∀ s, contentOf (assignAll (assignmentsOf document) store) s =
        ((valuesOf document s).map .ofToml).getLast?.getD (contentOf store s) := by
  induction document generalizing store with
  | nil => exact ⟨h, fun s => rfl⟩
  | cons e document ih =>
    simp only [valuesOf_cons e document, List.forall_mem_append] at htexts
    obtain ⟨htable, htables⟩ := List.forall_mem_cons.1 htables
    obtain ⟨hnext, hentry⟩ := h.assign_entry htable fun s => (htexts s).1
    obtain ⟨hlast, hrest⟩ := ih hnext htables fun s => (htexts s).2
    refine ⟨hlast, fun s => (hrest s).trans ?_⟩
    rw [hentry, valuesOf_cons e document, List.map_append, List.getLast?_append]
    cases ((valuesOf document s).map Content.ofToml).getLast? <;> rfl

/-- A document that gives nothing but texts changes the settings that it gives. -/
theorem HasTables.assign_texts {document : Toml.Table} (hd : GivesTexts document) :
    HasTables (assignAll (assignmentsOf document) store) ∧
      ∀ s, contentOf (assignAll (assignmentsOf document) store) s =
        ((textIn? document s).map .text).getD (contentOf store s) := by
  obtain ⟨hnext, hvalues⟩ := h.assign_document hd.tables fun s v hv => by
    rcases hd.texts s with hnil | ⟨t, ht⟩
    · rw [hnil] at hv
      exact absurd hv List.not_mem_nil
    · rw [ht] at hv
      exact ⟨t, List.mem_singleton.1 hv⟩
  refine ⟨hnext, fun s => (hvalues s).trans ?_⟩
  rcases hd.texts s with hnil | ⟨t, ht⟩
  · rw [textIn?, hnil]
    rfl
  · rw [textIn?, ht, List.map_singleton, Content.ofToml]
    rfl

end

/-! ## Layers -/

namespace Layer

/-- The document in the file that a path means. -/
def document? (files : Files) (path : Text) : Option Toml.Table :=
  (findFile? files path).bind fun bytes => (Utf8.decode? bytes).bind Toml.parse?

/-- What a layer gives, as far as it gives anything. -/
def given (files : Files) : Layer → List Assignment
  | file path | optionalFile path => ((document? files path).map assignmentsOf).getD []
  | override key value => ((path? key).map fun path => [⟨path, .text value⟩]).getD []

/-- The text that a file gives for a setting. -/
def fileText? (files : Files) (s : Setting) : Layer → Option Text
  | file path | optionalFile path => (document? files path).bind (textIn? · s)
  | override _ _ => none

/-- The text that is given directly for a setting. -/
def overrideText? (s : Setting) : Layer → Option Text
  | override key value => if folded key = s.key then some value else none
  | _ => none

/-- The path of a file that must exist and does not. -/
def missing? (files : Files) : Layer → Option Text
  | file path => if (findFile? files path).isNone then some path else none
  | _ => none

/-- What is given last for a setting: directly, or else by a file, or else in the standard
settings. -/
def lastGiven (files : Files) (layers : List Layer) (s : Setting) : Text :=
  ((layers.reverse.findSome? (overrideText? s)).or
    (layers.reverse.findSome? (fileText? files s))).getD (Settings.standard.get s)

/-- A layer that gives nothing but texts for settings: a file that has such a document if there is
one, or the key of a setting. -/
def GivesTexts (files : Files) : Layer → Prop
  | file path | optionalFile path => ∀ bytes, findFile? files path = some bytes →
      ∃ t document, Utf8.decode? bytes = some t ∧ Toml.parse? t = some document ∧
        Settings.GivesTexts document
  | override key _ => ∃ s : Setting, folded key = s.key

/-- Layers that do not compete: texts given directly for different settings, or one of them and a
file. -/
def Exchangeable : Layer → Layer → Prop
  | override key _, override key' _ => folded key ≠ folded key'
  | l, m => l.isOverride ≠ m.isOverride

/-- Layers in another order, in which only layers that do not compete have been exchanged. -/
inductive Exchanged : List Layer → List Layer → Prop
  | refl (layers : List Layer) : Exchanged layers layers
  | swap {l m : Layer} {before after layers : List Layer} (h : l.Exchangeable m)
      (hrest : Exchanged (before ++ m :: l :: after) layers) :
      Exchanged (before ++ l :: m :: after) layers

/-- What a layer gives for a setting. -/
def text? (files : Files) (s : Setting) (l : Layer) : Option Text :=
  (l.overrideText? s).or (l.fileText? files s)

/-! ### What layers give -/

section

variable {files : Files} {l : Layer}

theorem document?_of_decode? {path t : Text} {bytes : List UInt8}
    (h : findFile? files path = some bytes) (ht : Utf8.decode? bytes = some t) :
    document? files path = Toml.parse? t := by
  rw [document?, h, Option.bind_some, ht, Option.bind_some]

theorem document?_of_not_decode {path : Text} {bytes : List UInt8}
    (h : findFile? files path = some bytes) (ht : Utf8.decode? bytes = none) :
    document? files path = none := by
  rw [document?, h, Option.bind_some, ht, Option.bind_none]

theorem eq_given_of_readFile {path : Text} {bytes : List UInt8} {g : List Assignment}
    (hfile : findFile? files path = some bytes) (h : readFile path bytes = .ok g) :
    g = ((document? files path).map assignmentsOf).getD [] := by
  cases ht : Utf8.decode? bytes with
  | none => simp [readFile, ht] at h
  | some t =>
    rw [document?_of_decode? hfile ht]
    cases hd : Toml.parse? t with
    | none => simp [readFile, ht, hd] at h
    | some document => simpa [readFile, ht, hd] using h.symm

/-- A file that can be read gives what is in its document; one that need not be UTF-8 may have no
document. -/
theorem eq_given_of_assignments {g : List Assignment} (h : l.assignments files = .ok g) :
    g = l.given files := by
  cases l with
  | file path =>
    cases hfile : findFile? files path with
    | none => simp [assignments, hfile] at h
    | some bytes =>
      simp only [assignments, hfile] at h
      exact eq_given_of_readFile hfile h
  | optionalFile path =>
    cases hfile : findFile? files path with
    | none => simpa [assignments, given, document?, hfile] using h.symm
    | some bytes =>
      cases ht : Utf8.decode? bytes with
      | none =>
        rw [given, document?_of_not_decode hfile ht]
        simpa [assignments, hfile, readFile, ht] using h.symm
      | some t =>
        refine eq_given_of_readFile hfile ?_
        rw [← h]
        simp only [assignments, hfile, readFile, ht]
        cases Toml.parse? t <;> rfl
  | override key value =>
    cases hp : path? key with
    | none => simp [assignments, hp] at h
    | some path => simpa [assignments, given, hp] using h.symm

end

section

variable {files : Files} {layers : List Layer}

theorem mapM_cons_of_ok {l : Layer} {g : List Assignment} (h : l.assignments files = .ok g)
    (layers : List Layer) : (l :: layers).mapM (assignments files) =
      (layers.mapM (assignments files)).map (g :: ·) := by
  rw [List.mapM_cons, h]
  cases layers.mapM (assignments files) <;> rfl

theorem mapM_of_readable (h : ∀ l ∈ layers, ∃ g, l.assignments files = .ok g) :
    layers.mapM (assignments files) = .ok (layers.map (given files)) := by
  induction layers with
  | nil => rfl
  | cons l layers ih =>
    obtain ⟨⟨g, hg⟩, hrest⟩ := List.forall_mem_cons.1 h
    rw [mapM_cons_of_ok hg, ih hrest, List.map_cons, ← eq_given_of_assignments hg]
    rfl

theorem readable_of_mapM {gs : List (List Assignment)}
    (h : layers.mapM (assignments files) = .ok gs) :
    ∀ l ∈ layers, ∃ g, l.assignments files = .ok g := by
  induction layers generalizing gs with
  | nil => nofun
  | cons l layers ih =>
    cases hl : l.assignments files with
    | error e =>
      rw [List.mapM_cons, hl] at h
      cases h
    | ok g =>
      rw [mapM_cons_of_ok hl] at h
      cases hrest : layers.mapM (assignments files) with
      | error e =>
        rw [hrest] at h
        cases h
      | ok gs => exact List.forall_mem_cons.2 ⟨⟨g, hl⟩, ih hrest⟩

theorem mem_ordered {l : Layer} : l ∈ ordered layers ↔ l ∈ layers := by
  simp only [ordered, List.mem_append, List.mem_filter]
  cases l.isOverride <;> simp

/-- When all layers can be read, the settings are made of all that they give. -/
theorem build_of_readable (h : ∀ l ∈ layers, ∃ g, l.assignments files = .ok g) :
    build files layers =
      (ofStore (assignAll ((ordered layers).flatMap (given files)) standardStore)).mapError
        .unfit := by
  rw [build, mapM_of_readable fun l hl => h l (mem_ordered.1 hl)]
  simp only [bind, Except.bind]
  rw [List.flatMap_def, standardStore]
  cases ofStore (assignAll ((ordered layers).map (given files)).flatten
      (assignAll Settings.standard.assignments .nothing)) with
  | ok settings => rfl
  | error s => rfl

theorem mapError_eq_ok_iff {store : Content} {settings : Settings} :
    (ofStore store).mapError LayerError.unfit = .ok settings ↔ ofStore store = .ok settings := by
  cases ofStore store with
  | ok settings =>
    show (Except.ok settings : Except LayerError Settings) = .ok _ ↔ _
    rw [Except.ok.injEq, Except.ok.injEq]
  | error s => exact ⟨nofun, nofun⟩

/-- There are settings when all layers can be read and what they give fits. -/
theorem build_eq_ok_iff {settings : Settings} : build files layers = .ok settings ↔
    (∀ l ∈ layers, ∃ g, l.assignments files = .ok g) ∧
      ofStore (assignAll ((ordered layers).flatMap (given files)) standardStore) =
        .ok settings := by
  constructor
  · intro h
    have hread : ∀ l ∈ layers, ∃ g, l.assignments files = .ok g := by
      cases hm : (ordered layers).mapM (assignments files) with
      | error e =>
        rw [build, hm] at h
        cases h
      | ok gs => exact fun l hl => readable_of_mapM hm l (mem_ordered.2 hl)
    rw [build_of_readable hread, mapError_eq_ok_iff] at h
    exact ⟨hread, h⟩
  · rintro ⟨hread, h⟩
    rwa [build_of_readable hread, mapError_eq_ok_iff]

end

/-! ### Layers that give texts -/

section

variable {files : Files} {l : Layer}

theorem missing?_eq_some_iff {path : Text} :
    l.missing? files = some path ↔ l = .file path ∧ findFile? files path = none := by
  cases l with
  | file p =>
    simp only [missing?, Option.ite_none_right_eq_some, Option.isNone_iff_eq_none,
      Option.some.injEq, Layer.file.injEq]
    constructor
    · rintro ⟨hnone, rfl⟩
      exact ⟨rfl, hnone⟩
    · rintro ⟨rfl, hnone⟩
      exact ⟨hnone, rfl⟩
  | optionalFile p => exact ⟨nofun, fun h => nomatch h.1⟩
  | override key value => exact ⟨nofun, fun h => nomatch h.1⟩

theorem assignments_of_missing {path : Text} (h : l.missing? files = some path) :
    l.assignments files = .error (.missingFile path) := by
  obtain ⟨rfl, hnone⟩ := missing?_eq_some_iff.1 h
  rw [assignments, hnone]

/-- What reading makes of a file whose document gives texts. -/
theorem exists_readFile {path : Text} {bytes : List UInt8}
    (h : ∃ t document, Utf8.decode? bytes = some t ∧ Toml.parse? t = some document ∧
      Settings.GivesTexts document) : ∃ g, readFile path bytes = .ok g := by
  obtain ⟨t, document, ht, hdocument, -⟩ := h
  exact ⟨assignmentsOf document, by simp only [readFile, ht, hdocument]⟩

theorem exists_assignments (hl : l.GivesTexts files) (h : l.missing? files = none) :
    ∃ g, l.assignments files = .ok g := by
  cases l with
  | file path =>
    cases hfile : findFile? files path with
    | none => simp [missing?, hfile] at h
    | some bytes =>
      obtain ⟨g, hg⟩ := @exists_readFile path bytes (hl bytes hfile)
      exact ⟨g, by rw [assignments, hfile, ← hg]⟩
  | optionalFile path =>
    cases hfile : findFile? files path with
    | none => exact ⟨[], by rw [assignments, hfile]⟩
    | some bytes =>
      obtain ⟨g, hg⟩ := @exists_readFile path bytes (hl bytes hfile)
      exact ⟨g, by simp only [assignments, hfile, hg]⟩
  | override key value =>
    obtain ⟨s, hs⟩ := hl
    exact ⟨_, by rw [assignments, path?_of_folded hs]⟩

/-- What a file does to the settings. -/
theorem assign_document? {path : Text} (hl : (file path).GivesTexts files) {store : Content}
    (h : HasTables store) :
    HasTables (assignAll ((file path).given files) store) ∧
      ∀ s, contentOf (assignAll ((file path).given files) store) s =
        (((document? files path).bind (textIn? · s)).map .text).getD (contentOf store s) := by
  rw [given]
  cases hfile : findFile? files path with
  | none =>
    rw [document?, hfile]
    exact ⟨h, fun s => rfl⟩
  | some bytes =>
    obtain ⟨t, document, ht, hdocument, hgives⟩ := hl bytes hfile
    rw [document?_of_decode? hfile ht, hdocument]
    exact h.assign_texts hgives

/-- What a layer does to the settings. -/
theorem assign_given (hl : l.GivesTexts files) {store : Content} (h : HasTables store) :
    HasTables (assignAll (l.given files) store) ∧
      ∀ s, contentOf (assignAll (l.given files) store) s =
        ((l.text? files s).map .text).getD (contentOf store s) := by
  cases l with
  | file path => exact assign_document? hl h
  | optionalFile path => exact assign_document? hl h
  | override key value =>
    obtain ⟨s, hs⟩ := hl
    rw [given, path?_of_folded hs]
    refine ⟨h.assign_path s value, fun s' => ?_⟩
    have hkey : s.key = s'.key ↔ s' = s := by
      cases s <;> cases s' <;> decide
    show contentOf (store.assign s.path (.text value)) s' = _
    rw [h.contentOf_assign_path, text?, overrideText?, fileText?, hs, Option.or_none]
    by_cases he : s' = s
    · rw [if_pos he, if_pos (hkey.2 he)]
      rfl
    · rw [if_neg he, if_neg (mt hkey.1 he)]
      rfl

/-- What a sequence of layers does to the settings: for each, the last text that is given counts. -/
theorem assign_flatMap_given {layers : List Layer} (hl : ∀ l ∈ layers, l.GivesTexts files)
    {store : Content} (h : HasTables store) :
    HasTables (assignAll (layers.flatMap (given files)) store) ∧
      ∀ s, contentOf (assignAll (layers.flatMap (given files)) store) s =
        ((layers.reverse.findSome? (text? files s)).map .text).getD (contentOf store s) := by
  induction layers generalizing store with
  | nil => exact ⟨h, fun s => rfl⟩
  | cons l layers ih =>
    obtain ⟨hfirst, hrest⟩ := List.forall_mem_cons.1 hl
    obtain ⟨hnext, hfound⟩ := assign_given hfirst h
    obtain ⟨hlast, hrun⟩ := ih hrest hnext
    rw [List.flatMap_cons, assignAll_append]
    refine ⟨hlast, fun s => (hrun s).trans ?_⟩
    rw [hfound, List.reverse_cons, List.findSome?_append]
    cases layers.reverse.findSome? (text? files s) with
    | some t => rfl
    | none => simp

/-- Without a file that must exist, the first such file is told. -/
theorem mapM_of_missing {layers : List Layer} {path : Text}
    (hl : ∀ l ∈ layers, l.GivesTexts files) (h : layers.findSome? (missing? files) = some path) :
    layers.mapM (assignments files) = .error (.missingFile path) := by
  induction layers with
  | nil => cases h
  | cons l layers ih =>
    obtain ⟨hfirst, hrest⟩ := List.forall_mem_cons.1 hl
    cases hm : l.missing? files with
    | some p =>
      rw [List.findSome?_cons, hm] at h
      rw [List.mapM_cons, assignments_of_missing (hm.trans h)]
      rfl
    | none =>
      obtain ⟨g, hg⟩ := exists_assignments hfirst hm
      rw [List.findSome?_cons, hm] at h
      rw [mapM_cons_of_ok hg, ih hrest h]
      rfl

end

/-! ### Layers in their order -/

section

variable {l : Layer} (files : Files) (s : Setting)

theorem missing?_of_isOverride (h : l.isOverride) : l.missing? files = none := by
  cases l with
  | file path => cases h
  | optionalFile path => cases h
  | override key value => rfl

theorem fileText?_of_isOverride (h : l.isOverride) : l.fileText? files s = none := by
  cases l with
  | file path => cases h
  | optionalFile path => cases h
  | override key value => rfl

theorem overrideText?_of_not_isOverride (h : ¬ l.isOverride) : l.overrideText? s = none := by
  cases l with
  | file path => rfl
  | optionalFile path => rfl
  | override key value => exact absurd rfl h

theorem text?_of_isOverride (h : l.isOverride) : l.text? files s = l.overrideText? s := by
  rw [text?, fileText?_of_isOverride files s h, Option.or_none]

theorem text?_of_not_isOverride (h : ¬ l.isOverride) : l.text? files s = l.fileText? files s := by
  rw [text?, overrideText?_of_not_isOverride s h, Option.none_or]

end

theorem findSome?_filter {α β : Type} {p : α → Bool} {f g : α → Option β}
    (hp : ∀ a, p a → f a = g a) (hn : ∀ a, ¬ p a → g a = none) (l : List α) :
    (l.filter p).findSome? f = l.findSome? g := by
  induction l with
  | nil => rfl
  | cons a l ih =>
    by_cases h : p a
    · rw [List.filter_cons_of_pos h, List.findSome?_cons, List.findSome?_cons, ih, hp a h]
    · rw [List.filter_cons_of_neg h, List.findSome?_cons, ih, hn a h]

theorem findSome?_swap {α β : Type} {f : α → Option β} {a b : α} (h : f a = none ∨ f b = none)
    (l l' : List α) : (l ++ b :: a :: l').findSome? f = (l ++ a :: b :: l').findSome? f := by
  rw [List.findSome?_append, List.findSome?_append]
  congr 1
  simp only [List.findSome?_cons]
  rcases h with h | h
  · rw [h]
  · rw [h]

section

variable (files : Files) (layers : List Layer)

theorem findSome?_missing?_ordered :
    (ordered layers).findSome? (missing? files) = layers.findSome? (missing? files) := by
  have hfiles : (layers.filter fun l => !l.isOverride).findSome? (missing? files) =
      layers.findSome? (missing? files) :=
    findSome?_filter (fun _ _ => rfl)
      (fun l hl => missing?_of_isOverride files (by simpa using hl)) layers
  have hdirect : (layers.filter isOverride).findSome? (missing? files) = none :=
    List.findSome?_eq_none_iff.2 fun l hl =>
      missing?_of_isOverride files (List.mem_filter.1 hl).2
  rw [ordered, List.findSome?_append, hfiles, hdirect, Option.or_none]

/-- Texts that are given directly count before those of files. -/
theorem findSome?_text?_ordered (s : Setting) :
    (ordered layers).reverse.findSome? (text? files s) =
      (layers.reverse.findSome? (overrideText? s)).or
        (layers.reverse.findSome? (fileText? files s)) := by
  have hdirect : (layers.reverse.filter isOverride).findSome? (text? files s) =
      layers.reverse.findSome? (overrideText? s) :=
    findSome?_filter (fun l => text?_of_isOverride files s)
      (fun l => overrideText?_of_not_isOverride s) _
  have hfiles : (layers.reverse.filter fun l => !l.isOverride).findSome? (text? files s) =
      layers.reverse.findSome? (fileText? files s) :=
    findSome?_filter (fun l hl => text?_of_not_isOverride files s (by simpa using hl))
      (fun l hl => fileText?_of_isOverride files s (by simpa using hl)) _
  rw [ordered, List.reverse_append, List.findSome?_append, ← List.filter_reverse,
    ← List.filter_reverse, hdirect, hfiles]

end

section

variable {files : Files} {layers : List Layer}

theorem build_of_missing {path : Text} (hl : ∀ l ∈ layers, l.GivesTexts files)
    (h : layers.findSome? (missing? files) = some path) :
    build files layers = .error (.missingFile path) := by
  rw [← findSome?_missing?_ordered] at h
  rw [build, mapM_of_missing (fun l hmem => hl l (mem_ordered.1 hmem)) h]
  rfl

/-- What a store holds for the settings is what was given last for them. -/
theorem exists_store (hl : ∀ l ∈ layers, l.GivesTexts files)
    (h : layers.findSome? (missing? files) = none) :
    ∃ store, (∀ s, contentOf store s = .text (lastGiven files layers s)) ∧
      build files layers = (ofStore store).mapError .unfit := by
  have hread : ∀ l ∈ layers, ∃ g, l.assignments files = .ok g := fun l hmem =>
    exists_assignments (hl l hmem) (List.findSome?_eq_none_iff.1 h l hmem)
  obtain ⟨-, hfound⟩ := assign_flatMap_given (fun l hmem => hl l (mem_ordered.1 hmem))
    hasTables_standardStore
  refine ⟨_, fun s => (hfound s).trans ?_, build_of_readable hread⟩
  rw [contentOf_standardStore, findSome?_text?_ordered, lastGiven]
  cases (layers.reverse.findSome? (overrideText? s)).or
    (layers.reverse.findSome? (fileText? files s)) <;> rfl

end

/-! ### Layers that do not compete -/

section

variable {l m : Layer} (h : l.Exchangeable m)

include h

theorem Exchangeable.overrideText? (s : Setting) :
    l.overrideText? s = none ∨ m.overrideText? s = none := by
  by_cases hl : l.isOverride
  · by_cases hm : m.isOverride
    · cases l with
      | file path => cases hl
      | optionalFile path => cases hl
      | override key value =>
        cases m with
        | file path => cases hm
        | optionalFile path => cases hm
        | override key' value' =>
          by_cases hk : folded key = s.key
          · exact .inr (if_neg fun hk' => h (hk.trans hk'.symm))
          · exact .inl (if_neg hk)
    · exact .inr (overrideText?_of_not_isOverride s hm)
  · exact .inl (overrideText?_of_not_isOverride s hl)

/-- One of two layers that do not compete is no file. -/
theorem Exchangeable.isOverride_or : l.isOverride ∨ m.isOverride := by
  cases l with
  | override key value => exact .inl rfl
  | file path => exact .inr (Bool.eq_not_of_ne (Ne.symm h))
  | optionalFile path => exact .inr (Bool.eq_not_of_ne (Ne.symm h))

end

section

variable {files : Files} {l m : Layer} {before after : List Layer}

theorem lastGiven_swap (h : l.Exchangeable m) (s : Setting) :
    lastGiven files (before ++ m :: l :: after) s =
      lastGiven files (before ++ l :: m :: after) s := by
  have hfile : l.fileText? files s = none ∨ m.fileText? files s = none :=
    h.isOverride_or.imp (fileText?_of_isOverride files s) (fileText?_of_isOverride files s)
  simp only [lastGiven, List.reverse_append, List.reverse_cons, List.append_assoc,
    List.cons_append, List.nil_append]
  rw [findSome?_swap (h.overrideText? s), findSome?_swap hfile]

theorem build_swap (h : l.Exchangeable m)
    (hl : ∀ x ∈ before ++ l :: m :: after, x.GivesTexts files) :
    build files (before ++ m :: l :: after) = build files (before ++ l :: m :: after) := by
  have hl' : ∀ x ∈ before ++ m :: l :: after, x.GivesTexts files := fun x hx =>
    hl x (((List.Perm.swap l m after).append_left before).mem_iff.1 hx)
  have hmissing : (before ++ m :: l :: after).findSome? (missing? files) =
      (before ++ l :: m :: after).findSome? (missing? files) :=
    findSome?_swap (h.isOverride_or.imp (missing?_of_isOverride files)
      (missing?_of_isOverride files)) _ _
  cases hm : (before ++ l :: m :: after).findSome? (missing? files) with
  | some path => rw [build_of_missing hl hm, build_of_missing hl' (hmissing.trans hm)]
  | none =>
    obtain ⟨store, hstore, hbuild⟩ := exists_store hl hm
    obtain ⟨store', hstore', hbuild'⟩ := exists_store hl' (hmissing.trans hm)
    rw [hbuild, hbuild', ofStore_congr fun s => ?_]
    rw [hstore, hstore', lastGiven_swap h]

theorem build_of_exchanged {layers layers' : List Layer} (h : Exchanged layers layers')
    (hl : ∀ l ∈ layers, l.GivesTexts files) : build files layers' = build files layers := by
  induction h with
  | refl layers => rfl
  | swap h _ ih =>
    rw [ih fun x hx => hl x (((List.Perm.swap _ _ _).append_left _).mem_iff.1 hx), build_swap h hl]

end

/-! ### What the settings are -/

theorem findSome?_missing?_eq_none_iff {files : Files} {layers : List Layer} :
    layers.findSome? (missing? files) = none ↔
      ∀ path, .file path ∈ layers → ∃ bytes, findFile? files path = some bytes := by
  rw [List.findSome?_eq_none_iff]
  constructor
  · intro h path hmem
    refine Option.ne_none_iff_exists'.1 fun hnone => ?_
    have := missing?_eq_some_iff.2 ⟨rfl, hnone⟩
    rw [h _ hmem] at this
    cases this
  · intro h l hmem
    refine Option.eq_none_iff_forall_not_mem.2 fun path hpath => ?_
    obtain ⟨rfl, hnone⟩ := missing?_eq_some_iff.1 hpath
    obtain ⟨bytes, hbytes⟩ := h path hmem
    exact absurd (hnone.symm.trans hbytes) nofun

theorem exists_ofStore_eq_ok_iff {store : Content} {text : Setting → Text}
    (h : ∀ s, contentOf store s = .text (text s)) :
    (∃ settings, ofStore store = .ok settings) ↔
      ∃ d, Dialect.ofName? (folded (text .dialect)) = some d := by
  simp only [ofStore_eq_ok_iff, h]
  constructor
  · rintro ⟨settings, hd, -⟩
    exact ⟨settings.dialect, hd⟩
  · rintro ⟨d, hd⟩
    refine ⟨⟨d, text .manualSection, text .origin, text .author, text .paper, text .printStyle⟩,
      hd, fun s hs => ?_⟩
    cases s with
    | dialect => exact absurd rfl hs
    | _ => rfl

section

variable {files : Files} {layers : List Layer}

/-- **Each setting is what was given last for it.**  For layers that give nothing but texts for
settings, in any case of letters: there are settings just when all files exist that must, and what
is given last for the dialect names one.  Then that is the dialect, and every other setting is what
is given last for it, whatever is given for the rest.  Layers may be exchanged that do not
compete. -/
theorem each_setting_is_given_last (hl : ∀ l ∈ layers, l.GivesTexts files) :
    ((∃ settings, build files layers = .ok settings) ↔
      (∀ path, .file path ∈ layers → ∃ bytes, findFile? files path = some bytes) ∧
        ∃ d, Dialect.ofName? (folded (lastGiven files layers .dialect)) = some d) ∧
    (∀ settings, build files layers = .ok settings →
      Dialect.ofName? (folded (lastGiven files layers .dialect)) = some settings.dialect ∧
      ∀ s ≠ .dialect, settings.get s = lastGiven files layers s) ∧
    ∀ layers', Exchanged layers layers' → build files layers' = build files layers := by
  rw [← findSome?_missing?_eq_none_iff]
  cases hm : layers.findSome? (missing? files) with
  | some path =>
    have hbuild := build_of_missing hl hm
    exact ⟨⟨by rw [hbuild]; nofun, fun h => nomatch h.1⟩, by rw [hbuild]; nofun,
      fun layers' h => build_of_exchanged h hl⟩
  | none =>
    obtain ⟨store, hstore, hbuild⟩ := exists_store hl hm
    simp only [hbuild, mapError_eq_ok_iff, exists_ofStore_eq_ok_iff hstore, true_and]
    refine ⟨fun settings hsettings => ?_, fun layers' h => ?_⟩
    · obtain ⟨hd, htext⟩ := ofStore_eq_ok_iff.1 hsettings
      rw [hstore] at hd
      refine ⟨hd, fun s hs => ?_⟩
      have := htext s hs
      rw [hstore] at this
      exact (Content.text.inj this).symm
    · rw [build_of_exchanged h hl, hbuild]

end

/-- Two files that each give some settings, spelled in several ways, and a text that is given
before them. -/
theorem each_setting_is_given_last_mixed :
    let first : Text := "[Header]\nsection = \"1\"\n\n[mom]\nAuthor = \"Jane\"\n".toList
    let second : Text :=
      "Convert.dialect = \"MOM\"\nheader = \x7b source = 'tools', depth = 3 \x7d\n".toList
    let files : Files := fun path =>
      if path = "a.toml".toList then .ok (.file (Utf8.encode first))
      else if path = "b.toml".toList then .ok (.file (Utf8.encode second))
      else .error .notFound
    let direct : Layer := .override "Mom.AUTHOR".toList "Joe".toList
    let layers : List Layer := [direct, .file "a.toml".toList, .optionalFile "c.toml".toList,
      .file "b".toList]
    (∀ l ∈ layers, l.GivesTexts files) ∧
    Setting.all.map (lastGiven files layers) = ["MOM".toList, "1".toList, "tools".toList,
      "Joe".toList, "A4".toList, "TYPESET".toList] ∧
    (∃ settings, build files layers = .ok settings ∧ settings.dialect = .mom ∧
      ∀ s ≠ .dialect, settings.get s = lastGiven files layers s) ∧
    build files [.file "a.toml".toList, direct, .optionalFile "c.toml".toList, .file "b".toList] =
      build files layers := by
  intro first second files direct layers
  have hfirst : Toml.parse? first = some [
      ("Header".toList, .table .header [("section".toList, .text "1".toList)]),
      ("mom".toList, .table .header [("Author".toList, .text "Jane".toList)])] := by rfl
  have hsecond : Toml.parse? second = some [
      ("Convert".toList, .table .dotted [("dialect".toList, .text "MOM".toList)]),
      ("header".toList, .table .inline [("source".toList, .text "tools".toList),
        ("depth".toList, .integer 3)])] := by rfl
  have hl : ∀ l ∈ layers, l.GivesTexts files := by
    refine List.forall_mem_cons.2 ⟨⟨.author, by decide⟩, List.forall_mem_cons.2 ⟨?_,
      List.forall_mem_cons.2 ⟨?_, List.forall_mem_singleton.2 ?_⟩⟩⟩
    · intro bytes hbytes
      obtain rfl : Utf8.encode first = bytes := Option.some.inj hbytes
      refine ⟨first, _, by decide +kernel, hfirst, ⟨?_, ?_⟩⟩
      · exact List.forall_mem_cons.2 ⟨givesTable_of_folded (s := .origin) (by decide) _ _,
          List.forall_mem_singleton.2 (givesTable_of_folded (s := .author) (by decide) _ _)⟩
      · intro s
        cases s with
        | manualSection => exact .inr ⟨_, rfl⟩
        | author => exact .inr ⟨_, rfl⟩
        | _ => exact .inl rfl
    · intro bytes hbytes
      cases hbytes
    · intro bytes hbytes
      obtain rfl : Utf8.encode second = bytes := Option.some.inj hbytes
      refine ⟨second, _, by decide +kernel, hsecond, ⟨?_, ?_⟩⟩
      · exact List.forall_mem_cons.2 ⟨givesTable_of_folded (s := .dialect) (by decide) _ _,
          List.forall_mem_singleton.2 (givesTable_of_folded (s := .origin) (by decide) _ _)⟩
      · intro s
        cases s with
        | dialect => exact .inr ⟨_, rfl⟩
        | origin => exact .inr ⟨_, rfl⟩
        | _ => exact .inl rfl
  have hgiven : Setting.all.map (lastGiven files layers) = ["MOM".toList, "1".toList,
      "tools".toList, "Joe".toList, "A4".toList, "TYPESET".toList] := by decide +kernel
  have hname : Dialect.ofName? (folded (lastGiven files layers .dialect)) = some .mom := by
    rw [(List.cons.inj hgiven).1]
    rfl
  obtain ⟨hiff, hset, hexchange⟩ := each_setting_is_given_last hl
  have hfound : ∀ path, .file path ∈ layers → ∃ bytes, findFile? files path = some bytes := by
    intro path hmem
    simp only [layers, direct, List.mem_cons, List.not_mem_nil, Layer.file.injEq, reduceCtorEq,
      false_or, or_false] at hmem
    rcases hmem with rfl | rfl
    · exact ⟨_, rfl⟩
    · exact ⟨_, rfl⟩
  obtain ⟨settings, hbuild⟩ := hiff.2 ⟨hfound, .mom, hname⟩
  obtain ⟨hd, hrest⟩ := hset settings hbuild
  refine ⟨hl, hgiven, ⟨settings, hbuild, Option.some.inj (hd.symm.trans hname), hrest⟩,
    hexchange _ ?_⟩
  exact @Exchanged.swap direct _ [] _ _ (show true ≠ false by decide) (.refl _)

end Layer

end Roffdown.Settings
