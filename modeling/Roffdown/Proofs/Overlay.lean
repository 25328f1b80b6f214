import Roffdown.Proofs.Layering

/-!
# What a document gives over other things

Things are given to two stores that differ in what they hold for one setting: one holds nothing, the
other something old.  What the second one holds afterwards is what the first one holds, laid over
the old; and when the old is still seen, the first one holds nothing that counts.

* `Overlaid`: what a place holds with and without something old below.
* `Overlaid.update`: it stays so, whatever is given.
* `TableOverlaid`: the same for the table of a setting, and `TableOverlaid.update`.
* `dialectOver?_or`: the dialect of a document counts, or else the old one.
* `dialectOver?_eq`: which dialect that is, the document decides by itself.
-/

namespace Roffdown.Settings

open Text Content

/-! ## Entries -/

theorem map_fst_alter (name : Text) (f : Content → Content) (entries : List (Text × Content)) :
    (alter name f entries).map Prod.fst =
      if name ∈ entries.map Prod.fst then entries.map Prod.fst
      else entries.map Prod.fst ++ [name] := by
  induction entries with
  | nil => rfl
  | cons e entries ih =>
    obtain ⟨n, c⟩ := e
    by_cases hn : n = name
    · simp [alter, hn]
    · by_cases hmem : name ∈ entries.map Prod.fst
      · rw [if_pos hmem] at ih
        simp [alter, hn, ih, hmem]
      · rw [if_neg hmem] at ih
        simp [alter, hn, ih, hmem, Ne.symm hn]

theorem mem_map_fst_alter {name other : Text} {f : Content → Content}
    {entries : List (Text × Content)} :
    other ∈ (alter name f entries).map Prod.fst ↔
      other = name ∨ other ∈ entries.map Prod.fst := by
  rw [map_fst_alter]
  by_cases h : name ∈ entries.map Prod.fst
  · rw [if_pos h]
    refine ⟨.inr, ?_⟩
    rintro (rfl | hmem)
    · exact h
    · exact hmem
  · rw [if_neg h, List.mem_append, List.mem_singleton, or_comm]

theorem alter_ne_nil (name : Text) (f : Content → Content) (entries : List (Text × Content)) :
    alter name f entries ≠ [] := by
  intro h
  have hmem : name ∈ (alter name f entries).map Prod.fst := mem_map_fst_alter.2 (.inl rfl)
  rw [h] at hmem
  exact List.not_mem_nil hmem

/-- Entries that came up out of nothing, and what the same things made of the entries of something
old. -/
inductive EntriesOverlaid (old : Content) :
    List (Text × Content) → List (Text × Content) → Prop
  | same (entries : List (Text × Content)) : EntriesOverlaid old entries entries
  | below {entries above : List (Text × Content)} (hold : old ≠ .nothing)
      (nodup : (entries.map Prod.fst).Nodup)
      (subset : ∀ name ∈ entries.map Prod.fst, name ∈ above.map Prod.fst) :
      EntriesOverlaid old entries above

/-! ## One place -/

/-- What a place holds after things were given there: out of nothing, and over something old. -/
inductive Overlaid (old : Content) : Content → Content → Prop
  /-- The old is no longer seen. -/
  | same (c : Content) : Overlaid old c c
  | untouched : Overlaid old .nothing old
  /-- Only tables without entries were given. -/
  | noEntries : Overlaid old (.table []) old
  | table {entries above : List (Text × Content)} (hne : entries ≠ [])
      (h : EntriesOverlaid old entries above) : Overlaid old (.table entries) (.table above)
  | arrays (items above : List Content) : Overlaid old (.array items) (.array above)

section

variable {old : Content} {entries above : List (Text × Content)}

theorem EntriesOverlaid.nil (old : Content) : EntriesOverlaid old [] old.entries := by
  by_cases hold : old = .nothing
  · subst hold
    exact .same []
  · exact .below hold List.nodup_nil nofun

theorem EntriesOverlaid.alter (h : EntriesOverlaid old entries above) (name : Text)
    (f : Content → Content) : EntriesOverlaid old (alter name f entries) (alter name f above) := by
  cases h with
  | same => exact .same _
  | below hold nodup subset =>
    refine .below hold ?_ fun other hmem =>
      mem_map_fst_alter.2 ((mem_map_fst_alter.1 hmem).imp_right (subset other))
    rw [map_fst_alter]
    by_cases hname : name ∈ entries.map Prod.fst
    · rwa [if_pos hname]
    · rw [if_neg hname]
      refine List.nodup_append.2 ⟨nodup, List.pairwise_singleton _ name, ?_⟩
      rintro a ha b hb rfl
      exact hname (List.mem_singleton.1 hb ▸ ha)

theorem EntriesOverlaid.ontoEntries (h : EntriesOverlaid old entries above) (hne : entries ≠ [])
    (given : List (Text × Content)) :
    Overlaid old (ontoEntries given (.table entries)) (ontoEntries given (.table above)) := by
  induction given generalizing entries above with
  | nil => exact .table hne h
  | cons e given ih =>
    obtain ⟨n, g⟩ := e
    rw [Content.ontoEntries, Content.ontoEntries, ontoEntry, ontoEntry]
    exact ih (h.alter _ _) (alter_ne_nil _ _ _)

end

/-! ### Giving something there -/

/-- All but tables take the place of whatever is there. -/
theorem onto_eq_self_or (given : Content) :
    (∀ c : Content, given.onto c = given) ∨ ∃ entries, given = .table entries := by
  cases given with
  | table entries => exact .inr ⟨entries, rfl⟩
  | _ => exact .inl fun c => by cases c <;> rfl

theorem onto_noEntries {c : Content} (h : c ≠ .nothing) : (Content.table []).onto c = c := by
  cases c with
  | nothing => exact absurd rfl h
  | _ => rfl

/-- A table with entries makes a table of whatever is there. -/
theorem onto_cons (e : Text × Content) (given : List (Text × Content)) (c : Content) :
    (Content.table (e :: given)).onto c =
      ontoEntries given (.table (alter (folded e.1) (fun c => e.2.onto c) c.entries)) := by
  obtain ⟨n, g⟩ := e
  cases c with
  | nothing => rw [onto, ontoEntries, ontoEntry]; rfl
  | _ =>
    rw [onto, ontoEntries, ontoEntry]
    intro hc
    cases hc

theorem exists_of_dialectOf?_table {entries : List (Text × Content)} {d : Dialect}
    (h : dialectOf? (.table entries) = some d) : ∃ name c, entries = [(name, c)] := by
  rcases entries with - | ⟨⟨name, c⟩, - | ⟨e, entries⟩⟩
  · cases h
  · exact ⟨name, c, rfl⟩
  · cases h

/-- What is given under a path is merged into what is there, or takes its place. -/
theorem settle_eq_or (path : Path) (given : Content) :
    settle path given = (fun _ => given) ∨ settle path given = given.onto := by
  unfold settle
  split
  · exact .inl rfl
  · exact .inr rfl

namespace Overlaid

variable {old c above : Content}

theorem entries (h : Overlaid old c above) : EntriesOverlaid old c.entries above.entries := by
  cases h with
  | same => exact .same _
  | untouched => exact .nil old
  | noEntries => exact .nil old
  | table hne h => exact h
  | arrays items above => exact .same []

theorem onto_noEntries (h : Overlaid old c above) :
    Overlaid old ((Content.table []).onto c) ((Content.table []).onto above) := by
  have hold : Overlaid old (.table []) ((Content.table []).onto old) := by
    by_cases ho : old = .nothing
    · subst ho
      exact .same _
    · rw [Settings.onto_noEntries ho]
      exact .noEntries
  cases h with
  | same => exact .same _
  | untouched => exact hold
  | noEntries => exact hold
  | table hne h => exact .table hne h
  | arrays items above => exact .arrays items above

theorem onto (h : Overlaid old c above) (given : Content) :
    Overlaid old (given.onto c) (given.onto above) := by
  rcases onto_eq_self_or given with hself | ⟨entries, rfl⟩
  · rw [hself, hself]
    exact .same given
  · cases entries with
    | nil => exact h.onto_noEntries
    | cons e entries =>
      rw [onto_cons, onto_cons]
      exact (h.entries.alter _ _).ontoEntries (alter_ne_nil _ _ _) entries

/-- What is given under a path keeps places overlaid, wherever the path leads from there. -/
theorem update (h : Overlaid old c above) (path whole : Path) (given : Content) :
    Overlaid old (c.update path (settle whole given)) (above.update path (settle whole given)) := by
  cases path with
  | nil =>
    rw [Content.update, Content.update]
    rcases settle_eq_or whole given with hs | hs
    · rw [hs]
      exact .same given
    · rw [hs]
      exact h.onto given
  | cons step path =>
    cases step with
    | name n =>
      rw [Content.update, Content.update]
      exact .table (alter_ne_nil _ _ _) (h.entries.alter n _)
    | index i => exact .arrays _ _

/-- What several things make of a place, one after the other. -/
theorem foldl_onto (h : Overlaid old c above) (given : List Content) :
    Overlaid old (given.foldl (fun c g => g.onto c) c)
      (given.foldl (fun c g => g.onto c) above) := by
  induction given generalizing c above with
  | nil => exact h
  | cons g given ih => exact ih (h.onto g)

/-- When the place over the old names a dialect, the place without it does, or else the old. -/
theorem dialectOf?_or {d : Dialect} (h : Overlaid old c above) (hd : dialectOf? above = some d) :
    (dialectOf? c).or (dialectOf? old) = some d := by
  cases h with
  | same => rw [hd]; rfl
  | untouched => exact hd
  | noEntries => exact hd
  | arrays items above => cases hd
  | @table entries above hne h =>
    cases h with
    | same => rw [hd]; rfl
    | below hold nodup subset =>
      obtain ⟨n, x, rfl⟩ := exists_of_dialectOf?_table hd
      have hsame : ∀ m ∈ entries.map Prod.fst, m = n := fun m hm => by simpa using subset m hm
      obtain ⟨y, rfl⟩ : ∃ y, entries = [(n, y)] := by
        rcases entries with - | ⟨⟨m, y⟩, - | ⟨⟨m', z⟩, entries⟩⟩
        · exact absurd rfl hne
        · obtain rfl := hsame m (by simp)
          exact ⟨y, rfl⟩
        · have hm := hsame m (by simp)
          have hm' := hsame m' (by simp)
          simp [hm, hm'] at nodup
      exact congrArg (Option.or · _) hd

/-- Over nothing, both places name the same dialect. -/
theorem dialectOf?_eq (h : Overlaid .nothing c above) : dialectOf? above = dialectOf? c := by
  cases h with
  | same => rfl
  | untouched => rfl
  | noEntries => rfl
  | arrays items above => rfl
  | table hne h =>
    cases h with
    | same => rfl
    | below hold => exact absurd rfl hold

end Overlaid

/-! ## The table of a setting -/

namespace Content

/-- Whether it is an array. -/
def isArray : Content → Bool
  | array _ => true
  | _ => false

/-- The item of a number. -/
def item (k : Nat) (c : Content) : Content := c.items[k]?.getD .nothing

end Content

/-- What the table of a setting holds for it: in its place where the table is an array. -/
def inTable (s : Setting) (c : Content) : Content :=
  if c.isArray then c.item s.index else c.child s.name

theorem contentOf_eq (store : Content) (s : Setting) :
    contentOf store s = inTable s (store.child s.table) := by
  unfold contentOf
  cases store.child s.table <;> rfl

/-- What the table of a setting holds after things were given in it: out of nothing, and over
something old for this setting. -/
structure TableOverlaid (s : Setting) (old c above : Content) : Prop where
  entry : Overlaid old (c.child s.name) (above.child s.name)
  item : Overlaid old (c.item s.index) (above.item s.index)
  /-- Nothing was given for the setting yet, or both are of one kind. -/
  shape : inTable s c = .nothing ∧ inTable s above = old ∨ c.isArray = above.isArray

namespace Content

/-- The place in an array that a number means. -/
def position (i : Int) (items : List Content) : Nat :=
  if i < 0 then (items.length + i).toNat else i.toNat

theorem getElem?_append_nothing (items : List Content) (n k : Nat) :
    (items ++ List.replicate n nothing)[k]?.getD nothing = items[k]?.getD nothing := by
  rw [List.getElem?_append]
  split
  · rfl
  · rename_i h
    rw [List.getElem?_eq_none (Nat.le_of_not_lt h), List.getElem?_replicate]
    split <;> rfl

theorem alterItem_eq (i : Int) (f : Content → Content) (items : List Content) :
    alterItem i f items =
      (items ++ List.replicate (position i items + 1 - items.length) nothing).modify
        (position i items) f := rfl

/-- A change by number is seen in its place only. -/
theorem item_update_index (i : Int) (path : Path) (f : Content → Content) (c : Content) (k : Nat) :
    (c.update (.index i :: path) f).item k =
      if k = position i c.items then (c.item k).update path f else c.item k := by
  have hpad := getElem?_append_nothing c.items (position i c.items + 1 - c.items.length) k
  show (alterItem i (Content.update path f) c.items)[k]?.getD nothing = _
  rw [alterItem_eq, List.getElem?_modify, item, ← hpad]
  by_cases hk : k = position i c.items
  · have hlt : k < (c.items ++
        List.replicate (position i c.items + 1 - c.items.length) nothing).length := by
      rw [List.length_append, List.length_replicate]
      omega
    rw [if_pos hk, List.getElem?_eq_getElem hlt]
    exact if_pos hk.symm
  · rw [if_neg hk]
    simp [Ne.symm hk]

theorem length_items_update_index (i : Int) (path : Path) (f : Content → Content) (c : Content) :
    (c.update (.index i :: path) f).items.length = max c.items.length (position i c.items + 1) := by
  show (alterItem i (Content.update path f) c.items).length = _
  rw [alterItem_eq, List.length_modify, List.length_append, List.length_replicate]
  omega

theorem items_onto_noEntries (c : Content) : ((table []).onto c).items = c.items := by
  cases c <;> rfl

theorem entries_onto_noEntries (c : Content) : ((table []).onto c).entries = c.entries := by
  cases c <;> rfl

theorem isArray_onto_noEntries (c : Content) : ((table []).onto c).isArray = c.isArray := by
  cases c <;> rfl

theorem child_onto (name : Text) (given : List (Text × Content)) (c : Content) :
    ((table given).onto c).child name =
      (under name given).foldl (fun c g => g.onto c) (c.child name) := by
  rw [← child_ontoEntries]
  cases c with
  | nothing => rw [onto, child_ontoEntries, child_ontoEntries]; rfl
  | _ =>
    rw [onto]
    intro hc
    cases hc

theorem exists_onto_cons (e : Text × Content) (given : List (Text × Content)) (c : Content) :
    ∃ new, (table (e :: given)).onto c = table new := by
  rw [onto_cons]
  exact exists_ontoEntries_table _ _

end Content

namespace TableOverlaid

variable {s : Setting} {old c above : Content}

theorem same (s : Setting) (old c : Content) : TableOverlaid s old c c :=
  ⟨.same _, .same _, .inr rfl⟩

theorem overlaid (h : TableOverlaid s old c above) :
    Overlaid old (inTable s c) (inTable s above) := by
  rcases h.shape with ⟨hc, hover⟩ | hkind
  · rw [hc, hover]
    exact .untouched
  · rw [inTable, inTable, hkind]
    split
    · exact h.item
    · exact h.entry

theorem onto (h : TableOverlaid s old c above) (given : Content) :
    TableOverlaid s old (given.onto c) (given.onto above) := by
  rcases onto_eq_self_or given with hself | ⟨entries, rfl⟩
  · rw [hself, hself]
    exact same s old given
  · have hentry : Overlaid old (((Content.table entries).onto c).child s.name)
        (((Content.table entries).onto above).child s.name) := by
      rw [child_onto, child_onto]
      exact h.entry.foldl_onto _
    cases entries with
    | nil =>
      refine ⟨hentry, ?_, ?_⟩
      · simp only [Content.item, items_onto_noEntries]
        exact h.item
      · simpa only [inTable, Content.item, Content.child, items_onto_noEntries,
          entries_onto_noEntries, isArray_onto_noEntries] using h.shape
    | cons e entries =>
      obtain ⟨new, hnew⟩ := exists_onto_cons e entries c
      obtain ⟨new', hnew'⟩ := exists_onto_cons e entries above
      rw [hnew, hnew'] at hentry ⊢
      exact ⟨hentry, .same _, .inr rfl⟩

/-- What is given under a path keeps the table overlaid, if a number means the same place on both
sides. -/
theorem update (h : TableOverlaid s old c above) {path : Path} (whole : Path) (given : Content)
    (hi : ∀ i rest, path = .index i :: rest → position i c.items = position i above.items) :
    TableOverlaid s old (c.update path (settle whole given))
      (above.update path (settle whole given)) := by
  cases path with
  | nil =>
    rw [Content.update, Content.update]
    rcases settle_eq_or whole given with hs | hs
    · rw [hs]
      exact same s old given
    · rw [hs]
      exact h.onto given
  | cons step path =>
    cases step with
    | name n =>
      refine ⟨?_, .same _, .inr rfl⟩
      rw [child_update, child_update]
      by_cases hn : s.name = n
      · rw [if_pos hn, if_pos hn, ← hn]
        exact h.entry.update path whole given
      · rw [if_neg hn, if_neg hn]
        exact h.entry
    | index i =>
      refine ⟨.same _, ?_, .inr rfl⟩
      rw [item_update_index, item_update_index, ← hi i path rfl]
      split
      · exact h.item.update path whole given
      · exact h.item

end TableOverlaid

/-! ### Arrays of one length -/

theorem position_congr {items items' : List Content} (h : items.length = items'.length) (i : Int) :
    position i items = position i items' := by
  rw [position, position, h]

theorem position_of_nonneg {i : Int} (h : 0 ≤ i) (items : List Content) :
    position i items = i.toNat := if_neg (Int.not_lt.2 h)

section

variable {c c' : Content} (h : c.items.length = c'.items.length)

include h

theorem length_items_onto (given : Content) :
    (given.onto c).items.length = (given.onto c').items.length := by
  rcases onto_eq_self_or given with hself | ⟨entries, rfl⟩
  · rw [hself, hself]
  · cases entries with
    | nil => rwa [items_onto_noEntries, items_onto_noEntries]
    | cons e entries =>
      obtain ⟨new, hnew⟩ := exists_onto_cons e entries c
      obtain ⟨new', hnew'⟩ := exists_onto_cons e entries c'
      rw [hnew, hnew']
      rfl

theorem length_items_update (path whole : Path) (given : Content) :
    (c.update path (settle whole given)).items.length =
      (c'.update path (settle whole given)).items.length := by
  cases path with
  | nil =>
    rw [Content.update, Content.update]
    rcases settle_eq_or whole given with hs | hs
    · rw [hs]
    · rw [hs]
      exact length_items_onto h given
  | cons step path =>
    cases step with
    | name n => rfl
    | index i =>
      rw [length_items_update_index, length_items_update_index, h, position_congr h]

end

/-! ### What a document gives there -/

/-- What several things make of the table of a setting, if none of them counts the items of an array
from the end, or the arrays are of one length. -/
theorem TableOverlaid.assignAll {s : Setting} {old : Content} {given : List Assignment}
    (hname : ∀ a ∈ given, ∃ n path, a.path = .name n :: path) {store above : Content}
    (h : TableOverlaid s old (store.child s.table) (above.child s.table))
    (hcount : (∀ a ∈ given, ∀ i rest, a.path = .name s.table :: .index i :: rest → 0 ≤ i) ∨
      (store.child s.table).items.length = (above.child s.table).items.length) :
    TableOverlaid s old ((assignAll given store).child s.table)
      ((assignAll given above).child s.table) := by
  induction given generalizing store above with
  | nil => exact h
  | cons a given ih =>
    obtain ⟨⟨n, path, hpath⟩, hname⟩ := List.forall_mem_cons.1 hname
    refine @ih hname (store.assign a.path a.given) (above.assign a.path a.given) ?_ ?_
    · rw [hpath]
      by_cases hn : s.table = n
      · rw [Content.assign, Content.assign, child_update, child_update, if_pos hn, if_pos hn, ← hn]
        refine h.update _ _ fun i rest hrest => ?_
        rcases hcount with hforward | hlength
        · have hi : 0 ≤ i := hforward a List.mem_cons_self i rest (by rw [hpath, hn, hrest])
          rw [position_of_nonneg hi, position_of_nonneg hi]
        · exact position_congr hlength i
      · rwa [child_assign_of_ne hn, child_assign_of_ne hn]
    · refine hcount.imp (fun hforward => (List.forall_mem_cons.1 hforward).2) fun hlength => ?_
      rw [hpath]
      by_cases hn : s.table = n
      · rw [Content.assign, Content.assign, child_update, child_update, if_pos hn, if_pos hn, ← hn]
        exact length_items_update hlength _ _ _
      · rwa [child_assign_of_ne hn, child_assign_of_ne hn]

/-! ## Documents -/

/-- A document whose paths do not count the items of an array for a setting's table from the end. -/
def CountsForward (s : Setting) (document : Toml.Table) : Prop :=
  ∀ e ∈ document, ∀ i rest, topPath e.1 = .name s.table :: .index i :: rest → 0 ≤ i

/-- The table of a setting without what it holds for it. -/
def withoutIn (s : Setting) : Content → Content
  | .array items => .array (items.set s.index .nothing)
  | .table entries => .table (alter s.name (fun _ => .nothing) entries)
  | c => c

/-- A store without what it holds for a setting. -/
def without (s : Setting) (store : Content) : Content := store.update [.name s.table] (withoutIn s)

theorem child_without (s : Setting) (store : Content) :
    (without s store).child s.table = withoutIn s (store.child s.table) := by
  rw [without, child_update, if_pos rfl]
  rfl

section

variable (s : Setting) (c : Content)

theorem length_items_withoutIn : (withoutIn s c).items.length = c.items.length := by
  cases c with
  | array items => exact List.length_set
  | _ => rfl

theorem child_withoutIn : (withoutIn s c).child s.name = .nothing := by
  cases c with
  | table entries => exact (find_alter _ _ _ _).trans (if_pos rfl)
  | _ => rfl

theorem item_withoutIn : (withoutIn s c).item s.index = .nothing := by
  cases c with
  | array items =>
    simp only [withoutIn, Content.item, Content.items, List.getElem?_set_self']
    cases items[s.index]? <;> rfl
  | _ => rfl

theorem inTable_withoutIn : inTable s (withoutIn s c) = .nothing := by
  rw [inTable, child_withoutIn, item_withoutIn, ite_self]

/-- One side holds something old for the setting. -/
theorem tableOverlaid_withoutIn : TableOverlaid s (inTable s c) (withoutIn s c) c := by
  have hentry := child_withoutIn s c
  have hitem := item_withoutIn s c
  cases c with
  | array items =>
    refine ⟨.same _, ?_, .inr rfl⟩
    rw [hitem]
    exact .untouched
  | table entries =>
    refine ⟨?_, .same _, .inr rfl⟩
    rw [hentry]
    exact .untouched
  | _ => exact .same s _ _

/-- One side holds nothing at all, and the other nothing for the setting. -/
theorem tableOverlaid_nothing : TableOverlaid s .nothing .nothing (withoutIn s c) := by
  refine ⟨?_, ?_, .inl ⟨rfl, inTable_withoutIn s c⟩⟩
  · rw [child_withoutIn]
    exact .same _
  · rw [item_withoutIn]
    exact .same _

end

section

variable (store : Content) (document : Toml.Table)

theorem exists_path_of_mem_assignmentsOf :
    ∀ a ∈ assignmentsOf document, ∃ n path, a.path = .name n :: path := by
  intro a ha
  obtain ⟨e, -, rfl⟩ := List.mem_map.1 ha
  exact exists_topPath e.1

/-- The dialect that a document gives over a store that holds none. -/
def dialectOver? : Option Dialect :=
  dialectOf? (contentOf (assignAll (assignmentsOf document) (without .dialect store)) .dialect)

/-- The dialect of a document counts, or else the one that was there before. -/
theorem dialectOver?_or {d : Dialect}
    (h : dialectOf? (contentOf (assignAll (assignmentsOf document) store) .dialect) = some d) :
    (dialectOver? store document).or (dialectOf? (contentOf store .dialect)) = some d := by
  have hstart := tableOverlaid_withoutIn .dialect (store.child Setting.dialect.table)
  have hlength := length_items_withoutIn .dialect (store.child Setting.dialect.table)
  rw [← child_without] at hstart hlength
  have hend := hstart.assignAll (exists_path_of_mem_assignmentsOf document) (.inr hlength)
  rw [contentOf_eq] at h
  rw [dialectOver?, contentOf_eq, contentOf_eq]
  exact hend.overlaid.dialectOf?_or h

/-- What dialect a document gives, it decides by itself, unless it counts from the end. -/
theorem dialectOver?_eq (h : CountsForward .dialect document) : dialectOver? store document =
    dialectOf? (contentOf (assignAll (assignmentsOf document) .nothing) .dialect) := by
  have hstart := tableOverlaid_nothing .dialect (store.child Setting.dialect.table)
  rw [← child_without] at hstart
  have hforward : ∀ a ∈ assignmentsOf document, ∀ i rest,
      a.path = .name Setting.dialect.table :: .index i :: rest → 0 ≤ i := by
    intro a ha
    obtain ⟨e, he, rfl⟩ := List.mem_map.1 ha
    exact h e he
  have hend := @TableOverlaid.assignAll .dialect .nothing _
    (exists_path_of_mem_assignmentsOf document) .nothing (without .dialect store) hstart
    (.inl hforward)
  rw [dialectOver?, contentOf_eq, contentOf_eq]
  exact hend.overlaid.dialectOf?_eq

end

end Roffdown.Settings
