import Roffdown.Files.Tree
import Roffdown.Proofs.Surroundings

/-!
# Files in a tree

A path is followed name by name through a tree.  Empty names and points lead nowhere, so a file is
found under every way to write its path, and a run that names it so reads it.

* `Files.Leads`: the ways to write the path along names.
* `Files.Tree.files_eq_ok`: what lies in a tree is found under its paths.
* `Files.Tree.files_insert_file`: so is a file that was put there, and the directories above it.
* `CommandLine.resultOf_insert`: a document in a tree is converted, however its path is written.
-/

namespace Roffdown

open Text

namespace Files

/-- Whether a name leads to where it stands. -/
def staysAt (name : Text) : Bool := name.isEmpty || name = ".".toList

/-- A path leads along names, from the directory of a tree and within it. -/
structure Leads (path : Text) (along : List Text) : Prop where
  ne_nil : path ≠ []
  relative : path.head? ≠ some '/'
  nul_not_mem : '\x00' ∉ path
  short : utf8Length path < 4096
  along_eq : (names path).filter (fun name => !staysAt name) = along
  into : ∀ name ∈ along, name ≠ "..".toList ∧ utf8Length name ≤ 255

/-- A path leads along names and ends in the last of them, as that of a file must. -/
structure LeadsToFile (path : Text) (along : List Text) : Prop extends Leads path along where
  last : ∀ name ∈ (names path).getLast?, staysAt name = false

namespace Tree

variable {tree : Tree} {along : List Text} {node : Node}

/-! ## Finding -/

/-- Names in a tree: a node, with directories on the way to it. -/
structure Holds (tree : Tree) (along : List Text) (node : Node) : Prop where
  node : tree.find? along = some node
  above : ∀ a b, along = a ++ b → b ≠ [] → tree.find? a = some .directory

theorem find?_insert_self (h : along ≠ []) : (tree.insert along node).find? along = some node := by
  rw [find?, if_neg (by simpa using h), insert, List.cons_append, List.lookup_cons_self]

/-- Where the same is found under all names, it is found. -/
theorem lookup_append_of_mem {α β : Type} [BEq α] [LawfulBEq α] {x : α} {y : β}
    {l l' : List (α × β)} (hx : x ∈ l.map Prod.fst) (hy : ∀ e ∈ l, e.2 = y) :
    (l ++ l').lookup x = some y := by
  induction l with
  | nil => cases hx
  | cons e l ih =>
    obtain ⟨he, hl⟩ := List.forall_mem_cons.1 hy
    obtain ⟨a, b⟩ := e
    rw [List.cons_append, List.lookup_cons]
    cases hxa : x == a with
    | true => exact congrArg some he
    | false =>
      rcases List.mem_cons.1 hx with rfl | hx
      · simp at hxa
      · exact ih hx hl

theorem find?_insert_above {a b : List Text} (h : along = a ++ b) (hb : b ≠ []) :
    (tree.insert along node).find? a = some .directory := by
  have hlt : a.length < along.length := by
    have := List.length_pos_iff.2 hb
    rw [h, List.length_append]
    omega
  rw [find?]
  split
  · rfl
  · have hne : a ≠ along := fun he => absurd (congrArg List.length he) (Nat.ne_of_lt hlt)
    rw [insert, List.cons_append, List.lookup_cons, beq_false_of_ne hne]
    refine lookup_append_of_mem ?_ fun e he => ?_
    · refine List.mem_map.2 ⟨(along.take a.length, .directory), ?_, ?_⟩
      · exact List.mem_map.2 ⟨a.length, List.mem_range.2 hlt, rfl⟩
      · rw [h, List.take_left]
    · obtain ⟨n, -, rfl⟩ := List.mem_map.1 he
      rfl

/-- What is put into a tree is held there. -/
theorem holds_insert (tree : Tree) (node : Node) (h : along ≠ []) :
    (tree.insert along node).Holds along node :=
  ⟨find?_insert_self h, fun _ _ => find?_insert_above⟩

/-! ## Following a path -/

section

variable {here : List Text} {name : Text} (hd : tree.find? here.reverse = some .directory)

include hd

theorem isDirectory_inside : tree.isDirectory (.inside here) = true := by
  rw [isDirectory, hd, decide_eq_true_eq]

theorem walk_of_staysAt (h : staysAt name) :
    tree.walk (.inside here) name = .ok (.inside here) := by
  unfold walk
  rw [isDirectory_inside hd, if_neg (by simp)]
  exact if_pos h

theorem walk_of_find? (h : staysAt name = false)
    (hinto : name ≠ "..".toList ∧ utf8Length name ≤ 255)
    (hnode : tree.find? (name :: here).reverse = some node) :
    tree.walk (.inside here) name = .ok (.inside (name :: here)) := by
  rw [staysAt] at h
  unfold walk
  rw [isDirectory_inside hd, if_neg (by simp), h, if_neg Bool.false_ne_true, if_neg hinto.1,
    if_neg (Nat.not_lt.2 hinto.2)]
  simp only [hnode]

end

/-- Something lies under the first of the names that are held. -/
theorem Holds.exists_find? {a b : List Text} (h : tree.Holds (a ++ b) node) :
    ∃ n, tree.find? a = some n := by
  cases b with
  | nil =>
    rw [List.append_nil] at h
    exact ⟨node, h.node⟩
  | cons name b => exact ⟨.directory, h.above a _ rfl (List.cons_ne_nil name b)⟩

/-- Where names are left, a path is in a directory: only the last name leads to a file. -/
theorem Holds.directory {here left : List Text}
    (h : tree.Holds (here.reverse ++ left.filter fun name => !staysAt name) node) (hne : left ≠ [])
    (hend : node = .directory ∨ ∀ name ∈ left.getLast?, staysAt name = false) :
    tree.find? here.reverse = some .directory := by
  cases hrest : left.filter fun name => !staysAt name with
  | cons name rest => exact h.above _ _ (by rw [hrest]) (List.cons_ne_nil _ _)
  | nil =>
    rw [hrest, List.append_nil] at h
    rcases hend with rfl | hlast
    · exact h.node
    · have hmem := List.getLast_mem hne
      have hstays := List.filter_eq_nil_iff.1 hrest _ hmem
      rw [hlast _ (List.getLast?_eq_some_getLast hne)] at hstays
      exact absurd rfl hstays

/-- Following the names that are left leads to the node. -/
theorem foldlM_walk {here left : List Text}
    (h : tree.Holds (here.reverse ++ left.filter fun name => !staysAt name) node)
    (hinto : ∀ name ∈ left, staysAt name = false → name ≠ "..".toList ∧ utf8Length name ≤ 255)
    (hend : node = .directory ∨ ∀ name ∈ left.getLast?, staysAt name = false) :
    ∃ place, left.foldlM tree.walk (.inside here) = .ok (.inside place) ∧
      tree.find? place.reverse = some node := by
  induction left generalizing here with
  | nil => exact ⟨here, rfl, by simpa using h.node⟩
  | cons name left ih =>
    obtain ⟨hname, hleft⟩ := List.forall_mem_cons.1 hinto
    have hd := h.directory (List.cons_ne_nil _ _) hend
    have hend' : node = .directory ∨ ∀ name ∈ left.getLast?, staysAt name = false := by
      refine hend.imp_right fun hlast n hn => hlast n ?_
      cases left with
      | nil => cases hn
      | cons => rwa [List.getLast?_cons_cons]
    rw [List.foldlM_cons]
    cases hs : staysAt name with
    | true =>
      rw [List.filter_cons_of_neg (by simp [hs])] at h
      obtain ⟨place, hplace, hfound⟩ := ih h hleft hend'
      exact ⟨place, by rw [walk_of_staysAt hd hs]; exact hplace, hfound⟩
    | false =>
      rw [List.filter_cons_of_pos (by simp [hs]), ← List.singleton_append, ← List.append_assoc,
        ← List.reverse_cons] at h
      obtain ⟨place, hplace, hfound⟩ := ih h hleft hend'
      obtain ⟨n, hn⟩ := h.exists_find?
      exact ⟨place, by rw [walk_of_find? hd hs (hname hs) hn]; exact hplace, hfound⟩

/-- **What lies in a tree is found under its paths.** -/
theorem files_eq_ok {path : Text} (hp : Leads path along) (h : tree.Holds along node)
    (hend : node = .directory ∨ ∀ name ∈ (names path).getLast?, staysAt name = false) :
    tree.files path = .ok node := by
  have hinto : ∀ name ∈ names path, staysAt name = false →
      name ≠ "..".toList ∧ utf8Length name ≤ 255 := by
    intro name hn hs
    refine hp.into name ?_
    rw [← hp.along_eq]
    exact List.mem_filter.2 ⟨hn, by rw [hs]; rfl⟩
  obtain ⟨place, hplace, hfound⟩ : ∃ place,
      (names path).foldlM tree.walk (.inside []) = .ok (.inside place) ∧
        tree.find? place.reverse = some node :=
    foldlM_walk (by rw [hp.along_eq]; exact h) hinto hend
  have hempty : path.isEmpty = false := by simpa using hp.ne_nil
  have hnul : path.contains '\x00' = false := by simpa using hp.nul_not_mem
  unfold files
  rw [hempty, hnul, if_neg Bool.false_ne_true, if_neg Bool.false_ne_true,
    if_neg (Nat.not_le.2 hp.short)]
  simp only [if_neg hp.relative, hplace, hfound]

end Tree

end Files

/-! ## Reading what lies in a tree -/

variable {along : List Text} {path : Text} {bytes : List UInt8}

theorem Files.LeadsToFile.along_ne_nil (h : LeadsToFile path along) : along ≠ [] := by
  have hmem := List.getLast_mem (split_ne_nil '/' path)
  have hlast := h.last _ (List.getLast?_eq_some_getLast (split_ne_nil '/' path))
  rw [← h.along_eq]
  exact List.ne_nil_of_mem (List.mem_filter.2 ⟨hmem, by rw [hlast]; rfl⟩)

/-- A file that was put into a tree is found, however its path is written. -/
theorem Files.Tree.files_insert_file (tree : Tree) (h : LeadsToFile path along) :
    (tree.insert along (.file bytes)).files path = .ok (.file bytes) :=
  files_eq_ok h.toLeads (holds_insert tree _ h.along_ne_nil) (.inr h.last)

/-- The directories above it are found too. -/
theorem Files.Tree.files_insert_above {a b : List Text} (tree : Tree) (node : Node)
    (h : Leads path a) (hb : b ≠ []) : (tree.insert (a ++ b) node).files path = .ok .directory := by
  refine files_eq_ok h ⟨find?_insert_above rfl hb, fun c d hc _ => ?_⟩ (.inl rfl)
  rw [hc, List.append_assoc]
  exact find?_insert_above rfl (List.append_ne_nil_of_right_ne_nil d hb)

/-- A path with two slashes and a point in it, to a file and to the directory of the file. -/
example :
    let tree := Files.Tree.empty.insert ["a".toList, "b".toList] (.file [])
    tree.files "./a//b".toList = .ok (.file []) ∧ tree.files "a/".toList = .ok .directory ∧
      tree.files "a/b/".toList = .error .notADirectory := by decide

theorem Settings.findFile?_insert (tree : Files.Tree) (h : Files.LeadsToFile path along) :
    findFile? (tree.insert along (.file bytes)).files path = some bytes := by
  rw [findFile?, Files.regular?, tree.files_insert_file h]

theorem Document.load_insert (tree : Files.Tree) (h : Files.LeadsToFile path along) :
    load (tree.insert along (.file bytes)).files path = .ok (ofBytes path bytes) := by
  rw [load, tree.files_insert_file h]

/-- **A document in a tree is converted**, however its path is written and whatever stands before
it. -/
theorem CommandLine.resultOf_insert (settings : Settings) (tree : Files.Tree)
    (h : Files.LeadsToFile path along) (hinput : path ≠ standardInput) (input : List UInt8)
    (today : Date) (earlier : List Text) :
    resultOf settings ⟨(tree.insert along (.file bytes)).files, input, today⟩ earlier path =
      converted settings today (.ofBytes path bytes) := by
  rw [resultOf, sourceOf, if_neg hinput, Document.load_insert tree h]
  rfl

end Roffdown
