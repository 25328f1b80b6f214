import Roffdown.Proofs.ItemLines

/-!
# Nested lists

Lists that are nested by the indents of their markers form a tree.  Printed one item in a line, in
any blanks of the right width, with any bullets, and with any numbers but the first, such a tree is
read back as what a walk through it tells.

The proof goes down the tree.  Between two lines some lists are open that the next line may close,
so what is told up to there is completed by what `State.Owes` says is still to be told.

* `ListTree`: a tree of lists.
* `ListTree.Prints`: the texts in which a tree can be written.
* `ListTree.told`: what a walk through a tree tells.
* `ListTree.told_of_prints`: reading a printed tree tells the same.
-/

namespace Roffdown

open Markdown Text
open State (Reads)

/-! ## Trees of lists -/

mutual

/-- A list of one or more items. -/
inductive ListTree
  | list (head : ListHead) (first : ItemTree) (others : ItemTrees)

/-- An item: its text, and at most one list inside of it. -/
inductive ItemTree
  | leaf (text : Text)
  | branch (text : Text) (inner : ListTree)

inductive ItemTrees
  | nil
  | cons (item : ItemTree) (others : ItemTrees)

end

def ListTree.head : ListTree → ListHead
  | .list head _ _ => head

def ItemTrees.length : ItemTrees → Nat
  | .nil => 0
  | .cons _ others => others.length + 1

mutual

/-- How many lists are open where most are. -/
def ListTree.depth : ListTree → Nat
  | .list _ first others => max first.depth others.depth + 1

def ItemTree.depth : ItemTree → Nat
  | .leaf _ => 0
  | .branch _ inner => inner.depth

def ItemTrees.depth : ItemTrees → Nat
  | .nil => 0
  | .cons item others => max item.depth others.depth

end

mutual

/-- The texts are plain, and a list inside of an item is indented further than the item. -/
def ListTree.WellFormed : ListTree → Prop
  | .list head first others => first.WellFormed head.indent ∧ others.WellFormed head.indent

def ItemTree.WellFormed (indent : Nat) : ItemTree → Prop
  | .leaf text => ∀ c ∈ text, isPlainChar c
  | .branch text inner =>
    (∀ c ∈ text, isPlainChar c) ∧ indent < inner.head.indent ∧ inner.WellFormed

def ItemTrees.WellFormed (indent : Nat) : ItemTrees → Prop
  | .nil => True
  | .cons item others => item.WellFormed indent ∧ others.WellFormed indent

end

mutual

/-- A tree is written one item in a line. -/
def ListTree.Prints : ListTree → Text → Prop
  | .list head first others, t => ∃ mark a b : Text, t = mark ++ (a ++ b) ∧ head.Marks 0 mark ∧
      first.Prints a ∧ others.Prints head 1 b

/-- An item from its text on. -/
def ItemTree.Prints : ItemTree → Text → Prop
  | .leaf text, t => t = text ++ ['\n']
  | .branch text inner, t => ∃ a : Text, t = text ++ '\n' :: a ∧ inner.Prints a

def ItemTrees.Prints (head : ListHead) : Nat → ItemTrees → Text → Prop
  | _, .nil, t => t = []
  | k, .cons item others, t => ∃ mark a b : Text, t = mark ++ (a ++ b) ∧ head.Marks k mark ∧
      item.Prints a ∧ others.Prints head (k + 1) b

end

mutual

/-- What is told of a tree inside of open lists. -/
def ListTree.told (outer : List OpenList) : ListTree → List Told
  | .list head first others =>
    (.listOpen head.style, head.frame 0 :: outer) ::
      (first.told (head.frame 0 :: outer) ++ others.told head 1 outer ++
        [(.listClose, head.frame others.length :: outer)])

def ItemTree.told (lists : List OpenList) : ItemTree → List Told
  | .leaf text => (.itemOpen, lists) :: (toldText text lists ++ [(.itemClose, lists)])
  | .branch text inner =>
    (.itemOpen, lists) :: (toldText text lists ++ inner.told lists ++ [(.itemClose, lists)])

def ItemTrees.told (head : ListHead) (k : Nat) (outer : List OpenList) : ItemTrees → List Told
  | .nil => []
  | .cons item others =>
    item.told (head.frame k :: outer) ++ others.told head (k + 1) outer

end

/-! ## Reading a tree -/

section

variable {mk : Markup}

theorem ListTree.not_isUnderline {tree : ListTree} {t u : Text} (h : tree.Prints t) :
    ¬ isUnderline (firstLine (t ++ u)) := by
  obtain ⟨head, first, others⟩ := tree
  obtain ⟨mark, a, b, rfl, hm, -, -⟩ := h
  rw [List.append_assoc]
  exact hm.not_isUnderline _

theorem ItemTrees.not_isUnderline {items : ItemTrees} {head : ListHead} {k : Nat} {t u : Text}
    (h : items.Prints head k t)
    (hu : ¬ isUnderline (firstLine u)) : ¬ isUnderline (firstLine (t ++ u)) := by
  cases items with
  | nil =>
    obtain rfl : t = [] := h
    exact hu
  | cons item others =>
    obtain ⟨mark, a, b, rfl, hm, -, -⟩ := h
    rw [List.append_assoc]
    exact hm.not_isUnderline _

/-- What is told of an item and of those after it, when the item is closed late. -/
theorem told_append_of_eq {begun closed last : Told} {m n es fs item others : List Told}
    (he : begun :: (m ++ es ++ [closed]) = item)
    (hf : n ++ fs ++ [last] = es ++ closed :: others) :
    begun :: (m ++ n ++ fs ++ [last]) = item ++ others := by
  have hcalc : m ++ n ++ fs ++ [last] = m ++ es ++ [closed] ++ others := by
    calc m ++ n ++ fs ++ [last] = m ++ (n ++ fs ++ [last]) := by simp only [List.append_assoc]
      _ = m ++ (es ++ closed :: others) := by rw [hf]
      _ = m ++ es ++ [closed] ++ others := by simp
  rw [hcalc, ← he, List.cons_append]

mutual

/-- Reading the lines of a list that is not open yet. -/
theorem ListTree.reads (tree : ListTree) {s : State} {outer : List OpenList} {es : List Told}
    {t u : Text} (hw : tree.WellFormed) (hp : tree.Prints t)
    (hs : s.Owes mk [] outer es (t ++ u)) (ho : ∀ o ∈ outer.head?, o.indent < tree.head.indent)
    (hroot : outer = [] → tree.head.indent = 0)
    (hd : outer.length + tree.depth ≤ OpenLists.maxDepth) (hu : ¬ isUnderline (firstLine u)) :
    ∃ m inner es', Reads s m ∧ m.next.Owes mk inner outer es' u ∧
      (∀ i ∈ inner, tree.head.indent ≤ i.indent) ∧ m.told mk ++ es' = es ++ tree.told outer := by
  match tree with
  | .list head first others =>
    obtain ⟨mark, a, b, rfl, hm, ha, hb⟩ := hp
    obtain ⟨hfirst, hothers⟩ := hw
    have hdepth : outer.length + (max first.depth others.depth + 1) ≤ OpenLists.maxDepth := hd
    rw [List.append_assoc, List.append_assoc] at hs
    have hdeeper : ∀ o ∈ outer.head?, o.indent < head.indent := ho
    obtain ⟨l, hne, hl, htold, hitem⟩ := hs.step_open hdeeper hroot (by omega) hm
    obtain ⟨m, inner, es₁, hm, howes, hinner, he⟩ := ItemTree.reads first hfirst ha hitem
      (by simp [ListHead.frame, ListStyle.listAt]) (List.cons_ne_nil _ _)
      (by rw [List.length_cons]; omega) (ItemTrees.not_isUnderline hb hu)
    obtain ⟨n, inner', es₂, hn, howes', hinner', he'⟩ := ItemTrees.reads others hothers hb howes
      hinner (by omega) hu
    refine ⟨_, _, _, .step hne hl (hm.trans hn), howes'.close, ?_, ?_⟩
    · intro i hi
      rcases List.mem_append.1 hi with hi | hi
      · exact Nat.le_of_lt (hinner' i hi)
      · obtain rfl := List.mem_singleton.1 hi
        exact Nat.le_refl _
    · rw [Nat.zero_add] at he' ⊢
      rw [Move.told_andThen, Move.told_andThen, htold]
      show _ = es ++ (_ :: (_ ++ [_]))
      rw [← told_append_of_eq he he']
      simp

/-- Reading the line of an item after its marker, and the lines of the list inside of it. -/
theorem ItemTree.reads (item : ItemTree) {s : State} {lists : List OpenList} {t u : Text}
    {indent : Nat} (hw : item.WellFormed indent)
    (hp : item.Prints t) (hs : s.AtItem lists (t ++ u)) (hl : ∀ o ∈ lists.head?, o.indent = indent)
    (hne : lists ≠ []) (hd : lists.length + item.depth ≤ OpenLists.maxDepth)
    (hu : ¬ isUnderline (firstLine u)) :
    ∃ m inner es, Reads s m ∧ m.next.Owes mk inner lists es u ∧
      (∀ i ∈ inner, indent < i.indent) ∧
      (.itemOpen, lists) :: (m.told mk ++ es ++ [(.itemClose, lists)]) = item.told lists := by
  match item with
  | .leaf text =>
    obtain rfl : t = text ++ ['\n'] := hp
    rw [List.append_assoc] at hs
    obtain ⟨m, hm, htold, hnext⟩ := hs.reads_text mk hw hu
    refine ⟨m, [], _, hm, hnext, by simp, ?_⟩
    rw [htold]
    rfl
  | .branch text tree =>
    obtain ⟨a, rfl, ha⟩ := hp
    obtain ⟨htext, hindent, hw⟩ := hw
    rw [List.append_assoc, List.cons_append] at hs
    obtain ⟨m, hm, htold, hnext⟩ := hs.reads_text mk htext (ListTree.not_isUnderline ha)
    obtain ⟨n, inner, es, hn, howes, hinner, he⟩ := ListTree.reads tree hw ha hnext
      (fun o h => by rw [hl o h]; exact hindent) (fun h => absurd h hne) hd hu
    refine ⟨_, inner, es, hm.trans hn, howes, ?_, ?_⟩
    · intro i hi
      exact Nat.lt_of_lt_of_le hindent (hinner i hi)
    · rw [Move.told_andThen, htold, List.nil_append, he]
      rfl

/-- Reading the lines of the further items of a list. -/
theorem ItemTrees.reads (items : ItemTrees) {s : State} {head : ListHead} {k : Nat}
    {inner outer : List OpenList} {es : List Told} {t u : Text} (hw : items.WellFormed head.indent)
    (hp : items.Prints head (k + 1) t) (hs : s.Owes mk inner (head.frame k :: outer) es (t ++ u))
    (hi : ∀ i ∈ inner, head.indent < i.indent)
    (hd : outer.length + 1 + items.depth ≤ OpenLists.maxDepth)
    (hu : ¬ isUnderline (firstLine u)) :
    ∃ m inner es', Reads s m ∧
      m.next.Owes mk inner (head.frame (k + items.length) :: outer) es' u ∧
      (∀ i ∈ inner, head.indent < i.indent) ∧
      m.told mk ++ es' ++ [(.itemClose, head.frame (k + items.length) :: outer)] =
        es ++ (.itemClose, head.frame k :: outer) :: items.told head (k + 1) outer := by
  match items with
  | .nil =>
    obtain rfl : t = [] := hp
    exact ⟨.silent s, inner, es, .stop s, hs, hi, rfl⟩
  | .cons item others =>
    obtain ⟨mark, a, b, rfl, hm, ha, hb⟩ := hp
    obtain ⟨hitem, hothers⟩ := hw
    have hdepth : outer.length + 1 + max item.depth others.depth ≤ OpenLists.maxDepth := hd
    rw [List.append_assoc, List.append_assoc] at hs
    obtain ⟨l, hne, hl, htold, hat⟩ := hs.step_next hi hm
    obtain ⟨m, inner₁, es₁, hm, howes, hinner, he⟩ := ItemTree.reads item hitem ha hat
      (by simp [ListHead.frame, ListStyle.listAt]) (List.cons_ne_nil _ _)
      (by rw [List.length_cons]; omega) (ItemTrees.not_isUnderline hb hu)
    obtain ⟨n, inner₂, es₂, hn, howes', hinner', he'⟩ := ItemTrees.reads others hothers hb howes
      hinner (by omega) hu
    have hlength : k + 1 + others.length = k + (ItemTrees.cons item others).length := by
      show _ = k + (others.length + 1)
      omega
    rw [hlength] at howes' he'
    refine ⟨_, _, _, .step hne hl (hm.trans hn), howes', hinner', ?_⟩
    rw [Move.told_andThen, Move.told_andThen, htold]
    show _ = es ++ _ :: (_ ++ _)
    rw [← told_append_of_eq he he']
    simp

end

theorem State.Owes.told_wrapUp {s : State} {inner : List OpenList} {es : List Told}
    (h : s.Owes mk inner [] es []) : s.wrapUp.told mk = es := by
  have hfence : ¬ s.release.next.inFence = true := by
    rw [State.next_release, h.inFence]
    exact Bool.false_ne_true
  have hdepth : s.release.next.lists.depth = inner.length := by
    rw [State.next_release]
    show s.lists.lists.length = _
    rw [h.lists, List.append_nil]
  rw [State.wrapUp, Move.told_andThen, if_neg hfence, Move.silent_andThen, hdepth,
    ← Move.told_andThen]
  exact h.told

/-- **Nested lists are read as the tree that was printed.** -/
theorem ListTree.told_of_prints (mk : Markup) {tree : ListTree} {z : Zipper}
    (hw : tree.WellFormed) (hroot : tree.head.indent = 0) (hd : tree.depth ≤ OpenLists.maxDepth)
    (hp : tree.Prints z.rest) :
    z.trace.failure? = none ∧ (z.trace.events mk).map Raised.told = tree.told [] := by
  have hs : (State.initial z).Owes mk [] [] [] (z.rest ++ []) :=
    ⟨rfl, rfl, rfl, (List.append_nil _).symm, rfl⟩
  have hlength : ([] : List OpenList).length + tree.depth ≤ OpenLists.maxDepth := by
    rw [List.length_nil, Nat.zero_add]
    exact hd
  obtain ⟨m, inner, es, hm, howes, -, he⟩ := tree.reads hw hp hs (by simp) (fun _ => hroot)
    hlength (by decide)
  have hscan := State.scan_of_reads hm
  rw [State.scan_of_end howes.rest] at hscan
  have htrace : z.trace = ⟨m.raised ++ m.next.wrapUp.raised,
      m.warnings ++ m.next.wrapUp.warnings, none⟩ := by
    rw [Zipper.trace, hscan]
    simp [State.Scan.after]
  refine ⟨by rw [htrace], ?_⟩
  rw [Trace.events, htrace, Raised.events_append, List.map_append]
  show m.told mk ++ m.next.wrapUp.told mk = _
  rw [howes.told_wrapUp, he, List.nil_append]

end

/-- A numbered list inside of another, whose second number is not looked at. -/
theorem ListTree.told_of_prints_mixed :
    let inner : ListTree := .list ⟨.numbered, 4, 3⟩ (.leaf "b".toList) (.cons (.leaf []) .nil)
    let tree : ListTree :=
      .list ⟨.bulleted, 0, 1⟩ (.branch "a".toList inner) (.cons (.leaf "c".toList) .nil)
    let z : Zipper := .start "- a\n\t3. b\n    9. \n* c\n".toList
    tree.WellFormed ∧ tree.head.indent = 0 ∧ tree.depth ≤ OpenLists.maxDepth ∧ tree.Prints z.rest ∧
      z.trace.failure? = none ∧ (z.trace.events tagMarkup).map Raised.told = tree.told [] := by
  intro inner tree z
  have ha : ∀ c ∈ "a".toList, isPlainChar c := List.all_eq_true.1 (by decide)
  have hb : ∀ c ∈ "b".toList, isPlainChar c := List.all_eq_true.1 (by decide)
  have hc : ∀ c ∈ "c".toList, isPlainChar c := List.all_eq_true.1 (by decide)
  have hw : tree.WellFormed := ⟨⟨ha, Nat.zero_lt_succ 3, hb, nofun, trivial⟩, hc, trivial⟩
  have htab : ∀ c ∈ "\t".toList, isIndent c := List.all_eq_true.1 (by decide)
  have hspaces : ∀ c ∈ "    ".toList, isIndent c := List.all_eq_true.1 (by decide)
  have hthree : ∀ c ∈ "3".toList, c.isDigit := List.all_eq_true.1 (by decide)
  have hnine : ∀ c ∈ "9".toList, c.isDigit := List.all_eq_true.1 (by decide)
  have hfirst : ListHead.Marks ⟨.numbered, 4, 3⟩ 0 ("\t".toList ++ ("3".toList ++ ['.', ' '])) :=
    .number htab rfl rfl (by decide) hthree (fun _ => rfl)
  have hsecond : ListHead.Marks ⟨.numbered, 4, 3⟩ 1
      ("    ".toList ++ ("9".toList ++ ['.', ' '])) :=
    .number hspaces rfl rfl (by decide) hnine nofun
  have hinner : inner.Prints "\t3. b\n    9. \n".toList :=
    ⟨_, "b\n".toList, "    9. \n".toList, by decide, hfirst, rfl, _, "\n".toList, [], by decide,
      hsecond, rfl, rfl⟩
  have hminus : ListHead.Marks ⟨.bulleted, 0, 1⟩ 0 ([] ++ ['-', ' ']) := .bullet nofun rfl rfl rfl
  have hstar : ListHead.Marks ⟨.bulleted, 0, 1⟩ 1 ([] ++ ['*', ' ']) := .bullet nofun rfl rfl rfl
  have hp : tree.Prints z.rest :=
    ⟨_, "a\n\t3. b\n    9. \n".toList, "* c\n".toList, by decide, hminus, ⟨_, by decide, hinner⟩,
      _, "c\n".toList, [], by decide, hstar, rfl, rfl⟩
  have hd : tree.depth ≤ OpenLists.maxDepth := by decide
  exact ⟨hw, rfl, hd, hp, tree.told_of_prints tagMarkup hw rfl hd hp⟩

end Roffdown
