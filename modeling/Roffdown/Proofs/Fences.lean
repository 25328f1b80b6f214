import Roffdown.Proofs.FlatBlocks

/-!
# Fenced blocks, read and written

Nothing that stands in a fenced block is markup.  Wherever such a block begins, its lines are told
as they stand, and after it reading goes on as if it had not been there, but for the running text,
which is told before it.  No dialect loses anything of the lines: it writes requests around some of
them, and they can be taken away again, whatever the lines are.

* `Roff.withoutSwaps`: verbatim lines without the requests around them.
* `Dialect.readBlock_written`: the lines of a fenced block, read back from what a dialect writes.
* `State.tells_closedBlock`, `State.tells_openBlock`: a fenced block that is closed, and one that is
  open at the end of the document.
* `State.fenced_block_is_verbatim`: fenced blocks are told as they stand, and can be read back.
-/

namespace Roffdown

open Markdown Roff Text

/-! ## Reading a block back -/

/-- Verbatim lines without the requests that change the control character around a line. -/
def Roff.withoutSwaps (on off : Text) : List Text → List Text
  | first :: line :: last :: after =>
    if first = on ∧ last = off then line :: withoutSwaps on off after
    else first :: withoutSwaps on off (line :: last :: after)
  | lines => lines

theorem Roff.withoutSwaps_cons_of_ne {on off line : Text} (h : line ≠ on) (lines : List Text) :
    withoutSwaps on off (line :: lines) = line :: withoutSwaps on off lines := by
  match lines with
  | [] => rfl
  | [_] => rfl
  | _ :: _ :: _ => rw [withoutSwaps, if_neg fun hswap => h hswap.1]

/-- A line that begins with a point is always between the two requests, so a line that only looks
like the first of them is never taken for it. -/
theorem Roff.withoutSwaps_verbatimLines {on off : Text} (hon : on.head? = some '.')
    (lines : List Text) : withoutSwaps on off (lines.flatMap (verbatimLines on off)) = lines := by
  induction lines with
  | nil => rfl
  | cons line lines ih =>
    rw [List.flatMap_cons, verbatimLines]
    split
    · show withoutSwaps on off (on :: line :: off :: lines.flatMap _) = _
      rw [withoutSwaps, if_pos ⟨rfl, rfl⟩, ih]
    · rename_i hpoint
      have hne : line ≠ on := by
        rintro rfl
        exact hpoint hon
      rw [List.singleton_append, withoutSwaps_cons_of_ne hne, ih]

namespace Dialect

/-- The requests around a line of a fenced block that begins with a point. -/
def swap : Dialect → Text × Text
  | mom => (".ESC_CHAR !".toList, ".ESC_CHAR .".toList)
  | _ => (".cc !".toList, "!cc .".toList)

/-- The lines of a fenced block, from those that are written between the requests that open and
close it. -/
def readBlock (d : Dialect) (written : List Text) : List Text :=
  withoutSwaps d.swap.1 d.swap.2 written

/-- What is written for events where lists are open. -/
def written (d : Dialect) (l : OpenLists) (events : List Event) : List Text :=
  events.flatMap fun e => d.package.lines e l

/-- **The lines of a fenced block can be read back** from what any dialect writes for them. -/
theorem readBlock_written (d : Dialect) (l : OpenLists) (lines : List Text) :
    d.readBlock (d.written l (lines.map .fenceLine)) = lines := by
  have hlines : d.written l (lines.map .fenceLine) =
      lines.flatMap (verbatimLines d.swap.1 d.swap.2) := by
    rw [written, List.flatMap_map]
    cases d <;> rfl
  have hon : d.swap.1.head? = some '.' := by cases d <;> rfl
  rw [readBlock, hlines, withoutSwaps_verbatimLines hon]

end Dialect

/-! ## Reading a block -/

/-- The events of a fenced block, but for its end. -/
def fenceEvents (lines : List Text) : List Event := .fenceOpen :: lines.map .fenceLine

namespace State

variable {s t : State} {info u : Text} {lines : List VerbatimLine}

/-- What is told at the end of a document where a fenced block is open and no text waits. -/
theorem told_wrapUp_of_inFence (mk : Markup) (hf : t.inFence = true) (hb : t.buffer = .empty)
    (hl : t.lists = s.lists) : t.wrapUp.told mk =
      (.fenceClose, s.lists.lists) :: (s.closeMany s.lists.depth).told mk := by
  let r : State := { t with buffer := .empty, inFence := false }
  have hrelease : t.release = .silent { t with buffer := .empty } := by
    rw [release, hb]
    rfl
  have hwrap : t.wrapUp = ((r.announce [.fenceClose]).andThen (warn .unclosedFence)).andThen
      fun s => s.closeMany s.lists.depth := by
    rw [wrapUp, hrelease, Move.silent_andThen, if_pos hf]
  have hr : r.lists = s.lists := hl
  have hclose : (r.closeMany r.lists.depth).told mk = (s.closeMany s.lists.depth).told mk := by
    rw [Move.told, Move.told, raised_closeMany_congr _ hr, hr]
  rw [hwrap, Move.told_andThen]
  show (Event.fenceClose, r.lists.lists) :: (r.closeMany r.lists.depth).told mk = _
  rw [hclose, hr]

/-- A fenced block that is closed leaves the state as it was, at the beginning of a line. -/
theorem tells_closedBlock (hf : s.inFence = false) (hl : s.freshLine = true) (hinfo : '\n' ∉ info)
    (hr : s.input.rest = fence ++ info ++ '\n' :: (ofLines (lines.map VerbatimLine.text) ++ u))
    (hu : fence <+: u) :
    ∃ z, z.source = s.input.source ∧ z.rest = (afterLine? u).getD [] ∧ ∀ mk, s.Tells mk
      (toldText (expand mk s.buffer.all) s.lists.lists ++
        (fenceEvents (lines.map VerbatimLine.text) ++ [Event.fenceClose]).map (·, s.lists.lists))
      { s with input := z, buffer := .empty, freshLine := true, inFence := false } := by
  obtain ⟨z, hsource, hz, hlines⟩ := tells_fencedBlock hf hl hinfo hr
  refine ⟨z.splitLine.2, (Zipper.source_advance _ _).trans hsource, ?_, fun mk => ?_⟩
  · rw [Zipper.rest_splitLine_eq, hz]
  · have hclose := tells_closeFence mk (s := { s with
      input := z, buffer := .empty, freshLine := false, inFence := true }) rfl (hz ▸ hu)
    have hall := (hlines mk).trans hclose
    simpa [fenceEvents, Function.comp_def] using hall

/-- A fenced block that is open at the end of the document. -/
theorem tells_openBlock (hf : s.inFence = false) (hl : s.freshLine = true) (hinfo : '\n' ∉ info)
    (hr : s.input.rest = fence ++ info ++ '\n' :: (ofLines (lines.map VerbatimLine.text) ++ u))
    (hline : '\n' ∉ u) (hu : ¬ fence <+: u) :
    ∃ t, t.input.rest = [] ∧ ∀ mk, s.Tells mk
        (toldText (expand mk s.buffer.all) s.lists.lists ++
          (fenceEvents (lines.map VerbatimLine.text ++ if u = [] then [] else [u])).map
            (·, s.lists.lists)) t ∧
      t.wrapUp.told mk = (.fenceClose, s.lists.lists) :: (s.closeMany s.lists.depth).told mk := by
  obtain ⟨z, -, hz, hlines⟩ := tells_fencedBlock hf hl hinfo hr
  let r : State := { s with input := z, buffer := .empty, freshLine := false, inFence := true }
  -- A last line without newline is a line of the block as well.
  by_cases hend : u = []
  · refine ⟨r, hz.trans hend, fun mk => ⟨?_, told_wrapUp_of_inFence mk rfl rfl rfl⟩⟩
    have hall := hlines mk
    simpa [fenceEvents, Function.comp_def, hend] using hall
  · have hrest : z.restOfLine = u := by
      rcases eq_firstLine_or z.rest with h | ⟨v, h⟩
      · rw [Zipper.restOfLine, ← h, hz]
      · rw [← hz, h] at hline
        exact absurd (by simp) hline
    have hbelow : z.splitLine.2.rest = [] := by
      rw [Zipper.splitLine, Zipper.rest_advance, hrest, hz]
      exact List.drop_of_length_le (Nat.le_succ _)
    refine ⟨{ r with input := z.splitLine.2 }, hbelow, fun mk => ⟨?_, ?_⟩⟩
    · have hlast := tells_fencedLine mk (s := r) rfl (by rwa [hz]) (hz ▸ hu)
      have hall := (hlines mk).trans hlast
      rw [show r.input.restOfLine = u from hrest] at hall
      simpa [fenceEvents, Function.comp_def, hend] using hall
    · exact told_wrapUp_of_inFence mk rfl rfl rfl

end State

/-- **A fenced block is told as it stands, and can be read back.**  At the beginning of a line the
text that waits is told, and then the block with its lines unchanged.  If the block is closed,
reading goes on at the beginning of the line below it with the same lists, bold and italic; if the
document ends before, the block is closed first and then the lists are.  What each dialect writes
between the requests that open and close the block tells its lines. -/
theorem State.fenced_block_is_verbatim {s : State} {info u : Text} {lines : List VerbatimLine}
    (hf : s.inFence = false) (hl : s.freshLine = true) (hinfo : '\n' ∉ info)
    (hr : s.input.rest =
      fence ++ info ++ '\n' :: (ofLines (lines.map VerbatimLine.text) ++ u)) :
    let texts := lines.map VerbatimLine.text
    let told (mk : Markup) (events : List Event) : List Told :=
      toldText (expand mk s.buffer.all) s.lists.lists ++ events.map (·, s.lists.lists)
    (fence <+: u → ∃ z, z.source = s.input.source ∧ z.rest = (afterLine? u).getD [] ∧
        ∀ mk, s.Tells mk (told mk (fenceEvents texts ++ [.fenceClose]))
          { s with input := z, buffer := .empty, freshLine := true, inFence := false }) ∧
      ('\n' ∉ u → ¬ fence <+: u → ∃ t, t.input.rest = [] ∧
        ∀ mk, s.Tells mk (told mk (fenceEvents (texts ++ if u = [] then [] else [u]))) t ∧
          t.wrapUp.told mk =
            (.fenceClose, s.lists.lists) :: (s.closeMany s.lists.depth).told mk) ∧
      ∀ d : Dialect, ∃ body,
        d.written s.lists (fenceEvents texts ++ [.fenceClose]) =
          d.package.lines .fenceOpen s.lists ++ body ++ d.package.lines .fenceClose s.lists ∧
        d.readBlock body = texts := by
  refine ⟨tells_closedBlock hf hl hinfo hr, tells_openBlock hf hl hinfo hr, fun d => ?_⟩
  refine ⟨_, ?_, d.readBlock_written s.lists _⟩
  simp [Dialect.written, fenceEvents]

/-- Lines that look like requests, after a text in a list, and a block that is never closed. -/
theorem State.fenced_block_is_verbatim_requests :
    let lists : OpenLists := ⟨[⟨.bulleted, 1, 0⟩], by decide⟩
    let start (t : Text) : State := { initial (.start t) with
      lists := lists, buffer := Buffer.empty.push ("so \n".toList.map .char), bold := true }
    let closed := start "```sh\n.cc !\n\n!cc .\n.EE\n* `a\n```\nb".toList
    let unfinished := start "```\n.EE\n``".toList
    let texts := [".cc !".toList, [], "!cc .".toList, ".EE".toList, "* `a".toList]
    let told (events : List Event) : List Told := events.map (·, lists.lists)
    (∃ z : Zipper, z.rest = ['b'] ∧ closed.Tells tagMarkup
        (told (.text "so".toList :: fenceEvents texts ++ [.fenceClose]))
        { closed with input := z, buffer := .empty }) ∧
      (∃ t, t.input.rest = [] ∧
        unfinished.Tells tagMarkup
          (told (.text "so".toList :: fenceEvents [".EE".toList, "``".toList])) t ∧
        t.wrapUp.told tagMarkup = told [.fenceClose, .itemClose, .listClose]) ∧
      ∃ body, Dialect.man.written lists (fenceEvents texts ++ [.fenceClose]) =
          [".RS 4".toList, ".EX".toList] ++ body ++ [".EE".toList, ".RE".toList] ∧
        Dialect.man.readBlock body = texts := by
  intro lists start closed unfinished texts told
  let point : VerbatimLine := ⟨".EE".toList, by decide, by decide⟩
  let lines : List VerbatimLine :=
    [⟨".cc !".toList, by decide, by decide⟩, ⟨[], by decide, by decide⟩,
      ⟨"!cc .".toList, by decide, by decide⟩, point, ⟨"* `a".toList, by decide, by decide⟩]
  have hclosed : closed.input.rest = fence ++ "sh".toList ++
      '\n' :: (ofLines (lines.map VerbatimLine.text) ++ "```\nb".toList) := by decide
  have hunfinished : unfinished.input.rest = fence ++ [] ++
      '\n' :: (ofLines ([point].map VerbatimLine.text) ++ "``".toList) := by decide
  obtain ⟨hend, -, hwritten⟩ :=
    fenced_block_is_verbatim (s := closed) rfl rfl (by decide) hclosed
  obtain ⟨-, hopen, -⟩ :=
    fenced_block_is_verbatim (s := unfinished) rfl rfl (by decide) hunfinished
  obtain ⟨z, -, hz, htells⟩ := hend (by decide)
  obtain ⟨t, ht, htold⟩ := hopen (by decide) (by decide)
  exact ⟨⟨z, hz, htells tagMarkup⟩, ⟨t, ht, htold tagMarkup⟩, hwritten .man⟩

end Roffdown
