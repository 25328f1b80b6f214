import Roffdown.CommandLine.Report

/-!
# Flags that are set aside

A flag that is not understood is reported and then forgotten.  Setting it aside moves no other
argument to a place where it would be read differently: the value of the configuration flag stays
with it, and what follows the end of the flags is never looked at.

* `Interleaved`: two lists laid into each other.
* `sift_induction`: the cases of an argument, to show what holds of all.
* `interleaved_sift`, `sift_sift`: what sifting keeps of the arguments, and that once is enough.
* `run_sift`: a run without the flags that are set aside.
* `unknown_flags_are_set_aside`: the whole command line, and what its run says.
-/

namespace Roffdown.CommandLine

open Text

/-- A list laid together from two, each in its order. -/
inductive Interleaved {α : Type} : List α → List α → List α → Prop
  | nil : Interleaved [] [] []
  | left {x : α} {xs ys zs : List α} (h : Interleaved xs ys zs) : Interleaved (x :: xs) ys (x :: zs)
  | right {y : α} {xs ys zs : List α} (h : Interleaved xs ys zs) :
      Interleaved xs (y :: ys) (y :: zs)

theorem interleaved_nil_right {α : Type} (xs : List α) : Interleaved xs [] xs := by
  induction xs with
  | nil => exact .nil
  | cons x xs ih => exact .left ih

/-! ## Sifting -/

theorem sift_endOfFlags (rest : List Text) :
    sift (endOfFlags :: rest) = (endOfFlags :: rest, []) := by
  unfold sift
  exact if_pos rfl

theorem sift_configFlag (value : Text) (rest : List Text) : sift (configFlag :: value :: rest) =
    (configFlag :: value :: (sift rest).1, (sift rest).2) := by
  conv => lhs; unfold sift
  rw [if_neg (by decide), if_pos (contains_valueFlags_iff.2 rfl)]

section

variable {argument : Text} (hend : argument ≠ endOfFlags) (hconfig : argument ≠ configFlag)

include hend hconfig

theorem sift_of_understood (h : isUnderstood argument) (rest : List Text) :
    sift (argument :: rest) = (argument :: (sift rest).1, (sift rest).2) := by
  conv => lhs; unfold sift
  rw [if_neg hend, if_neg (mt contains_valueFlags_iff.1 hconfig)]
  exact if_pos h

theorem sift_of_not_understood (h : ¬ isUnderstood argument) (rest : List Text) :
    sift (argument :: rest) = ((sift rest).1, argument :: (sift rest).2) := by
  conv => lhs; unfold sift
  rw [if_neg hend, if_neg (mt contains_valueFlags_iff.1 hconfig)]
  exact if_neg h

end

/-- What holds of all arguments, shown along their sifting. -/
@[elab_as_elim]
theorem sift_induction {motive : List Text → Prop} (nil : motive [])
    (endOfFlags : ∀ rest, motive (endOfFlags :: rest)) (configAtEnd : motive [configFlag])
    (config : ∀ value rest, motive rest → motive (configFlag :: value :: rest))
    (understood : ∀ argument rest, argument ≠ CommandLine.endOfFlags → argument ≠ configFlag →
      isUnderstood argument → motive rest → motive (argument :: rest))
    (setAside : ∀ argument rest, argument ≠ CommandLine.endOfFlags → argument ≠ configFlag →
      ¬ isUnderstood argument → motive rest → motive (argument :: rest))
    (arguments : List Text) : motive arguments := by
  induction arguments using sift.induct with
  | case1 => exact nil
  | case2 rest => exact endOfFlags rest
  | case3 argument _ hvalue =>
    obtain rfl := contains_valueFlags_iff.1 hvalue
    exact configAtEnd
  | case4 argument _ hvalue value rest _ _ _ ih =>
    obtain rfl := contains_valueFlags_iff.1 hvalue
    exact config value rest ih
  | case5 argument rest hend hvalue _ _ _ h ih =>
    exact understood argument rest hend (mt contains_valueFlags_iff.2 hvalue) h ih
  | case6 argument rest hend hvalue _ _ _ h ih =>
    exact setAside argument rest hend (mt contains_valueFlags_iff.2 hvalue) h ih

/-- What is kept and what is set aside make up the arguments. -/
theorem interleaved_sift (arguments : List Text) :
    Interleaved (sift arguments).1 (sift arguments).2 arguments := by
  induction arguments using sift_induction with
  | nil => exact .nil
  | endOfFlags rest =>
    rw [sift_endOfFlags]
    exact interleaved_nil_right _
  | configAtEnd => exact .left .nil
  | config value rest ih =>
    rw [sift_configFlag]
    exact .left (.left ih)
  | understood argument rest hend hconfig h ih =>
    rw [sift_of_understood hend hconfig h]
    exact .left ih
  | setAside argument rest hend hconfig h ih =>
    rw [sift_of_not_understood hend hconfig h]
    exact .right ih

/-- Of what is kept, nothing is set aside. -/
theorem sift_sift (arguments : List Text) :
    sift (sift arguments).1 = ((sift arguments).1, []) := by
  induction arguments using sift_induction with
  | nil => rfl
  | endOfFlags rest => rw [sift_endOfFlags, sift_endOfFlags]
  | configAtEnd => rfl
  | config value rest ih => rw [sift_configFlag, sift_configFlag, ih]
  | understood argument rest hend hconfig h ih =>
    rw [sift_of_understood hend hconfig h, sift_of_understood hend hconfig h, ih]
  | setAside argument rest hend hconfig h ih =>
    rw [sift_of_not_understood hend hconfig h]
    exact ih

theorem siftCommandLine_cons (program : Text) (arguments : List Text) :
    siftCommandLine (program :: arguments) =
      (program :: (sift arguments).1, (sift arguments).2) := rfl

/-! ## Runs -/

/-- A run is the run without the flags that are set aside, after the report of these. -/
theorem run_sift (env : Environment) (arguments : List Text) : run env arguments =
    (run env (sift arguments).1).after ((sift arguments).2.map .unknownFlag) := by
  unfold run
  rw [sift_sift]
  rfl

/-- What a run says of the flags that are set aside, and then of all else. -/
theorem errorText_run (env : Environment) (arguments : List Text) :
    (run env arguments).errorText =
      ((sift arguments).2.flatMap fun flag =>
        " WARN unknown option: [".toList ++ visible flag ++ "]\n".toList) ++
      (run env (sift arguments).1).errorText := by
  rw [run_sift env arguments, Report.errorText_after, List.flatMap_map]
  simp only [Diagnostic.text_unknownFlag]

/-- **Flags that are not understood are set aside.**  What is kept of a command line, and what is
set aside, are laid into each other; the name of the program stays in front, and of what is kept
nothing is set aside.  A run without the flags that are set aside returns and writes the same, and
says the same but for one line for each of these flags, in their order, before all else.  In that
line the characters by which a flag could command the terminal are spelled out. -/
theorem unknown_flags_are_set_aside (program : Text) (arguments : List Text) :
    ∃ known unknown, siftCommandLine (program :: arguments) = (program :: known, unknown) ∧
      Interleaved (program :: known) unknown (program :: arguments) ∧
      siftCommandLine (program :: known) = (program :: known, []) ∧
      ∀ env : Environment,
        (run env arguments).status = (run env known).status ∧
        (run env arguments).output = (run env known).output ∧
        (run env arguments).errorText =
          (unknown.flatMap fun flag =>
            " WARN unknown option: [".toList ++ visible flag ++ "]\n".toList) ++
          (run env known).errorText := by
  refine ⟨(sift arguments).1, (sift arguments).2, rfl, .left (interleaved_sift arguments), ?_, ?_⟩
  · rw [siftCommandLine_cons, sift_sift]
  · intro env
    have h := run_sift env arguments
    exact ⟨h ▸ rfl, h ▸ rfl, errorText_run env arguments⟩

/-- A flag with an escape character is not told as it stands. -/
theorem unknown_flag_is_spelled_out :
    let env : Environment := ⟨fun _ => .error .notFound, [], ⟨2024, 5, 1⟩⟩
    let flag : Text := ['-', '\x1b']
    siftCommandLine ["md2roff".toList, flag] = (["md2roff".toList], [flag]) ∧
    (run env [flag]).errorText =
      " WARN unknown option: [-\\x1b]\n".toList ++ (run env []).errorText ∧
    (run env [flag]).errorText ≠
      " WARN unknown option: [".toList ++ flag ++ "]\n".toList ++ (run env []).errorText := by
  intro env flag
  have hsift : sift [flag] = ([], [flag]) := by decide +kernel
  have hvisible : visible flag = "-\\x1b".toList := by decide +kernel
  have htext : (run env [flag]).errorText =
      " WARN unknown option: [-\\x1b]\n".toList ++ (run env []).errorText := by
    rw [errorText_run env, hsift, List.flatMap_singleton, hvisible]
    rfl
  refine ⟨by rw [siftCommandLine_cons, hsift], htext, fun h => ?_⟩
  have := List.append_cancel_right (htext.symm.trans h)
  exact absurd this (by decide)

end Roffdown.CommandLine
