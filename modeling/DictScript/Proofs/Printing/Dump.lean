import DictScript.Proofs.Calls.Sharing

/-!
Dumps of frames, line by line. A line has the bindings of its dictionary unless that one is tagged
itself. A view is not tagged by what it shows, so what is evaluated inside the root environment is
reported with all the bindings of the root environment.
-/
namespace DictScript
open Heap
variable {h : Heap} {d e env : DictId} {n : Nat}

/-- Text that is added shows. -/
theorem append_ne_self {s t : String} (ht : t ≠ "") : s ++ t ≠ s := by
  intro heq
  have hlength := congrArg String.length heq
  rw [String.length_append] at hlength
  exact ht (String.length_eq_zero_iff.mp (by omega))

namespace Heap

def title (h : Heap) (d : DictId) : String := "  at " ++ h.displayName d

def bindingsText (h : Heap) (d : DictId) : String :=
  " [" ++ String.join ((h.slots d).map fun s => " " ++ s.1 ++ ": " ++ h.printShort s.2) ++ " ]"

def ListsBindings (h : Heap) (d : DictId) : Prop := h.dumpLine d = h.title d ++ h.bindingsText d

theorem bindingsText_ne (h : Heap) (d : DictId) : h.bindingsText d ≠ "" := by
  intro heq
  have hlength := congrArg String.length heq
  simp only [bindingsText, String.length_append] at hlength
  have hopen : " [".length = 2 := rfl
  have hempty : "".length = 0 := rfl
  omega

theorem dumpLine_of_silent (hd : (h.cell d).tag.isSome ∨ h.names d = []) :
    h.dumpLine d = h.title d := by
  have hsilent : ((h.cell d).tag.isSome || (h.slots d).isEmpty) = true := by
    rw [Bool.or_eq_true, List.isEmpty_iff]
    exact hd.imp_right List.map_eq_nil_iff.mp
  simp only [dumpLine, hsilent, if_true, String.append_empty]
  rfl

theorem listsBindings_of_untagged (htag : (h.cell d).tag = none) (hnames : h.names d ≠ []) :
    h.ListsBindings d := by
  have hshown : ((h.cell d).tag.isSome || (h.slots d).isEmpty) = false := by
    rw [htag, Option.isSome_none, Bool.false_or, List.isEmpty_eq_false_iff]
    exact fun hslots => hnames (List.map_eq_nil_iff.mpr hslots)
  simp only [ListsBindings, dumpLine, hshown, Bool.false_eq_true, if_false]
  rfl

/-- It is the dictionary on the chain whose tag counts, and not the owner of its slots. -/
theorem listsBindings_iff (h : Heap) (d : DictId) :
    h.ListsBindings d ↔ (h.cell d).tag = none ∧ h.names d ≠ [] := by
  refine ⟨fun hlists => ?_, fun ⟨htag, hnames⟩ => listsBindings_of_untagged htag hnames⟩
  by_contra hnot
  have hd : (h.cell d).tag.isSome ∨ h.names d = [] := by
    by_cases hnames : h.names d = []
    · exact .inr hnames
    · exact .inl (Option.isSome_iff_ne_none.mpr fun htag => hnot ⟨htag, hnames⟩)
  exact append_ne_self (h.bindingsText_ne d) (hlists.symm.trans (dumpLine_of_silent hd))

/-! The lines of a dump. -/

def outward (h : Heap) : Nat → DictId → List DictId
  | 0, _ => []
  | n + 1, d => d :: ((h.caller d).or (h.parent d)).elim [] (outward h n)

theorem dumpFrom_eq (h : Heap) (n : Nat) (d : DictId) : ∃ rest, (rest = [] ∨ rest = ["  ..."]) ∧
    h.dumpFrom n d = (h.outward n d).map h.dumpLine ++ rest := by
  induction n generalizing d with
  | zero => exact ⟨["  ..."], .inr rfl, rfl⟩
  | succ n ih =>
    rw [dumpFrom, outward]
    cases (h.caller d).or (h.parent d) with
    | none => exact ⟨[], .inl rfl, by simp⟩
    | some e =>
      obtain ⟨rest, hrest, heq⟩ := ih e
      exact ⟨rest, hrest, by simp [heq]⟩

/-- A dump is made of one line for each dictionary on the way outward, and each line has the
bindings just if its dictionary is not tagged itself and shows any. -/
theorem frameDump_lines (h : Heap) (d : DictId) : ∃ rest, (rest = [] ∨ rest = ["  ..."]) ∧
    h.frameDump d =
      String.intercalate "\n" ((h.outward maxDumpFrames d).map h.dumpLine ++ rest) ∧
    ∀ e ∈ h.outward maxDumpFrames d,
      (h.ListsBindings e ↔ (h.cell e).tag = none ∧ h.names e ≠ []) ∧
      (¬ h.ListsBindings e → h.dumpLine e = h.title e) := by
  obtain ⟨rest, hrest, heq⟩ := h.dumpFrom_eq maxDumpFrames d
  refine ⟨rest, hrest, by rw [frameDump, heq], fun e _ => ⟨h.listsBindings_iff e, fun hnot => ?_⟩⟩
  refine dumpLine_of_silent ?_
  by_contra hshown
  rw [not_or, Option.not_isSome_iff_eq_none] at hshown
  exact hnot (listsBindings_of_untagged hshown.1 hshown.2)

/-! Views. -/

theorem cell_view (h : Heap) (d p : DictId) : (h.view d p).1.cell (h.view d p).2 =
    { parent := some p, scope := some p, target := some (h.owner d), name := (h.cell d).name } :=
  (cell_newDict _ _).trans (if_pos rfl)

theorem names_view (hd : h.Allocated (.dict (h.owner d))) (p : DictId) :
    (h.view d p).1.names (h.view d p).2 = h.names d := by
  have hview : (h.view d p).1.owner (h.view d p).2 = h.owner d := by
    rw [owner, cell_view, Option.getD_some]
  have howner : (h.view d p).1.cell (h.owner d) = h.cell (h.owner d) :=
    cell_newDict_of_allocated _ hd
  rw [names, slots, hview, howner, names, slots]

/-- What is evaluated inside a dictionary without a parent is evaluated in a view of it, and the
line of that view has its bindings, whether the dictionary is tagged or not. -/
theorem Reached.within_listsBindings (hh : h.Reached) (hd : h.parent d = none)
    (hnames : h.names d ≠ []) (env : DictId) (target : Value) : ∃ scope,
    (applyWithin env d target h).1.control = .eval target scope ∧
      (applyWithin env d target h).2.ListsBindings scope := by
  have hmade : h.Allocated (.dict d) := by
    by_contra hnew
    exact hnames (List.map_eq_nil_iff.mpr (slots_of_size_le (Nat.le_of_not_lt hnew)))
  have hsome : ¬ (h.parent d).isSome := by simp [hd]
  refine ⟨(h.view d env).2, ?_, ?_⟩
  · simp only [applyWithin, if_neg hsome]
    rfl
  · simp only [applyWithin, if_neg hsome]
    refine listsBindings_of_untagged ?_ ?_
    · rw [cell_view]
    · rwa [names_view (hh.region.owner hmade)]

end Heap

def Machine.dump? (m : Machine) : Option String :=
  match m.result? with
  | some (.error e) => e.dump
  | _ => none

namespace Script

/-- `[env x]`: the name is looked up inside the root environment. -/
def inRoot : List Token := list [[.sym "env"], [.sym "x"]]

/-- `x`: the name is looked up in the root environment directly. -/
def atRoot : List Token := [.sym "x"]

end Script

/-- A view of the root environment is no tagged scope, but what it shows is one, and its line has
the bindings. So has the first line of a failure inside the root environment, though not that of the
same failure in the root environment directly. -/
theorem Machine.dump_shows_root :
    (¬ ∀ h : Heap, h.Reached → ∀ d,
      (h.ListsBindings d ↔ (h.cell (h.owner d)).tag = none ∧ h.names d ≠ [])) ∧
    ((Script.after Script.atRoot 5).failure? = some (.unbound "x" (some "+")) ∧
      (Script.after Script.atRoot 5).dump? = some "  at root") ∧
    (Script.after Script.inRoot 5).failure? = some (.unbound "x" (some "+")) ∧
      (Script.after Script.inRoot 5).dump? ≠ some "  at root\n  at root" := by
  refine ⟨fun hall => ?_, by decide +kernel, by decide +kernel⟩
  have htag : (Interpreter.withView.cell ⟨20⟩).tag = none := by decide +kernel
  have hnames : Interpreter.withView.names ⟨20⟩ ≠ [] := by decide +kernel
  have howner : (Interpreter.withView.cell (Interpreter.withView.owner ⟨20⟩)).tag = some "root" := by
    decide +kernel
  have hlists := (hall _ reached_withView ⟨20⟩).mp (listsBindings_of_untagged htag hnames)
  exact nomatch howner.symm.trans hlists.1

end DictScript
