import DictScript.Print
import DictScript.Proofs.Graph

/-!
How lists and dictionaries are written with others around them. The fuel is the number of objects
that there are, and every one that is written in full leaves one less for what is within it.
-/
namespace DictScript
open Heap
variable {h : Heap} {n : Nat} {l : ListId} {d : DictId} {r : Ref} {path : List Ref}

/-- What is around grows by one object, and one less is left. -/
theorem length_filter_cons_lt {all : List Ref} (hr : r ∈ all) (hr' : r ∉ path) :
    (all.filter fun q => q ∉ r :: path).length < (all.filter fun q => q ∉ path).length := by
  have hsplit : all.filter (fun q => q ∉ r :: path) =
      (all.filter fun q => q ∉ path).filter fun q => q ≠ r := by
    rw [List.filter_filter]
    exact List.filter_congr fun q _ => by simp [not_or]
  rw [hsplit, List.length_filter_lt_length_iff_exists]
  exact ⟨r, by simp [hr, hr'], by simp⟩

namespace Heap

def nested (h : Heap) : List Ref :=
  (List.range h.lists.size).map (fun i => .list ⟨i⟩) ++
    (List.range h.dicts.size).map (fun i => .dict ⟨i⟩)

theorem mem_nested_list : .list l ∈ h.nested ↔ h.Allocated (.list l) := by
  obtain ⟨i⟩ := l
  simp [nested, Allocated]

theorem mem_nested_dict : .dict d ∈ h.nested ↔ h.Allocated (.dict d) := by
  obtain ⟨i⟩ := d
  simp [nested, Allocated]

def outside (h : Heap) (path : List Ref) : Nat := (h.nested.filter fun q => q ∉ path).length

theorem outside_cons_lt (hr : r ∈ h.nested) (hr' : r ∉ path) :
    h.outside (r :: path) < h.outside path :=
  length_filter_cons_lt hr hr'

theorem outside_le : h.outside path ≤ h.lists.size + h.dicts.size := by
  refine (List.length_filter_le _ _).trans (Nat.le_of_eq ?_)
  simp [nested]

theorem styleWithin_native : (h.styleWithin n path).native = h.printNative := by
  cases n <;> rfl

theorem styleWithin_elideBody : (h.styleWithin n path).elideBody = false := by
  cases n <;> rfl

theorem styleWithin_list (hl : .list l ∈ path) : (h.styleWithin n path).list l = "[...]" := by
  cases n with
  | zero => rfl
  | succ n => simp only [styleWithin, List.contains_iff_mem.mpr hl, if_true]

theorem styleWithin_dict (hd : .dict (h.owner d) ∈ path) :
    (h.styleWithin n path).dict d = "\x7b...\x7d" := by
  cases n with
  | zero => rfl
  | succ n => simp only [styleWithin, List.contains_iff_mem.mpr hd, if_true]

theorem styleWithin_list_succ (hl : .list l ∉ path) : (h.styleWithin (n + 1) path).list l =
    "[" ++ String.intercalate " " (printAll (h.styleWithin n (.list l :: path)) (h.items l)) ++
      "]" := by
  simp only [styleWithin, List.contains_iff_mem, if_neg hl]

theorem styleWithin_dict_succ (hd : .dict (h.owner d) ∉ path) :
    (h.styleWithin (n + 1) path).dict d =
      "\x7b" ++ String.intercalate " " ((h.slots (h.owner d)).map fun s =>
        s.1 ++ " = " ++ s.2.print (h.styleWithin n (.dict (h.owner d) :: path))) ++ "\x7d" := by
  simp only [styleWithin, List.contains_iff_mem, if_neg hd]

end Heap
end DictScript
