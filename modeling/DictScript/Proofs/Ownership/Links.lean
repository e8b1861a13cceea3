import DictScript.Proofs.Frozen.Growth
import DictScript.Proofs.Ownership.Living

/-!
Ownership does not follow parents and callers: heaps that differ in nothing else have the same
living dictionaries.
-/
namespace DictScript.Heap
variable {h k : Heap} {d e : DictId} {f : DictCell → DictCell}

structure SameOwners (h k : Heap) : Prop where
  lists : k.lists = h.lists
  natives : k.natives = h.natives
  size : k.dicts.size = h.dicts.size
  refs : ∀ d, (k.cell d).refs = (h.cell d).refs
  roots : k.roots = h.roots
  pins : k.pins = h.pins

namespace SameOwners
variable (hs : SameOwners h k)
include hs

theorem owned : k.owned = h.owned := by
  funext r
  cases r with
  | dict d => exact hs.refs d
  | list l => rw [Heap.owned, Heap.owned, items_congr hs.lists]
  | native n => simp only [Heap.owned, native?, hs.natives]

theorem number : k.number = h.number := by
  funext r
  cases r <;> simp only [Heap.number, hs.size, hs.lists]

theorem ofNumber : k.ofNumber = h.ofNumber := by
  funext i
  simp only [Heap.ofNumber, hs.size, hs.lists]

theorem size_eq : Heap.size k = Heap.size h := by
  simp only [Heap.size, hs.size, hs.lists, hs.natives]

theorem leadTo (n : Nat) (refs : List Ref) : k.leadTo d n refs = h.leadTo d n refs := by
  induction n generalizing refs with
  | zero => rfl
  | succ n ih => rw [Heap.leadTo, Heap.leadTo, hs.owned, ih]

theorem countOwner : k.countOwner = h.countOwner := by
  funext counts r
  rw [Heap.countOwner, Heap.countOwner, hs.number]

theorem ownerCounts : k.ownerCounts = h.ownerCounts := by
  simp only [Heap.ownerCounts, held, hs.countOwner, hs.owned, hs.ofNumber, hs.size_eq, hs.roots,
    hs.pins]

theorem loseOwner : k.loseOwner = h.loseOwner := by
  funext state r
  simp only [Heap.loseOwner, hs.number]

theorem release (fuel : Nat) (work : List Nat) (counts : Array Nat) :
    k.release fuel work counts = h.release fuel work counts := by
  induction fuel generalizing work counts with
  | zero => simp only [Heap.release]
  | succ fuel ih =>
    cases work with
    | nil => simp only [Heap.release]
    | cons i work => simp only [Heap.release, hs.owned, hs.ofNumber, hs.loseOwner, ih]

theorem livingOwners : k.livingOwners = h.livingOwners := by
  simp only [Heap.livingOwners, hs.ownerCounts, hs.size_eq, hs.release]

/-- The same dictionaries count as alive. -/
theorem alive : k.alive = h.alive := by
  funext d
  simp only [Heap.alive, isNear, isPinned, hs.livingOwners, hs.leadTo, hs.roots, hs.pins]

end SameOwners

/-! Changes to what a dictionary does not own. -/

theorem cell_modifyCell_ne (he : e ≠ d) : (h.modifyCell d f).cell e = h.cell e := by
  by_cases hd : h.Allocated (.dict d)
  · rw [cell_modifyCell hd, if_neg he]
  · have hsame : (h.modifyCell d f).dicts = h.dicts := by
      refine Array.ext (by simp [modifyCell]) fun i hi hi' => ?_
      simp only [modifyCell, Array.getElem_modify]
      rw [if_neg]
      rintro rfl
      exact hd hi'
    exact cell_congr hsame

theorem sameOwners_modifyCell (hf : ∀ c, (f c).refs = c.refs) :
    SameOwners h (h.modifyCell d f) where
  lists := rfl
  natives := rfl
  size := by simp [modifyCell]
  refs e := by
    by_cases he : e = d
    · subst he
      by_cases hmade : h.Allocated (.dict e)
      · rw [cell_modifyCell hmade, if_pos rfl, hf]
      · rw [cell_of_size_le (Nat.le_of_not_lt hmade),
          cell_of_size_le (by simpa [modifyCell] using Nat.le_of_not_lt hmade)]
    · rw [cell_modifyCell_ne he]
  roots := rfl
  pins := rfl

/-- The other dictionaries keep their links. -/
theorem links_modifyCell (hf : ∀ c, (f c).refs = c.refs) (he : e ≠ d) :
    (h.modifyCell d f).parent e = h.parent e ∧ (h.modifyCell d f).caller e = h.caller e ∧
      (h.modifyCell d f).declaredParent e = h.declaredParent e := by
  have hcell := cell_modifyCell_ne (h := h) (f := f) he
  have halive := (sameOwners_modifyCell (h := h) (d := d) hf).alive
  have hparent : (h.modifyCell d f).parent e = h.parent e := by
    simp only [parent, hcell, halive]
  refine ⟨hparent, ?_, ?_⟩
  · simp only [caller, hcell, halive]
  · simp only [declaredParent, hcell, hparent]

end DictScript.Heap
