import DictScript.Proofs.Frozen.Growth
import DictScript.Proofs.Ownership.Counting
import DictScript.Proofs.Parents.Lookup

/-!
Objects that are made while others stay as they are. What was there lives on just as before, has the
parents it had, and is looked up from as before.
-/
namespace DictScript.Heap
variable {h k : Heap} {r o : Ref} {d e p : DictId} {name : String} {n : Nat}

theorem slots_congr (hcell : k.cell d = h.cell d)
    (howner : k.cell (h.owner d) = h.cell (h.owner d)) : k.slots d = h.slots d := by
  have hsame : k.owner d = h.owner d := by rw [owner, owner, hcell]
  rw [slots, slots, hsame, howner]

def lookup (h : Heap) (d : DictId) (name : String) : Option (DictId × Value) :=
  (h.find d name).map fun e => (e, h.get e name)

structure Complete (h : Heap) : Prop where
  held : ∀ r ∈ h.heldRefs, h.Allocated r
  owned : ∀ r, h.Allocated r → ∀ o ∈ h.owned r, h.Allocated o
  parent : ∀ d p, (h.cell d).parent = some p → h.Allocated (.dict p)
  caller : ∀ d c, (h.cell d).caller = some c → h.Allocated (.dict c)

namespace Complete
variable (hh : h.Complete)
include hh

theorem alive_iff (hd : h.Allocated (.dict d)) :
    h.alive d = true ↔ h.Living h.heldRefs (.dict d) :=
  Heap.alive_iff hh.owned hh.held hd

theorem allocated_of_living (hr : h.Living h.heldRefs r) : h.Allocated r := by
  obtain hr | ⟨o, -, hro⟩ := living_iff.mp hr
  · exact hh.held r hr
  · by_cases ho : h.Allocated o
    · exact hh.owned o ho r hro
    · rw [owned_of_not_allocated ho] at hro
      cases hro

theorem owner (hd : h.Allocated (.dict d)) : h.Allocated (.dict (h.owner d)) := by
  rw [Heap.owner]
  cases ht : (h.cell d).target with
  | none => exact hd
  | some t => exact hh.owned _ hd _ (by simp [Heap.owned, DictCell.refs, ht])

theorem inherits (hp : h.Inherits d p) : h.Allocated (.dict p) :=
  hh.parent d p (Option.filter_eq_some_iff.mp hp).1

theorem ancestor (hd : h.Allocated (.dict d)) (he : Relation.ReflTransGen h.Inherits d e) :
    h.Allocated (.dict e) := by
  induction he with
  | refl => exact hd
  | tail _ hstep => exact hh.inherits hstep

theorem find (hd : h.Allocated (.dict d)) (he : h.find d name = some e) : h.Allocated (.dict e) :=
  hh.ancestor hd (inherits_of_findFrom he)

end Complete

structure Enlarged (h k : Heap) : Prop where
  grown : Grown h k
  natives : k.natives = h.natives
  fresh : ∀ o, ¬ h.Allocated o → ∀ r ∈ k.owned o,
    k.Allocated r ∧ (h.Allocated r → h.Living h.heldRefs r)
  held : ∀ r ∈ h.heldRefs, k.Living k.heldRefs r
  kept : ∀ r ∈ k.heldRefs, k.Allocated r ∧ (h.Allocated r → h.Living h.heldRefs r)

namespace Enlarged
variable (hk : h.Enlarged k)
include hk

theorem allocated (hr : h.Allocated r) : k.Allocated r := by
  cases r with
  | list l => exact Nat.lt_of_lt_of_le hr hk.grown.lists
  | dict d => exact Nat.lt_of_lt_of_le hr hk.grown.dicts
  | native x => rwa [Allocated, hk.natives]

theorem cell (hd : h.Allocated (.dict d)) : k.cell d = h.cell d :=
  hk.grown.cell d hd (by simp)

theorem owned (ho : h.Allocated o) : k.owned o = h.owned o := by
  cases o with
  | list l => rw [Heap.owned, Heap.owned, hk.grown.items l ho (by simp)]
  | dict d => rw [Heap.owned, Heap.owned, hk.cell ho]
  | native x => rw [Heap.owned, Heap.owned, native?, native?, hk.natives]

theorem owned_of_mem (hr : r ∈ h.owned o) : r ∈ k.owned o := by
  by_cases ho : h.Allocated o
  · rwa [hk.owned ho]
  · simp [owned_of_not_allocated ho] at hr

variable (hh : h.Complete)
include hh

theorem closed {x : Ref} (hx : x ∈ k.owned r) : k.Allocated x := by
  by_cases hold : h.Allocated r
  · rw [hk.owned hold] at hx
    exact hk.allocated (hh.owned r hold x hx)
  · exact (hk.fresh r hold x hx).1

/-- A dictionary that was there lives just if it did. -/
theorem alive (hd : h.Allocated (.dict d)) : k.alive d = h.alive d := by
  rw [Bool.eq_iff_iff, alive_iff (fun r _ x => hk.closed hh) (fun r hr => (hk.kept r hr).1)
    (hk.allocated hd), hh.alive_iff hd]
  constructor
  · intro hlive
    refine hlive.back (fun x hx => (hk.kept x hx).2) (fun o x hx hmade => ?_) hd
    by_cases ho : h.Allocated o
    · exact .inl (hk.owned ho ▸ hx)
    · exact .inr ((hk.fresh o ho x hx).2 hmade)
  · rintro ⟨S, hdS, hS⟩
    refine Living.trans hk.held ⟨S, hdS, fun x hx => (hS x hx).imp_right ?_⟩
    rintro ⟨o, ho, hxo⟩
    exact ⟨o, ho, hk.owned_of_mem hxo⟩

theorem parent (hd : h.Allocated (.dict d)) : k.parent d = h.parent d := by
  rw [Heap.parent, Heap.parent, hk.cell hd]
  cases hp : (h.cell d).parent with
  | none => rfl
  | some p => simp only [Option.filter_some, hk.alive hh (hh.parent d p hp)]

theorem caller (hd : h.Allocated (.dict d)) : k.caller d = h.caller d := by
  rw [Heap.caller, Heap.caller, hk.cell hd]
  cases hc : (h.cell d).caller with
  | none => rfl
  | some c => simp only [Option.filter_some, hk.alive hh (hh.caller d c hc)]

theorem declaredParent (hd : h.Allocated (.dict d)) : k.declaredParent d = h.declaredParent d := by
  rw [Heap.declaredParent, Heap.declaredParent, hk.cell hd, hk.parent hh hd]

theorem slots (hd : h.Allocated (.dict d)) : k.slots d = h.slots d := by
  have howner : k.owner d = h.owner d := by rw [owner, owner, hk.cell hd]
  rw [Heap.slots, Heap.slots, howner, hk.cell (hh.owner hd)]

theorem get (hd : h.Allocated (.dict d)) : k.get d name = h.get d name := by
  simp only [Heap.get, hk.slots hh hd, hk.parent hh hd, hk.caller hh hd]

theorem holds (hd : h.Allocated (.dict d)) : k.holds d name = h.holds d name := by
  simp only [Heap.holds, hk.slots hh hd, hk.parent hh hd, hk.caller hh hd]

theorem findFrom (n : Nat) (hd : h.Allocated (.dict d)) :
    k.findFrom name n d = h.findFrom name n d := by
  induction n generalizing d with
  | zero => rfl
  | succ n ih =>
    rw [Heap.findFrom, Heap.findFrom, hk.holds hh hd, hk.parent hh hd]
    cases hp : h.parent d with
    | none => rfl
    | some p => simp only [ih (hh.inherits hp)]

/-- From a dictionary that was there the same is found. -/
theorem find (hd : h.Allocated (.dict d)) : k.find d name = h.find d name := by
  rw [← findFrom_eq_find (Nat.le_refl k.dicts.size), hk.findFrom hh k.dicts.size hd,
    findFrom_eq_find hk.grown.dicts]

theorem lookup (hd : h.Allocated (.dict d)) : k.lookup d name = h.lookup d name := by
  rw [Heap.lookup, Heap.lookup, hk.find hh hd]
  cases he : h.find d name with
  | none => rfl
  | some e => simp only [Option.map_some, hk.get hh (hh.find hd he)]

theorem seen (hd : h.Allocated (.dict d)) : k.seen d name = h.seen d name := by
  rw [Heap.seen, Heap.seen, hk.find hh hd]
  cases he : h.find d name with
  | none => rfl
  | some e => simp only [Option.map_some, hk.get hh (hh.find hd he)]

theorem skips (hd : h.Allocated (.dict d)) : k.Skips d p ↔ h.Skips d p := by
  rw [Skips, Skips, Inherits, Inherits, isView, isView, hk.cell hd, hk.parent hh hd]

/-- What is the nearest dictionary that is no view stays so. -/
theorem anchor (hd : h.Allocated (.dict d)) (hp : Relation.ReflTransGen h.Skips d p)
    (hview : h.isView p = false) : k.anchor d = p := by
  have hchain : Relation.ReflTransGen k.Skips d p ∧ h.Allocated (.dict p) := by
    clear hview
    induction hp with
    | refl => exact ⟨.refl, hd⟩
    | tail _ hskip ih => exact ⟨.tail ih.1 ((hk.skips hh ih.2).mpr hskip), hh.inherits hskip.2⟩
  refine anchor_eq hchain.1 (hk.allocated hchain.2) ?_
  rwa [isView, hk.cell hchain.2]

end Enlarged
end DictScript.Heap
