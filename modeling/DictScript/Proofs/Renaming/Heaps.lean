import DictScript.Proofs.Calls.Within
import DictScript.Proofs.Renaming.Values

/-!
Two heaps that differ in the numbers of their dictionaries, and in dictionaries that nothing leads
to. What is read from the one is what is read from the other, under the other numbers.
-/
namespace DictScript
open Heap
variable {ws : List (List Value)} {h h' : Heap} {d e : DictId} {r : Ref} {v : Value}
variable {name : String} {l : ListId} {fuel : Nat}

/-- New numbers for dictionaries. `below` and `below'` are what is held under the run that is looked
at, in the one heap and in the other. In the second it may be more, but of what the first heap has
only the same. -/
structure Renaming where
  map : DictId → DictId
  injective : Function.Injective map
  below : List (List Value)
  below' : List (List Value)
  beside : ∀ vs ∈ below', ∀ v ∈ vs, ∀ r ∈ v.refs,
    (∃ us ∈ below, ∃ u ∈ us, ∃ q ∈ Value.refs u, r = Ref.rename map q) ∨ ∀ q, r ≠ Ref.rename map q

namespace Renaming
variable (ρ : Renaming)

def kept : Set Ref := {r | ∃ vs ∈ ρ.below, ∃ v ∈ vs, r ∈ v.refs}

/-- Both heaps have the same objects under other numbers. What the second has beside them owns only
what is held all the time, or shown by a view that is. -/
structure Objects (h h' : Heap) : Prop where
  lists : h'.lists.size = h.lists.size
  natives : h'.natives.size = h.natives.size
  blocks : h'.blocks = h.blocks
  items : ∀ l, h'.items l = renameAll ρ.map (h.items l)
  native : ∀ n, h'.native? n = (h.native? n).map (Native.rename ρ.map)
  cell : ∀ d, h'.cell (ρ.map d) = (h.cell d).rename ρ.map
  next : ∀ i, ρ.map ⟨h.dicts.size + i⟩ = ⟨h'.dicts.size + i⟩
  owns : ∀ d, (∀ e, d ≠ ρ.map e) → ∀ r ∈ (h'.cell d).refs, ∃ q, r = q.rename ρ.map ∧
    (q ∈ ρ.kept ∨ ∃ v t, .dict v ∈ ρ.kept ∧ (h.cell v).target = some t ∧ q = .dict t)

structure Heaps (ws : List (List Value)) (h h' : Heap) : Prop extends ρ.Objects h h' where
  roots : h'.roots = renameAll ρ.map h.roots
  pins : h.pins = ws ++ ρ.below
  pins' : h'.pins = ws.map (renameAll ρ.map) ++ ρ.below'
  region : h.Region h.everything
  held : ∀ r ∈ h.heldRefs, h.Allocated r
  held' : ∀ vs ∈ ρ.below', ∀ v ∈ vs, ∀ r ∈ v.refs, h'.Allocated r
  kept' : ∀ r ∈ ρ.kept, (∃ v ∈ h.roots, r ∈ v.refs) ∨
    ∃ vs ∈ ρ.below', ∃ v ∈ vs, r.rename ρ.map ∈ v.refs

variable {ρ}

theorem mem_refs_rename {q : Ref} : q.rename ρ.map ∈ (v.rename ρ.map).refs ↔ q ∈ v.refs := by
  rw [Value.refs_rename, List.mem_map_of_injective (Ref.rename_injective ρ.injective)]

namespace Objects
variable (ho : ρ.Objects h h')
include ho

theorem allocated_iff : h'.Allocated (r.rename ρ.map) ↔ h.Allocated r := by
  cases r with
  | list l => exact iff_of_eq (congrArg (l.index < ·) ho.lists)
  | native n => exact iff_of_eq (congrArg (n.index < ·) ho.natives)
  | dict d =>
    show (ρ.map d).index < h'.dicts.size ↔ d.index < h.dicts.size
    constructor
    · intro hd
      by_contra hnot
      have hnext := ho.next (d.index - h.dicts.size)
      rw [Nat.add_sub_cancel' (Nat.le_of_not_lt hnot)] at hnext
      rw [hnext] at hd
      exact Nat.not_lt.mpr (Nat.le_add_right _ _) hd
    · intro hd
      by_contra hnot
      have hnext := ho.next ((ρ.map d).index - h'.dicts.size)
      rw [Nat.add_sub_cancel' (Nat.le_of_not_lt hnot)] at hnext
      have hindex := congrArg DictId.index (ρ.injective hnext)
      exact absurd hd (Nat.not_lt.mpr (hindex ▸ Nat.le_add_right _ _))

theorem owned (r : Ref) : h'.owned (r.rename ρ.map) = (h.owned r).map (Ref.rename ρ.map) := by
  cases r with
  | list l => rw [Ref.rename, Heap.owned, Heap.owned, ho.items, allRefs_renameAll]
  | dict d => rw [Ref.rename, Heap.owned, Heap.owned, ho.cell, DictCell.refs_rename]
  | native n =>
    rw [Ref.rename, Heap.owned, Heap.owned, ho.native]
    cases h.native? n with
    | none => rfl
    | some x => exact x.refs_rename ρ.map

theorem mem_owned {q : Ref} : q.rename ρ.map ∈ h'.owned (r.rename ρ.map) ↔ q ∈ h.owned r := by
  rw [ho.owned, List.mem_map_of_injective (Ref.rename_injective ρ.injective)]

/-- What is not one of the objects of the first heap owns what is held. -/
theorem owned_beside {o : Ref} (hbeside : ∀ q, o ≠ Ref.rename ρ.map q) (hr : r ∈ h'.owned o) :
    ∃ q, r = q.rename ρ.map ∧ (q ∈ ρ.kept ∨ ∃ p ∈ ρ.kept, q ∈ h.owned p) := by
  cases o with
  | list l => exact (hbeside (.list l) rfl).elim
  | native n => exact (hbeside (.native n) rfl).elim
  | dict d =>
    obtain ⟨q, hq, howned⟩ := ho.owns d (fun e he => hbeside (.dict e) (by rw [he, Ref.rename])) r hr
    refine ⟨q, hq, howned.imp_right ?_⟩
    rintro ⟨v, t, hv, ht, rfl⟩
    exact ⟨.dict v, hv, by simp [Heap.owned, DictCell.refs, ht]⟩

theorem owner (d : DictId) : h'.owner (ρ.map d) = ρ.map (h.owner d) := by
  rw [Heap.owner, Heap.owner, ho.cell]
  cases ht : (h.cell d).target <;> simp [DictCell.rename, ht]

theorem isView (d : DictId) : h'.isView (ρ.map d) = h.isView d := by
  rw [Heap.isView, Heap.isView, ho.cell]
  exact Option.isSome_map

theorem slots (d : DictId) : h'.slots (ρ.map d) = renameSlots ρ.map (h.slots d) := by
  rw [Heap.slots, Heap.slots, ho.owner, ho.cell]
  rfl

theorem names (d : DictId) : h'.names (ρ.map d) = h.names d := by
  rw [Heap.names, Heap.names, ho.slots, names_renameSlots]

theorem displayName (d : DictId) : h'.displayName (ρ.map d) = h.displayName d := by
  rw [Heap.displayName, Heap.displayName, ho.cell]
  rfl

theorem lookup_slots (d : DictId) (n : String) :
    (h'.slots (ρ.map d)).lookup n = ((h.slots d).lookup n).map (Value.rename ρ.map) := by
  rw [ho.slots, lookup_renameSlots]

end Objects

namespace Heaps
variable (hh : ρ.Heaps ws h h')
include hh

theorem complete : h.Complete := Region.complete hh.region hh.held

theorem mem_pins_below {vs : List Value} (hvs : vs ∈ ρ.below) : vs ∈ h.pins :=
  hh.pins ▸ List.mem_append_right _ hvs

theorem heldRefs_kept (hr : r ∈ ρ.kept) : r ∈ h.heldRefs := by
  obtain ⟨vs, hvs, v, hv, hr⟩ := hr
  exact mem_heldRefs.mpr (.inr ⟨vs, hh.mem_pins_below hvs, v, hv, hr⟩)

theorem heldRefs_iff : r.rename ρ.map ∈ h'.heldRefs ↔ r ∈ h.heldRefs := by
  have hrename : ∀ {vs : List Value},
      (∃ v ∈ renameAll ρ.map vs, r.rename ρ.map ∈ v.refs) ↔ ∃ v ∈ vs, r ∈ v.refs := by
    intro vs
    simp only [renameAll_eq, List.mem_map, exists_exists_and_eq_and, mem_refs_rename]
  rw [mem_heldRefs, mem_heldRefs, hh.roots, hrename]
  constructor
  · rintro (hr | ⟨vs, hvs, v, hv, hr⟩)
    · exact .inl hr
    · rw [hh.pins'] at hvs
      obtain hvs | hvs := List.mem_append.mp hvs
      · obtain ⟨us, hus, rfl⟩ := List.mem_map.mp hvs
        exact .inr ⟨us, hh.pins ▸ List.mem_append_left _ hus, hrename.mp ⟨v, hv, hr⟩⟩
      · obtain ⟨us, hus, u, hu, q, hq, heq⟩ | hnone := ρ.beside vs hvs v hv _ hr
        · obtain rfl := Ref.rename_injective ρ.injective heq
          exact .inr ⟨us, hh.mem_pins_below hus, u, hu, hq⟩
        · exact (hnone r rfl).elim
  · rintro (hr | ⟨vs, hvs, hr⟩)
    · exact .inl hr
    · rw [hh.pins']
      rw [hh.pins] at hvs
      obtain hvs | hvs := List.mem_append.mp hvs
      · exact .inr ⟨_, List.mem_append_left _ (List.mem_map_of_mem hvs), hrename.mpr hr⟩
      · refine (hh.kept' r ⟨vs, hvs, hr⟩).imp_right ?_
        rintro ⟨us, hus, hr⟩
        exact ⟨us, List.mem_append_right _ hus, hr⟩

/-! What lives. -/

theorem living_iff : h'.Living h'.heldRefs (r.rename ρ.map) ↔ h.Living h.heldRefs r := by
  constructor
  · rintro ⟨S, hr, hS⟩
    refine ⟨{q | q.rename ρ.map ∈ S} ∪ ρ.kept, .inl hr, ?_⟩
    rintro q (hq | hq)
    · obtain hheld | ⟨o, hoS, hqo⟩ := hS _ hq
      · exact .inl (hh.heldRefs_iff.mp hheld)
      · by_cases hold : ∃ p, o = Ref.rename ρ.map p
        · obtain ⟨p, rfl⟩ := hold
          exact .inr ⟨p, .inl hoS, hh.mem_owned.mp hqo⟩
        · obtain ⟨p, heq, hp⟩ := hh.owned_beside (fun p hp => hold ⟨p, hp⟩) hqo
          obtain rfl := Ref.rename_injective ρ.injective heq
          refine hp.imp hh.heldRefs_kept ?_
          rintro ⟨o, ho, hqo⟩
          exact ⟨o, .inr ho, hqo⟩
    · exact .inl (hh.heldRefs_kept hq)
  · rintro ⟨S, hr, hS⟩
    refine ⟨Ref.rename ρ.map '' S, Set.mem_image_of_mem _ hr, ?_⟩
    rintro _ ⟨q, hq, rfl⟩
    obtain hheld | ⟨o, ho, hqo⟩ := hS q hq
    · exact .inl (hh.heldRefs_iff.mpr hheld)
    · exact .inr ⟨_, Set.mem_image_of_mem _ ho, hh.mem_owned.mpr hqo⟩

/-- The second heap has no loose ends either. -/
theorem closed' (hr : h'.Allocated r) {o : Ref} (ho : o ∈ h'.owned r) : h'.Allocated o := by
  by_cases hold : ∃ q, r = Ref.rename ρ.map q
  · obtain ⟨q, rfl⟩ := hold
    rw [hh.owned] at ho
    obtain ⟨p, hp, rfl⟩ := List.mem_map.mp ho
    exact hh.allocated_iff.mpr (hh.complete.owned q (hh.allocated_iff.mp hr) p hp)
  · obtain ⟨q, rfl, hq | ⟨p, hp, hqp⟩⟩ := hh.owned_beside (fun q hq => hold ⟨q, hq⟩) ho
    · exact hh.allocated_iff.mpr (hh.held q (hh.heldRefs_kept hq))
    · exact hh.allocated_iff.mpr (hh.complete.owned p (hh.held p (hh.heldRefs_kept hp)) q hqp)

theorem allocated_held' (hr : r ∈ h'.heldRefs) : h'.Allocated r := by
  have hrename : ∀ {vs : List Value}, (∀ v ∈ vs, ∀ q ∈ v.refs, q ∈ h.heldRefs) →
      ∀ v ∈ renameAll ρ.map vs, r ∈ v.refs → h'.Allocated r := by
    intro vs hvs v hv hr
    rw [renameAll_eq] at hv
    obtain ⟨w, hw, rfl⟩ := List.mem_map.mp hv
    rw [Value.refs_rename] at hr
    obtain ⟨q, hq, rfl⟩ := List.mem_map.mp hr
    exact hh.allocated_iff.mpr (hh.held q (hvs w hw q hq))
  obtain ⟨v, hv, hr⟩ | ⟨vs, hvs, v, hv, hr⟩ := mem_heldRefs.mp hr
  · rw [hh.roots] at hv
    exact hrename (fun w hw q hq => mem_heldRefs.mpr (.inl ⟨w, hw, hq⟩)) v hv hr
  · rw [hh.pins'] at hvs
    obtain hvs | hvs := List.mem_append.mp hvs
    · obtain ⟨us, hus, rfl⟩ := List.mem_map.mp hvs
      refine hrename (fun w hw q hq => mem_heldRefs.mpr (.inr ⟨us, ?_, w, hw, hq⟩)) v hv hr
      rw [hh.pins]
      exact List.mem_append_left _ hus
    · exact hh.held' vs hvs v hv r hr

theorem alive (hd : h.Allocated (.dict d)) : h'.alive (ρ.map d) = h.alive d := by
  rw [Bool.eq_iff_iff, hh.complete.alive_iff hd,
    Heap.alive_iff (fun _ hr _ => hh.closed' hr) (fun _ => hh.allocated_held')
      (hh.allocated_iff.mpr hd)]
  exact hh.living_iff (r := .dict d)

/-! What a dictionary shows. -/

theorem parent (d : DictId) : h'.parent (ρ.map d) = (h.parent d).map ρ.map := by
  rw [Heap.parent, Heap.parent, hh.cell]
  cases hp : (h.cell d).parent with
  | none => simp [DictCell.rename, hp]
  | some p =>
    have hscope : (h.cell d).scope.map ρ.map = some (ρ.map p) ↔ (h.cell d).scope = some p := by
      rw [Option.map_eq_some_iff]
      constructor
      · rintro ⟨q, hq, heq⟩
        rw [hq, ρ.injective heq]
      · intro hq
        exact ⟨p, hq, rfl⟩
    simp only [DictCell.rename, hp, Option.map_some, Option.filter_some, hscope,
      hh.alive (hh.complete.parent d p hp)]
    split <;> rfl

theorem caller (d : DictId) : h'.caller (ρ.map d) = (h.caller d).map ρ.map := by
  rw [Heap.caller, Heap.caller, hh.cell]
  cases hc : (h.cell d).caller with
  | none => simp [DictCell.rename, hc]
  | some c =>
    simp only [DictCell.rename, hc, Option.map_some, Option.filter_some,
      hh.alive (hh.complete.caller d c hc)]
    split <;> rfl

theorem declaredParent (d : DictId) :
    h'.declaredParent (ρ.map d) = (h.declaredParent d).map ρ.map := by
  rw [Heap.declaredParent, Heap.declaredParent, hh.cell, hh.parent]
  show (if (h.cell d).declared then _ else _) = _
  split <;> rfl

theorem holds (d : DictId) (name : String) : h'.holds (ρ.map d) name = h.holds d name := by
  rw [Heap.holds, Heap.holds]
  split
  · rw [hh.parent, Option.isSome_map]
  · rw [hh.caller, Option.isSome_map]
  · rw [hh.lookup_slots, Option.isSome_map]

theorem get (d : DictId) (name : String) : h'.get (ρ.map d) name = (h.get d name).rename ρ.map := by
  have hlink : ∀ link : Option DictId, linkValue (link.map ρ.map) = (linkValue link).rename ρ.map := by
    intro link
    cases link <;> rfl
  rw [Heap.get, Heap.get]
  split
  · rw [hh.parent, hlink]
  · rw [hh.caller, hlink]
  · rename_i n _
    rw [hh.lookup_slots]
    cases (h.slots d).lookup n <;> rfl

/-! Walks along the parents, of any length. -/

theorem findFrom (name : String) (fuel : Nat) (d : DictId) :
    h'.findFrom name fuel (ρ.map d) = (h.findFrom name fuel d).map ρ.map := by
  induction fuel generalizing d with
  | zero => rfl
  | succ fuel ih =>
    rw [Heap.findFrom, Heap.findFrom, hh.holds, hh.parent]
    split
    · rfl
    · cases h.parent d with
      | none => rfl
      | some p => exact ih p

theorem anchorFrom (fuel : Nat) (d : DictId) :
    h'.anchorFrom fuel (ρ.map d) = ρ.map (h.anchorFrom fuel d) := by
  induction fuel generalizing d with
  | zero => rfl
  | succ fuel ih =>
    rw [Heap.anchorFrom, Heap.anchorFrom, hh.isView, hh.parent]
    split
    · cases h.parent d with
      | none => exact hh.owner d
      | some p => exact ih p
    · rfl

theorem chainOf (fuel : Nat) (d : DictId) :
    h'.chainOf fuel (ρ.map d) = (h.chainOf fuel d).map ρ.map := by
  induction fuel generalizing d with
  | zero => rfl
  | succ fuel ih =>
    rw [Heap.chainOf, Heap.chainOf, hh.parent]
    cases h.parent d with
    | none => rfl
    | some p => exact congrArg (ρ.map d :: ·) (ih p)

end Heaps
end Renaming
end DictScript
