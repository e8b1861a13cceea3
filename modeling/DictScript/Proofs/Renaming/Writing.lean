import DictScript.Proofs.Renaming.Heaps

/-!
Writing under other numbers: an operation that is carried out in both heaps leaves heaps that have
the same objects again.
-/
namespace DictScript
open Heap
variable {ws us : List (List Value)} {vs : List Value} {h h' k k' m m' : Heap} {d e p : DictId}
variable {r : Ref} {v : Value} {name : String} {l : ListId} {T : Set Ref} {ρ : Renaming}
variable {f f' : DictCell → DictCell} {c : DictCell} {xs : List (String × Value)}

def Heap.Becomes (h k : Heap) : Prop := Edits (h, h.everything) (k, k.everything)

namespace Heap.Becomes

theorem refl (h : Heap) : h.Becomes h := Relation.ReflTransGen.refl

theorem trans (hk : h.Becomes k) (hm : k.Becomes m) : h.Becomes m := Edits.trans hk hm

theorem sub (hk : h.Becomes k) : h.everything ⊆ k.everything := Edits.sub hk

theorem allocated (hk : h.Becomes k) (hr : h.Allocated r) : k.Allocated r := hk.sub hr

theorem has (hk : h.Becomes k) (hv : Has h.everything v) : Has k.everything v := hv.mono hk.sub

theorem of_edits (he : Edits (h, h.everything) (k, T)) (hS : h.Region h.everything) : h.Becomes k := by
  rw [Becomes, ← everything_of_edits he hS]
  exact he

end Heap.Becomes

theorem Heap.Contained.dicts_le {s s' : Scene} (hs : Contained s s') :
    s.1.dicts.size ≤ s'.1.dicts.size := by
  by_contra hless
  exact Nat.lt_irrefl _ (hs.grow (.dict ⟨s'.1.dicts.size⟩) (Nat.lt_of_not_le hless))

namespace Renaming

/-! The same objects after the same operation. -/

namespace Objects
variable (ho : ρ.Objects h h')
include ho

theorem newDict_id (c c' : DictCell) : (h'.newDict c').2 = ρ.map (h.newDict c).2 := (ho.next 0).symm

theorem newList_id (vs vs' : List Value) : (h'.newList vs').2 = (h.newList vs).2 :=
  congrArg ListId.mk ho.lists

theorem newNative_id (x x' : Native) : (h'.newNative x').2 = (h.newNative x).2 :=
  congrArg NativeId.mk ho.natives

/-- Views that show something are there. -/
theorem owns_mono (hcell : ∀ d, h.Allocated (.dict d) → (k.cell d).target = (h.cell d).target)
    (hcell' : ∀ d, (∀ e, d ≠ ρ.map e) → k'.cell d = h'.cell d) (d : DictId)
    (hd : ∀ e, d ≠ ρ.map e) : ∀ r ∈ (k'.cell d).refs, ∃ q, r = Ref.rename ρ.map q ∧
      (q ∈ ρ.kept ∨ ∃ v t, .dict v ∈ ρ.kept ∧ (k.cell v).target = some t ∧ q = .dict t) := by
  intro r hr
  rw [hcell' d hd] at hr
  obtain ⟨q, hq, howned⟩ := ho.owns d hd r hr
  refine ⟨q, hq, howned.imp_right ?_⟩
  rintro ⟨v, t, hv, ht, rfl⟩
  refine ⟨v, t, hv, ?_, rfl⟩
  rwa [hcell]
  by_contra hnot
  rw [cell_of_size_le (Nat.le_of_not_lt hnot)] at ht
  cases ht

theorem modifyCell (f f' : DictCell → DictCell) (hd : h.Allocated (.dict d))
    (hf : f' ((h.cell d).rename ρ.map) = (f (h.cell d)).rename ρ.map)
    (htarget : (f (h.cell d)).target = (h.cell d).target) :
    ρ.Objects (h.modifyCell d f) (h'.modifyCell (ρ.map d) f') := by
  have hd' : h'.Allocated (.dict (ρ.map d)) := ho.allocated_iff.mpr hd
  have hcell : ∀ e, (h.modifyCell d f).cell e = if e = d then f (h.cell d) else h.cell e :=
    fun e => cell_modifyCell hd
  have hcell' : ∀ e, (h'.modifyCell (ρ.map d) f').cell e =
      if e = ρ.map d then f' (h'.cell (ρ.map d)) else h'.cell e := fun e => cell_modifyCell hd'
  refine { lists := ho.lists, natives := ho.natives, blocks := ho.blocks, items := ho.items,
           native := ho.native, cell := fun e => ?_, next := fun i => ?_,
           owns := ho.owns_mono (fun e _ => ?_) fun e he => ?_ }
  · simp only [hcell, hcell', ρ.injective.eq_iff]
    split
    · rw [ho.cell, hf]
    · exact ho.cell e
  · simpa only [Heap.modifyCell, Array.size_modify] using ho.next i
  · rw [hcell]
    split
    · rename_i heq
      rw [htarget, heq]
    · rfl
  · rw [hcell', if_neg (he d)]

theorem newDict (c : DictCell) : ρ.Objects (h.newDict c).1 (h'.newDict (c.rename ρ.map)).1 := by
  have hlast : ∀ e, (ρ.map e).index = h'.dicts.size ↔ e.index = h.dicts.size := by
    intro e
    have hnext : ρ.map ⟨h.dicts.size⟩ = ⟨h'.dicts.size⟩ := ho.next 0
    constructor
    · intro he
      exact congrArg DictId.index (ρ.injective ((congrArg DictId.mk he).trans hnext.symm))
    · intro he
      exact congrArg DictId.index ((congrArg ρ.map (congrArg DictId.mk he)).trans hnext)
  refine { lists := ho.lists, natives := ho.natives, blocks := ho.blocks, items := ho.items,
           native := ho.native, cell := fun e => ?_, next := fun i => ?_,
           owns := ho.owns_mono (fun e he => ?_) fun e he => ?_ }
  · simp only [cell_newDict, hlast]
    split
    · rfl
    · exact ho.cell e
  · have hsize : ∀ (g : Heap) c, (g.newDict c).1.dicts.size = g.dicts.size + 1 :=
      fun g c => Array.size_push c
    rw [hsize, hsize, Nat.add_assoc, Nat.add_assoc]
    exact ho.next (1 + i)
  · rw [cell_newDict_of_allocated c he]
  · rw [cell_newDict, if_neg fun heq => he ⟨h.dicts.size⟩ ?_]
    exact (congrArg DictId.mk heq).trans (ho.next 0).symm

theorem newList (vs : List Value) :
    ρ.Objects (h.newList vs).1 (h'.newList (renameAll ρ.map vs)).1 where
  lists := by simp only [Heap.newList, Array.size_push, ho.lists]
  natives := ho.natives
  blocks := ho.blocks
  items l := by
    rw [items_newList, items_newList, ho.lists]
    split
    · rfl
    · exact ho.items l
  native := ho.native
  cell := ho.cell
  next := ho.next
  owns := ho.owns

theorem newNative (x : Native) :
    ρ.Objects (h.newNative x).1 (h'.newNative (x.rename ρ.map)).1 where
  lists := ho.lists
  natives := by simp only [Heap.newNative, Array.size_push, ho.natives]
  blocks := ho.blocks
  items := ho.items
  native n := by
    rw [native?_newNative, native?_newNative, ho.natives]
    split
    · rfl
    · exact ho.native n
  cell := ho.cell
  next := ho.next
  owns := ho.owns

theorem newBlock (b b' : Block) : ρ.Objects (h.newBlock b).1 (h'.newBlock b').1 where
  lists := ho.lists
  natives := ho.natives
  blocks := congrArg (· + 1) ho.blocks
  items := ho.items
  native := ho.native
  cell := ho.cell
  next := ho.next
  owns := ho.owns

theorem newBlock_value (b : Block) :
    (h'.newBlock (b.rename ρ.map)).2 = (h.newBlock b).2.rename ρ.map := by
  cases b
  simp only [Heap.newBlock, ho.blocks]
  rfl

theorem pushItem (hl : h.Allocated (.list l)) (v : Value) :
    ρ.Objects (h.pushItem l v) (h'.pushItem l (v.rename ρ.map)) where
  lists := by simp only [Heap.pushItem, Array.size_modify, ho.lists]
  natives := ho.natives
  blocks := ho.blocks
  items m := by
    have hl' : h'.Allocated (.list l) := ho.allocated_iff (r := .list l).mpr hl
    rw [items_pushItem hl, items_pushItem hl']
    split
    · rw [ho.items, renameAll_append]
      rfl
    · exact ho.items m
  native := ho.native
  cell := ho.cell
  next := ho.next
  owns := ho.owns

/-- It is about objects, whatever is held. -/
theorem pinned (roots roots' : List Value) (pins pins' : List (List Value)) :
    ρ.Objects { h with roots := roots, pins := pins } { h' with roots := roots', pins := pins' } where
  lists := ho.lists
  natives := ho.natives
  blocks := ho.blocks
  items := ho.items
  native := ho.native
  cell := ho.cell
  next := ho.next
  owns := ho.owns

end Objects

/-! Heaps that correspond, after the same operation. -/

structure After (ρ : Renaming) (ws : List (List Value)) (h k k' : Heap) : Prop where
  heaps : ρ.Heaps ws k k'
  becomes : h.Becomes k

theorem After.trans (hk : h.Becomes k) (hm : ρ.After ws k m m') : ρ.After ws h m m' :=
  ⟨hm.heaps, hk.trans hm.becomes⟩

namespace Heaps
variable (hh : ρ.Heaps ws h h')
include hh

theorem here : ρ.After ws h h h' := ⟨hh, .refl h⟩

/-- Nothing else is held after an operation. -/
theorem edits (he : Edits (h, h.everything) (k, T)) (ho : ρ.Objects k k') (hroots : k.roots = h.roots)
    (hpins : k.pins = h.pins) (hroots' : k'.roots = h'.roots) (hpins' : k'.pins = h'.pins) :
    ρ.After ws h k k' := by
  have hcontained := he.contained hh.region
  have hbecomes := Becomes.of_edits he hh.region
  refine ⟨{ ho with
    roots := hroots'.trans (hh.roots.trans (congrArg _ hroots.symm))
    pins := hpins.trans hh.pins, pins' := hpins'.trans hh.pins'
    region := Edits.region hbecomes hh.region
    held := fun r hr => hbecomes.allocated (hh.held r ?_)
    held' := fun vs hvs v hv r hr => ?_
    kept' := fun r hr => (hh.kept' r hr).imp_left (hroots ▸ id) }, hbecomes⟩
  · rw [mem_heldRefs] at hr ⊢
    rwa [← hroots, ← hpins]
  · have hmade := hh.held' vs hvs v hv r hr
    by_cases hold : ∃ q, r = Ref.rename ρ.map q
    · obtain ⟨q, rfl⟩ := hold
      exact ho.allocated_iff.mpr (hbecomes.allocated (hh.allocated_iff.mp hmade))
    · cases r with
      | list l => exact (hold ⟨.list l, rfl⟩).elim
      | native n => exact (hold ⟨.native n, rfl⟩).elim
      | dict d =>
        have hsize : k'.dicts.size = h'.dicts.size + (k.dicts.size - h.dicts.size) := by
          have hnext := hh.next (k.dicts.size - h.dicts.size)
          rw [Nat.add_sub_cancel' hcontained.dicts_le] at hnext
          exact congrArg DictId.index ((ho.next 0).symm.trans hnext)
        exact Nat.lt_of_lt_of_le hmade (hsize ▸ Nat.le_add_right _ _)

/-- Above what is below, other things are held. -/
theorem repin (hus : ∀ vs ∈ us, ∀ v ∈ vs, Has h.everything v) :
    ρ.After us h { h with pins := us ++ ρ.below }
      { h' with pins := us.map (renameAll ρ.map) ++ ρ.below' } := by
  have he : Edits (h, h.everything) ({ h with pins := us ++ ρ.below }, h.everything) :=
    .single (.hold h.roots _)
  have hbecomes := Becomes.of_edits he hh.region
  refine ⟨{ hh.toObjects.pinned h.roots h'.roots (us ++ ρ.below) _ with
    roots := hh.roots
    pins := rfl, pins' := rfl
    region := Edits.region hbecomes hh.region
    held := fun r hr => ?_
    held' := hh.held'
    kept' := hh.kept' }, hbecomes⟩
  refine hbecomes.allocated ?_
  obtain hr | ⟨vs, hvs, v, hv, hr⟩ := mem_heldRefs.mp hr
  · exact hh.held r (mem_heldRefs.mpr (.inl hr))
  · obtain hvs | hvs := List.mem_append.mp hvs
    · exact hus vs hvs v hv r hr
    · exact hh.held r (hh.heldRefs_kept ⟨vs, hvs, v, hv, hr⟩)

theorem has_pins : ∀ vs ∈ ws, ∀ v ∈ vs, Has h.everything v := by
  intro vs hvs v hv r hr
  exact hh.held r (mem_heldRefs.mpr (.inr ⟨vs, hh.pins ▸ List.mem_append_left _ hvs, v, hv, hr⟩))

theorem enter (hvs : ∀ v ∈ vs, Has h.everything v) :
    ρ.After (vs :: ws) h (h.enter vs) (h'.enter (renameAll ρ.map vs)) := by
  have hpins : h.enter vs = { h with pins := (vs :: ws) ++ ρ.below } := by
    rw [Heap.enter, hh.pins, List.cons_append]
  have hpins' : h'.enter (renameAll ρ.map vs) =
      { h' with pins := (vs :: ws).map (renameAll ρ.map) ++ ρ.below' } := by
    rw [Heap.enter, hh.pins', List.map_cons, List.cons_append]
  rw [hpins, hpins']
  exact hh.repin (List.forall_mem_cons.mpr ⟨hvs, hh.has_pins⟩)

end Heaps

namespace Heaps
variable (hh : ρ.Heaps (vs :: ws) h h')
include hh

theorem hold (hv : Has h.everything v) :
    ρ.After ((v :: vs) :: ws) h (h.hold v) (h'.hold (v.rename ρ.map)) := by
  have hpins : h.hold v = { h with pins := ((v :: vs) :: ws) ++ ρ.below } := by
    simp only [Heap.hold, hh.pins, List.cons_append]
  have hpins' : h'.hold (v.rename ρ.map) =
      { h' with pins := ((v :: vs) :: ws).map (renameAll ρ.map) ++ ρ.below' } := by
    simp only [Heap.hold, hh.pins', List.map_cons, List.cons_append, renameAll]
  obtain ⟨hvs, hws⟩ := List.forall_mem_cons.mp hh.has_pins
  rw [hpins, hpins']
  exact hh.repin (List.forall_mem_cons.mpr ⟨List.forall_mem_cons.mpr ⟨hv, hvs⟩, hws⟩)

theorem letGo (d : DictId) :
    ρ.After ((vs.eraseP (·.isDict d)) :: ws) h (h.letGo d) (h'.letGo (ρ.map d)) := by
  have herase : renameAll ρ.map (vs.eraseP (·.isDict d)) =
      (renameAll ρ.map vs).eraseP (·.isDict (ρ.map d)) := by
    rw [renameAll_eq, renameAll_eq, List.eraseP_map]
    congr 2
    exact funext fun v => (v.isDict_rename ρ.injective d).symm
  have hpins : h.letGo d = { h with pins := ((vs.eraseP (·.isDict d)) :: ws) ++ ρ.below } := by
    simp only [Heap.letGo, hh.pins, List.cons_append]
  have hpins' : h'.letGo (ρ.map d) =
      { h' with pins := ((vs.eraseP (·.isDict d)) :: ws).map (renameAll ρ.map) ++ ρ.below' } := by
    simp only [Heap.letGo, hh.pins', List.map_cons, List.cons_append, herase]
  obtain ⟨hvs, hws⟩ := List.forall_mem_cons.mp hh.has_pins
  rw [hpins, hpins']
  exact hh.repin (List.forall_mem_cons.mpr ⟨fun v hv => hvs v (List.mem_of_mem_eraseP hv), hws⟩)

theorem leave : ρ.After ws h h.leave h'.leave := by
  have hpins : h.leave = { h with pins := ws ++ ρ.below } := by
    rw [Heap.leave, hh.pins, List.cons_append, List.tail_cons]
  have hpins' : h'.leave = { h' with pins := ws.map (renameAll ρ.map) ++ ρ.below' } := by
    rw [Heap.leave, hh.pins', List.map_cons, List.cons_append, List.tail_cons]
  rw [hpins, hpins']
  exact hh.repin (List.forall_mem_cons.mp hh.has_pins).2

end Heaps

end Renaming
end DictScript
