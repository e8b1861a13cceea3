import DictScript.Proofs.Renaming.Freezing

/-!
The operations on lists, dictionaries and natives under other numbers, one by one.
-/
namespace DictScript.Renaming
open Heap
variable {ws : List (List Value)} {h h' : Heap} {d e p : DictId} {v : Value} {vs : List Value}
variable {name n : String} {l : ListId} {ρ : Renaming} {c : DictCell} {xs : List (String × Value)}
variable {o : Option DictId}

namespace Heaps
variable (hh : ρ.Heaps ws h h')
include hh

theorem newDict (hslots : c.slots = .empty) (hparent : ∀ p, c.parent = some p → h.Allocated (.dict p))
    (hscope : ∀ p, c.scope = some p → h.Allocated (.dict p))
    (hcaller : ∀ p, c.caller = some p → h.Allocated (.dict p))
    (htarget : ∀ t, c.target = some t → h.Allocated (.dict t) ∧ (h.cell t).target = none) :
    ρ.After ws h (h.newDict c).1 (h'.newDict (c.rename ρ.map)).1 :=
  hh.edits (.single (.newDict c hslots hparent hscope hcaller htarget)) (hh.toObjects.newDict c)
    rfl rfl rfl rfl

/-- A dictionary without slots or links. -/
theorem newBare : ρ.After ws h (h.newDict {}).1 (h'.newDict {}).1 :=
  hh.newDict (c := {}) rfl nofun nofun nofun nofun

theorem newList (hvs : ∀ v ∈ vs, Has h.everything v) :
    ρ.After ws h (h.newList vs).1 (h'.newList (renameAll ρ.map vs)).1 :=
  hh.edits (.single (.newList vs hvs)) (hh.toObjects.newList vs) rfl rfl rfl rfl

theorem newNative {x : Native} (hx : ∀ r ∈ x.refs, h.Allocated r) :
    ρ.After ws h (h.newNative x).1 (h'.newNative (x.rename ρ.map)).1 :=
  hh.edits (.single (.newNative x hx)) (hh.toObjects.newNative x) rfl rfl rfl rfl

theorem newBlock (b b' : Block) : ρ.After ws h (h.newBlock b).1 (h'.newBlock b').1 :=
  hh.edits (.single (.newBlock b)) (hh.toObjects.newBlock b b') rfl rfl rfl rfl

theorem pushItem (hl : h.Allocated (.list l)) (hv : Has h.everything v) :
    ρ.After ws h (h.pushItem l v) (h'.pushItem l (v.rename ρ.map)) :=
  hh.edits (.single (.pushItem l v hl hv)) (hh.toObjects.pushItem hl v) rfl rfl rfl rfl

theorem put (hd : h.Allocated (.dict d)) (hv : Has h.everything v) (hn : Key.of n = .slot n) :
    ρ.After ws h (h.put d n v) (h'.put (ρ.map d) n (v.rename ρ.map)) := by
  have hobjects := hh.toObjects.modifyCell (fun c => { c with slots := c.slots.put n v })
    (fun c => { c with slots := c.slots.put n (v.rename ρ.map) }) (hh.complete.owner hd)
    (by simp only [DictCell.rename, Slots.rename_put]) rfl
  rw [← hh.owner] at hobjects
  exact hh.edits (.single (.put d n v hd hv hn)) hobjects rfl rfl rfl rfl

theorem link (hd : h.Allocated (.dict d)) (declared : Bool)
    (ho : ∀ p, o = some p → h.Allocated (.dict p)) :
    ρ.After ws h (h.link d o declared) (h'.link (ρ.map d) (o.map ρ.map) declared) :=
  hh.edits (.single (.link d o declared hd ho))
    (hh.toObjects.modifyCell (fun c => { c with parent := o, declared := declared }) _ hd rfl rfl)
    rfl rfl rfl rfl

theorem setCaller (hd : h.Allocated (.dict d)) (ho : ∀ c, o = some c → h.Allocated (.dict c)) :
    ρ.After ws h (h.setCaller d o) (h'.setCaller (ρ.map d) (o.map ρ.map)) :=
  hh.edits (.single (.setCaller d o hd ho))
    (hh.toObjects.modifyCell (fun c => { c with caller := o }) _ hd rfl rfl) rfl rfl rfl rfl

theorem setParent (hd : h.Allocated (.dict d)) (ho : ∀ p, o = some p → h.Allocated (.dict p)) :
    (h'.setParent (ρ.map d) (o.map ρ.map)).1 = (h.setParent d o).1 ∧
      ρ.After ws h (h.setParent d o).2 (h'.setParent (ρ.map d) (o.map ρ.map)).2 := by
  cases o with
  | none => exact ⟨rfl, hh.link hd false ho⟩
  | some p =>
    have hchain : (h'.chain (ρ.map p)).contains (ρ.map d) = (h.chain p).contains d := by
      rw [Bool.eq_iff_iff, List.contains_iff_mem, List.contains_iff_mem, hh.mem_chain]
    simp only [Option.map_some, Heap.setParent, hchain, hh.displayName]
    split
    · exact ⟨rfl, hh.here⟩
    · exact ⟨rfl, hh.link hd true ho⟩

theorem define (name : String) (hd : h.Allocated (.dict d)) (hv : Has h.everything v) :
    (h'.define (ρ.map d) name (v.rename ρ.map)).1 = (h.define d name v).1 ∧
      ρ.After ws h (h.define d name v).2 (h'.define (ρ.map d) name (v.rename ρ.map)).2 := by
  have hlink : ∀ {p : DictId}, v = .dict p → ∀ q, some p = some q → h.Allocated (.dict q) := by
    rintro p rfl q ⟨⟩
    exact has_dict.mp hv
  cases hkey : Key.of name with
  | slot n =>
    simp only [Heap.define, hkey]
    exact ⟨trivial, hh.put hd hv (Key.of_eq_slot hkey)⟩
  | parent =>
    cases v with
    | dict p =>
      simp only [Heap.define, hkey, Value.rename]
      exact hh.setParent (o := some p) hd (hlink rfl)
    | nil =>
      simp only [Heap.define, hkey, Value.rename]
      exact hh.setParent (o := none) hd (by simp)
    | _ =>
      simp only [Heap.define, hkey, Value.rename]
      exact ⟨by trivial, hh.here⟩
  | caller =>
    cases v with
    | dict c =>
      simp only [Heap.define, hkey, Value.rename]
      exact ⟨trivial, hh.setCaller (o := some c) hd (hlink rfl)⟩
    | nil =>
      simp only [Heap.define, hkey, Value.rename]
      exact ⟨trivial, hh.setCaller (o := none) hd (by simp)⟩
    | _ =>
      simp only [Heap.define, hkey, Value.rename]
      exact ⟨by trivial, hh.here⟩

theorem putAll (hd : h.Allocated (.dict d))
    (hxs : ∀ x ∈ xs, Key.of x.1 = .slot x.1 ∧ Has h.everything x.2) :
    ρ.After ws h (h.putAll d xs) (h'.putAll (ρ.map d) (renameSlots ρ.map xs)) := by
  induction xs generalizing h h' with
  | nil => exact hh.here
  | cons x xs ih =>
    obtain ⟨hn, hv⟩ := hxs x List.mem_cons_self
    have hput := hh.put hd hv hn
    refine .trans hput.becomes (ih hput.heaps (hput.becomes.allocated hd) fun y hy => ?_)
    obtain ⟨hm, hw⟩ := hxs y (List.mem_cons_of_mem _ hy)
    exact ⟨hm, hput.becomes.has hw⟩

/-- The slots of a dictionary can be copied. -/
theorem slots_fit (hd : h.Allocated (.dict d)) :
    ∀ x ∈ h.slots d, Key.of x.1 = .slot x.1 ∧ Has h.everything x.2 :=
  hh.region.slots hd

theorem frame (hd : h.Allocated (.dict d)) (he : h.Allocated (.dict e)) (name : Option String) :
    (h'.frame (ρ.map d) (ρ.map e) name).2 = ρ.map (h.frame d e name).2 ∧
      ρ.After ws h (h.frame d e name).1 (h'.frame (ρ.map d) (ρ.map e) name).1 := by
  let c : DictCell := { parent := some d, scope := some d, caller := some e, name := name }
  refine ⟨hh.newDict_id _ _, hh.newDict (c := c) rfl ?_ ?_ ?_ (by simp [c])⟩
  · rintro p ⟨⟩
    exact hd
  · rintro p ⟨⟩
    exact hd
  · rintro p ⟨⟩
    exact he

theorem view (hd : h.Allocated (.dict d)) (hp : h.Allocated (.dict p)) :
    (h'.view (ρ.map d) (ρ.map p)).2 = ρ.map (h.view d p).2 ∧
      ρ.After ws h (h.view d p).1 (h'.view (ρ.map d) (ρ.map p)).1 := by
  let c : DictCell :=
    { parent := some p, scope := some p, target := some (h.owner d), name := (h.cell d).name }
  have hview : h'.view (ρ.map d) (ρ.map p) = h'.newDict (c.rename ρ.map) := by
    rw [Heap.view, hh.owner, hh.cell]
    rfl
  rw [hview]
  refine ⟨hh.newDict_id _ _, hh.newDict (c := c) rfl ?_ ?_ (by simp [c]) ?_⟩
  · rintro q ⟨⟩
    exact hp
  · rintro q ⟨⟩
    exact hp
  · rintro t ⟨⟩
    exact ⟨hh.complete.owner hd, hh.region.tidy.target_owner d⟩

end Heaps
end DictScript.Renaming
