import DictScript.Proofs.Parents.Reading

/-!
Regions of a heap from which nothing leads out, and edits within one. What lies outside of the
region stays as it is, and what an edit makes belongs to it. Nothing is asked of the links: they may
lead in circles.
-/
namespace DictScript.Heap
variable {h k : Heap} {S T : Set Ref} {r : Ref} {d e p t : DictId} {l : ListId} {v : Value}
variable {name n : String} {s s' s'' : Scene}

structure Tidy (h : Heap) : Prop where
  target : ∀ d t, (h.cell d).target = some t → h.Allocated (.dict t) ∧ (h.cell t).target = none
  bare : ∀ d t, (h.cell d).target = some t → (h.cell d).slots = .empty
  ordinary : ∀ d, ∀ x ∈ (h.cell d).slots.toList, Key.of x.1 = .slot x.1

/-- Nothing leads out of `S`: its objects exist, and what they own or are linked to is in it. -/
structure Region (h : Heap) (S : Set Ref) : Prop where
  tidy : h.Tidy
  allocated : ∀ r ∈ S, h.Allocated r
  owned : ∀ r ∈ S, ∀ o ∈ h.owned r, o ∈ S
  parent : ∀ d p, .dict d ∈ S → (h.cell d).parent = some p → .dict p ∈ S
  caller : ∀ d c, .dict d ∈ S → (h.cell d).caller = some c → .dict c ∈ S

inductive Edit : Scene → Scene → Prop where
  | newDict {h : Heap} {S : Set Ref} (c : DictCell) : c.slots = .empty →
      (∀ p, c.parent = some p → .dict p ∈ S) → (∀ p, c.scope = some p → .dict p ∈ S) →
      (∀ p, c.caller = some p → .dict p ∈ S) →
      (∀ t, c.target = some t → .dict t ∈ S ∧ (h.cell t).target = none) →
      Edit (h, S) ((h.newDict c).1, insert (.dict (h.newDict c).2) S)
  | newList {h : Heap} {S : Set Ref} (vs : List Value) : (∀ v ∈ vs, Has S v) →
      Edit (h, S) ((h.newList vs).1, insert (.list (h.newList vs).2) S)
  | newNative {h : Heap} {S : Set Ref} (x : Native) : (∀ r ∈ x.refs, r ∈ S) →
      Edit (h, S) ((h.newNative x).1, insert (.native (h.newNative x).2) S)
  | newBlock {h : Heap} {S : Set Ref} (b : Block) : Edit (h, S) ((h.newBlock b).1, S)
  | pushItem {h : Heap} {S : Set Ref} (l : ListId) (v : Value) : .list l ∈ S → Has S v →
      Edit (h, S) (h.pushItem l v, S)
  | put {h : Heap} {S : Set Ref} (d : DictId) (n : String) (v : Value) : .dict d ∈ S → Has S v →
      Key.of n = .slot n → Edit (h, S) (h.put d n v, S)
  | erase {h : Heap} {S : Set Ref} (d : DictId) (n : String) : .dict d ∈ S →
      Edit (h, S) (h.eraseSlot d n, S)
  | link {h : Heap} {S : Set Ref} (d : DictId) (p : Option DictId) (declared : Bool) :
      .dict d ∈ S → (∀ q, p = some q → .dict q ∈ S) → Edit (h, S) (h.link d p declared, S)
  | setCaller {h : Heap} {S : Set Ref} (d : DictId) (c : Option DictId) : .dict d ∈ S →
      (∀ q, c = some q → .dict q ∈ S) → Edit (h, S) (h.setCaller d c, S)
  | setName {h : Heap} {S : Set Ref} (d : DictId) (n : Option String) : .dict d ∈ S →
      Edit (h, S) (h.setName d n, S)
  | setTag {h : Heap} {S : Set Ref} (d : DictId) (t : String) : .dict d ∈ S →
      Edit (h, S) (h.setTag d t, S)
  | hold {h : Heap} {S : Set Ref} (roots : List Value) (pins : List (List Value)) :
      Edit (h, S) ({ h with roots := roots, pins := pins }, S)

abbrev Edits : Scene → Scene → Prop := Relation.ReflTransGen Edit

theorem Edits.trans (hst : Edits s s') (htu : Edits s' s'') : Edits s s'' :=
  Relation.ReflTransGen.trans hst htu

theorem Edit.sub (he : Edit s s') : s.2 ⊆ s'.2 := by
  cases he with
  | newDict | newList | newNative => exact Set.subset_insert _ _
  | _ => exact subset_rfl

theorem Edits.sub (he : Edits s s') : s.2 ⊆ s'.2 := by
  induction he with
  | refl => exact subset_rfl
  | tail _ hstep ih => exact ih.trans hstep.sub

/-! What is there stays there. -/

theorem allocated_newDict (c : DictCell) :
    (h.newDict c).1.Allocated r ↔ r = .dict (h.newDict c).2 ∨ h.Allocated r := by
  cases r with
  | dict d =>
    obtain ⟨i⟩ := d
    simp only [Allocated, Heap.newDict, Array.size_push, Ref.dict.injEq, DictId.mk.injEq]
    omega
  | list l => simp [Allocated, Heap.newDict]
  | native n => simp [Allocated, Heap.newDict]

theorem allocated_newList (vs : List Value) :
    (h.newList vs).1.Allocated r ↔ r = .list (h.newList vs).2 ∨ h.Allocated r := by
  cases r with
  | list l =>
    obtain ⟨i⟩ := l
    simp only [Allocated, Heap.newList, Array.size_push, Ref.list.injEq, ListId.mk.injEq]
    omega
  | dict d => simp [Allocated, Heap.newList]
  | native n => simp [Allocated, Heap.newList]

theorem allocated_newNative (x : Native) :
    (h.newNative x).1.Allocated r ↔ r = .native (h.newNative x).2 ∨ h.Allocated r := by
  cases r with
  | native n =>
    obtain ⟨i⟩ := n
    simp only [Allocated, Heap.newNative, Array.size_push, Ref.native.injEq, NativeId.mk.injEq]
    omega
  | dict d => simp [Allocated, Heap.newNative]
  | list l => simp [Allocated, Heap.newNative]

theorem allocated_pushItem (l : ListId) (v : Value) :
    (h.pushItem l v).Allocated r ↔ h.Allocated r := by
  cases r <;> simp [Allocated, Heap.pushItem]

theorem allocated_modifyCell (d : DictId) (f : DictCell → DictCell) :
    (h.modifyCell d f).Allocated r ↔ h.Allocated r := by
  cases r <;> simp [Allocated, Heap.modifyCell]

theorem native?_newNative (x : Native) {n : NativeId} :
    (h.newNative x).1.native? n = if n.index = h.natives.size then some x else h.native? n := by
  simp [native?, Heap.newNative, Array.getElem?_push]

/-! Tidy cells. -/

theorem Tidy.target_owner (ht : h.Tidy) (d : DictId) : (h.cell (h.owner d)).target = none := by
  rw [owner]
  cases hd : (h.cell d).target with
  | none => exact hd
  | some t => exact (ht.target d t hd).2

theorem Tidy.names (ht : h.Tidy) {d : DictId} (hn : n ∈ h.names d) : Key.of n = .slot n := by
  obtain ⟨x, hx, rfl⟩ := List.mem_map.mp hn
  exact ht.ordinary _ x hx

/-- Changes within one dictionary that keep what it shows. -/
theorem Tidy.modifyCell (ht : h.Tidy) (hd : h.Allocated (.dict d)) {f : DictCell → DictCell}
    (htarget : (f (h.cell d)).target = (h.cell d).target)
    (hbare : (h.cell d).target ≠ none → (f (h.cell d)).slots = (h.cell d).slots)
    (hslots : ∀ x ∈ (f (h.cell d)).slots.toList, Key.of x.1 = .slot x.1) :
    (h.modifyCell d f).Tidy := by
  have hcell : ∀ e, (h.modifyCell d f).cell e = if e = d then f (h.cell d) else h.cell e :=
    fun e => cell_modifyCell hd
  have htargets : ∀ e, ((h.modifyCell d f).cell e).target = (h.cell e).target := by
    intro e
    rw [hcell]
    split
    · rename_i he
      rw [htarget, he]
    · rfl
  refine ⟨fun e t he => ?_, fun e t he => ?_, fun e x hx => ?_⟩
  · rw [htargets] at he ⊢
    simpa [Allocated, Heap.modifyCell] using ht.target e t he
  · rw [htargets] at he
    rw [hcell]
    split
    · rename_i heq
      subst heq
      rw [hbare (by simp [he])]
      exact ht.bare e t he
    · exact ht.bare e t he
  · rw [hcell] at hx
    split at hx
    · exact hslots x hx
    · exact ht.ordinary e x hx

theorem Tidy.newDict (ht : h.Tidy) {c : DictCell} (hslots : c.slots = .empty)
    (htarget : ∀ t, c.target = some t → h.Allocated (.dict t) ∧ (h.cell t).target = none) :
    (h.newDict c).1.Tidy := by
  have hold : ∀ {t : DictId}, h.Allocated (.dict t) → (h.newDict c).1.cell t = h.cell t :=
    fun hmade => cell_newDict_of_allocated c hmade
  refine ⟨fun e t he => ?_, fun e t he => ?_, fun e x hx => ?_⟩
  · have hshown : h.Allocated (.dict t) ∧ (h.cell t).target = none := by
      rw [cell_newDict] at he
      split at he
      · exact htarget t he
      · exact ht.target e t he
    exact ⟨(allocated_newDict c).mpr (.inr hshown.1), hold hshown.1 ▸ hshown.2⟩
  · rw [cell_newDict] at he ⊢
    split at he
    · rw [if_pos ‹_›, hslots]
    · rw [if_neg ‹_›, ht.bare e t he]
  · rw [cell_newDict] at hx
    split at hx
    · rw [hslots] at hx
      exact (List.not_mem_nil hx).elim
    · exact ht.ordinary e x hx

theorem Tidy.congr (ht : h.Tidy) (hdicts : k.dicts = h.dicts) : k.Tidy := by
  have hcell : ∀ d, k.cell d = h.cell d := fun d => cell_congr hdicts
  refine ⟨fun d t hd => ?_, fun d t hd => ?_, fun d x hx => ?_⟩
  · rw [hcell] at hd ⊢
    rw [Allocated, hdicts]
    exact ht.target d t hd
  · rw [hcell] at hd ⊢
    exact ht.bare d t hd
  · rw [hcell] at hx
    exact ht.ordinary d x hx

/-! Regions. -/

namespace Region
variable (hS : h.Region S)
include hS

theorem owner (hd : .dict d ∈ S) : .dict (h.owner d) ∈ S := by
  rw [Heap.owner]
  cases ht : (h.cell d).target with
  | none => exact hd
  | some t => exact hS.owned _ hd _ (by simp [Heap.owned, DictCell.refs, ht])

theorem inherits (hd : .dict d ∈ S) (hp : h.Inherits d p) : .dict p ∈ S :=
  hS.parent d p hd (Option.filter_eq_some_iff.mp hp).1

theorem ancestor (hd : .dict d ∈ S) (he : Relation.ReflTransGen h.Inherits d e) :
    .dict e ∈ S := by
  induction he with
  | refl => exact hd
  | tail _ hstep ih => exact hS.inherits ih hstep

theorem find (hd : .dict d ∈ S) (he : h.find d name = some e) : .dict e ∈ S :=
  hS.ancestor hd (inherits_of_findFrom he)

theorem anchor (hd : .dict d ∈ S) : .dict (h.anchor d) ∈ S := by
  obtain ⟨e, hde, he⟩ := h.anchorFrom_eq_or (h.dicts.size + 1) d
  have hmem := hS.ancestor hd hde
  rw [Heap.anchor]
  cases he with
  | inl he => exact he ▸ hmem
  | inr he => exact he ▸ hS.owner hmem

theorem has_slot (hd : .dict d ∈ S) (hv : (n, v) ∈ h.slots d) : Has S v := by
  intro r hr
  exact hS.owned _ (hS.owner hd) r (DictCell.mem_refs_of_slot hv hr)

theorem has_item (hl : .list l ∈ S) (hv : v ∈ h.items l) : Has S v :=
  fun r hr => hS.owned _ hl r (mem_allRefs.mpr ⟨v, hv, hr⟩)

theorem has_get (hd : .dict d ∈ S) (name : String) : Has S (h.get d name) := by
  have hlink : ∀ link : Option DictId, (∀ p, link = some p → .dict p ∈ S) →
      Has S (linkValue link) := by
    intro link hlink
    cases link with
    | none => exact fun r hr => (List.not_mem_nil hr).elim
    | some p => exact has_dict.mpr (hlink p rfl)
  rw [Heap.get]
  split
  · exact hlink _ fun p hp => hS.inherits hd hp
  · exact hlink _ fun c hc => hS.caller d c hd (Option.filter_eq_some_iff.mp hc).1
  · rename_i m _
    cases hlookup : (h.slots d).lookup m with
    | none => exact fun r hr => (List.not_mem_nil hr).elim
    | some v => exact hS.has_slot hd (lookup_slots_iff.mp hlookup)

theorem has_resolve (hd : .dict d ∈ S) (name : String) : Has S (h.resolve d name) := by
  rw [Heap.resolve]
  cases he : h.find d name with
  | none => exact fun r hr => (List.not_mem_nil hr).elim
  | some e => exact hS.has_get (hS.find hd he) name

/-! What an edit leaves is a region again. -/

theorem modifyCell (hd : .dict d ∈ S) {f : DictCell → DictCell}
    (htarget : (f (h.cell d)).target = (h.cell d).target)
    (hbare : (h.cell d).target ≠ none → (f (h.cell d)).slots = (h.cell d).slots)
    (hslots : ∀ x ∈ (f (h.cell d)).slots.toList, Key.of x.1 = .slot x.1 ∧ Has S x.2)
    (hscope : (f (h.cell d)).scope = (h.cell d).scope)
    (hparent : ∀ p, (f (h.cell d)).parent = some p → .dict p ∈ S)
    (hcaller : ∀ c, (f (h.cell d)).caller = some c → .dict c ∈ S) :
    (h.modifyCell d f).Region S := by
  have hmade := hS.allocated _ hd
  have hcell : ∀ e, (h.modifyCell d f).cell e = if e = d then f (h.cell d) else h.cell e :=
    fun e => cell_modifyCell hmade
  refine ⟨hS.tidy.modifyCell hmade htarget hbare fun x hx => (hslots x hx).1,
    fun r hr => (allocated_modifyCell d f).mpr (hS.allocated r hr), fun r hr o ho => ?_,
    fun e p he hp => ?_, fun e c he hc => ?_⟩
  · cases r with
    | list l => exact hS.owned _ hr o ho
    | native x => exact hS.owned _ hr o ho
    | dict e =>
      rw [Heap.owned, hcell] at ho
      split at ho
      · rename_i heq
        subst heq
        obtain ⟨x, hx, ho⟩ | hold := DictCell.mem_slot_or_refs hscope htarget ho
        · exact (hslots x hx).2 o ho
        · exact hS.owned _ hr o hold
      · exact hS.owned _ hr o ho
  · rw [hcell] at hp
    split at hp
    · exact hparent p hp
    · exact hS.parent e p he hp
  · rw [hcell] at hc
    split at hc
    · exact hcaller c hc
    · exact hS.caller e c he hc

/-- A change to the slots of a dictionary is one to its owner's. -/
theorem modifySlots (hd : .dict d ∈ S) {f : Slots → Slots}
    (hslots : ∀ x ∈ (f (h.cell (h.owner d)).slots).toList,
      x ∈ (h.cell (h.owner d)).slots.toList ∨ Key.of x.1 = .slot x.1 ∧ Has S x.2) :
    (h.modifyCell (h.owner d) fun c => { c with slots := f c.slots }).Region S := by
  have hmem := hS.owner hd
  refine hS.modifyCell hmem rfl (fun hview => absurd (hS.tidy.target_owner d) hview) ?_ rfl
    (fun p => hS.parent _ p hmem) fun c => hS.caller _ c hmem
  intro x hx
  cases hslots x hx with
  | inr hnew => exact hnew
  | inl hold =>
    refine ⟨hS.tidy.ordinary _ x hold, fun r hr => hS.owned _ hmem r ?_⟩
    exact DictCell.mem_refs_of_slot hold hr

/-- A change to the links of a dictionary, its name or its tag. -/
theorem modifyLinks (hd : .dict d ∈ S) {f : DictCell → DictCell}
    (hsame : (f (h.cell d)).target = (h.cell d).target ∧ (f (h.cell d)).slots = (h.cell d).slots ∧
      (f (h.cell d)).scope = (h.cell d).scope)
    (hparent : ∀ p, (f (h.cell d)).parent = some p → .dict p ∈ S)
    (hcaller : ∀ c, (f (h.cell d)).caller = some c → .dict c ∈ S) :
    (h.modifyCell d f).Region S := by
  obtain ⟨htarget, hslots, hscope⟩ := hsame
  refine hS.modifyCell hd htarget (fun _ => hslots) (fun x hx => ?_) hscope hparent hcaller
  rw [hslots] at hx
  refine ⟨hS.tidy.ordinary _ x hx, fun r hr => hS.owned _ hd r ?_⟩
  exact DictCell.mem_refs_of_slot hx hr

theorem newDict {c : DictCell} (hslots : c.slots = .empty)
    (hparent : ∀ p, c.parent = some p → .dict p ∈ S)
    (hscope : ∀ p, c.scope = some p → .dict p ∈ S)
    (hcaller : ∀ p, c.caller = some p → .dict p ∈ S)
    (htarget : ∀ t, c.target = some t → .dict t ∈ S ∧ (h.cell t).target = none) :
    (h.newDict c).1.Region (insert (.dict (h.newDict c).2) S) := by
  have hcell : ∀ {e : DictId}, .dict e ∈ S → (h.newDict c).1.cell e = h.cell e :=
    fun he => cell_newDict_of_allocated c (hS.allocated _ he)
  have hself : (h.newDict c).1.cell (h.newDict c).2 = c := by
    rw [cell_newDict]
    exact if_pos rfl
  refine ⟨hS.tidy.newDict hslots fun t ht => ?_, fun r hr => ?_, fun r hr o ho => ?_,
    fun e p he hp => ?_, fun e p he hp => ?_⟩
  · exact ⟨hS.allocated _ (htarget t ht).1, (htarget t ht).2⟩
  · exact (allocated_newDict c).mpr (hr.imp_right (hS.allocated r))
  · refine .inr ?_
    cases hr with
    | inl heq =>
      rw [heq, Heap.owned, hself, DictCell.refs, hslots] at ho
      simp only [Slots.empty, List.flatMap_nil, List.nil_append, List.mem_append, List.mem_map,
        Option.mem_toList] at ho
      obtain ⟨p, hp, rfl⟩ | ⟨t, ht, rfl⟩ := ho
      · exact hscope p hp
      · exact (htarget t ht).1
    | inr hr =>
      cases r with
      | dict e =>
        rw [Heap.owned, hcell hr] at ho
        exact hS.owned _ hr o ho
      | list l => exact hS.owned _ hr o ho
      | native n => exact hS.owned _ hr o ho
  · refine .inr ?_
    cases he with
    | inl heq =>
      cases heq
      exact hparent p (hself ▸ hp)
    | inr he => exact hS.parent e p he (hcell he ▸ hp)
  · refine .inr ?_
    cases he with
    | inl heq =>
      cases heq
      exact hcaller p (hself ▸ hp)
    | inr he => exact hS.caller e p he (hcell he ▸ hp)

/-- No dictionary changes, and what is new is no dictionary. -/
theorem same_dicts (hdicts : k.dicts = h.dicts) (hdict : ∀ d, .dict d ∈ T → .dict d ∈ S)
    (hsub : S ⊆ T) (hmade : ∀ r ∈ T, k.Allocated r) (howned : ∀ r ∈ T, ∀ o ∈ k.owned r, o ∈ T) :
    k.Region T where
  tidy := hS.tidy.congr hdicts
  allocated := hmade
  owned := howned
  parent d p hd hp := hsub (hS.parent d p (hdict d hd) (cell_congr hdicts ▸ hp))
  caller d c hd hc := hsub (hS.caller d c (hdict d hd) (cell_congr hdicts ▸ hc))

theorem newList {vs : List Value} (hvs : ∀ v ∈ vs, Has S v) :
    (h.newList vs).1.Region (insert (.list (h.newList vs).2) S) := by
  refine hS.same_dicts rfl (fun d hd => hd.resolve_left (by simp)) (Set.subset_insert _ _)
    (fun r hr => ?_) fun r hr o ho => .inr ?_
  · exact (allocated_newList vs).mpr (hr.imp_right (hS.allocated r))
  · cases hr with
    | inl heq =>
      rw [heq, Heap.owned, items_newList_self] at ho
      obtain ⟨v, hv, ho⟩ := mem_allRefs.mp ho
      exact hvs v hv o ho
    | inr hr =>
      cases r with
      | list l =>
        rw [Heap.owned, items_newList_of_allocated vs (hS.allocated _ hr)] at ho
        exact hS.owned _ hr o ho
      | dict d => exact hS.owned _ hr o ho
      | native n => exact hS.owned _ hr o ho

theorem newNative {x : Native} (hx : ∀ r ∈ x.refs, r ∈ S) :
    (h.newNative x).1.Region (insert (.native (h.newNative x).2) S) := by
  refine hS.same_dicts rfl (fun d hd => hd.resolve_left (by simp)) (Set.subset_insert _ _)
    (fun r hr => ?_) fun r hr o ho => .inr ?_
  · exact (allocated_newNative x).mpr (hr.imp_right (hS.allocated r))
  · cases hr with
    | inl heq =>
      have hlast : (h.newNative x).2.index = h.natives.size := rfl
      rw [heq, Heap.owned, native?_newNative, if_pos hlast] at ho
      exact hx o ho
    | inr hr =>
      cases r with
      | native n =>
        rw [Heap.owned, native?_newNative, if_neg (Nat.ne_of_lt (hS.allocated _ hr))] at ho
        exact hS.owned _ hr o ho
      | dict d => exact hS.owned _ hr o ho
      | list l => exact hS.owned _ hr o ho

theorem pushItem (hl : .list l ∈ S) (hv : Has S v) : (h.pushItem l v).Region S := by
  refine hS.same_dicts rfl (fun d hd => hd) subset_rfl (fun r hr => ?_) fun r hr o ho => ?_
  · exact (allocated_pushItem l v).mpr (hS.allocated r hr)
  · cases r with
    | list m =>
      rw [Heap.owned, items_pushItem (hS.allocated _ hl)] at ho
      split at ho
      · obtain ⟨w, hw, ho⟩ := mem_allRefs.mp ho
        cases List.mem_append.mp hw with
        | inl hw => exact hS.has_item hl hw o ho
        | inr hw => exact hv o (List.mem_singleton.mp hw ▸ ho)
      · exact hS.owned _ hr o ho
    | dict d => exact hS.owned _ hr o ho
    | native n => exact hS.owned _ hr o ho

/-- A region is about objects, whatever is held. -/
theorem same_objects (hlists : k.lists = h.lists) (hdicts : k.dicts = h.dicts)
    (hnatives : k.natives = h.natives) : k.Region S := by
  refine hS.same_dicts hdicts (fun _ hd => hd) subset_rfl (fun r hr => ?_) fun r hr o ho => ?_
  · have hmade := hS.allocated r hr
    cases r <;> simpa only [Allocated, hlists, hdicts, hnatives] using hmade
  · refine hS.owned r hr o ?_
    cases r <;>
      simpa only [Heap.owned, items, cell, native?, hlists, hdicts, hnatives] using ho

end Region

theorem Edit.region (he : Edit s s') (hS : s.1.Region s.2) : s'.1.Region s'.2 := by
  cases he with
  | newDict c hslots hparent hscope hcaller htarget =>
    exact hS.newDict hslots hparent hscope hcaller htarget
  | newList vs hvs => exact hS.newList hvs
  | newNative x hx => exact hS.newNative hx
  | newBlock b => exact hS.same_objects rfl rfl rfl
  | pushItem l v hl hv => exact hS.pushItem hl hv
  | put d n v hd hv hn =>
    refine hS.modifySlots (f := fun xs => xs.put n v) hd fun x hx => ?_
    refine (mem_of_mem_putSlot hx).imp_right ?_
    rintro rfl
    exact ⟨hn, hv⟩
  | erase d n hd =>
    exact hS.modifySlots (f := fun xs => xs.erase n) hd fun x hx => .inl (List.mem_of_mem_filter hx)
  | link d p declared hd hp =>
    exact hS.modifyLinks hd ⟨rfl, rfl, rfl⟩ hp fun c => hS.caller d c hd
  | setCaller d c hd hc =>
    exact hS.modifyLinks hd ⟨rfl, rfl, rfl⟩ (fun p => hS.parent d p hd) hc
  | setName d n hd =>
    exact hS.modifyLinks hd ⟨rfl, rfl, rfl⟩ (fun p => hS.parent d p hd) fun c => hS.caller d c hd
  | setTag d t hd =>
    exact hS.modifyLinks hd ⟨rfl, rfl, rfl⟩ (fun p => hS.parent d p hd) fun c => hS.caller d c hd
  | hold roots pins => exact hS.same_objects rfl rfl rfl

theorem Edits.region (he : Edits s s') (hS : s.1.Region s.2) : s'.1.Region s'.2 := by
  induction he with
  | refl => exact hS
  | tail _ hstep ih => exact hstep.region ih

end DictScript.Heap
