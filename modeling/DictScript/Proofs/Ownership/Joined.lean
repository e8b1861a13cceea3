import DictScript.Proofs.Frozen.Additions
import DictScript.Proofs.Ownership.Enlarged
import DictScript.Proofs.Regions.Edits

/-!
Heaps that grow by objects which are filled after they were made. Nothing that was dead is taken
into them, so that what was there lives on, or stays dead, as before.
-/
namespace DictScript.Heap
variable {h m k : Heap} {r o : Ref} {d e p : DictId} {l : ListId} {v w : Value} {name : String}
variable {inner : List (List Value)}

/-- What may be taken into new objects of `k`: what is there by now, and lived in `h` if it was
there already. -/
def Usable (h k : Heap) (v : Value) : Prop :=
  ∀ r ∈ v.refs, k.Allocated r ∧ (h.Allocated r → h.Living h.heldRefs r)

structure Joined (inner : List (List Value)) (h k : Heap) : Prop where
  widened : Widened h k
  complete : k.Complete
  fresh : ∀ o, ¬ h.Allocated o → ∀ r ∈ k.owned o, h.Allocated r → h.Living h.heldRefs r
  roots : k.roots = h.roots
  pins : k.pins = inner ++ h.pins
  inner : ∀ vs ∈ inner, ∀ v ∈ vs, h.Usable k v

theorem usable_of_refs (hv : v.refs = []) : h.Usable k v := by
  intro r hr
  rw [hv] at hr
  exact absurd hr List.not_mem_nil

theorem usable_of_new (hnew : ¬ h.Allocated r) (hr : k.Allocated r) (hv : v.refs = [r]) :
    h.Usable k v := by
  intro s hs
  rw [hv] at hs
  rw [List.mem_singleton.mp hs]
  exact ⟨hr, fun hold => absurd hold hnew⟩

theorem Usable.mono (hv : h.Usable m v) (hgrow : ∀ r, m.Allocated r → k.Allocated r) :
    h.Usable k v :=
  fun r hr => ⟨hgrow r (hv r hr).1, (hv r hr).2⟩

theorem Usable.sub (hv : h.Usable k v) (hw : ∀ r ∈ w.refs, r ∈ v.refs) : h.Usable k w :=
  fun r hr => hv r (hw r hr)

theorem usable_self (hh : h.Complete) (hd : h.Living h.heldRefs (.dict d)) :
    h.Usable h (.dict d) := by
  intro r hr
  obtain rfl := List.mem_singleton.mp hr
  exact ⟨hh.allocated_of_living hd, fun _ => hd⟩

theorem Usable.dict (hd : h.Usable k (.dict d)) :
    k.Allocated (.dict d) ∧ (h.Allocated (.dict d) → h.Living h.heldRefs (.dict d)) :=
  hd _ (List.mem_singleton_self _)

namespace Joined

theorem refl (hh : h.Complete) : Joined [] h h where
  widened := .of_same rfl rfl List.prefix_rfl
  complete := hh
  fresh o ho r hr := by
    rw [owned_of_not_allocated ho] at hr
    exact absurd hr List.not_mem_nil
  roots := rfl
  pins := rfl
  inner := List.forall_mem_nil _

variable (hk : Joined inner h k)
include hk

theorem allocated (hr : h.Allocated r) : k.Allocated r := by
  cases r with
  | list l => exact Nat.lt_of_lt_of_le hr hk.widened.lists
  | dict d => exact Nat.lt_of_lt_of_le hr hk.widened.dicts
  | native n => exact Nat.lt_of_lt_of_le hr hk.widened.natives_size

theorem cell (hd : h.Allocated (.dict d)) : k.cell d = h.cell d :=
  hk.widened.cell d hd nofun

theorem items (hl : h.Allocated (.list l)) : k.items l = h.items l :=
  hk.widened.items l hl nofun

theorem native (n : NativeId) (hn : h.Allocated (.native n)) : k.native? n = h.native? n := by
  have hsome : h.native? n = some h.natives[n.index] := Array.getElem?_eq_getElem hn
  rw [hsome]
  exact native?_mono hk.widened.natives hsome

theorem owned (ho : h.Allocated o) : k.owned o = h.owned o := by
  cases o with
  | list l => rw [Heap.owned, Heap.owned, hk.items ho]
  | dict d => rw [Heap.owned, Heap.owned, hk.cell ho]
  | native n => rw [Heap.owned, Heap.owned, hk.native n ho]

theorem owned_or_living (hr : r ∈ k.owned o) (hold : h.Allocated r) :
    r ∈ h.owned o ∨ h.Living h.heldRefs r := by
  by_cases ho : h.Allocated o
  · exact .inl (hk.owned ho ▸ hr)
  · exact .inr (hk.fresh o ho r hr hold)

theorem held (hr : r ∈ h.heldRefs) : r ∈ k.heldRefs := by
  rw [mem_heldRefs] at hr ⊢
  rw [hk.roots, hk.pins]
  refine hr.imp_right ?_
  rintro ⟨vs, hvs, hr⟩
  exact ⟨vs, List.mem_append_right _ hvs, hr⟩

theorem living_of_held (hr : r ∈ k.heldRefs) (hold : h.Allocated r) : h.Living h.heldRefs r := by
  rw [mem_heldRefs, hk.roots, hk.pins] at hr
  obtain hroots | ⟨vs, hvs, v, hv, hr⟩ := hr
  · exact living_of_mem (mem_heldRefs.mpr (.inl hroots))
  · cases List.mem_append.mp hvs with
    | inl hvs => exact (hk.inner vs hvs v hv r hr).2 hold
    | inr hvs => exact living_of_mem (mem_heldRefs.mpr (.inr ⟨vs, hvs, v, hv, hr⟩))

/-- What is dead is not brought back. -/
theorem living_before (hr : k.Living k.heldRefs r) (hold : h.Allocated r) :
    h.Living h.heldRefs r :=
  hr.back (fun _ => hk.living_of_held) (fun _ _ => hk.owned_or_living) hold

theorem living_after (hr : h.Living h.heldRefs r) : k.Living k.heldRefs r := by
  obtain ⟨S, hrS, hS⟩ := hr
  refine ⟨S, hrS, fun s hs => (hS s hs).imp hk.held ?_⟩
  rintro ⟨o, ho, hso⟩
  refine ⟨o, ho, ?_⟩
  rwa [hk.owned]
  by_contra hnot
  rw [owned_of_not_allocated hnot] at hso
  exact absurd hso List.not_mem_nil

theorem usable_of_living (hr : k.Living k.heldRefs r) (hv : v.refs = [r])
    (hmade : k.Allocated r) : h.Usable k v := by
  intro s hs
  rw [hv] at hs
  rw [List.mem_singleton.mp hs]
  exact ⟨hmade, hk.living_before hr⟩

/-- What usable objects own is usable. -/
theorem usable_of_owned (ho : k.Allocated o) (hlive : h.Allocated o → h.Living h.heldRefs o)
    (hw : ∀ r ∈ w.refs, r ∈ k.owned o) : h.Usable k w := by
  intro r hr
  refine ⟨hk.complete.owned o ho r (hw r hr), fun hold => ?_⟩
  by_cases hmade : h.Allocated o
  · exact (hlive hmade).owned (hk.owned hmade ▸ hw r hr)
  · exact hk.fresh o hmade r (hw r hr) hold

/-! What was there is seen as before. -/

variable (hh : h.Complete)
include hh

theorem alive (hd : h.Allocated (.dict d)) : k.alive d = h.alive d := by
  rw [Bool.eq_iff_iff, hk.complete.alive_iff (hk.allocated hd), hh.alive_iff hd]
  exact ⟨fun hlive => hk.living_before hlive hd, hk.living_after⟩

theorem parent (hd : h.Allocated (.dict d)) : k.parent d = h.parent d := by
  rw [Heap.parent, Heap.parent, hk.cell hd]
  cases hp : (h.cell d).parent with
  | none => rfl
  | some p => simp only [Option.filter_some, hk.alive hh (hh.parent d p hp)]

theorem caller (hd : h.Allocated (.dict d)) : k.caller d = h.caller d := by
  rw [Heap.caller, Heap.caller, hk.cell hd]
  cases hc : (h.cell d).caller with
  | none => rfl
  | some c => simp only [Option.filter_some, hk.alive hh (hh.caller d c hc)]

theorem slots (hd : h.Allocated (.dict d)) : k.slots d = h.slots d :=
  slots_congr (hk.cell hd) (hk.cell (hh.owner hd))

end Joined

/-! The links and slots of what is usable are usable. -/

theorem usable_link {link : Option DictId} (hlink : ∀ p, link = some p → h.Usable k (.dict p)) :
    h.Usable k (linkValue link) := by
  cases link with
  | none => exact usable_of_refs rfl
  | some p => exact hlink p rfl

namespace Joined
variable (hk : Joined inner h k)
include hk

theorem usable_parent (hd : h.Usable k (.dict d)) (hp : k.parent d = some p) :
    h.Usable k (.dict p) := by
  obtain ⟨hraw, hholds⟩ := Option.filter_eq_some_iff.mp hp
  have hmade := hk.complete.parent d p hraw
  rw [Bool.or_eq_true, decide_eq_true_eq] at hholds
  cases hholds with
  | inl hscope =>
    refine hk.usable_of_owned hd.dict.1 hd.dict.2 fun r hr => ?_
    rw [List.mem_singleton.mp hr]
    simp [Heap.owned, DictCell.refs, hscope]
  | inr halive => exact hk.usable_of_living ((hk.complete.alive_iff hmade).mp halive) rfl hmade

theorem usable_caller {c : DictId} (hc : k.caller d = some c) : h.Usable k (.dict c) := by
  obtain ⟨hraw, halive⟩ := Option.filter_eq_some_iff.mp hc
  have hmade := hk.complete.caller d c hraw
  exact hk.usable_of_living ((hk.complete.alive_iff hmade).mp halive) rfl hmade

theorem usable_owner (hd : h.Usable k (.dict d)) : h.Usable k (.dict (k.owner d)) := by
  rw [owner]
  cases ht : (k.cell d).target with
  | none => exact hd
  | some t =>
    refine hk.usable_of_owned hd.dict.1 hd.dict.2 fun r hr => ?_
    rw [List.mem_singleton.mp hr]
    simp [Heap.owned, DictCell.refs, ht]

theorem usable_get (hd : h.Usable k (.dict d)) (name : String) : h.Usable k (k.get d name) := by
  rw [get]
  split
  · exact usable_link fun p => hk.usable_parent hd
  · exact usable_link fun p => hk.usable_caller
  · rename_i n _
    cases hv : (k.slots d).lookup n with
    | none => exact usable_of_refs rfl
    | some v =>
      have howner := (hk.usable_owner hd).dict
      obtain ⟨before, behind, hslots, -⟩ := List.lookup_eq_some_iff.mp hv
      have hmem : (n, v) ∈ k.slots d := hslots ▸ List.mem_append_right _ List.mem_cons_self
      exact hk.usable_of_owned howner.1 howner.2 fun r => DictCell.mem_refs_of_slot hmem

theorem usable_resolve (hd : h.Usable k (.dict d)) (name : String) :
    h.Usable k (k.resolve d name) := by
  rw [resolve]
  cases he : k.find d name with
  | none => exact usable_of_refs rfl
  | some e =>
    have hchain : ∀ e, Relation.ReflTransGen k.Inherits d e → h.Usable k (.dict e) := by
      intro e he
      induction he with
      | refl => exact hd
      | tail _ hstep ih => exact hk.usable_parent ih hstep
    exact hk.usable_get (hchain e (inherits_of_findFrom he)) name

end Joined

/-! The steps by which a heap grows. -/

theorem widened_newNative (k : Heap) (x : Native) : Widened k (k.newNative x).1 := by
  refine .of_same rfl rfl ?_
  rw [newNative, Array.toList_push]
  exact List.prefix_append _ _

namespace Joined
variable (hk : Joined inner h k)
include hk

/-- Whatever is owned or linked to anew is usable. -/
theorem step (hm : Widened h m) (hgrow : ∀ r, k.Allocated r → m.Allocated r)
    (howned : ∀ o, ∀ r ∈ m.owned o, r ∈ k.owned o ∨
      m.Allocated r ∧ (h.Allocated r → h.Living h.heldRefs r))
    (hparent : ∀ d p, (m.cell d).parent = some p → (k.cell d).parent = some p ∨
      k.Allocated (.dict p))
    (hcaller : ∀ d c, (m.cell d).caller = some c → (k.cell d).caller = some c ∨
      k.Allocated (.dict c))
    (hroots : m.roots = k.roots) (hpins : m.pins = k.pins) : Joined inner h m where
  widened := hm
  complete :=
    { held := fun r hr => hgrow r (hk.complete.held r (by
        rw [mem_heldRefs] at hr ⊢
        rwa [hroots, hpins] at hr))
      owned := fun o _ r hr => by
        cases howned o r hr with
        | inr hnew => exact hnew.1
        | inl hold =>
          refine hgrow r (hk.complete.owned o ?_ r hold)
          by_contra hnot
          rw [owned_of_not_allocated hnot] at hold
          exact absurd hold List.not_mem_nil
      parent := fun d p hp => hgrow _ ((hparent d p hp).elim (hk.complete.parent d p) id)
      caller := fun d c hc => hgrow _ ((hcaller d c hc).elim (hk.complete.caller d c) id) }
  fresh o ho r hr hold := by
    cases howned o r hr with
    | inl hr => exact hk.fresh o ho r hr hold
    | inr hnew => exact hnew.2 hold
  roots := hroots.trans hk.roots
  pins := hpins.trans hk.pins
  inner vs hvs v hv := (hk.inner vs hvs v hv).mono hgrow

/-- Other objects with nothing new in them. -/
theorem same (hlists : m.lists = k.lists) (hdicts : m.dicts = k.dicts)
    (hnatives : m.natives = k.natives) (hroots : m.roots = k.roots) (hpins : m.pins = k.pins) :
    Joined inner h m := by
  have hcell : ∀ d, m.cell d = k.cell d := fun d => cell_congr hdicts
  have howned : ∀ o, m.owned o = k.owned o := by
    intro o
    cases o with
    | list l => rw [Heap.owned, Heap.owned, items_congr hlists]
    | dict d => rw [Heap.owned, Heap.owned, hcell]
    | native n => rw [Heap.owned, Heap.owned, native?, native?, hnatives]
  refine hk.step (hk.widened.trans (.of_same hlists hdicts (hnatives ▸ List.prefix_rfl)))
    (fun r hr => ?_) (fun o r hr => .inl (howned o ▸ hr)) (fun d p hp => .inl (hcell d ▸ hp))
    (fun d c hc => .inl (hcell d ▸ hc)) hroots hpins
  cases r with
  | list l => rwa [Allocated, hlists]
  | dict d => rwa [Allocated, hdicts]
  | native n => rwa [Allocated, hnatives]

/-- Other values are held besides. -/
theorem repin {inner' : List (List Value)} (hinner : ∀ vs ∈ inner', ∀ v ∈ vs, h.Usable k v) :
    Joined inner' h { k with pins := inner' ++ h.pins } where
  widened := hk.widened.trans (.of_same rfl rfl List.prefix_rfl)
  complete :=
    { hk.complete with
      held := by
        intro r hr
        obtain hroots | ⟨vs, hvs, v, hv, hr⟩ := mem_heldRefs.mp hr
        · exact hk.complete.held r (mem_heldRefs.mpr (.inl hroots))
        · cases List.mem_append.mp hvs with
          | inl hvs => exact (hinner vs hvs v hv r hr).1
          | inr hvs =>
            exact hk.complete.held r (hk.held (mem_heldRefs.mpr (.inr ⟨vs, hvs, v, hv, hr⟩))) }
  fresh := hk.fresh
  roots := hk.roots
  pins := rfl
  inner := hinner

theorem newDict {c : DictCell} (hrefs : c.refs = [])
    (hparent : ∀ p, c.parent = some p → k.Allocated (.dict p)) (hcaller : c.caller = none) :
    Joined inner h (k.newDict c).1 := by
  refine hk.step (hk.widened.trans ((grown_newDict k c).widened rfl))
    (fun r hr => (allocated_newDict c).mpr (.inr hr)) (fun o r hr => .inl ?_) (fun d p hp => ?_)
    (fun d e he => ?_) rfl rfl
  · cases o with
    | dict d =>
      rw [Heap.owned, cell_newDict] at hr
      split at hr
      · rw [hrefs] at hr
        cases hr
      · exact hr
    | _ => exact hr
  · rw [cell_newDict] at hp
    split at hp
    · exact .inr (hparent p hp)
    · exact .inl hp
  · rw [cell_newDict] at he
    split at he
    · rw [hcaller] at he
      cases he
    · exact .inl he

theorem newList : Joined inner h (k.newList []).1 := by
  refine hk.step (hk.widened.trans ((grown_newList k []).widened rfl))
    (fun r hr => (allocated_newList []).mpr (.inr hr)) (fun o r hr => .inl ?_)
    (fun _ _ => .inl) (fun _ _ => .inl) rfl rfl
  cases o with
  | list l =>
    rw [Heap.owned, items_newList] at hr
    split at hr
    · cases hr
    · exact hr
  | _ => exact hr

theorem newNative {x : Native} (hx : x.refs = []) : Joined inner h (k.newNative x).1 := by
  refine hk.step (hk.widened.trans (widened_newNative k x))
    (fun r hr => (allocated_newNative x).mpr (.inr hr)) (fun o r hr => .inl ?_)
    (fun _ _ => .inl) (fun _ _ => .inl) rfl rfl
  cases o with
  | native n =>
    rw [Heap.owned, native?_newNative] at hr
    split at hr
    · rw [Option.map_some, Option.getD_some, hx] at hr
      cases hr
    · exact hr
  | _ => exact hr

/-- A list that is new takes an item. -/
theorem pushItem (hnew : ¬ h.Allocated (.list l)) (hl : k.Allocated (.list l))
    (hv : h.Usable k v) : Joined inner h (k.pushItem l v) := by
  have hgrow : ∀ r, k.Allocated r → (k.pushItem l v).Allocated r :=
    fun r hr => (allocated_pushItem l v).mpr hr
  refine hk.step (.of_newer hnew hk.widened ((grownBut_pushItem hl).widened rfl)) hgrow
    (fun o r hr => ?_) (fun _ _ => .inl) (fun _ _ => .inl) rfl rfl
  cases o with
  | list j =>
    rw [Heap.owned, items_pushItem hl] at hr
    split at hr
    · rename_i hj
      obtain ⟨w, hw, hr⟩ := mem_allRefs.mp hr
      cases List.mem_append.mp hw with
      | inl hw => exact .inl (hj ▸ mem_allRefs.mpr ⟨w, hw, hr⟩)
      | inr hw =>
        rw [List.mem_singleton.mp hw] at hr
        exact .inr ⟨hgrow r (hv r hr).1, (hv r hr).2⟩
    · exact .inl hr
  | _ => exact .inl hr

/-- The cell of a dictionary that is new changes. -/
theorem modifyCell {f : DictCell → DictCell} (hnew : ¬ h.Allocated (.dict d))
    (hd : k.Allocated (.dict d))
    (hrefs : ∀ r ∈ (f (k.cell d)).refs, r ∈ (k.cell d).refs ∨
      k.Allocated r ∧ (h.Allocated r → h.Living h.heldRefs r))
    (hparent : ∀ p, (f (k.cell d)).parent = some p → (k.cell d).parent = some p ∨
      k.Allocated (.dict p))
    (hcaller : ∀ c, (f (k.cell d)).caller = some c → (k.cell d).caller = some c ∨
      k.Allocated (.dict c)) : Joined inner h (k.modifyCell d f) := by
  have hgrow : ∀ r, k.Allocated r → (k.modifyCell d f).Allocated r :=
    fun r hr => (allocated_modifyCell d f).mpr hr
  refine hk.step (.of_newer hnew hk.widened ((grownBut_modifyCell hd).widened rfl)) hgrow
    (fun o r hr => ?_) (fun e p hp => ?_) (fun e c hc => ?_) rfl rfl
  · cases o with
    | dict e =>
      rw [Heap.owned, cell_modifyCell hd] at hr
      split at hr
      · rename_i he
        subst he
        exact (hrefs r hr).imp_right fun hr => ⟨hgrow r hr.1, hr.2⟩
      · exact .inl hr
    | _ => exact .inl hr
  · rw [cell_modifyCell hd] at hp
    split at hp
    · rename_i he
      exact he ▸ hparent p hp
    · exact .inl hp
  · rw [cell_modifyCell hd] at hc
    split at hc
    · rename_i he
      exact he ▸ hcaller c hc
    · exact .inl hc

/-- Whatever is bound in a dictionary that is new. -/
theorem define (hd : Makes h k d) (name : String) (hv : h.Usable k v) :
    Joined inner h (k.define d name v).2 := by
  have howner : k.owner d = d := by rw [owner, hd.target, Option.getD_none]
  have hlink : ∀ (p : Option DictId) (declared : Bool),
      (∀ q, p = some q → k.Allocated (.dict q)) → Joined inner h (k.link d p declared) :=
    fun p declared hp => hk.modifyCell hd.new hd.allocated (fun _ => .inl)
      (fun q hq => .inr (hp q hq)) fun _ => .inl
  have hcaller : ∀ c : Option DictId, (∀ q, c = some q → k.Allocated (.dict q)) →
      Joined inner h (k.setCaller d c) :=
    fun c hc => hk.modifyCell hd.new hd.allocated (fun _ => .inl) (fun _ => .inl)
      fun q hq => .inr (hc q hq)
  have hnone : ∀ q, none = some q → k.Allocated (.dict q) :=
    fun q hq => (Option.some_ne_none q hq.symm).elim
  unfold Heap.define setParent
  split
  · rename_i w _ _ n _
    rw [put, howner]
    refine hk.modifyCell hd.new hd.allocated (fun r hr => ?_) (fun _ => .inl) fun _ => .inl
    have hslots : (∃ x ∈ putSlot n w (k.cell d).slots.toList, r ∈ x.2.refs) ∨
        r ∈ (k.cell d).refs := by
      refine DictCell.mem_slot_or_refs ?_ ?_ hr <;> rfl
    obtain ⟨x, hx, hr⟩ | hr := hslots
    · cases mem_of_mem_putSlot hx with
      | inl hx => exact .inl (DictCell.mem_refs_of_slot hx hr)
      | inr heq => exact .inr (hv r (by rwa [heq] at hr))
    · exact .inl hr
  · dsimp only
    split
    · exact hk
    · exact hlink _ _ fun q hq => Option.some.inj hq ▸ hv.dict.1
  · exact hlink _ _ hnone
  · exact hcaller _ fun q hq => Option.some.inj hq ▸ hv.dict.1
  · exact hcaller _ hnone
  · exact hk

end Joined
end DictScript.Heap
