import DictScript.Proofs.Ownership.Joined

/-!
A thaw does not touch what there is. Records of the root put a scope that is in use among the
objects of the stream, and later tokens can refer to it, but nothing is ever written there; nor does
anything come to life, or die, because of what was made.
-/
namespace DictScript
open Heap

namespace Heap
variable {h k m : Heap} {inner : List Value} {v : Value} {d : DictId} {l : ListId} {r : Ref}

structure Carried (k m : Heap) : Prop where
  allocated : ∀ r, k.Allocated r → m.Allocated r
  target : ∀ d, k.Allocated (.dict d) → (m.cell d).target = (k.cell d).target

namespace Carried

theorem refl (k : Heap) : Carried k k := ⟨fun _ => id, fun _ _ => rfl⟩

theorem trans (hk : Carried h k) (hm : Carried k m) : Carried h m where
  allocated r hr := hm.allocated r (hk.allocated r hr)
  target d hd := (hm.target d (hk.allocated _ hd)).trans (hk.target d hd)

theorem of_widened (hm : Widened k m) : Carried k m where
  allocated r hr := by
    cases r with
    | list l => exact Nat.lt_of_lt_of_le hr hm.lists
    | dict d => exact Nat.lt_of_lt_of_le hr hm.dicts
    | native n => exact Nat.lt_of_lt_of_le hr hm.natives_size
  target d hd := by rw [hm.cell d hd nofun]

theorem hold (k : Heap) (v : Value) : Carried k (k.hold v) :=
  of_widened (.of_same (lists_hold k v) (dicts_hold k v) (natives_hold k v ▸ List.prefix_rfl))

theorem letGo (k : Heap) (d : DictId) : Carried k (k.letGo d) :=
  of_widened (.of_same (lists_letGo k d) (dicts_letGo k d) (natives_letGo k d ▸ List.prefix_rfl))

theorem pushItem (k : Heap) (l : ListId) (v : Value) : Carried k (k.pushItem l v) :=
  ⟨fun _ => (allocated_pushItem l v).mpr, fun _ _ => rfl⟩

theorem modifyCell {f : DictCell → DictCell} (hd : k.Allocated (.dict d))
    (hf : ∀ c, (f c).target = c.target) : Carried k (k.modifyCell d f) where
  allocated _ := (allocated_modifyCell d f).mpr
  target e _ := by
    rw [cell_modifyCell hd]
    split
    · rename_i he
      rw [hf, he]
    · rfl

theorem define (hd : Makes h k d) (name : String) (v : Value) :
    Carried k (k.define d name v).2 := by
  have howner : k.owner d = d := by rw [owner, hd.target, Option.getD_none]
  have hcell : ∀ f : DictCell → DictCell, (∀ c, (f c).target = c.target) →
      Carried k (k.modifyCell d f) := fun f hf => .modifyCell hd.allocated hf
  unfold Heap.define setParent
  split
  · rw [put, howner]
    exact hcell _ fun _ => rfl
  · dsimp only
    split
    · exact .refl k
    · exact hcell _ fun _ => rfl
  · exact hcell _ fun _ => rfl
  · exact hcell _ fun _ => rfl
  · exact hcell _ fun _ => rfl
  · exact .refl k

end Carried

theorem Makes.carried (hd : Makes h k d) (hm : Carried k m) : Makes h m d where
  new := hd.new
  allocated := hm.allocated _ hd.allocated
  target := (hm.target d hd.allocated).trans hd.target

theorem Joined.hold (hk : Joined [inner] h k) (hv : h.Usable k v) :
    Joined [v :: inner] h (k.hold v) := by
  have heq : k.hold v = { k with pins := [v :: inner] ++ h.pins } := by
    rw [Heap.hold, hk.pins]
    rfl
  rw [heq]
  refine hk.repin (List.forall_mem_singleton.mpr (List.forall_mem_cons.mpr ⟨hv, ?_⟩))
  exact hk.inner inner (List.mem_singleton_self _)

theorem Joined.letGo (hk : Joined [inner] h k) (d : DictId) :
    Joined [inner.eraseP (·.isDict d)] h (k.letGo d) := by
  have heq : k.letGo d = { k with pins := [inner.eraseP (·.isDict d)] ++ h.pins } := by
    rw [Heap.letGo, hk.pins]
    rfl
  rw [heq]
  refine hk.repin (List.forall_mem_singleton.mpr fun w hw => ?_)
  exact hk.inner inner (List.mem_singleton_self _) w (List.mem_of_mem_eraseP hw)

end Heap

/-- A defroster that adds objects, and takes nothing into them but what lives. -/
structure Defroster.Joins (f : Defroster) : Prop where
  widened : ∀ h record scope, Widened h (f h record scope).2
  joined : ∀ {inner : List (List Value)} {h k : Heap} {record : DictId} {scope : Option DictId},
    Joined inner h k → h.Usable k (.dict record) → (∀ d, scope = some d → h.Usable k (.dict d)) →
    Joined inner h (f k record scope).2 ∧
      ∀ v, (f k record scope).1 = .ok v → h.Usable (f k record scope).2 v

namespace Thaw
variable {α β : Type} {h : Heap} {t t' : Thawer} {registry : Registry} {scope : Option DictId}
variable {fuel : Nat} {inert : Bool} {v : Value} {d : DictId} {l : ListId}
variable {P : Heap → α → Prop} {Q : Heap → β → Prop}

structure Apart (h : Heap) (t : Thawer) : Prop where
  joined : ∃ inner, Joined [inner] h t.heap
  table : ∀ v ∈ t.table.toList, h.Usable t.heap v

def Joins (h : Heap) (x : Thaw α) (t : Thawer) (P : Heap → α → Prop) : Prop :=
  Leaves x t (fun a t' => Apart h t' ∧ Carried t.heap t'.heap ∧ P t'.heap a) (Apart h)

theorem Joins.bind {x : Thaw α} {f : α → Thaw β} (hx : Joins h x t P)
    (hf : ∀ a t', Apart h t' → Carried t.heap t'.heap → P t'.heap a → Joins h (f a) t' Q) :
    Joins h (x >>= f) t Q := by
  refine Leaves.bind hx ?_
  rintro a t₁ ⟨ht₁, hcarried₁, ha⟩
  refine (hf a t₁ ht₁ hcarried₁ ha).mono ?_
  rintro b t₂ ⟨ht₂, hcarried₂, hb⟩
  exact ⟨ht₂, hcarried₁.trans hcarried₂, hb⟩

namespace Apart
variable (ht : Apart h t)
include ht

theorem reading (rest : List Token) : Apart h { t with rest := rest } := ⟨ht.joined, ht.table⟩

theorem pure {a : α} (ha : P t.heap a) : Joins h (Pure.pure a) t P := ⟨ht, .refl _, ha⟩

theorem fail (why : Malformed) : Joins h (fail why : Thaw α) t P := ht

theorem throw (e : RuntimeError) : Joins h (throw e : Thaw α) t P := ht

theorem get {f : Thawer → Thaw β} (hf : Joins h (f t) t Q) : Joins h (get >>= f) t Q := by
  refine Leaves.bind (leaves_get (Q := fun a t' => a = t ∧ t' = t) ⟨rfl, rfl⟩) ?_
  rintro a t' ⟨rfl, rfl⟩
  exact hf

/-- A step that numbers nothing. -/
theorem step {k : Heap} (hk : ∀ inner, Joined [inner] h t.heap → ∃ inner', Joined [inner'] h k)
    (hcarried : Carried t.heap k) : Apart h { t with heap := k } := by
  obtain ⟨inner, hjoined⟩ := ht.joined
  exact ⟨hk inner hjoined, fun v hv => (ht.table v hv).mono hcarried.allocated⟩

theorem change {f : Heap → Heap}
    (hf : ∀ inner, Joined [inner] h t.heap → ∃ inner', Joined [inner'] h (f t.heap))
    (hcarried : Carried t.heap (f t.heap)) : Joins h (change f) t fun _ _ => True :=
  leaves_change ⟨ht.step hf hcarried, hcarried, trivial⟩

theorem create {f : Heap → Heap × α}
    (hf : ∀ inner, Joined [inner] h t.heap → Joined [inner] h (f t.heap).1)
    (hwidened : Widened t.heap (f t.heap).1) (hP : P (f t.heap).1 (f t.heap).2) :
    Joins h (create f) t P :=
  leaves_create ⟨ht.step (fun inner hk => ⟨inner, hf inner hk⟩) (.of_widened hwidened),
    .of_widened hwidened, hP⟩

theorem onHeap {f : Heap → Except RuntimeError α × Heap}
    (hf : ∀ inner, Joined [inner] h t.heap → Joined [inner] h (f t.heap).2)
    (hcarried : Carried t.heap (f t.heap).2)
    (hP : ∀ a, (f t.heap).1 = .ok a → P (f t.heap).2 a) : Joins h (onHeap f) t P := by
  have hstep := ht.step (fun inner hk => ⟨inner, hf inner hk⟩) hcarried
  exact leaves_onHeap hstep fun a ha => ⟨hstep, hcarried, hP a ha⟩

/-! The operations of a thaw, one by one. -/

theorem next : Joins h next t fun _ _ => True := by
  refine ht.get ?_
  cases t.rest with
  | nil => exact ht.fail _
  | cons token rest => exact ⟨ht.reading rest, .refl _, trivial⟩

theorem close (m : Mark) : Joins h (close m) t fun _ _ => True := by
  refine ht.get ?_
  split
  · exact ht.fail _
  · split
    · exact ⟨ht.reading _, .refl _, trivial⟩
    · exact ht.pure trivial
  · exact ht.pure trivial

theorem hold (hv : h.Usable t.heap v) : Joins h (Thaw.change (·.hold v)) t fun _ _ => True :=
  ht.change (f := (·.hold v)) (fun _ hk => ⟨_, hk.hold hv⟩) (.hold _ v)

theorem letGo (d : DictId) : Joins h (Thaw.change (·.letGo d)) t fun _ _ => True :=
  ht.change (f := (·.letGo d)) (fun _ hk => ⟨_, hk.letGo d⟩) (.letGo _ d)

theorem registered (hv : h.Usable t.heap v) :
    Apart h { t with table := t.table.push v, heap := t.heap.hold v } := by
  have hstep := ht.step (k := t.heap.hold v) (fun _ hk => ⟨_, hk.hold hv⟩) (.hold _ v)
  refine ⟨hstep.joined, fun w hw => ?_⟩
  rw [Array.toList_push] at hw
  cases List.mem_append.mp hw with
  | inl hw => exact hstep.table w hw
  | inr hw => exact List.mem_singleton.mp hw ▸ hv.mono (Carried.hold _ v).allocated

theorem register (hv : h.Usable t.heap v) : Joins h (register v) t fun _ _ => True :=
  .of_gives (gives_register v t) ⟨ht.registered hv, .hold _ v, trivial⟩

theorem discard_register (hv : h.Usable t.heap v) :
    Joins h (discard (Thaw.register v)) t fun _ _ => True :=
  .of_gives (gives_register v t).discard ⟨ht.registered hv, .hold _ v, trivial⟩

theorem replace (number : Nat) (hv : h.Usable t.heap v) :
    Joins h (replace number d v) t fun _ _ => True := by
  have hcarried : Carried t.heap ((t.heap.letGo d).hold v) :=
    (Carried.letGo _ d).trans (.hold _ v)
  have hstep := ht.step (k := (t.heap.letGo d).hold v)
    (fun _ hk => ⟨_, (hk.letGo d).hold (hv.mono (Carried.letGo _ d).allocated)⟩) hcarried
  refine .of_gives (gives_modify _ t) ⟨⟨hstep.joined, fun w hw => ?_⟩, hcarried, trivial⟩
  have hw : w ∈ t.table.set! number v := Array.mem_toList_iff.mp hw
  rw [Array.set!_eq_setIfInBounds] at hw
  cases Array.mem_or_eq_of_mem_setIfInBounds hw with
  | inl hw => exact hstep.table w (Array.mem_toList_iff.mpr hw)
  | inr heq => exact heq ▸ hv.mono hcarried.allocated

theorem blockName : Joins h blockName t fun _ _ => True := by
  refine ht.next.bind fun token t' ht' _ _ => ?_
  cases token with
  | null => exact ht'.pure trivial
  | str name => exact ht'.pure trivial
  | _ => exact ht'.fail _

theorem paramNames (v : Value) : Joins h (paramNames v) t fun _ _ => True := by
  refine ht.get ?_
  cases v with
  | list l =>
    simp only
    split
    · exact ht.pure trivial
    · exact ht.fail _
  | _ => exact ht.fail _

theorem blockBody (hv : h.Usable t.heap v) :
    Joins h (blockBody v) t fun k vs => ∀ w ∈ vs, h.Usable k w := by
  refine ht.get ?_
  cases v with
  | list l =>
    obtain ⟨inner, hk⟩ := ht.joined
    obtain ⟨hl, hlive⟩ := hv _ (List.mem_singleton_self _)
    refine ht.pure fun w hw => hk.usable_of_owned hl hlive fun r hr => ?_
    exact mem_allRefs.mpr ⟨w, hw, hr⟩
  | _ => exact ht.fail _

theorem newDict {c : DictCell} (hrefs : c.refs = [])
    (hparent : ∀ p, c.parent = some p → h.Usable t.heap (.dict p)) (hcaller : c.caller = none)
    (htarget : c.target = none) :
    Joins h (Thaw.create (·.newDict c)) t fun k d => Makes h k d := by
  obtain ⟨inner, hk⟩ := ht.joined
  have hnew : ¬ h.Allocated (.dict ⟨t.heap.dicts.size⟩) :=
    fun hold => absurd (hk.allocated hold) (Nat.lt_irrefl _)
  refine ht.create (f := (·.newDict c))
    (fun _ hk => hk.newDict hrefs (fun p hp => (hparent p hp).dict.1) hcaller)
    ((grown_newDict _ c).widened rfl) ⟨hnew, (allocated_newDict c).mpr (.inl rfl), ?_⟩
  have hcell : (t.heap.newDict c).1.cell ⟨t.heap.dicts.size⟩ = c := by
    rw [cell_newDict, if_pos rfl]
  exact (congrArg DictCell.target hcell).trans htarget

theorem blockEnv (hscope : ∀ d, scope = some d → h.Usable h (.dict d)) (hv : h.Usable t.heap v) :
    Joins h (blockEnv scope v) t fun k env => h.Usable k (.dict env) := by
  obtain ⟨inner, hk⟩ := ht.joined
  unfold Thaw.blockEnv
  split
  · exact ht.pure hv
  · exact ht.pure ((hscope _ rfl).mono fun _ => hk.allocated)
  · refine (ht.newDict (c := {}) rfl nofun rfl rfl).mono fun d t' hd => ?_
    exact ⟨hd.1, hd.2.1, usable_of_new hd.2.2.new hd.2.2.allocated rfl⟩
  · exact ht.get (ht.fail _)

theorem reference (number : String) : Joins h (reference number) t h.Usable := by
  refine ht.get ?_
  simp only
  split
  · rename_i v hv
    obtain ⟨i, -, hi⟩ := Option.bind_eq_some_iff.mp hv
    exact ht.pure (ht.table v (Array.mem_toList_iff.mpr (Array.mem_of_getElem? hi)))
  · exact ht.fail _

theorem finishDict (hscope : ∀ d, scope = some d → h.Usable h (.dict d))
    (hregistry : ∀ x ∈ registry, Defroster.Joins x.2) (hd : h.Usable t.heap (.dict d))
    (number : Nat) : Joins h (finishDict registry scope number d) t h.Usable := by
  obtain ⟨inner, hk⟩ := ht.joined
  have hscope : ∀ e, scope = some e → h.Usable t.heap (.dict e) :=
    fun e he => (hscope e he).mono fun _ => hk.allocated
  refine ht.get ?_
  simp only
  split
  · split
    · rename_i tag _
      have hdefrost : Joins h (Thaw.onHeap fun h => registry.defrost tag h d scope) t h.Usable := by
        cases hf : registry.lookup tag with
        | none =>
          have hsame : registry.defrost tag t.heap d scope =
              (.error (.of (.unregistered tag)), t.heap) := by rw [Registry.defrost, hf]
          refine ht.onHeap (f := fun h => registry.defrost tag h d scope) ?_ ?_ ?_
          · exact fun inner hk => hsame ▸ hk
          · exact hsame ▸ .refl _
          · intro w hw
            rw [hsame] at hw
            cases hw
        | some f =>
          obtain ⟨before, behind, heq, -⟩ := List.lookup_eq_some_iff.mp hf
          have hjoins : Defroster.Joins f :=
            hregistry (tag, f) (heq ▸ List.mem_append_right _ List.mem_cons_self)
          have hsame : registry.defrost tag t.heap d scope = f t.heap d scope := by
            rw [Registry.defrost, hf]
          refine ht.onHeap (f := fun h => registry.defrost tag h d scope) ?_ ?_ ?_
          · exact fun inner hk => hsame ▸ (hjoins.joined hk hd hscope).1
          · exact hsame ▸ .of_widened (hjoins.widened _ _ _)
          · exact hsame ▸ (hjoins.joined hk hd hscope).2
      refine hdefrost.bind fun v t₁ ht₁ _ hv => ?_
      refine (ht₁.replace number hv).bind fun _ t₂ ht₂ hcarried _ => ?_
      exact ht₂.pure (hv.mono hcarried.allocated)
    · exact ht.throw _
  · exact ht.pure hd

end Apart

/-! The three readers, each from the others with less fuel. -/

def JoinsValue (h : Heap) (registry : Registry) (scope : Option DictId) (fuel : Nat) : Prop :=
  ∀ inert t, Apart h t → Joins h (value registry scope fuel inert) t h.Usable

def JoinsItems (h : Heap) (registry : Registry) (scope : Option DictId) (fuel : Nat) : Prop :=
  ∀ inert t l, Apart h t → ¬ h.Allocated (.list l) → t.heap.Allocated (.list l) →
    Joins h (items registry scope fuel inert l) t fun _ _ => True

def JoinsEntries (h : Heap) (registry : Registry) (scope : Option DictId) (fuel : Nat) : Prop :=
  ∀ inert t d, Apart h t → Makes h t.heap d →
    Joins h (entries registry scope fuel inert d) t fun _ _ => True

theorem joinsItems_succ (hvalue : JoinsValue h registry scope fuel)
    (hitems : JoinsItems h registry scope fuel) : JoinsItems h registry scope (fuel + 1) := by
  intro inert t l ht hnew hl
  refine (ht.close _).bind fun closed t₁ ht₁ hcarried₁ _ => ?_
  cases closed with
  | true => exact ht₁.pure trivial
  | false =>
    refine (hvalue inert t₁ ht₁).bind fun v t₂ ht₂ hcarried₂ hv => ?_
    have hl₂ := (hcarried₁.trans hcarried₂).allocated _ hl
    refine (ht₂.change (f := (·.pushItem l v)) (fun _ hk => ⟨_, hk.pushItem hnew hl₂ hv⟩)
      (.pushItem _ l v)).bind fun _ t₃ ht₃ hcarried₃ _ => ?_
    exact hitems inert t₃ l ht₃ hnew (hcarried₃.allocated _ hl₂)

theorem joinsEntries_succ (hvalue : JoinsValue h registry scope fuel)
    (hentries : JoinsEntries h registry scope fuel) : JoinsEntries h registry scope (fuel + 1) := by
  intro inert t d ht hd
  refine (ht.close _).bind fun closed t₁ ht₁ hcarried₁ _ => ?_
  cases closed with
  | true => exact ht₁.pure trivial
  | false =>
    refine ht₁.next.bind fun token t₂ ht₂ hcarried₂ _ => ?_
    cases token with
    | str key =>
      refine (hvalue inert t₂ ht₂).bind fun v t₃ ht₃ hcarried₃ hv => ?_
      have hd₃ := hd.carried ((hcarried₁.trans hcarried₂).trans hcarried₃)
      refine (ht₃.onHeap (f := (·.define d key v)) (P := fun _ _ => True)
        (fun _ hk => hk.define hd₃ key hv) (.define hd₃ key v) fun _ _ => trivial).bind ?_
      exact fun _ t₄ ht₄ hcarried₄ _ => hentries inert t₄ d ht₄ (hd₃.carried hcarried₄)
    | _ => exact ht₂.fail _

/-- The rest of a block, behind its mark. -/
theorem joins_block (hscope : ∀ d, scope = some d → h.Usable h (.dict d))
    (hvalue : JoinsValue h registry scope fuel) (ht : Apart h t) :
    Joins h (do
      let name ← blockName
      let params ← paramNames (← value registry scope fuel inert)
      let env ← blockEnv scope (← value registry scope fuel inert)
      change (·.hold (.dict env))
      let body ← blockBody (← value registry scope fuel inert)
      change (·.letGo env)
      if ← close .blockClose then
        create (·.newBlock
          { id := 0, name := name, params := params, body := body, env := env, receiver := none })
      else fail (.expected Mark.blockClose.text)) t h.Usable := by
  refine ht.blockName.bind fun name t₁ ht₁ _ _ => ?_
  refine (hvalue inert t₁ ht₁).bind fun v₂ t₂ ht₂ _ _ => ?_
  refine (ht₂.paramNames v₂).bind fun params t₃ ht₃ _ _ => ?_
  refine (hvalue inert t₃ ht₃).bind fun v₄ t₄ ht₄ _ hv₄ => ?_
  refine (ht₄.blockEnv hscope hv₄).bind fun env t₅ ht₅ _ henv => ?_
  refine (ht₅.hold henv).bind fun _ t₆ ht₆ hcarried₆ _ => ?_
  refine (hvalue inert t₆ ht₆).bind fun v₇ t₇ ht₇ hcarried₇ hv₇ => ?_
  refine (ht₇.blockBody hv₇).bind fun body t₈ ht₈ hcarried₈ hbody => ?_
  refine (ht₈.letGo env).bind fun _ t₉ ht₉ hcarried₉ _ => ?_
  refine (ht₉.close .blockClose).bind fun closed t' ht' hcarried _ => ?_
  have hlast := hcarried₉.trans hcarried
  have henv' := henv.mono (((hcarried₆.trans hcarried₇).trans hcarried₈).trans hlast).allocated
  cases closed with
  | false => exact ht'.fail _
  | true =>
    refine ht'.create (f := (·.newBlock _)) (fun _ hk => hk.same rfl rfl rfl rfl rfl)
      (.of_same rfl rfl List.prefix_rfl) fun r hr => ?_
    simp only [newBlock, Value.refs, blockRefs, Option.toList_none, List.map_nil, List.nil_append,
      List.mem_cons] at hr
    cases hr with
    | inl heq => exact heq ▸ henv'.dict
    | inr hr =>
      obtain ⟨w, hw, hr⟩ := mem_allRefs.mp hr
      exact (hbody w hw).mono hlast.allocated r hr

theorem joins_list (hitems : JoinsItems h registry scope fuel) (ht : Apart h t) :
    Joins h (do
      let l ← create (·.newList [])
      discard (register (.list l))
      items registry scope fuel inert l
      pure (Value.list l)) t h.Usable := by
  obtain ⟨inner, hk⟩ := ht.joined
  have hnew : ¬ h.Allocated (.list ⟨t.heap.lists.size⟩) :=
    fun hold => absurd (hk.allocated hold) (Nat.lt_irrefl _)
  refine (ht.create (f := (·.newList [])) (P := fun k l => ¬ h.Allocated (.list l) ∧
    k.Allocated (.list l)) (fun _ hk => hk.newList) ((grown_newList _ []).widened rfl)
    ⟨hnew, (allocated_newList []).mpr (.inl rfl)⟩).bind ?_
  rintro l t₂ ht₂ - ⟨hnew, hl⟩
  refine (ht₂.discard_register (usable_of_new hnew hl rfl)).bind fun _ t₃ ht₃ hcarried₃ _ => ?_
  have hl₃ := hcarried₃.allocated _ hl
  refine (hitems inert t₃ l ht₃ hnew hl₃).bind fun _ t₄ ht₄ hcarried₄ _ => ?_
  exact ht₄.pure (usable_of_new hnew (hcarried₄.allocated _ hl₃) rfl)

theorem joins_dict (hscope : ∀ d, scope = some d → h.Usable h (.dict d))
    (hregistry : ∀ x ∈ registry, Defroster.Joins x.2)
    (hentries : JoinsEntries h registry scope fuel) (ht : Apart h t) :
    Joins h (do
      let d ← newDict inert scope
      let number ← register (.dict d)
      entries registry scope fuel inert d
      finishDict registry scope number d) t h.Usable := by
  obtain ⟨inner, hk⟩ := ht.joined
  have hparent : ∀ p, (if inert then none else scope) = some p → h.Usable t.heap (.dict p) := by
    intro p hp
    split at hp
    · cases hp
    · exact (hscope p hp).mono fun _ => hk.allocated
  refine (ht.newDict (c := { parent := if inert then none else scope }) rfl hparent rfl
    rfl).bind fun d t₂ ht₂ _ hd => ?_
  refine (ht₂.register (usable_of_new hd.new hd.allocated rfl)).bind
    fun number t₃ ht₃ hcarried₃ _ => ?_
  have hd₃ := hd.carried hcarried₃
  refine (hentries inert t₃ d ht₃ hd₃).bind fun _ t₄ ht₄ hcarried₄ _ => ?_
  exact ht₄.finishDict hscope hregistry
    (usable_of_new hd.new (hd₃.carried hcarried₄).allocated rfl) number

theorem joinsValue_succ (hscope : ∀ d, scope = some d → h.Usable h (.dict d))
    (hregistry : ∀ x ∈ registry, Defroster.Joins x.2) (hvalue : JoinsValue h registry scope fuel)
    (hitems : JoinsItems h registry scope fuel) (hentries : JoinsEntries h registry scope fuel) :
    JoinsValue h registry scope (fuel + 1) := by
  intro inert t ht
  refine ht.next.bind fun token t₁ ht₁ _ _ => ?_
  have hquoted : ∀ (quote : Value → Value) inert', (∀ v, (quote v).refs = v.refs) →
      Joins h (do return quote (← value registry scope fuel inert')) t₁ h.Usable := by
    intro quote inert' hrefs
    refine (hvalue inert' t₁ ht₁).bind fun v t₂ ht₂ _ hv => ht₂.pure ?_
    exact hv.sub fun r hr => hrefs v ▸ hr
  cases token with
  | null | bool | num | str | sym => exact ht₁.pure (usable_of_refs rfl)
  | ref number => exact ht₁.reference number
  | mark m =>
    cases m with
    | quote => exact hquoted .quote inert fun _ => rfl
    | fullQuote => exact hquoted .fullQuote true fun _ => rfl
    | listOpen => exact joins_list hitems ht₁
    | dictOpen => exact joins_dict hscope hregistry hentries ht₁
    | blockOpen => exact joins_block hscope hvalue ht₁
    | _ => exact ht₁.fail _
  | other text => exact ht₁.fail _
  | nested j => exact ht₁.fail _

/-- Every stream is read so, whatever the fuel. -/
theorem joins_all (hscope : ∀ d, scope = some d → h.Usable h (.dict d))
    (hregistry : ∀ x ∈ registry, Defroster.Joins x.2) (fuel : Nat) :
    JoinsValue h registry scope fuel ∧ JoinsItems h registry scope fuel ∧
      JoinsEntries h registry scope fuel := by
  induction fuel with
  | zero =>
    refine ⟨fun inert t ht => ?_, fun inert t l ht _ _ => ?_, fun inert t d ht _ => ?_⟩
    · exact ht.fail _
    · exact ht.fail _
    · exact ht.fail _
  | succ fuel ih =>
    obtain ⟨hvalue, hitems, hentries⟩ := ih
    exact ⟨joinsValue_succ hscope hregistry hvalue hitems hentries, joinsItems_succ hvalue hitems,
      joinsEntries_succ hvalue hentries⟩

theorem joins_whole (hscope : ∀ d, scope = some d → h.Usable h (.dict d))
    (hregistry : ∀ x ∈ registry, Defroster.Joins x.2) (count : Nat) (ht : Apart h t) :
    Joins h (whole registry scope count) t h.Usable := by
  refine ((joins_all hscope hregistry _).1 false t ht).bind fun v t₁ ht₁ _ hv => ?_
  refine ht₁.get ?_
  split
  · exact ht₁.pure hv
  · exact ht₁.fail _

end Thaw

/-! The built-in defrosters. -/

theorem joins_defrostRoot : Defroster.Joins Registry.defrostRoot where
  widened h record scope := by cases scope <;> exact .of_same rfl rfl List.prefix_rfl
  joined := by
    intro inner h k record scope hk _ hscope
    cases scope with
    | none => exact ⟨hk, nofun⟩
    | some d =>
      refine ⟨hk, fun v hv => ?_⟩
      obtain rfl := Except.ok.inj hv
      exact hscope d rfl

theorem mem_refs_of_soleNative {v : Value} {n : NativeId} {r : Ref}
    (hn : Registry.soleNative? v = some n) (hr : r ∈ (Value.native n).refs) : r ∈ v.refs := by
  rw [List.mem_singleton.mp hr]
  cases v with
  | block b =>
    obtain ⟨id, name, params, body, env, receiver⟩ := b
    rw [Registry.soleNative?] at hn
    split at hn
    · rename_i m hbody
      obtain rfl := Option.some.inj hn
      obtain rfl : body = [.native m] := hbody
      simp [Value.refs, blockRefs, allRefs]
    · cases hn
  | _ => cases hn

theorem joins_defrostFunction : Defroster.Joins Registry.defrostFunction where
  widened h record scope := by
    unfold Registry.defrostFunction
    split
    · split
      · exact widened_newNative h _
      · split <;> exact .of_same rfl rfl List.prefix_rfl
    · exact .of_same rfl rfl List.prefix_rfl
  joined := by
    intro inner h k record scope hk _ hscope
    unfold Registry.defrostFunction
    split
    · rename_i name _
      split
      · rename_i p _
        have hnew : ¬ h.Allocated (.native ⟨k.natives.size⟩) :=
          fun hold => absurd (hk.allocated hold) (Nat.lt_irrefl _)
        refine ⟨hk.newNative rfl, fun v hv => ?_⟩
        obtain rfl := Except.ok.inj hv
        exact usable_of_new hnew ((allocated_newNative _).mpr (.inl rfl)) rfl
      · split
        · rename_i n hn
          refine ⟨hk, fun v hv => ?_⟩
          obtain rfl := Except.ok.inj hv
          obtain ⟨d, hd, hn⟩ := Option.bind_eq_some_iff.mp hn
          exact (hk.usable_resolve (hscope d hd) name).sub fun r => mem_refs_of_soleNative hn
        · exact ⟨hk, nofun⟩
    · exact ⟨hk, nofun⟩

/-- The defrosters that are always there. -/
theorem Registry.joins_standard : ∀ x ∈ standard, Defroster.Joins x.2 :=
  List.forall_mem_cons.mpr ⟨joins_defrostRoot, List.forall_mem_singleton.mpr joins_defrostFunction⟩

namespace Heap
variable {h k : Heap} {registry : Registry} {scope : Option DictId}

theorem joined_thawTokens (hh : h.Complete) (hregistry : ∀ x ∈ registry, Defroster.Joins x.2)
    (hscope : ∀ d, scope = some d → h.Living h.heldRefs (.dict d)) (tokens : List Token) :
    Joined [] h (h.thawTokens registry tokens scope).2 := by
  let t : Thawer := { heap := h.enter [], rest := tokens }
  have hstart : Thaw.Apart h t := by
    refine ⟨⟨[], (Joined.refl hh).repin ?_⟩, List.forall_mem_nil _⟩
    exact List.forall_mem_singleton.mpr (List.forall_mem_nil _)
  have hwhole : Thaw.Joins h (Thaw.whole registry scope tokens.length) t h.Usable :=
    Thaw.joins_whole (fun d hd => usable_self hh (hscope d hd)) hregistry _ hstart
  have hend : ∀ t', Thaw.Apart h t' → Joined [] h t'.heap.leave := by
    intro t' ht'
    obtain ⟨inner, hk⟩ := ht'.joined
    have heq : t'.heap.leave = { t'.heap with pins := [] ++ h.pins } := by
      rw [leave, hk.pins]
      rfl
    exact heq ▸ hk.repin (List.forall_mem_nil _)
  unfold thawTokens
  rw [Thaw.Joins, Thaw.Leaves] at hwhole
  generalize (Thaw.whole registry scope tokens.length).run.run t = x at hwhole ⊢
  obtain ⟨result, t'⟩ := x
  cases result with
  | error e => exact hend t' hwhole
  | ok v => exact hend t' hwhole.1

theorem joined_thaw (hh : h.Complete) (hregistry : ∀ x ∈ registry, Defroster.Joins x.2)
    (hscope : ∀ d, scope = some d → h.Living h.heldRefs (.dict d)) (frozen : Json) :
    Joined [] h (h.thaw registry frozen scope).2 := by
  unfold thaw
  split
  · exact joined_thawTokens hh hregistry hscope _
  · exact .refl hh

theorem joined_thawText (hh : h.Complete) (hregistry : ∀ x ∈ registry, Defroster.Joins x.2)
    (hscope : ∀ d, scope = some d → h.Living h.heldRefs (.dict d)) (text : String) :
    Joined [] h (h.thawText registry text scope).2 := by
  unfold thawText
  split
  · exact joined_thaw hh hregistry hscope _
  · exact .refl hh

structure Untouched (h k : Heap) : Prop where
  items : ∀ l, h.Allocated (.list l) → k.items l = h.items l
  slots : ∀ d, h.Allocated (.dict d) → k.slots d = h.slots d
  parent : ∀ d, h.Allocated (.dict d) → k.parent d = h.parent d
  caller : ∀ d, h.Allocated (.dict d) → k.caller d = h.caller d
  cell : ∀ d, h.Allocated (.dict d) → k.cell d = h.cell d
  native : ∀ n, h.Allocated (.native n) → k.native? n = h.native? n
  alive : ∀ d, h.Allocated (.dict d) → k.alive d = h.alive d

theorem Joined.untouched {inner : List (List Value)} (hk : Joined inner h k) (hh : h.Complete) :
    h.Untouched k where
  items _ hl := hk.items hl
  slots _ hd := hk.slots hh hd
  parent _ hd := hk.parent hh hd
  caller _ hd := hk.caller hh hd
  cell _ hd := hk.cell hd
  native n hn := hk.native n hn
  alive _ hd := hk.alive hh hd

/-- A thaw changes nothing that was there before, whatever the stream and the scope, and whether it
ends with a value or with an error. -/
theorem untouched_thaw (hh : h.Complete) (hregistry : ∀ x ∈ registry, Defroster.Joins x.2)
    (hscope : ∀ d, scope = some d → h.Living h.heldRefs (.dict d)) :
    (∀ frozen, h.Untouched (h.thaw registry frozen scope).2) ∧
      ∀ text, h.Untouched (h.thawText registry text scope).2 :=
  ⟨fun frozen => (joined_thaw hh hregistry hscope frozen).untouched hh,
    fun text => (joined_thawText hh hregistry hscope text).untouched hh⟩

def rooted : Heap where
  dicts := #[
    { slots := Slots.empty.put "x" (.bool true), name := some "root", tag := some rootTag },
    { parent := some ⟨0⟩ }]
  roots := [.dict ⟨0⟩]

theorem complete_rooted : rooted.Complete where
  held r hr := by
    obtain rfl : r = .dict ⟨0⟩ := List.mem_singleton.mp hr
    exact Nat.zero_lt_two
  owned r hr o ho := by
    match r with
    | .dict ⟨0⟩ | .dict ⟨1⟩ | .dict ⟨_ + 2⟩ | .list _ | .native _ => cases ho
  parent d p hp := by
    match d with
    | ⟨0⟩ | ⟨_ + 2⟩ => cases hp
    | ⟨1⟩ =>
      obtain rfl := Option.some.inj hp
      exact Nat.zero_lt_two
  caller d c hc := by
    match d with
    | ⟨0⟩ | ⟨1⟩ | ⟨_ + 2⟩ => cases hc

/-- A record of the root, then a dictionary that has the root as its parent and in a slot, and no
end. -/
def cutShort : List Json :=
  [.str "[", .str "\x7b", .str "'native", .str "'root", .str "\x7d", .str "\x7b", .str "'parent",
    .str "&1", .str "'x", .str "&1"]

/-- The scope gets a number and is referred to, and yet stays as it is. -/
theorem untouched_cutShort :
    let k := (rooted.thaw Registry.standard (.arr cutShort) (some ⟨0⟩)).2
    rooted.Untouched k ∧ k.slots ⟨0⟩ = [("x", .bool true)] ∧ k.parent ⟨1⟩ = some ⟨0⟩ := by
  have hroot : rooted.Living rooted.heldRefs (.dict ⟨0⟩) :=
    living_of_mem (List.mem_singleton_self _)
  have hscope : ∀ d, some (⟨0⟩ : DictId) = some d → rooted.Living rooted.heldRefs (.dict d) :=
    fun d hd => Option.some.inj hd ▸ hroot
  have hkept := (untouched_thaw complete_rooted Registry.joins_standard hscope).1 (.arr cutShort)
  refine ⟨hkept, (hkept.slots ⟨0⟩ Nat.zero_lt_two).trans rfl, ?_⟩
  rw [hkept.parent ⟨1⟩ Nat.one_lt_two]
  decide +kernel

end Heap
end DictScript
