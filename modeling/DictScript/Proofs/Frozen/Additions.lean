import DictScript.Proofs.Parents.Thawing

/-!
What a thaw does to the heap, whatever the stream and however it ends: it makes objects and fills
them, and leaves those that were there as they were.
-/
namespace DictScript
open Heap

def Defroster.Grows (f : Defroster) : Prop :=
  ∀ h record scope, Grown h (f h record scope).2

namespace Heap
variable {a h : Heap} {d : DictId} {l : ListId} {n : String} {v : Value}

/-- What is new and no view may be changed. -/
theorem grown_modifyCell {f : DictCell → DictCell} (ha : Grown a h)
    (hnew : ¬ a.Allocated (.dict d)) (hd : h.Allocated (.dict d)) : Grown a (h.modifyCell d f) :=
  .of_newer hnew ha (grownBut_modifyCell hd)

structure Makes (a h : Heap) (d : DictId) : Prop where
  new : ¬ a.Allocated (.dict d)
  allocated : h.Allocated (.dict d)
  target : (h.cell d).target = none

theorem Makes.grown {k : Heap} (hd : Makes a h d) (hk : Grown h k) : Makes a k d where
  new := hd.new
  allocated := Nat.lt_of_lt_of_le hd.allocated hk.dicts
  target := by rw [hk.cell d hd.allocated nofun, hd.target]

theorem Makes.modifyCell {f : DictCell → DictCell} (ha : Grown a h) (hd : Makes a h d)
    (hf : ∀ c, (f c).target = c.target) :
    Grown a (h.modifyCell d f) ∧ Makes a (h.modifyCell d f) d where
  left := grown_modifyCell ha hd.new hd.allocated
  right :=
    { new := hd.new
      allocated := by simpa [Allocated, Heap.modifyCell] using hd.allocated
      target := by rw [cell_modifyCell hd.allocated, if_pos rfl, hf, hd.target] }

/-- Whatever is bound in a new dictionary changes nothing else. -/
theorem Makes.define (ha : Grown a h) (hd : Makes a h d) (n : String) (v : Value) :
    Grown a (h.define d n v).2 ∧ Makes a (h.define d n v).2 d := by
  have howner : h.owner d = d := by rw [owner, hd.target, Option.getD_none]
  unfold Heap.define setParent
  split
  · rw [put, howner]
    exact hd.modifyCell ha fun _ => rfl
  · dsimp only
    split
    · exact ⟨ha, hd⟩
    · exact hd.modifyCell ha fun _ => rfl
  · exact hd.modifyCell ha fun _ => rfl
  · exact hd.modifyCell ha fun _ => rfl
  · exact hd.modifyCell ha fun _ => rfl
  · exact ⟨ha, hd⟩

end Heap

namespace Thaw
variable {α β : Type} {a : Heap} {t : Thawer} {registry : Registry} {scope : Option DictId}
variable {fuel : Nat} {inert : Bool}

def Adds (a : Heap) (x : Thaw α) (t : Thawer) : Prop :=
  Leaves x t (fun _ t' => Grown a t'.heap) fun t' => Grown a t'.heap

theorem Adds.within {x : Thaw α} (ha : Grown a t.heap) (hx : Adds t.heap x t) : Adds a x t := by
  rw [Adds, Leaves] at hx ⊢
  generalize x.run.run t = y at hx ⊢
  obtain ⟨result, t'⟩ := y
  cases result <;> exact ha.trans hx

theorem Adds.bind {x : Thaw α} {f : α → Thaw β} (ha : Grown a t.heap) (hx : Adds t.heap x t)
    (hf : ∀ v t', Grown t.heap t'.heap → Adds a (f v) t') : Adds a (x >>= f) t := by
  refine Leaves.bind (P := fun _ t' => Grown t.heap t'.heap) ?_ hf
  rw [Adds, Leaves] at hx
  rw [Leaves]
  generalize x.run.run t = y at hx ⊢
  obtain ⟨result, t'⟩ := y
  cases result with
  | error e => exact ha.trans hx
  | ok v => exact hx

theorem Adds.same {x : Thaw α} (hx : (x.run.run t).2.heap.lists = t.heap.lists ∧
    (x.run.run t).2.heap.dicts = t.heap.dicts) : Adds t.heap x t := by
  have hgrown : Grown t.heap (x.run.run t).2.heap := .of_same hx.1 hx.2
  rw [Adds, Leaves]
  generalize x.run.run t = y at hgrown ⊢
  obtain ⟨result, t'⟩ := y
  cases result <;> exact hgrown

theorem adds_change {f : Heap → Heap} (hl : (f t.heap).lists = t.heap.lists)
    (hd : (f t.heap).dicts = t.heap.dicts) : Adds t.heap (change f) t :=
  .same ⟨hl, hd⟩

theorem adds_create {f : Heap → Heap × α} (hf : Grown a (f t.heap).1) : Adds a (create f) t := hf

theorem adds_get {f : Thawer → Thaw β} (hf : Adds a (f t) t) : Adds a (get >>= f) t := by
  refine Leaves.bind (leaves_get (Q := fun v t' => v = t ∧ t' = t) ⟨rfl, rfl⟩) ?_
  rintro v t' ⟨rfl, rfl⟩
  exact hf

theorem adds_next (t : Thawer) : Adds t.heap next t := by
  refine adds_get ?_
  split <;> exact .same ⟨rfl, rfl⟩

theorem adds_close (m : Mark) (t : Thawer) : Adds t.heap (close m) t := by
  refine adds_get ?_
  split
  · exact .same ⟨rfl, rfl⟩
  · split <;> exact .same ⟨rfl, rfl⟩
  · exact .same ⟨rfl, rfl⟩

theorem adds_blockName (t : Thawer) : Adds t.heap blockName t := by
  refine (adds_next t).bind (.of_same rfl rfl) fun token t' hgrown => ?_
  cases token <;> exact hgrown

theorem adds_paramNames (v : Value) (t : Thawer) : Adds t.heap (paramNames v) t := by
  refine adds_get ?_
  cases v with
  | list l =>
    simp only
    split <;> exact .same ⟨rfl, rfl⟩
  | _ => exact .same ⟨rfl, rfl⟩

theorem adds_blockEnv (v : Value) (t : Thawer) : Adds t.heap (blockEnv scope v) t := by
  unfold blockEnv
  split
  · exact .same ⟨rfl, rfl⟩
  · exact .same ⟨rfl, rfl⟩
  · exact adds_create (grown_newDict _ _)
  · exact .same ⟨rfl, rfl⟩

theorem adds_blockBody (v : Value) (t : Thawer) : Adds t.heap (blockBody v) t := by
  refine adds_get ?_
  cases v <;> exact .same ⟨rfl, rfl⟩

theorem adds_reference (number : String) (t : Thawer) : Adds t.heap (reference number) t := by
  refine adds_get ?_
  simp only
  split <;> exact .same ⟨rfl, rfl⟩

theorem grown_defrost (hregistry : ∀ x ∈ registry, Defroster.Grows x.2) (tag : String) :
    Defroster.Grows (registry.defrost tag) := by
  intro h record scope
  rw [Registry.defrost]
  cases hf : registry.lookup tag with
  | none => exact .of_same rfl rfl
  | some f =>
    obtain ⟨before, behind, heq, -⟩ := List.lookup_eq_some_iff.mp hf
    refine hregistry (tag, f) ?_ h record scope
    rw [heq]
    exact List.mem_append_right _ List.mem_cons_self

theorem adds_finishDict (hregistry : ∀ x ∈ registry, Defroster.Grows x.2) (number : Nat)
    (d : DictId) (t : Thawer) : Adds t.heap (finishDict registry scope number d) t := by
  refine adds_get ?_
  simp only
  split
  · split
    · rename_i tag _
      have hdefrost := grown_defrost hregistry tag t.heap d scope
      refine Adds.bind (.of_same rfl rfl) (leaves_onHeap hdefrost fun _ _ => hdefrost) ?_
      intro v t' hgrown
      have hreplace : Adds t'.heap (replace number d v) t' :=
        .same ⟨(lists_hold _ _).trans (lists_letGo _ _), (dicts_hold _ _).trans (dicts_letGo _ _)⟩
      exact hreplace.bind hgrown fun _ t'' hgrown' => hgrown.trans hgrown'
    · exact .same ⟨rfl, rfl⟩
  · exact .same ⟨rfl, rfl⟩

/-! The three readers, each from the others with less fuel. -/

def AddsValue (registry : Registry) (scope : Option DictId) (fuel : Nat) : Prop :=
  ∀ inert t, Adds t.heap (value registry scope fuel inert) t

def AddsItems (registry : Registry) (scope : Option DictId) (fuel : Nat) : Prop :=
  ∀ inert a t l, Grown a t.heap → ¬ a.Allocated (.list l) → t.heap.Allocated (.list l) →
    Adds a (items registry scope fuel inert l) t

def AddsEntries (registry : Registry) (scope : Option DictId) (fuel : Nat) : Prop :=
  ∀ inert a t d, Grown a t.heap → Makes a t.heap d →
    Adds a (entries registry scope fuel inert d) t

theorem addsItems_succ (hvalue : AddsValue registry scope fuel)
    (hitems : AddsItems registry scope fuel) : AddsItems registry scope (fuel + 1) := by
  intro inert a t l ha hnew hl
  refine (adds_close _ t).bind ha fun closed t₁ hgrown₁ => ?_
  have ha₁ := ha.trans hgrown₁
  cases closed with
  | true => exact ha₁
  | false =>
    refine (hvalue inert t₁).bind ha₁ fun v t₂ hgrown₂ => ?_
    have hl₂ : l.index < t₂.heap.lists.size :=
      Nat.lt_of_lt_of_le hl (hgrown₁.lists.trans hgrown₂.lists)
    have hpush : Grown a (t₂.heap.pushItem l v) :=
      .of_newer hnew (ha₁.trans hgrown₂) (grownBut_pushItem hl₂)
    refine Leaves.of_gives_bind (gives_change _ t₂) (hitems inert a _ l hpush hnew ?_)
    simpa [Allocated, pushItem] using hl₂

theorem addsEntries_succ (hvalue : AddsValue registry scope fuel)
    (hentries : AddsEntries registry scope fuel) : AddsEntries registry scope (fuel + 1) := by
  intro inert a t d ha hd
  refine (adds_close _ t).bind ha fun closed t₁ hgrown₁ => ?_
  have ha₁ := ha.trans hgrown₁
  cases closed with
  | true => exact ha₁
  | false =>
    refine (adds_next t₁).bind ha₁ fun token t₂ hgrown₂ => ?_
    have ha₂ := ha₁.trans hgrown₂
    cases token with
    | str key =>
      refine (hvalue inert t₂).bind ha₂ fun v t₃ hgrown₃ => ?_
      -- while the value is read nothing else binds in the dictionary, so it is no view still
      have hd₃ := ((hd.grown hgrown₁).grown hgrown₂).grown hgrown₃
      obtain ⟨hdefine, hd₄⟩ := hd₃.define (ha₂.trans hgrown₃) key v
      refine (leaves_onHeap (Q := fun _ t₄ =>
        t₄ = { t₃ with heap := (t₃.heap.define d key v).2 }) hdefine fun _ _ => rfl).bind ?_
      rintro - t₄ rfl
      exact hentries inert a _ d hdefine hd₄
    | _ => exact ha₂

theorem adds_list (hitems : AddsItems registry scope fuel) (t : Thawer) :
    Adds t.heap (do
      let l ← create (·.newList [])
      discard (register (.list l))
      items registry scope fuel inert l
      pure (Value.list l)) t := by
  have hnew := grown_newList t.heap []
  refine Leaves.of_gives_bind (gives_create (·.newList []) t) ?_
  refine Leaves.of_gives_bind (gives_register _ _).discard ?_
  refine Leaves.bind (hitems inert t.heap _ _ ?_ (Nat.lt_irrefl _) ?_) fun _ _ => id
  · exact hnew.trans (.of_same (lists_hold _ _) (dicts_hold _ _))
  · show t.heap.lists.size < (Heap.hold _ _).lists.size
    rw [lists_hold]
    simp [newList]

theorem adds_dict (hregistry : ∀ x ∈ registry, Defroster.Grows x.2)
    (hentries : AddsEntries registry scope fuel) (t : Thawer) :
    Adds t.heap (do
      let d ← newDict inert scope
      let number ← register (.dict d)
      entries registry scope fuel inert d
      finishDict registry scope number d) t := by
  let c : DictCell := { parent := if inert then none else scope }
  have hnew := grown_newDict t.heap c
  have hgives : Gives (newDict inert scope) t ⟨t.heap.dicts.size⟩
      { t with heap := (t.heap.newDict c).1 } := gives_create (·.newDict c) t
  refine Leaves.of_gives_bind hgives (Leaves.of_gives_bind (gives_register _ _) ?_)
  have ha : Grown t.heap ((t.heap.newDict c).1.hold (.dict ⟨t.heap.dicts.size⟩)) :=
    hnew.trans (.of_same (lists_hold _ _) (dicts_hold _ _))
  have hmakes : Makes t.heap ((t.heap.newDict c).1.hold (.dict ⟨t.heap.dicts.size⟩))
      ⟨t.heap.dicts.size⟩ := by
    refine ⟨Nat.lt_irrefl _, ?_, ?_⟩
    · show t.heap.dicts.size < (Heap.hold _ _).dicts.size
      rw [dicts_hold]
      simp [Heap.newDict]
    · rw [cell_congr (dicts_hold _ _), cell_newDict, if_pos rfl]
  refine Leaves.bind (hentries inert t.heap _ _ ha hmakes) fun _ t' hgrown => ?_
  exact (adds_finishDict hregistry _ _ t').within hgrown

theorem adds_block (hvalue : AddsValue registry scope fuel) (t : Thawer) :
    Adds t.heap (do
      let name ← blockName
      let params ← paramNames (← value registry scope fuel inert)
      let env ← blockEnv scope (← value registry scope fuel inert)
      change (·.hold (.dict env))
      let body ← blockBody (← value registry scope fuel inert)
      change (·.letGo env)
      if ← close .blockClose then
        create (·.newBlock
          { id := 0, name := name, params := params, body := body, env := env, receiver := none })
      else fail (.expected Mark.blockClose.text)) t := by
  refine (adds_blockName t).bind (.of_same rfl rfl) fun name t₁ ha₁ => ?_
  refine (hvalue inert t₁).bind ha₁ fun v₂ t₂ hgrown => ?_
  have ha₂ := ha₁.trans hgrown
  refine (adds_paramNames v₂ t₂).bind ha₂ fun params t₃ hgrown => ?_
  have ha₃ := ha₂.trans hgrown
  refine (hvalue inert t₃).bind ha₃ fun v₄ t₄ hgrown => ?_
  have ha₄ := ha₃.trans hgrown
  refine (adds_blockEnv v₄ t₄).bind ha₄ fun env t₅ hgrown => ?_
  have ha₅ := ha₄.trans hgrown
  refine (adds_change (lists_hold _ _) (dicts_hold _ _)).bind ha₅ fun _ t₆ hgrown => ?_
  have ha₆ := ha₅.trans hgrown
  refine (hvalue inert t₆).bind ha₆ fun v₇ t₇ hgrown => ?_
  have ha₇ := ha₆.trans hgrown
  refine (adds_blockBody v₇ t₇).bind ha₇ fun body t₈ hgrown => ?_
  have ha₈ := ha₇.trans hgrown
  refine (adds_change (lists_letGo _ _) (dicts_letGo _ _)).bind ha₈ fun _ t₉ hgrown => ?_
  have ha₉ := ha₈.trans hgrown
  refine (adds_close .blockClose t₉).bind ha₉ fun closed t' hgrown => ?_
  have ha' := ha₉.trans hgrown
  cases closed with
  | true =>
    rw [if_pos rfl]
    exact adds_create (ha'.trans (.of_same rfl rfl))
  | false => exact ha'

theorem addsValue_succ (hregistry : ∀ x ∈ registry, Defroster.Grows x.2)
    (hvalue : AddsValue registry scope fuel) (hitems : AddsItems registry scope fuel)
    (hentries : AddsEntries registry scope fuel) : AddsValue registry scope (fuel + 1) := by
  intro inert t
  refine (adds_next t).bind (.of_same rfl rfl) fun token t₁ ha => ?_
  have hquoted : ∀ (quote : Value → Value) inert',
      Adds t.heap (do return quote (← value registry scope fuel inert')) t₁ :=
    fun quote inert' => (hvalue inert' t₁).bind ha fun _ _ hgrown => ha.trans hgrown
  cases token with
  | mark m =>
    cases m with
    | quote => exact hquoted .quote inert
    | fullQuote => exact hquoted .fullQuote true
    | listOpen => exact (adds_list hitems t₁).within ha
    | dictOpen => exact (adds_dict hregistry hentries t₁).within ha
    | blockOpen => exact (adds_block hvalue t₁).within ha
    | _ => exact ha
  | ref number => exact (adds_reference number t₁).within ha
  | _ => exact ha

/-- Every stream adds to the heap, whatever the fuel. -/
theorem adds_all (hregistry : ∀ x ∈ registry, Defroster.Grows x.2) (fuel : Nat) :
    AddsValue registry scope fuel ∧ AddsItems registry scope fuel ∧
      AddsEntries registry scope fuel := by
  induction fuel with
  | zero =>
    refine ⟨fun inert t => ?_, fun inert a t l ha _ _ => ha, fun inert a t d ha _ => ha⟩
    exact .same ⟨rfl, rfl⟩
  | succ fuel ih =>
    obtain ⟨hvalue, hitems, hentries⟩ := ih
    exact ⟨addsValue_succ hregistry hvalue hitems hentries, addsItems_succ hvalue hitems,
      addsEntries_succ hvalue hentries⟩

theorem adds_whole (hregistry : ∀ x ∈ registry, Defroster.Grows x.2) (count : Nat) (t : Thawer) :
    Adds t.heap (whole registry scope count) t := by
  refine ((adds_all hregistry _).1 false t).bind (.of_same rfl rfl) fun v t' hgrown => ?_
  refine adds_get ?_
  split <;> exact hgrown

end Thaw

namespace Heap
variable {registry : Registry}

theorem grown_thawTokens (hregistry : ∀ x ∈ registry, Defroster.Grows x.2) (h : Heap)
    (tokens : List Token) (scope : Option DictId) :
    Grown h (h.thawTokens registry tokens scope).2 := by
  let t : Thawer := { heap := h.enter [], rest := tokens }
  have hwhole : Thaw.Adds t.heap (Thaw.whole registry scope tokens.length) t :=
    Thaw.adds_whole hregistry _ t
  rw [Thaw.Adds, Thaw.Leaves] at hwhole
  unfold thawTokens
  generalize (Thaw.whole registry scope tokens.length).run.run t = x at hwhole ⊢
  obtain ⟨result, t'⟩ := x
  have hheap : Grown t.heap t'.heap := by
    cases result <;> exact hwhole
  have henter : Grown h t.heap := .of_same rfl rfl
  have hleave : Grown t'.heap t'.heap.leave := .of_same rfl rfl
  exact henter.trans (hheap.trans hleave)

/-- A thaw makes objects, and leaves those that were there as they were, also if it fails. -/
theorem grown_thaw (hregistry : ∀ x ∈ registry, Defroster.Grows x.2) (h : Heap) (frozen : Json)
    (scope : Option DictId) : Grown h (h.thaw registry frozen scope).2 := by
  unfold thaw
  split
  · exact grown_thawTokens hregistry h _ scope
  · exact .of_same rfl rfl

theorem grown_thawText (hregistry : ∀ x ∈ registry, Defroster.Grows x.2) (h : Heap)
    (text : String) (scope : Option DictId) : Grown h (h.thawText registry text scope).2 := by
  unfold thawText
  split
  · exact grown_thaw hregistry h _ scope
  · exact .of_same rfl rfl

end Heap

/-- The defrosters that are always there make nothing but natives. -/
theorem Registry.grows_standard : ∀ x ∈ standard, Defroster.Grows x.2 := by
  refine List.forall_mem_cons.mpr ⟨?_, List.forall_mem_singleton.mpr ?_⟩
  · intro h record scope
    cases scope <;> exact .of_same rfl rfl
  · intro h record scope
    simp only [defrostFunction]
    split
    · split
      · exact .of_same rfl rfl
      · split <;> exact .of_same rfl rfl
    · exact .of_same rfl rfl

end DictScript
