import DictScript.Proofs.Frozen.Additions
import DictScript.Proofs.Steps.Limit

/-!
What evaluation leaves alone. Only a list that the evaluation has made itself is ever added to; a
dictionary gains names behind those it has, and keeps what it is besides its bindings and links.
-/
namespace DictScript
open Heap
variable {rt : Runtime} {base h k : Heap} {l : ListId} {d : DictId} {v : Value}

/-! One dictionary and one heap after another. -/

structure DictCell.Intact (c c' : DictCell) : Prop where
  names : c.slots.toList.map Prod.fst <+: c'.slots.toList.map Prod.fst
  tag : c'.tag = c.tag
  name : c'.name = c.name
  target : c'.target = c.target

theorem DictCell.Intact.trans {c₁ c₂ c₃ : DictCell} (h₁ : c₁.Intact c₂) (h₂ : c₂.Intact c₃) :
    c₁.Intact c₃ :=
  ⟨h₁.names.trans h₂.names, h₂.tag.trans h₁.tag, h₂.name.trans h₁.name,
    h₂.target.trans h₁.target⟩

theorem names_putSlot (n : String) (v : Value) (xs : List (String × Value)) :
    xs.map Prod.fst <+: (putSlot n v xs).map Prod.fst := by
  induction xs with
  | nil => exact List.nil_prefix
  | cons x xs ih =>
    rw [putSlot]
    split
    · exact List.prefix_refl _
    · exact (List.prefix_cons_inj _).mpr ih

namespace Heap

structure Intact (h k : Heap) : Prop where
  lists : h.lists.size ≤ k.lists.size
  dicts : h.dicts.size ≤ k.dicts.size
  items : ∀ l : ListId, h.Allocated (.list l) → k.items l = h.items l
  cell : ∀ d : DictId, h.Allocated (.dict d) → (h.cell d).Intact (k.cell d)

theorem Intact.trans {h₁ h₂ h₃ : Heap} (h₁₂ : h₁.Intact h₂) (h₂₃ : h₂.Intact h₃) :
    h₁.Intact h₃ where
  lists := h₁₂.lists.trans h₂₃.lists
  dicts := h₁₂.dicts.trans h₂₃.dicts
  items l hl := (h₂₃.items l (Nat.lt_of_lt_of_le hl h₁₂.lists)).trans (h₁₂.items l hl)
  cell d hd := (h₁₂.cell d hd).trans (h₂₃.cell d (Nat.lt_of_lt_of_le hd h₁₂.dicts))

theorem Intact.names (hk : h.Intact k) (hd : h.Allocated (.dict d)) : h.names d <+: k.names d := by
  have howner : k.owner d = h.owner d := by rw [owner, owner, (hk.cell d hd).target]
  rw [Heap.names, Heap.names, Heap.slots, Heap.slots, howner]
  by_cases hall : h.Allocated (.dict (h.owner d))
  · exact (hk.cell _ hall).names
  · rw [cell_of_size_le (Nat.le_of_not_lt hall)]
    exact List.nil_prefix

theorem intact_of_grown (hk : Grown h k) : h.Intact k where
  lists := hk.lists
  dicts := hk.dicts
  items l hl := hk.items l hl nofun
  cell d hd := by
    rw [hk.cell d hd nofun]
    exact ⟨List.prefix_refl _, rfl, rfl, rfl⟩

theorem intact_modifyCell {f : DictCell → DictCell} (hf : ∀ c : DictCell, c.Intact (f c)) :
    h.Intact (h.modifyCell d f) where
  lists := le_refl _
  dicts := by simp [modifyCell]
  items _ _ := rfl
  cell e he := by
    by_cases hed : e = d
    · subst hed
      rw [cell_modifyCell he, if_pos rfl]
      exact hf _
    · have hsame : (h.modifyCell d f).cell e = h.cell e := by
        have hne : d.index ≠ e.index := fun heq => hed (by cases d; cases e; simp_all)
        simp [cell, modifyCell, Array.getD_eq_getD_getElem?, Array.getElem?_modify, hne]
      rw [hsame]
      exact ⟨List.prefix_refl _, rfl, rfl, rfl⟩

/-- To add to a list that has been made since changes nothing that was there. -/
theorem Intact.pushItem (hk : h.Intact k) (hl : ¬ h.Allocated (.list l)) :
    h.Intact (k.pushItem l v) where
  lists := by simpa [Heap.pushItem] using hk.lists
  dicts := hk.dicts
  items m hm := by
    have hne : l.index ≠ m.index := fun heq => hl (show l.index < _ from heq ▸ hm)
    rw [← hk.items m hm]
    simp [Heap.items, Heap.pushItem, Array.getD_eq_getD_getElem?, Array.getElem?_modify, hne]
  cell := hk.cell

theorem intact_of_changes (hk : h.Changes k) : h.Intact k := by
  induction hk with
  | refl => exact intact_of_grown (.of_same rfl rfl)
  | tail _ hone ih =>
    refine ih.trans ?_
    cases hone with
    | grow hgrown => exact intact_of_grown hgrown
    | put d n v => exact intact_modifyCell fun c => ⟨names_putSlot n v _, rfl, rfl, rfl⟩
    | link d p declared => exact intact_modifyCell fun c => ⟨List.prefix_refl _, rfl, rfl, rfl⟩
    | setCaller d c => exact intact_modifyCell fun c => ⟨List.prefix_refl _, rfl, rfl, rfl⟩

end Heap

/-! The primitives. -/

def Reply.heap : Reply → Heap
  | done _ h => h
  | log _ h => h
  | ask _ h _ => h

/-- The primitives make objects and change none. -/
theorem grown_run (hregistry : ∀ x ∈ rt.registry, Defroster.Grows x.2) (p : Primitive) (h : Heap)
    (env : DictId) : Grown h (p.run rt h env).heap := by
  have hself : Grown h h := .of_same rfl rfl
  cases p with
  | choose =>
    simp only [Primitive.run, Primitive.branch]
    split
    · exact hself
    · split <;> exact hself
  | list =>
    simp only [Primitive.run]
    split
    · exact grown_newList h []
    · exact hself
  | names =>
    simp only [Primitive.run]
    split
    · exact grown_newList h _
    · exact hself
  | thaw =>
    simp only [Primitive.run]
    split
    · exact grown_thawText hregistry h _ _
    · exact hself
  | _ => exact hself

/-! Runs. -/

/-- A rule fills the list that it was given, or one that it has made. -/
theorem Outcome.filled {depth : Nat} {filled : Option ListId} {r : Move × Heap}
    (hr : Outcome rt depth h filled r) :
    ∀ f ∈ r.1.frames, ∀ l, f.filled? = some l → filled = some l ∨ ¬ h.Allocated (.list l) := by
  intro f hf l hl
  cases f with
  | remaining env b frame param l es =>
    cases hl
    obtain hplain | happlication | ⟨l', hl', hnew⟩ := hr.frame_cases hf
    · cases hplain
    · cases happlication
    · cases hl'
      exact hnew
  | _ => cases hl

/-- What a rule decides keeps what was there, and the lists it fills are new. -/
theorem Outcome.intact {depth : Nat} {filled : Option ListId} {r : Move × Heap}
    (hr : Outcome rt depth h filled r) (hh : base.Intact h)
    (hfilled : ∀ l, filled = some l → ¬ base.Allocated (.list l)) : base.Intact r.2 ∧
      ∀ f ∈ r.1.frames, ∀ l, f.filled? = some l → ¬ base.Allocated (.list l) := by
  refine ⟨hh.trans (intact_of_changes hr.changes), fun f hf l hl hold => ?_⟩
  cases hr.filled f hf l hl with
  | inl hsame => exact hfilled l hsame hold
  | inr hnew => exact hnew (Nat.lt_of_lt_of_le hold hh.lists)

theorem intact_move {reply : Reply} (hreply : base.Intact reply.heap) (depth : Nat) :
    base.Intact (reply.move rt depth).2 ∧
      ∀ f ∈ (reply.move rt depth).1.frames, ∀ l, f.filled? = some l →
        ¬ base.Allocated (.list l) := by
  cases reply with
  | done result k => cases result <;> exact ⟨hreply, nofun⟩
  | log text k => exact ⟨hreply, nofun⟩
  | ask request k resume =>
    obtain ⟨hheap, hframes⟩ :=
      (@outcome_begin rt depth k none request).intact hreply fun _ => nofun
    refine ⟨hheap, fun f hf l hl => ?_⟩
    obtain hf | hf := List.mem_append.mp hf
    · exact hframes f hf l hl
    · cases List.mem_singleton.mp hf
      cases hl

namespace Machine
variable {m : Machine}

structure Keeps (base : Heap) (m : Machine) : Prop where
  intact : base.Intact m.heap
  filled : ∀ f ∈ m.stack, ∀ l, f.filled? = some l → ¬ base.Allocated (.list l)

theorem Keeps.proceed {stack : List Frame} {depth : Nat} {log : List String} {r : Move × Heap}
    (hr : base.Intact r.2) (hk : k = r.2 ∨ k = r.2.leave)
    (hframes : ∀ f ∈ r.1.frames, ∀ l, f.filled? = some l → ¬ base.Allocated (.list l))
    (hstack : ∀ f ∈ stack, ∀ l, f.filled? = some l → ¬ base.Allocated (.list l)) :
    (proceed stack depth log r.1 k).Keeps base where
  intact := by
    obtain rfl | rfl := hk
    · exact hr.trans (intact_of_grown (.of_same rfl rfl))
    · exact hr.trans (intact_of_grown (.of_same rfl rfl))
  filled f hf := (List.mem_append.mp hf).elim (hframes f) (hstack f)

theorem Keeps.pending (hm : m.Keeps base) :
    ∀ f ∈ m.pending, ∀ l, f.filled? = some l → ¬ base.Allocated (.list l) := by
  unfold Machine.pending
  split
  · exact hm.filled
  · exact fun f hf => hm.filled f (List.mem_of_mem_tail hf)

theorem Keeps.ruleHeap (hm : m.Keeps base) : base.Intact m.ruleHeap := by
  obtain ⟨control, stack, depth, h, log⟩ := m
  cases control with
  | ret v =>
    cases stack with
    | nil => exact hm.intact
    | cons f stack =>
      have hheld : base.Intact (h.hold v) :=
        hm.intact.trans (intact_of_grown (.of_same (lists_hold h v) (dicts_hold h v)))
      show base.Intact (f.received v (h.hold v))
      unfold Frame.received
      cases hl : f.filled? with
      | none => exact hheld
      | some l =>
        -- the only place where an evaluation adds to a list
        exact hheld.pushItem (hm.filled f List.mem_cons_self l hl)
  | _ => exact hm.intact

theorem Keeps.filled? (hm : m.Keeps base) (hl : m.filled? = some l) :
    ¬ base.Allocated (.list l) := by
  unfold Machine.filled? at hl
  split at hl
  · rename_i hstack
    exact hm.filled _ (hstack ▸ List.mem_cons_self) l hl
  · cases hl

theorem Keeps.replies {reply : Reply} (hfunctions : rt.functions = fun _ => none)
    (hregistry : ∀ x ∈ rt.registry, Defroster.Grows x.2) (hm : m.Keeps base) (hon : m.HandsOn)
    (hreply : m.Replies rt reply) : base.Intact reply.heap := by
  cases hreply with
  | primitive _ => exact hm.intact.trans (intact_of_grown (grown_run hregistry _ _ _))
  | function _ hf =>
    rw [hfunctions] at hf
    cases hf
  | @resumed v resume _ _ _ h =>
    obtain rfl : resume = Reply.done := hon _ List.mem_cons_self
    exact hm.intact.trans (intact_of_grown (.of_same (lists_hold h v) (dicts_hold h v)))
  | @failed e resume =>
    obtain rfl : resume = Reply.done := hon _ List.mem_cons_self
    exact hm.intact

theorem Keeps.step (hfunctions : rt.functions = fun _ => none)
    (hregistry : ∀ x ∈ rt.registry, Defroster.Grows x.2) (hm : m.Keeps base) (hon : m.HandsOn) :
    (m.step rt).Keeps base := by
  obtain hended | ⟨r, k, hr, hk, hstep⟩ := step_cases rt m
  · rwa [hended]
  · rw [hstep]
    have hdecides : base.Intact r.2 ∧
        ∀ f ∈ r.1.frames, ∀ l, f.filled? = some l → ¬ base.Allocated (.list l) := by
      cases hr with
      | rule hr => exact hr.intact hm.ruleHeap fun _ => hm.filled?
      | native hreply => exact intact_move (hm.replies hfunctions hregistry hon hreply) _
      | passed _ _ => exact ⟨hm.intact, nofun⟩
    exact .proceed hdecides.1 hk hdecides.2 hm.pending

theorem Keeps.run (hfunctions : rt.functions = fun _ => none)
    (hregistry : ∀ x ∈ rt.registry, Defroster.Grows x.2) (fuel : Nat) (hm : m.Keeps base)
    (hon : m.HandsOn) : (m.run rt fuel).Keeps base := by
  induction fuel generalizing m with
  | zero => exact hm
  | succ fuel ih =>
    rw [Machine.run]
    split
    · exact hm
    · exact ih (hm.step hfunctions hregistry hon) (hon.step hfunctions)

end Machine

/-- With no natives but the primitives, an evaluation leaves every list as it was, whether it has
ended and how. A dictionary has its names still, in their order and before any others, and its tag,
its name and its target. -/
theorem Request.objects_intact (hfunctions : rt.functions = fun _ => none)
    (hregistry : ∀ x ∈ rt.registry, Defroster.Grows x.2) (request : Request) (d : Nat)
    (log : List String) (h : Heap) (fuel : Nat) :
    let k := ((request.start rt d log h).run rt fuel).heap
    (∀ l, h.Allocated (.list l) → k.items l = h.items l) ∧
      ∀ e, h.Allocated (.dict e) → h.names e <+: k.names e ∧
        (k.cell e).tag = (h.cell e).tag ∧ (k.cell e).name = (h.cell e).name ∧
        (k.cell e).target = (h.cell e).target := by
  intro k
  have hself : h.Intact h := intact_of_grown (.of_same rfl rfl)
  obtain ⟨hheap, hframes⟩ :=
    (@outcome_begin rt d h none request).intact hself fun _ => nofun
  have hstart : (request.start rt d log h).Keeps h := .proceed hheap (.inl rfl) hframes nofun
  have hk := (hstart.run hfunctions hregistry fuel (request.handsOn_start d log h)).intact
  refine ⟨hk.items, fun e he => ?_⟩
  exact ⟨hk.names he, (hk.cell e he).tag, (hk.cell e he).name, (hk.cell e he).target⟩

/-- `[def {b = 2}]` in a heap where the environment binds `a`. -/
def Heap.defining : Heap × ListId :=
  let (h, env) := ({} : Heap).newDict {}
  let (h, bindings) := (h.put env "a" (.num 1)).newDict {}
  (h.put bindings "b" (.num 2)).newList [.sym "def", .dict bindings]

def Runtime.plain : Runtime :=
  { root := ⟨0⟩, maxDepth := 1, registry := .standard, functions := fun _ => none }

def Machine.defined : Machine :=
  ((Request.evaluate (.list defining.2) none).start .plain 0 [] defining.1).run .plain 10

/-- The definition adds a name behind the one that is there. -/
theorem Request.objects_intact_defining :
    Machine.defined.result?.isSome ∧ Machine.defined.heap.names ⟨0⟩ = ["a", "b"] ∧
      Machine.defined.heap.items defining.2 = defining.1.items defining.2 ∧
      defining.1.names ⟨0⟩ <+: Machine.defined.heap.names ⟨0⟩ := by
  have hregistry : ∀ x ∈ Runtime.plain.registry, Defroster.Grows x.2 := Registry.grows_standard
  obtain ⟨hitems, hcells⟩ :=
    objects_intact rfl hregistry (.evaluate (.list defining.2) none) 0 [] defining.1 10
  refine ⟨by decide +kernel, by decide +kernel, hitems _ (by decide), ?_⟩
  exact (hcells ⟨0⟩ (by decide)).1

end DictScript
