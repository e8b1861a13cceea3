import DictScript.Proofs.Calls.Arguments
import DictScript.Proofs.Calls.Covered
import DictScript.Proofs.Calls.Writing
import DictScript.Proofs.Ownership.Enlarged
import DictScript.Proofs.Regions.History

/-!
Evaluation inside a dictionary. The expression is evaluated in the dictionary itself if that has a
parent, and else in a view of it that has the environment behind it; nothing else changes.
-/
namespace DictScript
open Heap
variable {rt : Runtime} {h k : Heap} {K : Set Ref} {d e c p scope : DictId} {x v : Value}
variable {stack : List Frame} {base below : List (List Value)} {m : Machine} {name : String}
variable {depth : Nat} {request : Request} {extra : List Value} {r o : Ref}

/-! What every state of a run keeps. -/

structure Machine.Regular (K : Set Ref) (base : List (List Value)) (m : Machine) : Prop where
  inside : m.Inside K [] 0 m.heap.everything
  held : ∀ r ∈ m.heap.heldRefs, m.heap.Allocated r
  pins : m.heap.pins = m.stack.map Frame.held ++ base

/-- In a run that a host has begun and only touches through its operations, every state is regular. -/
theorem Interpreter.regular_run {i : Interpreter} (hlawful : i.runtime.Lawful)
    (htame : i.runtime.Tame K) (hkept : i.heap.Kept i.runtime.root)
    (hregion : i.heap.Region i.heap.everything) (hK : K ⊆ i.heap.everything)
    (hheld : ∀ v ∈ request.held, Has i.heap.heldRefs v) (fuel : Nat) :
    ((i.begin request).run i.runtime fuel).Regular K (request.held :: i.heap.pins) := by
  have hok := ok_run hlawful rfl hkept request hheld fuel
  have hmade : ∀ v ∈ request.held, Has i.heap.everything v :=
    fun v hv r hr => hkept.good.known r (hheld v hv r hr)
  obtain ⟨T, hbegin, hinside⟩ := inside_begin htame hregion hK request hmade
  obtain ⟨T', hrun, hinside'⟩ := hinside.run htame fuel
  have hall := everything_of_edits (hbegin.trans hrun) hregion
  exact ⟨hall ▸ hinside', fun r hr => hok.good.known r (.inl hr), hok.pins⟩

/-- And in every state all expressions that wait are covered by what the request holds. -/
theorem Interpreter.covered_run {i : Interpreter} (htame : i.runtime.Tame K)
    (hregion : i.heap.Region i.heap.everything) (hK : K ⊆ i.heap.everything)
    (hmade : ∀ v ∈ request.held, Has i.heap.everything v) (fuel : Nat) :
    ((i.begin request).run i.runtime fuel).Covered (request.held :: i.heap.pins) := by
  obtain ⟨T, -, hinside⟩ := inside_begin htame hregion hK request hmade
  exact Machine.Covered.run htame fuel hinside (Machine.covered_begin i.runtime request i.log _)

theorem Heap.Region.complete (hS : h.Region h.everything)
    (hheld : ∀ r ∈ h.heldRefs, h.Allocated r) : h.Complete where
  held := hheld
  owned := hS.owned
  parent d p hp := by
    refine hS.parent d p ?_ hp
    by_contra hd
    rw [cell_of_size_le (Nat.le_of_not_lt hd)] at hp
    cases hp
  caller d c hc := by
    refine hS.caller d c ?_ hc
    by_contra hd
    rw [cell_of_size_le (Nat.le_of_not_lt hd)] at hc
    cases hc

/-! The scope. -/

namespace Heap

theorem Living.grow (howned : ∀ o s, s ∈ h.owned o → s ∈ k.owned o)
    (hr : h.Living K r) : k.Living K r := by
  obtain ⟨S, hrS, hS⟩ := hr
  refine ⟨S, hrS, fun s hs => (hS s hs).imp_right ?_⟩
  rintro ⟨o, ho, hso⟩
  exact ⟨o, ho, howned o s hso⟩

/-- A parent that is retained needs nobody else to live. -/
theorem parent_of_retained (hparent : (h.cell d).parent = some p)
    (hscope : (h.cell d).scope = some p) : h.parent d = some p := by
  rw [parent, hparent, hscope]
  simp

def LivesBy (h : Heap) (below : List (List Value)) (v : Value) : Prop :=
  ∀ r ∈ v.refs, Living { h with pins := below } (heldRefs { h with pins := below }) r

def within (h : Heap) (d e : DictId) : Heap × DictId :=
  if (h.parent d).isSome then (h, d) else h.view d e

/-- Where the scope has its names from, behind those of `d`: the parent of `d` if it has one, and
else `e`. -/
inductive Opens (h : Heap) (d e : DictId) : DictId → DictId → Prop where
  | itself {p : DictId} : h.Inherits d p → Opens h d e d p
  | view {scope : DictId} : h.parent d = none → ¬ h.Allocated (.dict scope) → Opens h d e scope e

structure Fronts (h : Heap) (d e scope : DictId) : Prop where
  owner : h.owner scope = h.owner d
  retains : scope = d ∨ (h.cell scope).scope = some e

/-- The names of `d` come first, and then those behind the scope. -/
theorem Fronts.seen (hs : h.Fronts d e scope) (hname : Ordinary name) :
    h.seen scope name =
      ((h.slots d).lookup (canonical name)).or ((h.parent scope).bind (h.seen · name)) := by
  have hslots : h.slots scope = h.slots d := by rw [slots, slots, hs.owner]
  rw [seen_step hname.1, hslots]

theorem Edit.scope_eq {s s' : Scene} (hedit : Edit s s') (hc : s.1.Allocated (.dict c)) :
    (s'.1.cell c).scope = (s.1.cell c).scope := by
  cases hedit with
  | newDict _ _ _ _ _ _ => rw [cell_newDict_of_allocated _ hc]
  | put _ _ _ _ _ _ | erase _ _ _ | link _ _ _ _ _ | setCaller _ _ _ _ | setName _ _ _
  | setTag _ _ _ => exact scope_modifyCell fun _ => rfl
  | _ => rfl

theorem Edits.scope_eq {s s' : Scene} (hedits : Edits s s') (hS : s.1.Region s.2)
    (hc : s.1.Allocated (.dict c)) : (s'.1.cell c).scope = (s.1.cell c).scope := by
  induction hedits with
  | refl => rfl
  | tail hedits hedit ih =>
    exact (hedit.scope_eq ((Edits.contained hedits hS).grow _ hc)).trans ih

/-- What a view shows and what it keeps alive are settled when it is made. -/
theorem Fronts.after {s s' : Scene} (hs : s.1.Fronts d e scope) (hedits : Edits s s')
    (hS : s.1.Region s.2) (hd : s.1.Allocated (.dict d)) (hscope : s.1.Allocated (.dict scope)) :
    s'.1.Fronts d e scope := by
  have howner : ∀ c, s.1.Allocated (.dict c) → s'.1.owner c = s.1.owner c :=
    fun c hc => congrArg (·.getD c) ((hedits.contained hS).target c hc)
  exact ⟨(howner scope hscope).trans (hs.owner.trans (howner d hd).symm),
    hs.retains.imp_right (hedits.scope_eq hS hscope).trans⟩

def entered (h : Heap) (d e : DictId) (extra : List Value) (below : List (List Value)) : Heap :=
  { (h.within d e).1 with
    pins := (extra ++ (Frame.within e d (h.within d e).2).held) :: below }

theorem within_of_parent (hp : h.parent d = some p) (e : DictId) : h.within d e = (h, d) := by
  rw [within, hp, Option.isSome_some, if_pos rfl]

theorem within_of_no_parent (hp : h.parent d = none) (e : DictId) :
    h.within d e = h.view d e := by
  rw [within, hp, Option.isSome_none, if_neg Bool.false_ne_true]

theorem grown_within (h : Heap) (d e : DictId) : Grown h (h.within d e).1 := by
  unfold within
  split
  · exact .of_same rfl rfl
  · exact grown_newDict h _

/-- The only new object there can be is a view, which owns `e` and the dictionary it shows. -/
theorem owned_within (ho : ¬ h.Allocated o) (hr : r ∈ (h.within d e).1.owned o) :
    r = .dict e ∨ r = .dict (h.owner d) := by
  have hnone : h.owned o = [] := owned_of_not_allocated ho
  have hnot : r ∉ h.owned o := fun hr => List.not_mem_nil (hnone ▸ hr)
  unfold within at hr
  split at hr
  · exact (hnot hr).elim
  · cases o with
    | dict c =>
      rw [owned, view, cell_newDict] at hr
      split at hr
      · simpa [DictCell.refs, Slots.empty] using hr
      · exact (hnot hr).elim
    | list l => exact (hnot hr).elim
    | native n => exact (hnot hr).elim

/-! What is there and what is held on entering. -/

theorem grown_entered (h : Heap) (d e : DictId) (extra : List Value) (below : List (List Value)) :
    Grown h (h.entered d e extra below) :=
  (grown_within h d e).trans (.of_same rfl rfl)

theorem same_entered (h : Heap) (d e : DictId) (extra : List Value) (below : List (List Value)) :
    (h.entered d e extra below).roots = h.roots ∧
      (h.entered d e extra below).natives = h.natives := by
  simp only [entered, within]
  split <;> exact ⟨rfl, rfl⟩

theorem allocated_entered (hr : h.Allocated r) : (h.entered d e extra below).Allocated r := by
  have hgrown := grown_entered h d e extra below
  cases r with
  | list l => exact Nat.lt_of_lt_of_le hr hgrown.lists
  | dict c => exact Nat.lt_of_lt_of_le hr hgrown.dicts
  | native n => rwa [Allocated, (same_entered h d e extra below).2]

theorem owned_entered (hr : r ∈ h.owned o) : r ∈ (h.entered d e extra below).owned o := by
  have hgrown := grown_entered h d e extra below
  by_cases ho : h.Allocated o
  · cases o with
    | list l => rwa [Heap.owned, hgrown.items l ho (by simp)]
    | dict c => rwa [Heap.owned, hgrown.cell c ho (by simp)]
    | native n => rwa [Heap.owned, native?, (same_entered h d e extra below).2]
  · simp [owned_of_not_allocated ho] at hr

/-- The scope is held, with what it was made for. -/
theorem heldRefs_entered : r ∈ (h.entered d e extra below).heldRefs ↔
    r ∈ heldRefs { h with pins := below } ∨ (∃ v ∈ extra, r ∈ v.refs) ∨
      r = .dict e ∨ r = .dict d ∨ r = .dict (h.within d e).2 := by
  have hroots := (same_entered h d e extra below).1
  rw [mem_heldRefs, mem_heldRefs, hroots]
  simp only [entered, Frame.held, List.mem_cons, List.mem_append, exists_eq_or_imp, or_assoc,
    List.not_mem_nil, or_false]
  constructor
  · rintro (hr | ⟨v, hv | rfl | rfl | rfl, hr⟩ | hr)
    · exact .inl hr
    · exact .inr (.inr (.inl ⟨v, hv, hr⟩))
    · exact .inr (.inr (.inr (.inl (List.mem_singleton.mp hr))))
    · exact .inr (.inr (.inr (.inr (.inl (List.mem_singleton.mp hr)))))
    · exact .inr (.inr (.inr (.inr (.inr (List.mem_singleton.mp hr)))))
    · exact .inr (.inl hr)
  · rintro (hr | hr | ⟨v, hv, hr⟩ | rfl | rfl | rfl)
    · exact .inl hr
    · exact .inr (.inr hr)
    · exact .inr (.inl ⟨v, .inl hv, hr⟩)
    · exact .inr (.inl ⟨_, .inr (.inl rfl), List.mem_singleton_self _⟩)
    · exact .inr (.inl ⟨_, .inr (.inr (.inl rfl)), List.mem_singleton_self _⟩)
    · exact .inr (.inl ⟨_, .inr (.inr (.inr rfl)), List.mem_singleton_self _⟩)

section
variable (hpins : h.pins = [.dict d, .dict e, x] :: below)
include hpins

/-- Before that the callee is held, with its environment and the expression. -/
theorem heldRefs_callee : r ∈ h.heldRefs ↔
    r ∈ heldRefs { h with pins := below } ∨ r = .dict d ∨ r = .dict e ∨ r ∈ x.refs := by
  rw [mem_heldRefs, mem_heldRefs, hpins]
  simp only [List.mem_cons, exists_eq_or_imp, List.not_mem_nil, or_false, exists_eq_left,
    Value.refs]
  exact (or_congr_right or_comm).trans or_assoc.symm

/-- To enter changes nothing that there is, if what the expression refers to is held below. -/
theorem Complete.enlarged_entered (hh : h.Complete) (hx : h.LivesBy below x)
    (hextra : ∀ v ∈ extra, v.refs = []) : h.Enlarged (h.entered d e extra below) := by
  have hd : .dict d ∈ h.heldRefs := (heldRefs_callee hpins).mpr (.inr (.inl rfl))
  have he : .dict e ∈ h.heldRefs := (heldRefs_callee hpins).mpr (.inr (.inr (.inl rfl)))
  have hold : ∀ r ∈ h.heldRefs, (h.entered d e extra below).Allocated r ∧
      (h.Allocated r → h.Living h.heldRefs r) :=
    fun r hr => ⟨allocated_entered (hh.held r hr), fun _ => living_of_mem hr⟩
  refine ⟨grown_entered h d e extra below, (same_entered h d e extra below).2,
    fun o ho r hr => ?_, fun r hr => ?_, fun r hr => ?_⟩
  · obtain rfl | rfl := owned_within ho hr
    · exact hold _ he
    · refine ⟨allocated_entered (hh.owner (hh.held _ hd)), fun _ => ?_⟩
      rw [Heap.owner]
      cases ht : (h.cell d).target with
      | none => exact living_of_mem hd
      | some t => exact (living_of_mem hd).owned (by simp [Heap.owned, DictCell.refs, ht])
  · obtain hr | rfl | rfl | hr := (heldRefs_callee hpins).mp hr
    · exact living_of_mem (heldRefs_entered.mpr (.inl hr))
    · exact living_of_mem (heldRefs_entered.mpr (.inr (.inr (.inr (.inl rfl)))))
    · exact living_of_mem (heldRefs_entered.mpr (.inr (.inr (.inl rfl))))
    · have hlive : h.Living (h.entered d e extra below).heldRefs r :=
        (hx r hr).trans fun s hs => living_of_mem (heldRefs_entered.mpr (.inl hs))
      exact hlive.grow fun o s => owned_entered
  · obtain hr | ⟨v, hv, hr⟩ | rfl | rfl | rfl := heldRefs_entered.mp hr
    · exact hold r ((heldRefs_callee hpins).mpr (.inl hr))
    · rw [hextra v hv] at hr
      cases hr
    · exact hold _ he
    · exact hold _ hd
    · cases hp : h.parent d with
      | some p => exact hold _ (by rwa [within_of_parent hp])
      | none =>
        rw [entered, within_of_no_parent hp]
        exact ⟨(allocated_newDict _).mpr (.inl rfl), fun hnew => (Nat.lt_irrefl _ hnew).elim⟩

end
end Heap

/-- To run a block makes a frame, and perhaps a view, and changes nothing else. -/
theorem grown_invoke (rt : Runtime) (depth : Nat) (e d : DictId) (b : Block) (kept : List Value)
    (h : Heap) : Grown h (invoke rt depth e d b kept h).2 := by
  have hgrows := (lexicalScope_grows e d b h).1
  unfold invoke
  generalize lexicalScope e d b h = x at hgrows
  obtain ⟨h₁, lexical⟩ := x
  have hnew : ∀ c, (h₁.newDict c).2 = ⟨h₁.dicts.size⟩ := fun _ => rfl
  simp only [Heap.frame, hnew]
  rw [putAll_newDict rfl]
  cases b.receiver with
  | none =>
    simp only
    split <;> exact hgrows.trans (grown_newDict h₁ _)
  | some d =>
    simp only [put_newDict]
    split <;> exact hgrows.trans (grown_newDict h₁ _)

namespace Machine

theorem pins_within (h : Heap) (d e : DictId) : (h.within d e).1.pins = h.pins := by
  unfold Heap.within
  split <;> rfl

namespace Regular
variable (hm : m.Regular K base)
include hm

theorem pins_callee (d : DictId) (hstack : m.stack = .operator [x] e :: stack) :
    (m.heap.hold (.dict d)).pins =
      [.dict d, .dict e, x] :: (stack.map Frame.held ++ base) := by
  have hpins := hm.pins
  rw [hstack, List.map_cons, List.cons_append] at hpins
  rw [hold, hpins]
  rfl

theorem complete_callee (hret : m.control = .ret (.dict d)) :
    (m.heap.hold (.dict d)).Complete := by
  have hd : Has m.heap.everything (.dict d) := by
    have hcontrol := hm.inside.control
    rwa [hret] at hcontrol
  have hmade : ∀ r, (m.heap.hold (.dict d)).Allocated r ↔ m.heap.Allocated r := by
    intro r
    cases r <;> simp [Allocated]
  have hall : (m.heap.hold (.dict d)).everything = m.heap.everything := Set.ext hmade
  refine Heap.Region.complete ?_ fun r hr => (hmade r).mpr ?_
  · rw [hall]
    exact hm.inside.region.same_objects (lists_hold _ _) (dicts_hold _ _) (natives_hold _ _)
  · exact (mem_heldRefs_hold hr).elim (hm.held r) (hd r)

variable (hret : m.control = .ret (.dict d)) (hstack : m.stack = .operator [x] e :: stack)
include hret hstack

theorem step_callee (rt : Runtime) :
    let h := m.heap.hold (.dict d)
    m.step rt = after stack m.depth m.log (stack.map Frame.held ++ base)
      (.eval x (h.within d e).2 [.within e d (h.within d e).2], (h.within d e).1) := by
  intro h
  have hstep := step_of_ret rt (f := .operator [x] e) rfl hret hstack
  have hresume : (Frame.operator [x] e).resume rt m.depth (.dict d) h =
      (.eval x (h.within d e).2 [.within e d (h.within d e).2], (h.within d e).1) := rfl
  rw [hstep, hresume]
  simp only [pins_within, h, hm.pins_callee d hstack, List.tail_cons]

/-- The expression is evaluated next, in a scope that shows the slots of `d` and has its other
names from where they are to come. -/
theorem enters (rt : Runtime) (hx : m.heap.LivesBy (stack.map Frame.held ++ base) x) :
    let h := m.heap.hold (.dict d)
    ∃ scope p, (m.step rt).Awaits scope stack x (.within e d scope) ∧ h.Opens d e scope p ∧
      h.Enlarged (m.step rt).heap ∧ (m.step rt).heap.Fronts d e scope ∧
      (m.step rt).heap.Inherits scope p ∧ h.Allocated (.dict p) := by
  intro h
  have hpins : h.pins = _ := hm.pins_callee d hstack
  have hh : h.Complete := hm.complete_callee hret
  have hstep := hm.step_callee hret hstack rt
  have hheap : (m.step rt).heap = h.entered d e [] (stack.map Frame.held ++ base) := by
    rw [hstep]
    rfl
  have hbelow : h.LivesBy (stack.map Frame.held ++ base) x := by
    simp only [h, LivesBy, hold]
    split <;> exact hx
  have hk : h.Enlarged (m.step rt).heap := by
    rw [hheap]
    exact hh.enlarged_entered hpins hbelow (List.forall_mem_nil _)
  have hd : h.Allocated (.dict d) :=
    hh.held _ ((heldRefs_callee hpins).mpr (.inr (.inl rfl)))
  have he : h.Allocated (.dict e) :=
    hh.held _ ((heldRefs_callee hpins).mpr (.inr (.inr (.inl rfl))))
  have hawaits : (m.step rt).Awaits (h.within d e).2 stack x (.within e d (h.within d e).2) := by
    rw [hstep]
    exact ⟨rfl, rfl⟩
  cases hp : h.parent d with
  | some p =>
    rw [within_of_parent hp] at hawaits
    exact ⟨d, p, hawaits, .itself hp, hk, ⟨rfl, .inl rfl⟩, (hk.parent hh hd).trans hp,
      hh.inherits hp⟩
  | none =>
    rw [within_of_no_parent hp] at hawaits
    have hcell : (m.step rt).heap.cell (h.view d e).2 =
        { parent := some e, scope := some e, target := some (h.owner d),
          name := (h.cell d).name } := by
      rw [hheap, entered, within_of_no_parent hp]
      exact (cell_newDict h _).trans (if_pos rfl)
    have hscope := congrArg DictCell.scope hcell
    refine ⟨_, e, hawaits, .view hp (Nat.lt_irrefl _), hk, ⟨?_, .inr hscope⟩,
      parent_of_retained (congrArg DictCell.parent hcell) hscope, he⟩
    · have howner : (m.step rt).heap.owner d = h.owner d := by rw [owner, owner, hk.cell hd]
      rw [howner, owner, hcell]
      rfl

end Regular

/-! Leaving. -/

/-- When the expression has come to something, a field may be looked up or a block run, and whatever
is there stays as it is. -/
theorem cell_leaves (hstack : m.stack = .within e d scope :: stack)
    (hcontrol : ∀ x env, m.control ≠ .eval x env) (hc : m.heap.Allocated (.dict c)) :
    (m.step rt).heap.cell c = m.heap.cell c := by
  have hfield : ∀ name h, (field d name e h).2.dicts = h.dicts := by
    intro name h
    unfold field
    split
    · rfl
    · split <;> rfl
  cases hcase : m.control with
  | eval x env => exact (hcontrol x env hcase).elim
  | raise error =>
    obtain ⟨control, frames, depth, h, log⟩ := m
    obtain rfl : control = .raise error := hcase
    obtain rfl : frames = .within e d scope :: stack := hstack
    rfl
  | ret v =>
    have hc' : (m.heap.hold v).Allocated (.dict c) := by simpa [Allocated] using hc
    rw [step_of_ret rt (f := .within e d scope) rfl hcase hstack,
      ← cell_congr (b := m.heap.hold v) (dicts_hold _ _)]
    show (finishWithin rt m.depth e d scope v (m.heap.hold v)).2.cell c = _
    unfold finishWithin
    split
    · exact cell_congr (hfield _ _)
    · exact (grown_invoke ..).cell c hc' (by simp)
    · rfl

/-- When `[d x]` is evaluated, `x` is evaluated in a scope in which a name is looked up in `d`
first, and then behind its parent if it has one, and else in `e`. Names that are written directly in
that scope are bound in `d`, or rebound where they are found. Neither the way into the scope nor the
way out of it changes what there is. -/
theorem within_scope (hrt : rt.Tame K) (hm : m.Regular K base) (hcovered : m.Covered base)
    (hret : m.control = .ret (.dict d)) (hstack : m.stack = .operator [x] e :: stack) :
    let h := m.heap.hold (.dict d)
    let m₁ := m.step rt
    ∃ scope p, m₁.Awaits scope stack x (.within e d scope) ∧ h.Opens d e scope p ∧
      (∀ name, Ordinary name → m₁.heap.seen scope name =
        ((h.slots d).lookup (canonical name)).or (h.seen p name)) ∧
      (∀ c, h.Allocated (.dict c) →
        m₁.heap.cell c = h.cell c ∧ m₁.heap.parent c = h.parent c) ∧
      (∀ n, (m₁.run rt n).heap.Fronts d e scope ∧ (m₁.run rt n).DefinesIn rt scope d ∧
        (m₁.run rt n).AssignsIn rt scope d) ∧
      ∀ m₂, Returns rt (.within e d scope :: stack) m₁ m₂ →
        ∀ c, m₂.heap.Allocated (.dict c) → (m₂.step rt).heap.cell c = m₂.heap.cell c := by
  intro h m₁
  have hx : m.heap.LivesBy (stack.map Frame.held ++ base) x := by
    obtain ⟨-, hpending⟩ := hcovered
    rw [hstack] at hpending
    have hitem := hpending.1 x List.mem_cons_self
    exact fun r hr => Covers.living (h := { m.heap with pins := stack.map Frame.held ++ base })
      hitem (fun _ => id) hr
  obtain ⟨scope, p, hawaits, hopens, hk, hfronts, hbehind, hp⟩ := hm.enters hret hstack rt hx
  have hh : h.Complete := hm.complete_callee hret
  have hd : h.Allocated (.dict d) :=
    hh.held _ ((heldRefs_callee (hm.pins_callee d hstack)).mpr (.inr (.inl rfl)))
  have hworks : ¬ m.Rests [] := fun hrests => by
    rw [hrests.stack] at hstack
    cases hstack
  obtain ⟨T, -, hinside⟩ := hm.inside.step hrt hworks
  have hscope : m₁.heap.Allocated (.dict scope) := by
    have hcontrol := hinside.control
    rw [hawaits.control] at hcontrol
    exact hinside.region.allocated _ hcontrol.2
  refine ⟨scope, p, hawaits, hopens, fun name hname => ?_,
    fun c hc => ⟨hk.cell hc, hk.parent hh hc⟩, fun n => ?_, fun m₂ hreturns c hc => ?_⟩
  · have hbehind : m₁.heap.parent scope = some p := hbehind
    rw [hfronts.seen hname, hbehind, Option.bind_some, hk.slots hh hd, hk.seen hh hp]
  · obtain ⟨T', hedits, hinside'⟩ := hinside.run hrt n
    have hfronts' := hfronts.after hedits hinside.region (hk.allocated hd) hscope
    have hd' := (hedits.contained hinside.region).grow _ (hk.allocated hd)
    exact ⟨hfronts', hinside'.definesIn hrt hd' hfronts'.owner,
      hinside'.assignsIn hrt hd' hfronts'.owner⟩
  · exact cell_leaves hreturns.rests.stack hreturns.rests.answered hc

end Machine

def Block.itself : Block := ⟨0, none, ["self"], [.sym "self"], ⟨0⟩, none⟩

def Heap.family : Heap where
  dicts := #[{}, { slots := Slots.empty.put "m" (.block Block.itself) }, { parent := some ⟨1⟩ }]
  roots := [.dict ⟨0⟩, .dict ⟨1⟩, .dict ⟨2⟩]

/-- In `[[d :m] nil]` the object has just been evaluated. -/
def Machine.asking : Machine :=
  let stack := [.operator [.quote (.sym "m")] ⟨0⟩, .operator [.quote .nil] ⟨0⟩]
  ⟨.ret (.dict ⟨2⟩), stack, 0, { Heap.family with pins := stack.map Frame.held }, []⟩

namespace Machine

theorem cell_asking (d : DictId) : (asking.heap.cell d).target = none ∧
    (asking.heap.cell d).caller = none ∧ (∀ p, (asking.heap.cell d).parent = some p → p = ⟨1⟩) ∧
    (∀ r ∈ (asking.heap.cell d).refs, r = .dict ⟨0⟩) ∧
    ∀ x ∈ (asking.heap.cell d).slots.toList, x.1 = "m" := by
  obtain ⟨i⟩ := d
  match i with
  | 0 | _ + 3 => exact ⟨rfl, rfl, nofun, nofun, nofun⟩
  | 2 => exact ⟨rfl, rfl, fun p hp => (Option.some.inj hp).symm, nofun, nofun⟩
  | 1 =>
    have hslots : (asking.heap.cell ⟨1⟩).slots.toList = [("m", .block Block.itself)] := rfl
    refine ⟨rfl, rfl, nofun, fun r hr => ?_, fun x hx => ?_⟩
    · exact List.mem_singleton.mp hr
    · rw [hslots] at hx
      rw [List.mem_singleton.mp hx]

theorem allocated_asking {i : Nat} (hi : i < 3) : asking.heap.Allocated (.dict ⟨i⟩) := hi

theorem region_asking : asking.heap.Region asking.heap.everything := by
  refine ⟨⟨fun d t ht => ?_, fun d t ht => ?_, fun d x hx => ?_⟩, fun r hr => hr,
    fun r _ o ho => ?_, fun d p _ hp => ?_, fun d c _ hc => ?_⟩
  · rw [(cell_asking d).1] at ht
    cases ht
  · rw [(cell_asking d).1] at ht
    cases ht
  · rw [(cell_asking d).2.2.2.2 x hx]
    decide
  · cases r with
    | dict d =>
      obtain rfl := (cell_asking d).2.2.2.1 o ho
      exact allocated_asking (by decide)
    | list l => exact (List.not_mem_nil ho).elim
    | native n => exact (List.not_mem_nil ho).elim
  · obtain rfl := (cell_asking d).2.2.1 p hp
    exact allocated_asking (by decide)
  · rw [(cell_asking d).2.1] at hc
    cases hc

theorem regular_asking : asking.Regular {.dict ⟨0⟩} [] := by
  have hpending : ∀ f ∈ asking.stack, ∀ v ∈ f.held, v = .dict ⟨0⟩ ∨ v.refs = [] := by
    simp [asking, Frame.held, Value.refs]
  have hheld : ∀ f ∈ asking.stack, ∀ v ∈ f.held, Has asking.heap.everything v := by
    intro f hf v hv r hr
    obtain rfl | hnone := hpending f hf v hv
    · obtain rfl := List.mem_singleton.mp hr
      exact allocated_asking (by decide)
    · rw [hnone] at hr
      cases hr
  refine ⟨⟨region_asking, ?_, ?_, asking.stack, rfl, fun f hf => ⟨hheld f hf, ?_⟩, rfl⟩, ?_, rfl⟩
  · rintro _ rfl
    exact allocated_asking (by decide)
  · exact has_dict.mpr (allocated_asking (by decide))
  · simp only [asking, List.mem_cons, List.not_mem_nil, or_false] at hf
    obtain rfl | rfl := hf <;> trivial
  · intro r hr
    obtain ⟨v, hv, hr⟩ | ⟨vs, hvs, v, hv, hr⟩ := mem_heldRefs.mp hr
    · simp only [asking, family, List.mem_cons, List.not_mem_nil, or_false] at hv
      obtain rfl | rfl | rfl := hv <;>
        exact List.mem_singleton.mp hr ▸ allocated_asking (by decide)
    · obtain ⟨f, hf, rfl⟩ := List.mem_map.mp hvs
      exact hheld f hf v hv r hr

theorem covered_asking : asking.Covered [] := by
  refine ⟨nofun, fun x hx => ?_, fun x hx => ?_, trivial⟩
  · obtain rfl := List.mem_singleton.mp hx
    exact nofun
  · obtain rfl := List.mem_singleton.mp hx
    exact nofun

/-- The name of the method leads to it. -/
theorem within_scope_itself :
    let rt := (Interpreter.standard 100).runtime
    let m := asking.step rt
    m.Awaits ⟨2⟩ [.operator [.quote .nil] ⟨0⟩] (.quote (.sym "m")) (.within ⟨0⟩ ⟨2⟩ ⟨2⟩) ∧
      m.heap.seen ⟨2⟩ "m" = some (.block Block.itself) ∧ m.DefinesIn rt ⟨2⟩ ⟨2⟩ := by
  intro rt m
  obtain ⟨scope, p, hawaits, hopens, hseen, -, hlater, -⟩ :=
    within_scope (Interpreter.tame_runtime 100) regular_asking covered_asking rfl rfl
  have hparent : (asking.heap.hold (.dict ⟨2⟩)).parent ⟨2⟩ = some ⟨1⟩ := by rfl
  have hname : Ordinary "m" := ⟨rfl, by decide⟩
  cases hopens with
  | view hnone => exact nomatch hnone.symm.trans hparent
  | itself hp =>
    obtain rfl : p = ⟨1⟩ := Option.some.inj (Eq.trans (Eq.symm hp) hparent)
    exact ⟨hawaits, (hseen "m" hname).trans rfl, (hlater 0).2.1⟩

end Machine

end DictScript
