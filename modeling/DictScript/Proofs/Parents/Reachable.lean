import DictScript.Proofs.Parents.Run
import DictScript.Interpreter

/-!
The heaps that a host gets to: it makes and changes dictionaries, evaluates and thaws, and holds
what it likes. In all of them parent chains end.
-/
namespace DictScript
open Heap
variable {rt : Runtime} {h k : Heap} {K L : Set Ref} {d e p : DictId} {v : Value} {name : String}

inductive HostOp where
  | new (name : Option String)
  | child (parent : DictId)
  | frame (scope caller : DictId) (name : Option String)
  | view (target parent : DictId)
  | ofPairs (pairs : List (String × Value))
  | define (d : DictId) (name : String) (v : Value)
  | remove (d : DictId) (name : String)
  | setParent (d : DictId) (parent : Option DictId)
  | attach (d scope : DictId)
  | setName (d : DictId) (name : Option String)
  | setTag (d : DictId) (tag : String)
  | list (items : List Value)
  | push (l : ListId) (v : Value)
  | native (n : Native)

namespace HostOp

def held : HostOp → List Value
  | new _ => []
  | child parent => [.dict parent]
  | frame scope caller _ => [.dict scope, .dict caller]
  | view target parent => [.dict target, .dict parent]
  | ofPairs pairs => pairs.map Prod.snd
  | define d _ v => [.dict d, v]
  | remove d _ => [.dict d]
  | setParent d parent => .dict d :: parent.toList.map Value.dict
  | attach d scope => [.dict d, .dict scope]
  | setName d _ => [.dict d]
  | setTag d _ => [.dict d]
  | list items => items
  | push l v => [.list l, v]
  | native n => n.bindings.map Prod.snd

/-- Only a dictionary that is new, so that none inherits from it yet, is attached to another. -/
def Allowed (h : Heap) : HostOp → Prop
  | attach d scope => d ≠ scope ∧ ∀ e, (h.cell e).parent ≠ some d
  | _ => True

def run (h : Heap) : HostOp → Heap × List Value
  | new name => let (h, d) := h.newDict { name := name }; (h, [.dict d])
  | child parent => let (h, d) := h.child parent; (h, [.dict d])
  | frame scope caller name => let (h, d) := h.frame scope caller name; (h, [.dict d])
  | view target parent => let (h, d) := h.view target parent; (h, [.dict d])
  | ofPairs pairs =>
    match h.ofPairs pairs with
    | (.ok d, h) => (h, [.dict d])
    | (.error _, h) => (h, [])
  | define d name v => ((h.define d name v).2, [])
  | remove d name => let (h, v) := h.remove d name; (h, [v])
  | setParent d parent => ((h.setParent d parent).2, [])
  | attach d scope => (h.attach d scope, [])
  | setName d name => (h.setName d name, [])
  | setTag d tag => (h.setTag d tag, [])
  | list items => let (h, l) := h.newList items; (h, [.list l])
  | push l v => (h.pushItem l v, [])
  | native n => let (h, id) := h.newNative n; (h, [.native id])

end HostOp

def Heap.keep (h : Heap) (vs : List Value) : Heap := { h with roots := vs ++ h.roots }

def Interpreter.begin (i : Interpreter) (request : Request) : Machine :=
  let (move, h) := request.begin i.runtime 0 (i.heap.enter request.held)
  .proceed [] 0 i.log move h

inductive Reachable (rt : Runtime) : Heap → Prop where
  | new (maxDepth : Nat) (registry : Registry) (functions : String → Option HostFunction) :
      (Interpreter.new maxDepth registry functions).runtime = rt →
      Reachable rt (Interpreter.new maxDepth registry functions).heap
  /-- The host holds what it can get at, and no longer what it lets go. -/
  | hold {h : Heap} (roots : List Value) : Reachable rt h → (∀ v ∈ roots, h.Knows h.heldRefs v) →
      .dict rt.root ∈ allRefs roots → Reachable rt { h with roots := roots }
  | change {h : Heap} (o : HostOp) : Reachable rt h → (∀ v ∈ o.held, Has h.heldRefs v) →
      o.Allowed h → Reachable rt ((o.run h).1.keep (o.run h).2)
  | thaw {i : Interpreter} (frozen : Json) (scope : Option DictId) : Reachable rt i.heap →
      i.runtime = rt → (∀ d, scope = some d → .dict d ∈ i.heap.heldRefs) →
      Reachable rt ((i.thaw frozen scope).2.heap.keep (answerValues (i.thaw frozen scope).1))
  /-- After any number of steps, whether the evaluation has ended or not. -/
  | evaluating {i : Interpreter} (request : Request) (fuel : Nat) : Reachable rt i.heap →
      i.runtime = rt → (∀ v ∈ request.held, Has i.heap.heldRefs v) →
      Reachable rt ((i.begin request).run rt fuel).heap
  | evaluated {i : Interpreter} {result : Except RuntimeError Value} (request : Request)
      (fuel : Nat) : Reachable rt i.heap → i.runtime = rt →
      (∀ v ∈ request.held, Has i.heap.heldRefs v) → (i.run fuel request).1 = some result →
      Reachable rt ((i.run fuel request).2.heap.keep (answerValues result))
  /-- In the middle of a host function, a defroster or a thaw. -/
  | during {h k : Heap} {L : Set Ref} : Reachable rt h → Ops (h, h.heldRefs) (k, L) →
      .dict rt.root ∈ allRefs k.roots → Reachable rt k

/-! The host's own operations. -/

namespace Heap

theorem Good.leads_remove (hg : h.Good K) (root : DictId) (hd : .dict d ∈ K) (name : String) :
    ∃ L, Leads root (h, K) ((h.remove d name).1, L) ∧ Has L (h.remove d name).2 := by
  have hknows := hg.knows_get (living_of_mem hd) name
  have htake := hg.takeValue root hknows
  have hd' := living_of_mem (h := h) (Set.mem_union_left {r | r ∈ (h.get d name).refs} hd)
  refine ⟨K ∪ {r | r ∈ (h.get d name).refs}, ?_, ?_⟩
  · unfold remove
    simp only
    split
    · exact htake.trans (.of_op (.unparent d hd') rfl rfl)
    · exact htake.trans (.of_op (.setCaller d none hd' (by simp)) rfl rfl)
    · exact htake.trans (.of_op (.erase d _ hd') rfl rfl)
  · unfold remove
    simp only
    split
    · exact fun r hr => .inr hr
    · exact fun r hr => .inr hr
    · exact fun r hr => .inr hr

/-- In a dictionary that is nobody's parent any name is bound, and it becomes nobody's parent. -/
theorem Good.leads_define_new (root : DictId) (name : String) (hg : h.Good K) (hd : .dict d ∈ K)
    (hnone : ∀ e, (h.cell e).parent ≠ some d) (hv : Has K v) (hne : v ≠ .dict d) :
    Leads root (h, K) ((h.define d name v).2, K) ∧
      ∀ e, ((h.define d name v).2.cell e).parent ≠ some d := by
  have hlive := living_of_mem (h := h) hd
  have hmade := hg.known _ hd
  have hcells : ∀ {x : DictId} {f : DictCell → DictCell}, h.Allocated (.dict x) →
      (f (h.cell x)).parent ≠ some d → ∀ e, ((h.modifyCell x f).cell e).parent ≠ some d := by
    intro x f hx hf e
    rw [cell_modifyCell hx]
    split
    · exact hf
    · exact hnone e
  unfold define
  split
  · rename_i n hn
    exact ⟨leads_put root hd hv (Key.of_eq_slot hn),
      hcells (allocated_owner hg.wellFormed hmade) (hnone _)⟩
  · rename_i p _
    have hdp : d ≠ p := fun heq => hne (heq ▸ rfl)
    rw [Heap.setParent]
    split
    · exact ⟨.refl _, hnone⟩
    · refine ⟨?_, hcells hmade fun heq => hdp (Option.some.inj heq).symm⟩
      exact .of_op (.attach d p true hlive (living_of_mem (has_dict.mp hv)) hdp hnone) rfl rfl
  · exact ⟨.of_op (.unparent d hlive) rfl rfl, hcells hmade (by simp)⟩
  · rename_i c _
    refine ⟨.of_op (.setCaller d (some c) hlive ?_) rfl rfl, hcells hmade (hnone d)⟩
    rintro e ⟨⟩
    exact living_of_mem (has_dict.mp hv)
  · exact ⟨.of_op (.setCaller d none hlive (by simp)) rfl rfl, hcells hmade (hnone d)⟩
  · exact ⟨.refl _, hnone⟩

theorem Good.leads_defineAll (root : DictId) {pairs : List (String × Value)} (hg : h.Good K)
    (hd : .dict d ∈ K) (hnone : ∀ e, (h.cell e).parent ≠ some d)
    (hpairs : ∀ x ∈ pairs, Has K x.2 ∧ x.2 ≠ .dict d) :
    Leads root (h, K) ((h.defineAll d pairs).2, K) := by
  induction pairs generalizing h with
  | nil => exact .refl _
  | cons x pairs ih =>
    obtain ⟨name, v⟩ := x
    obtain ⟨hv, hne⟩ := hpairs _ List.mem_cons_self
    obtain ⟨hdef, hnone'⟩ := hg.leads_define_new root name hd hnone hv hne
    rw [defineAll]
    generalize h.define d name v = x at hdef hnone' ⊢
    obtain ⟨result, h₁⟩ := x
    cases result with
    | error e => exact hdef
    | ok _ =>
      exact hdef.trans (ih (hdef.good hg) hnone' fun y hy => hpairs y (List.mem_cons_of_mem _ hy))

theorem Good.leads_ofPairs (root : DictId) {pairs : List (String × Value)} (hg : h.Good K)
    (hpairs : ∀ x ∈ pairs, Has K x.2) :
    ∃ L, Leads root (h, K) ((h.ofPairs pairs).2, L) ∧
      ∀ d, (h.ofPairs pairs).1 = .ok d → .dict d ∈ L := by
  have hnew := leads_newDict (h := h) (K := K) (c := {}) root rfl (by simp) (by simp) (by simp)
    (by simp)
  have hnone : ∀ e, ((h.newDict {}).1.cell e).parent ≠ some (h.newDict {}).2 := by
    intro e heq
    rw [cell_newDict] at heq
    split at heq
    · cases heq
    · exact Nat.lt_irrefl _ (hg.parents e _ heq)
  refine ⟨_, hnew.trans ((hnew.good hg).leads_defineAll root (.inl rfl) hnone fun x hx => ?_), ?_⟩
  · refine ⟨(hpairs x hx).mono (Set.subset_insert _ _), fun heq => ?_⟩
    have hmade := hg.known _ (has_dict.mp (heq ▸ hpairs x hx))
    exact Nat.lt_irrefl _ hmade
  · intro d hd
    refine .inl ?_
    rw [ofPairs] at hd
    simp only at hd
    cases hresult : ((h.newDict {}).1.defineAll (h.newDict {}).2 pairs).1 with
    | error e =>
      rw [hresult] at hd
      cases hd
    | ok _ =>
      rw [hresult] at hd
      cases hd
      rfl

end Heap

theorem HostOp.leads (o : HostOp) (root : DictId) (hg : h.Good h.heldRefs)
    (hheld : ∀ v ∈ o.held, Has h.heldRefs v) (hallowed : o.Allowed h) :
    ∃ L, Leads root (h, h.heldRefs) ((o.run h).1, L) ∧ ∀ v ∈ (o.run h).2, Has L v := by
  have hlast : ∀ {L : Set Ref} {d : DictId}, .dict d ∈ L → ∀ v ∈ [Value.dict d], Has L v := by
    intro L d hd v hv
    rw [List.mem_singleton.mp hv]
    exact has_dict.mpr hd
  have htight : ∀ r ∈ h.heldRefs, h.Living h.heldRefs r := fun _ hr => living_of_mem hr
  cases o with
  | new name =>
    refine ⟨_, leads_newDict (c := { name := name }) root rfl ?_ ?_ ?_ ?_, hlast (.inl rfl)⟩
    all_goals simp
  | child parent =>
    refine ⟨_, leads_newDict (c := { parent := some parent }) root rfl ?_ ?_ ?_ ?_,
      hlast (.inl rfl)⟩
    · rintro p ⟨⟩
      exact has_dict.mp (hheld _ List.mem_cons_self)
    all_goals simp
  | frame scope caller name =>
    exact ⟨_, leads_frame root (has_dict.mp (hheld _ (by simp [held])))
      (has_dict.mp (hheld _ (by simp [held]))) name, hlast (.inl rfl)⟩
  | view target parent =>
    exact ⟨_, hg.leads_view root (has_dict.mp (hheld _ (by simp [held])))
      (has_dict.mp (hheld _ (by simp [held]))), hlast (.inl rfl)⟩
  | ofPairs pairs =>
    obtain ⟨L, hlead, hd⟩ := hg.leads_ofPairs root fun x hx =>
      hheld x.2 (List.mem_map.mpr ⟨x, hx, rfl⟩)
    rw [run]
    generalize h.ofPairs pairs = x at hlead hd ⊢
    obtain ⟨result, k⟩ := x
    cases result with
    | ok d => exact ⟨L, hlead, hlast (hd d rfl)⟩
    | error e => exact ⟨L, hlead, List.forall_mem_nil _⟩
  | define d name v =>
    have hd := has_dict.mp (hheld (.dict d) List.mem_cons_self)
    exact ⟨_, leads_define root name hd (hheld v (by simp [held])) fun _ _ => htight, by simp [run]⟩
  | remove d name =>
    obtain ⟨L, hlead, hv⟩ := hg.leads_remove root (has_dict.mp (hheld _ List.mem_cons_self)) name
    refine ⟨L, hlead, fun w hw => ?_⟩
    rw [List.mem_singleton.mp hw]
    exact hv
  | setParent d parent =>
    have hd := has_dict.mp (hheld (.dict d) List.mem_cons_self)
    -- the same as binding the name of the link
    have hsame : h.setParent d parent = h.define d "parent" (linkValue parent) := by
      cases parent <;> rfl
    refine ⟨h.heldRefs, ?_, by simp [run]⟩
    rw [run, hsame]
    refine leads_define root _ hd ?_ fun _ _ => htight
    cases parent with
    | none => exact fun r hr => by simp [linkValue, Value.refs] at hr
    | some p => exact hheld (.dict p) (by simp [held])
  | attach d scope =>
    obtain ⟨hne, hnone⟩ := hallowed
    refine ⟨_, .of_op (.attach d scope false ?_ ?_ hne hnone) rfl rfl, by simp [run]⟩
    · exact living_of_mem (has_dict.mp (hheld _ (by simp [held])))
    · exact living_of_mem (has_dict.mp (hheld _ (by simp [held])))
  | setName d name =>
    have hd := living_of_mem (h := h) (has_dict.mp (hheld _ List.mem_cons_self))
    exact ⟨_, .of_op (.setName d name hd) rfl rfl, by simp [run]⟩
  | setTag d tag =>
    have hd := living_of_mem (h := h) (has_dict.mp (hheld _ List.mem_cons_self))
    exact ⟨_, .of_op (.setTag d tag hd) rfl rfl, by simp [run]⟩
  | list items =>
    refine ⟨_, leads_newList root items fun v hv => (hheld v hv).knows, fun v hv => ?_⟩
    rw [List.mem_singleton.mp hv]
    exact has_list.mpr (.inl rfl)
  | push l v =>
    have hl := living_of_mem (h := h) (has_list.mp (hheld (.list l) (by simp [held])))
    exact ⟨_, .of_op (.pushItem l v hl (hheld v (by simp [held])).knows) rfl rfl, by simp [run]⟩
  | native n =>
    refine ⟨_, .of_op (.newNative n fun r hr => ?_) rfl rfl, fun v hv => ?_⟩
    · cases n with
      | function name code => simp [Native.refs] at hr
      | object tag record =>
        cases record with
        | none => simp [Native.refs] at hr
        | some record =>
          obtain ⟨x, hx, hr⟩ := List.mem_flatMap.mp hr
          exact living_of_mem (hheld x.2 (List.mem_map.mpr ⟨x, hx, rfl⟩) r hr)
    · rw [List.mem_singleton.mp hv]
      exact fun r hr => .inl (List.mem_singleton.mp hr)

/-! What holds in every heap that is reached. -/

namespace Heap

/-- The host may hold whatever is in hand, and nothing else. -/
theorem Good.held_by {roots : List Value} {pins : List (List Value)} (hg : h.Good K)
    (hroots : ∀ v ∈ roots, h.Knows K v) (hpins : ∀ vs ∈ pins, ∀ v ∈ vs, h.Knows K v) :
    ({ h with roots := roots, pins := pins } : Heap).Good
      (heldRefs { h with roots := roots, pins := pins }) := by
  have hnew := hg.rehold (k := { h with roots := roots, pins := pins }) (L := ∅) ⟨_, _, rfl⟩
    (fun r hr => ?_) fun r hr => (Set.notMem_empty r hr).elim
  · rwa [Set.union_empty] at hnew
  · obtain ⟨v, hv, hr⟩ | ⟨vs, hvs, v, hv, hr⟩ := mem_heldRefs.mp hr
    · exact hroots v hv r hr
    · exact hpins vs hvs v hv r hr

theorem Good.knows_roots (hg : h.Good K) (hv : v ∈ h.roots) : h.Knows K v :=
  fun _ hr => living_of_mem (hg.held _ (mem_heldRefs.mpr (.inl ⟨v, hv, hr⟩)))

theorem Good.keep {vs : List Value} (hg : h.Good K) (hvs : ∀ v ∈ vs, h.Knows K v) :
    (h.keep vs).Good (h.keep vs).heldRefs := by
  refine hg.held_by (fun v hv => ?_) fun vs hvs v hv => Machine.knows_pins hg hvs hv
  cases List.mem_append.mp hv with
  | inl hv => exact hvs v hv
  | inr hv => exact hg.knows_roots hv

theorem root_keep {root : DictId} {vs : List Value} (hroot : .dict root ∈ allRefs h.roots) :
    .dict root ∈ allRefs (h.keep vs).roots := by
  obtain ⟨v, hv, hr⟩ := mem_allRefs.mp hroot
  exact mem_allRefs.mpr ⟨v, List.mem_append_right _ hv, hr⟩

end Heap

structure Heap.Kept (root : DictId) (h : Heap) : Prop where
  good : h.Good h.heldRefs
  root : .dict root ∈ allRefs h.roots

theorem Heap.Kept.after {root : DictId} (hlead : Leads root (h, h.heldRefs) (k, L))
    (hk : h.Kept root) : k.Kept root := by
  have hg := hlead.good hk.good
  exact ⟨hg.held_by (fun _ => hg.knows_roots) fun _ hvs _ => Machine.knows_pins hg hvs,
    hlead.root hk.root⟩

theorem Heap.Kept.keep {root : DictId} {vs : List Value}
    (hlead : Leads root (h, h.heldRefs) (k, L)) (hvs : ∀ v ∈ vs, k.Knows L v) (hk : h.Kept root) :
    (k.keep vs).Kept root :=
  ⟨(hlead.good hk.good).keep hvs, root_keep (hlead.root hk.root)⟩

namespace Interpreter

/-- A host function is bound in the root environment. -/
theorem kept_defineNative {i : Interpreter} (hk : i.heap.Kept i.runtime.root) (name : String)
    (params : List String) (code : Code) (hname : Key.of name = .slot name) :
    (i.defineNative name params code).heap.Kept i.runtime.root := by
  obtain ⟨rt, h, log⟩ := i
  obtain ⟨v, hv, hmem⟩ := mem_allRefs.mp hk.root
  have hroot : Ref.dict rt.root ∈ h.heldRefs := mem_heldRefs.mpr (.inl ⟨v, hv, hmem⟩)
  have hnative : Leads rt.root (h, h.heldRefs) ((h.newNative (.function name code)).1,
      insert (.native (h.newNative (.function name code)).2) h.heldRefs) :=
    .of_op (.newNative _ (by simp [Native.refs])) rfl rfl
  unfold defineNative
  simp only [define, hname]
  generalize h.newNative (.function name code) = x at hnative ⊢
  obtain ⟨h₁, n⟩ := x
  have henv := leads_newDict (h := h₁) (K := insert (.native n) h.heldRefs) (c := {}) rt.root rfl
    (by simp) (by simp) (by simp) (by simp)
  generalize h₁.newDict {} = x at henv ⊢
  obtain ⟨h₂, env⟩ := x
  have hblock := fun b => leads_newBlock (h := h₂)
    (K := insert (.dict env) (insert (.native n) h.heldRefs)) rt.root b
  refine hk.after ((hnative.trans henv).trans ((hblock _).trans
    (leads_put rt.root (.inr (.inr hroot)) ?_ hname)))
  intro r hr
  simp only [newBlock, Value.refs, blockRefs, Option.toList_none, List.map_nil, List.nil_append,
    allRefs, List.append_nil, List.mem_cons, List.not_mem_nil, or_false] at hr
  obtain rfl | rfl := hr
  · exact .inl rfl
  · exact .inr (.inl rfl)

theorem kept_defineAll {i : Interpreter} (hk : i.heap.Kept i.runtime.root)
    (table : List (Primitive × String × List String))
    (hnames : ∀ x ∈ table, Key.of x.2.1 = .slot x.2.1) :
    (table.foldl (fun i (p, name, params) => i.defineNative name params (.primitive p)) i).heap.Kept
        i.runtime.root ∧
      (table.foldl (fun i (p, name, params) => i.defineNative name params (.primitive p)) i).runtime =
        i.runtime := by
  induction table generalizing i with
  | nil => exact ⟨hk, rfl⟩
  | cons x table ih =>
    have hone := kept_defineNative hk x.2.1 x.2.2 (.primitive x.1) (hnames x List.mem_cons_self)
    exact ih (i := i.defineNative x.2.1 x.2.2 (.primitive x.1)) hone
      fun y hy => hnames y (List.mem_cons_of_mem _ hy)

theorem ordinary_table : ∀ x ∈ Primitive.table, Key.of x.2.1 = .slot x.2.1 := by decide +kernel

theorem good_empty : ({} : Heap).Good ∅ where
  wellFormed := ⟨fun r hr => by cases r <;> simp [Allocated] at hr,
    fun d => by rw [owner_of_size_le (d := d) (Nat.zero_le _), owner_of_size_le (Nat.zero_le _)],
    fun d n hn => by simp [names, slots_of_size_le] at hn⟩
  known _ hr := hr.elim
  held r hr := by simp [held, allRefs] at hr
  parents d p hp := by simp [cell_of_size_le] at hp
  callers d c hc := by simp [cell_of_size_le] at hc
  acyclic d hcycle := by
    cases hcycle with
    | single hstep => simp [Link, cell_of_size_le] at hstep
    | tail _ hstep => simp [Link, cell_of_size_le] at hstep

/-- A root environment on its own, held by the host. -/
theorem kept_bare (name tag : Option String) :
    ({ (({} : Heap).newDict { name := name, tag := tag }).1 with
      roots := [.dict ⟨0⟩] } : Heap).Kept ⟨0⟩ := by
  have hnew := leads_newDict (h := {}) (K := ∅) (c := { name := name, tag := tag }) ⟨0⟩ rfl
    (by simp) (by simp) (by simp) (by simp)
  refine ⟨(hnew.good good_empty).held_by (fun v hv r hr => ?_) (List.forall_mem_nil _),
    List.mem_singleton_self _⟩
  rw [List.mem_singleton.mp hv] at hr
  exact living_of_mem (.inl (List.mem_singleton.mp hr))

theorem runtime_new (maxDepth : Nat) (registry : Registry)
    (functions : String → Option HostFunction) :
    (new maxDepth registry functions).runtime = ⟨⟨0⟩, maxDepth, registry, functions⟩ :=
  (kept_defineAll (i := { runtime := ⟨⟨0⟩, maxDepth, registry, functions⟩, heap := _ })
    (kept_bare (some "root") (some rootTag)) Primitive.table ordinary_table).2

theorem kept_new (maxDepth : Nat) (registry : Registry) (functions : String → Option HostFunction) :
    (new maxDepth registry functions).heap.Kept (new maxDepth registry functions).runtime.root := by
  obtain ⟨hk, hruntime⟩ := kept_defineAll
    (i := { runtime := ⟨⟨0⟩, maxDepth, registry, functions⟩, heap := _ })
    (kept_bare (some "root") (some rootTag)) Primitive.table ordinary_table
  exact (congrArg Runtime.root hruntime).symm ▸ hk

end Interpreter

def Interpreter.standard (maxDepth : Nat) : Interpreter :=
  new maxDepth Registry.standard fun _ => none

theorem Interpreter.lawful_standard (maxDepth : Nat) : (standard maxDepth).runtime.Lawful := by
  rw [standard, runtime_new]
  exact ⟨by simp, Registry.lawful_standard⟩

theorem eq_ok_of_mem_answerValues {result : Except RuntimeError Value}
    (hv : v ∈ answerValues result) : result = .ok v := by
  cases result with
  | error e => exact (List.not_mem_nil hv).elim
  | ok w => rw [List.mem_singleton.mp hv]

/-- The result of an evaluation is in hand when it ends. -/
theorem Machine.Ok.knows_result {base : List (List Value)} {m : Machine}
    {result : Except RuntimeError Value} (hm : m.Ok rt base) (hresult : m.result? = some result)
    (hv : v ∈ answerValues result) :
    m.heap.Knows (m.heap.heldRefs ∪ {r | r ∈ m.control.refs}) v := by
  obtain ⟨control, stack, depth, h, log⟩ := m
  rw [eq_ok_of_mem_answerValues hv] at hresult
  unfold Machine.result? at hresult
  split at hresult
  · rename_i w hw _
    cases hresult
    exact fun r hr => living_of_mem (.inr (by rwa [hw]))
  · cases hresult
  · cases hresult

theorem Interpreter.ok_run {i : Interpreter} (hrt : rt.Lawful) (hruntime : i.runtime = rt)
    (hk : i.heap.Kept rt.root) (request : Request)
    (hheld : ∀ v ∈ request.held, Has i.heap.heldRefs v) (fuel : Nat) :
    ((i.begin request).run rt fuel).Ok rt (request.held :: i.heap.pins) := by
  subst hruntime
  exact (Machine.ok_begin request i.log hk.good hk.root hheld).run hrt fuel

namespace Reachable

/-- In every heap that is reached the root environment is held, and all links are in order. -/
theorem kept (hrt : rt.Lawful) (hh : Reachable rt h) : h.Kept rt.root := by
  induction hh with
  | new maxDepth registry functions hruntime =>
    exact hruntime ▸ Interpreter.kept_new maxDepth registry functions
  | hold roots _ hroots hroot ih =>
    exact ⟨ih.good.held_by hroots fun _ hvs _ => Machine.knows_pins ih.good hvs, hroot⟩
  | change o _ hheld hallowed ih =>
    obtain ⟨L, hlead, hv⟩ := o.leads rt.root ih.good hheld hallowed
    exact ih.keep hlead fun v hmem => (hv v hmem).knows
  | @thaw i frozen scope _ hruntime hscope ih =>
    have hregistry : ∀ x ∈ i.runtime.registry, x.2.Lawful rt.root := hruntime ▸ hrt.defrosters
    obtain ⟨L, hlead, hv⟩ := lawful_thaw hregistry ih.good ih.root hscope frozen
    exact ih.keep hlead fun v hmem => hv v (eq_ok_of_mem_answerValues hmem)
  | @evaluating i request fuel _ hruntime hheld ih =>
    obtain ⟨hg, hroot, -⟩ := Interpreter.ok_run hrt hruntime ih request hheld fuel
    exact ⟨hg.held_by (fun _ => hg.knows_roots) fun _ hvs _ => Machine.knows_pins hg hvs, hroot⟩
  | @evaluated i result request fuel _ hruntime hheld hresult ih =>
    have hok := Interpreter.ok_run hrt hruntime ih request hheld fuel
    have hroot : .dict rt.root ∈ allRefs (Heap.keep _ (answerValues result)).roots :=
      root_keep hok.root
    rw [← hruntime] at hok
    have hg := hok.good
    refine ⟨hg.held_by (fun v hv => ?_) fun vs hvs _ => ?_, hruntime ▸ hroot⟩
    · cases List.mem_append.mp hv with
      | inr hv => exact hg.knows_roots hv
      | inl hv => exact hok.knows_result hresult hv
    · exact Machine.knows_pins hg (List.mem_of_mem_tail hvs)
  | during _ hops hroot ih =>
    have hg := ih.good.ops hops
    exact ⟨hg.held_by (fun _ => hg.knows_roots) fun _ hvs _ => Machine.knows_pins hg hvs, hroot⟩

theorem standard (maxDepth : Nat) :
    Reachable (Interpreter.standard maxDepth).runtime (Interpreter.standard maxDepth).heap :=
  .new maxDepth Registry.standard _ rfl

theorem root_held (hrt : rt.Lawful) (hh : Reachable rt h) : .dict rt.root ∈ h.heldRefs :=
  mem_heldRefs.mpr (.inl (mem_allRefs.mp (hh.kept hrt).root))

end Reachable
end DictScript
