import DictScript.Proofs.Parents.Reachable
import DictScript.Proofs.Regions.Run

/-!
What can happen to the heap of an interpreter over time, with a host that is free to attach any
dictionary to any other. Every turn is made of edits to what there is.
-/
namespace DictScript
open Heap
variable {h k : Heap} {S T K : Set Ref} {rt : Runtime} {d : DictId} {v : Value}

def Heap.everything (h : Heap) : Set Ref := {r | h.Allocated r}

inductive Heap.Turn : Heap → Heap → Prop where
  | operation {h : Heap} (o : HostOp) : (∀ v ∈ o.held, h.Bounded v) → Turn h (o.run h).1
  | hold {h : Heap} (roots : List Value) (pins : List (List Value)) :
      Turn h { h with roots := roots, pins := pins }
  | thaw {h : Heap} {K : Set Ref} (registry : Registry) (frozen : Json) (scope : Option DictId) :
      (∀ x ∈ registry, x.2.Tame K) → K ⊆ h.everything →
      (∀ d, scope = some d → h.Allocated (.dict d)) → Turn h (h.thaw registry frozen scope).2
  | evaluate {i : Interpreter} {K : Set Ref} (request : Request) (fuel : Nat) :
      i.runtime.Tame K → K ⊆ i.heap.everything → (∀ v ∈ request.held, i.heap.Bounded v) →
      Turn i.heap ((i.begin request).run i.runtime fuel).heap
  /-- In the middle of a host function, a defroster or a thaw. -/
  | during {h k : Heap} {T : Set Ref} : Edits (h, h.everything) (k, T) → Turn h k

/-- Freezing is no turn: it leaves the heap as it is. -/
abbrev Heap.Later : Heap → Heap → Prop := Relation.ReflTransGen Heap.Turn

def Heap.Reached (h : Heap) : Prop :=
  ∃ maxDepth registry functions, (Interpreter.new maxDepth registry functions).heap.Later h

/-! A new interpreter. -/

namespace Interpreter

theorem edits_defineNative {i : Interpreter} (hroot : .dict i.root ∈ S) (name : String)
    (params : List String) (code : Code) (hname : Key.of name = .slot name) :
    ∃ T, Edits (i.heap, S) ((i.defineNative name params code).heap, T) := by
  obtain ⟨rt, h, log⟩ := i
  have hnative : Edits (h, S) ((h.newNative (.function name code)).1,
      insert (.native (h.newNative (.function name code)).2) S) :=
    .single (.newNative _ (by simp [Native.refs]))
  unfold defineNative
  simp only [define, hname]
  generalize h.newNative (.function name code) = x at hnative ⊢
  obtain ⟨h₁, n⟩ := x
  have henv : Edits (h₁, insert (.native n) S)
      ((h₁.newDict {}).1, insert (.dict (h₁.newDict {}).2) (insert (.native n) S)) :=
    .single (.newDict {} rfl (by simp) (by simp) (by simp) (by simp))
  generalize h₁.newDict {} = x at henv ⊢
  obtain ⟨h₂, env⟩ := x
  let b : Block := ⟨0, some name, params, [.native n], env, none⟩
  have hblock : Edits (h₂, insert (.dict env) (insert (.native n) S))
      ((h₂.newBlock b).1, insert (.dict env) (insert (.native n) S)) := .single (.newBlock b)
  refine ⟨_, (hnative.trans henv).trans (hblock.trans
    (.single (.put rt.root name _ (.inr (.inr hroot)) ?_ hname)))⟩
  intro r hr
  simp only [newBlock, Value.refs, blockRefs, Option.toList_none, List.map_nil,
    List.nil_append, allRefs, List.append_nil, List.mem_cons, List.not_mem_nil, or_false] at hr
  obtain rfl | rfl := hr
  · exact .inl rfl
  · exact .inr (.inl rfl)

theorem edits_defineAll {i : Interpreter} (hroot : .dict i.root ∈ S)
    (table : List (Primitive × String × List String))
    (hnames : ∀ x ∈ table, Key.of x.2.1 = .slot x.2.1) :
    ∃ T, Edits (i.heap, S)
      ((table.foldl (fun i (p, name, params) => i.defineNative name params (.primitive p)) i).heap,
        T) := by
  induction table generalizing i S with
  | nil => exact ⟨S, .refl⟩
  | cons x table ih =>
    obtain ⟨T, hone⟩ := edits_defineNative hroot x.2.1 x.2.2 (.primitive x.1)
      (hnames x List.mem_cons_self)
    obtain ⟨T', hrest⟩ := ih (i := i.defineNative x.2.1 x.2.2 (.primitive x.1)) (hone.sub hroot)
      fun y hy => hnames y (List.mem_cons_of_mem _ hy)
    exact ⟨T', hone.trans hrest⟩

theorem edits_new (maxDepth : Nat) (registry : Registry)
    (functions : String → Option HostFunction) :
    ∃ T, Edits ({}, ∅) ((new maxDepth registry functions).heap, T) := by
  have hroot : Edits ({}, ∅) ((({} : Heap).newDict { name := some "root", tag := some rootTag }).1,
      {.dict (({} : Heap).newDict { name := some "root", tag := some rootTag }).2}) := by
    have hnew := Edit.newDict (h := {}) (S := ∅) { name := some "root", tag := some rootTag } rfl
      (by simp) (by simp) (by simp) (by simp)
    rw [insert_empty_eq] at hnew
    exact .single hnew
  have hheld := hroot.tail (.hold [.dict ⟨0⟩] [])
  obtain ⟨T, hall⟩ := edits_defineAll (S := {.dict ⟨0⟩})
    (i := { runtime := ⟨⟨0⟩, maxDepth, registry, functions⟩, heap := _ })
    (Set.mem_singleton _) Primitive.table ordinary_table
  exact ⟨T, Edits.trans hheld hall⟩

theorem tame_runtime (maxDepth : Nat) : (standard maxDepth).runtime.Tame {.dict ⟨0⟩} := by
  rw [standard, runtime_new]
  exact ⟨Set.mem_singleton _, fun _ f hf => (Option.some_ne_none f hf.symm).elim,
    Registry.tame_standard⟩

end Interpreter

namespace Heap

theorem region_empty : ({} : Heap).Region ∅ where
  tidy := ⟨fun d t hd => by simp [cell_of_size_le] at hd,
    fun d t hd => by simp [cell_of_size_le] at hd, fun d x hx => by
      rw [cell_of_size_le (Nat.zero_le _)] at hx
      exact (List.not_mem_nil hx).elim⟩
  allocated _ hr := hr.elim
  owned _ hr := hr.elim
  parent _ _ hd := hd.elim
  caller _ _ hd := hd.elim

/-- What edits to everything have made is everything there is then. -/
theorem everything_of_edits (hedits : Edits (h, h.everything) (k, T))
    (hS : h.Region h.everything) : T = k.everything := by
  have hcontained := hedits.contained hS
  refine Set.Subset.antisymm (hedits.region hS).allocated fun r hr => ?_
  exact (hcontained.made r hr).elim (fun hold => hcontained.sub hold) id

theorem region_new (maxDepth : Nat) (registry : Registry)
    (functions : String → Option HostFunction) :
    (Interpreter.new maxDepth registry functions).heap.Region
      (Interpreter.new maxDepth registry functions).heap.everything := by
  obtain ⟨T, hedits⟩ := Interpreter.edits_new maxDepth registry functions
  have hempty : ({} : Heap).everything = ∅ := by
    refine Set.eq_empty_of_forall_notMem fun r hr => ?_
    have hr : ({} : Heap).Allocated r := hr
    cases r <;> exact Nat.not_lt_zero _ hr
  rw [← hempty] at hedits
  have hT := everything_of_edits hedits (hempty ▸ region_empty)
  exact hT ▸ hedits.region (hempty ▸ region_empty)

end Heap

/-! The turns, one by one. -/

theorem HostOp.edits (o : HostOp) (hS : h.Region S) (hheld : ∀ v ∈ o.held, Has S v) :
    ∃ T, Edits (h, S) ((o.run h).1, T) := by
  cases o with
  | new name =>
    exact ⟨_, .single (.newDict { name := name } rfl (by simp) (by simp) (by simp) (by simp))⟩
  | child parent =>
    refine ⟨_, .single (.newDict { parent := some parent } rfl ?_ (by simp) (by simp) (by simp))⟩
    rintro p ⟨⟩
    exact has_dict.mp (hheld _ List.mem_cons_self)
  | frame scope caller name =>
    exact ⟨_, edits_frame (has_dict.mp (hheld (.dict scope) (by simp [held])))
      (has_dict.mp (hheld (.dict caller) (by simp [held]))) name⟩
  | view target parent =>
    exact ⟨_, hS.edits_view (has_dict.mp (hheld (.dict target) (by simp [held])))
      (has_dict.mp (hheld (.dict parent) (by simp [held])))⟩
  | ofPairs pairs =>
    have hnew : Edits (h, S) ((h.newDict {}).1, insert (.dict (h.newDict {}).2) S) :=
      .single (.newDict {} rfl (by simp) (by simp) (by simp) (by simp))
    have hall := edits_defineAll (h := (h.newDict {}).1) (d := (h.newDict {}).2)
      (S := insert (.dict (h.newDict {}).2) S) (Set.mem_insert _ _) fun x (hx : x ∈ pairs) =>
        (hheld x.2 (List.mem_map.mpr ⟨x, hx, rfl⟩)).mono hnew.sub
    have hheap : ((ofPairs pairs).run h).1 = (h.ofPairs pairs).2 := by
      simp only [run]
      split <;> simp [*]
    exact ⟨_, hheap ▸ hnew.trans hall⟩
  | define d name v =>
    exact ⟨S, edits_define name (has_dict.mp (hheld (.dict d) (by simp [held])))
      (hheld v (by simp [held]))⟩
  | remove d name => exact ⟨S, edits_remove name (has_dict.mp (hheld _ List.mem_cons_self))⟩
  | setParent d parent =>
    refine ⟨S, edits_setParent (has_dict.mp (hheld _ List.mem_cons_self)) ?_⟩
    rintro p rfl
    exact has_dict.mp (hheld (.dict p) (by simp [held]))
  | attach d scope =>
    refine ⟨S, .single (.link d (some scope) false (has_dict.mp (hheld (.dict d) (by simp [held])))
      ?_)⟩
    rintro p ⟨⟩
    exact has_dict.mp (hheld _ (by simp [held]))
  | setName d name =>
    exact ⟨S, .single (.setName d name (has_dict.mp (hheld _ List.mem_cons_self)))⟩
  | setTag d tag => exact ⟨S, .single (.setTag d tag (has_dict.mp (hheld _ List.mem_cons_self)))⟩
  | list items => exact ⟨_, .single (.newList items hheld)⟩
  | push l v =>
    exact ⟨S, .single (.pushItem l v (has_list.mp (hheld (.list l) (by simp [held])))
      (hheld v (by simp [held])))⟩
  | native n =>
    refine ⟨_, .single (.newNative n fun r hr => ?_)⟩
    cases n with
    | function name code => simp [Native.refs] at hr
    | object tag record =>
      cases record with
      | none => simp [Native.refs] at hr
      | some record =>
        obtain ⟨x, hx, hr⟩ := List.mem_flatMap.mp hr
        exact hheld x.2 (List.mem_map.mpr ⟨x, hx, rfl⟩) r hr

/-- The first state of a request. -/
theorem Interpreter.inside_begin {i : Interpreter} (hrt : i.runtime.Tame K)
    (hS : i.heap.Region S) (hK : K ⊆ S) (request : Request)
    (hheld : ∀ v ∈ request.held, Has S v) :
    ∃ T, Edits (i.heap, S) ((i.begin request).heap, T) ∧ (i.begin request).Inside K [] 0 T := by
  have henter : Edits (i.heap, S) (i.heap.enter request.held, S) :=
    .single (.hold i.heap.roots (request.held :: i.heap.pins))
  obtain ⟨T, hedits, hinside⟩ := Machine.inside_proceed (d := 0) [] i.log
    (henter.region hS) hK (List.forall_mem_nil _) rfl
    (stays_begin request 0 (henter.region hS) (hK hrt.root) hheld) (.inl rfl)
  exact ⟨T, henter.trans hedits, hinside⟩

namespace Heap

theorem Turn.edits (hturn : Turn h k) (hS : h.Region h.everything) :
    Edits (h, h.everything) (k, k.everything) := by
  suffices hsome : ∃ T, Edits (h, h.everything) (k, T) by
    obtain ⟨T, hedits⟩ := hsome
    exact everything_of_edits hedits hS ▸ hedits
  cases hturn with
  | operation o hheld => exact o.edits hS hheld
  | hold roots pins => exact ⟨_, .single (.hold roots pins)⟩
  | thaw registry frozen scope hregistry hK hscope =>
    obtain ⟨T, hedits, -⟩ := edits_thaw hS hK hscope hregistry frozen
    exact ⟨T, hedits⟩
  | evaluate request fuel hrt hK hheld =>
    obtain ⟨T, hbegin, hinside⟩ := Interpreter.inside_begin hrt hS hK request hheld
    obtain ⟨T', hrun, -⟩ := hinside.run hrt fuel
    exact ⟨T', hbegin.trans hrun⟩
  | during hedits => exact ⟨_, hedits⟩

theorem Later.edits (hlater : h.Later k) (hS : h.Region h.everything) :
    Edits (h, h.everything) (k, k.everything) := by
  induction hlater with
  | refl => exact .refl
  | tail _ hturn ih => exact Edits.trans ih (hturn.edits (ih.region hS))

theorem Reached.region (hh : h.Reached) : h.Region h.everything := by
  obtain ⟨maxDepth, registry, functions, hlater⟩ := hh
  exact (Later.edits hlater (region_new maxDepth registry functions)).region
    (region_new maxDepth registry functions)

end Heap
end DictScript
