import DictScript.Proofs.Parents.Lawful
import DictScript.Proofs.Frozen.Thaw

/-!
Thawing works by the same operations, whatever the stream. All objects it has made are held until it
ends, and so is the environment of a block while its body is read.
-/
namespace DictScript
open Heap

namespace Thaw
variable {α β : Type} {t : Thawer} {E : Thawer → Prop}

def Leaves (x : Thaw α) (t : Thawer) (Q : α → Thawer → Prop) (E : Thawer → Prop) : Prop :=
  match x.run.run t with
  | (.ok a, t') => Q a t'
  | (.error _, t') => E t'

theorem Leaves.bind {x : Thaw α} {f : α → Thaw β} {P : α → Thawer → Prop}
    {Q : β → Thawer → Prop} (hx : Leaves x t P E) (hf : ∀ a t', P a t' → Leaves (f a) t' Q E) :
    Leaves (x >>= f) t Q E := by
  rw [Leaves, ExceptT.run_bind, StateT.run_bind]
  rw [Leaves] at hx
  generalize x.run.run t = y at hx ⊢
  obtain ⟨result, t'⟩ := y
  cases result with
  | error e => exact hx
  | ok a => exact hf a t' hx

theorem Leaves.mono {x : Thaw α} {P Q : α → Thawer → Prop} (hx : Leaves x t P E)
    (hPQ : ∀ a t', P a t' → Q a t') : Leaves x t Q E := by
  rw [Leaves] at hx ⊢
  generalize x.run.run t = y at hx ⊢
  obtain ⟨result, t'⟩ := y
  cases result with
  | error e => exact hx
  | ok a => exact hPQ a t' hx

theorem Leaves.of_gives {x : Thaw α} {a : α} {t' : Thawer} {Q : α → Thawer → Prop}
    (hx : Gives x t a t') (hQ : Q a t') : Leaves x t Q E := by
  rw [Leaves, hx]
  exact hQ

theorem Leaves.of_gives_bind {x : Thaw α} {f : α → Thaw β} {a : α} {t' : Thawer}
    {Q : β → Thawer → Prop} (hx : Gives x t a t') (hf : Leaves (f a) t' Q E) :
    Leaves (x >>= f) t Q E := by
  refine Leaves.bind (P := fun b t₁ => b = a ∧ t₁ = t') (.of_gives hx ⟨rfl, rfl⟩) ?_
  rintro b t₁ ⟨rfl, rfl⟩
  exact hf

theorem leaves_get {Q : Thawer → Thawer → Prop} (hQ : Q t t) : Leaves get t Q E := hQ

theorem leaves_change {f : Heap → Heap} {Q : Unit → Thawer → Prop}
    (hQ : Q () { t with heap := f t.heap }) : Leaves (change f) t Q E := hQ

theorem leaves_create {f : Heap → Heap × α} {Q : α → Thawer → Prop}
    (hQ : Q (f t.heap).2 { t with heap := (f t.heap).1 }) : Leaves (create f) t Q E := hQ

theorem leaves_onHeap {f : Heap → Except RuntimeError α × Heap} {Q : α → Thawer → Prop}
    (hE : E { t with heap := (f t.heap).2 })
    (hQ : ∀ a, (f t.heap).1 = .ok a → Q a { t with heap := (f t.heap).2 }) :
    Leaves (onHeap f) t Q E := by
  refine Leaves.bind (P := fun result t' => t' = { t with heap := (f t.heap).2 } ∧
    result = (f t.heap).1) ⟨rfl, rfl⟩ ?_
  rintro result t' ⟨rfl, rfl⟩
  cases hf : (f t.heap).1 with
  | error e => exact hE
  | ok a => exact hQ a hf

/-! What holds while a thaw is under way. -/

/-- A thaw that began at `s`, above what `tail` holds: it holds the values of its table and those
that are owed, and has the objects of `L` in hand besides. -/
structure Underway (root : DictId) (s : Scene) (tail : List (List Value)) (scope : Option DictId)
    (owed : List Value) (L : Set Ref) (t : Thawer) : Prop where
  ops : Ops s (t.heap, t.heap.heldRefs ∪ L)
  root : .dict root ∈ allRefs t.heap.roots
  scope : ∀ d, scope = some d →
    .dict d ∈ allRefs t.heap.roots ∨ ∃ vs ∈ tail, .dict d ∈ allRefs vs
  pins : ∃ inner, t.heap.pins = inner :: tail ∧ (owed ++ t.table.toList).Subperm inner

def Stopped (root : DictId) (s : Scene) (tail : List (List Value)) (t : Thawer) : Prop :=
  (∃ L, Ops s (t.heap, L)) ∧ .dict root ∈ allRefs t.heap.roots ∧
    ∃ inner, t.heap.pins = inner :: tail

structure Read (root : DictId) (s : Scene) (tail : List (List Value)) (scope : Option DictId)
    (owed : List Value) (v : Value) (t : Thawer) : Prop where
  underway : Underway root s tail scope owed {r | r ∈ v.refs} t
  numbered : ∀ d, v = .dict d → ∃ i : Nat, t.table[i]? = some (.dict d)

def Keeps (t t' : Thawer) : Prop :=
  ∀ (i : Nat) (v : Value), t.table[i]? = some v → t'.table[i]? = some v

theorem Keeps.refl (t : Thawer) : Keeps t t := fun _ _ => id

theorem Keeps.trans {t₁ t₂ t₃ : Thawer} (h₁ : Keeps t₁ t₂) (h₂ : Keeps t₂ t₃) : Keeps t₁ t₃ :=
  fun i v hi => h₂ i v (h₁ i v hi)

namespace Underway
variable {root d : DictId} {s : Scene} {tail : List (List Value)} {scope : Option DictId}
variable {owed : List Value} {L M : Set Ref} {v w : Value} {i : Nat}

theorem stopped (ht : Underway root s tail scope owed L t) : Stopped root s tail t := by
  obtain ⟨inner, hpins, -⟩ := ht.pins
  exact ⟨⟨_, ht.ops⟩, ht.root, inner, hpins⟩

theorem good (hs : s.1.Good s.2) (ht : Underway root s tail scope owed L t) :
    t.heap.Good (t.heap.heldRefs ∪ L) := hs.ops ht.ops

theorem held_of_mem (ht : Underway root s tail scope owed L t)
    (hv : v ∈ owed ++ t.table.toList) {r : Ref} (hr : r ∈ v.refs) : r ∈ t.heap.heldRefs := by
  obtain ⟨inner, hpins, hsub⟩ := ht.pins
  exact held_of_innermost hpins (hsub.subset hv) hr

theorem held_of_number (ht : Underway root s tail scope owed L t) (hi : t.table[i]? = some v)
    {r : Ref} (hr : r ∈ v.refs) : r ∈ t.heap.heldRefs :=
  ht.held_of_mem (List.mem_append_right _ (Array.mem_toList_iff.mpr (Array.mem_of_getElem? hi))) hr

theorem held_scope (ht : Underway root s tail scope owed L t) (hd : scope = some d) :
    .dict d ∈ t.heap.heldRefs := by
  cases ht.scope d hd with
  | inl hroots =>
    obtain ⟨v, hv, hr⟩ := mem_allRefs.mp hroots
    exact mem_heldRefs.mpr (.inl ⟨v, hv, hr⟩)
  | inr htail =>
    obtain ⟨vs, hvs, hd⟩ := htail
    obtain ⟨inner, hpins, -⟩ := ht.pins
    obtain ⟨v, hv, hr⟩ := mem_allRefs.mp hd
    refine mem_heldRefs.mpr (.inr ⟨vs, ?_, v, hv, hr⟩)
    rw [hpins]
    exact List.mem_cons_of_mem _ hvs

/-- Operations that leave open what is held. -/
theorem step (hs : s.1.Good s.2) (ht : Underway root s tail scope owed L t) {h : Heap}
    {K : Set Ref} (hops : Ops (t.heap, t.heap.heldRefs ∪ L) (h, K)) (hpins : h.pins = t.heap.pins)
    (hroots : h.roots = t.heap.roots) (hM : M ⊆ K) :
    Underway root s tail scope owed M { t with heap := h } where
  ops := by
    refine (ht.ops.trans hops).tail (.focus ?_ fun r hr => .inl hr)
    rintro r (hr | hr)
    · exact living_of_mem ((hs.ops (ht.ops.trans hops)).held r hr)
    · exact living_of_mem (hM hr)
  root := hroots ▸ ht.root
  scope := hroots ▸ ht.scope
  pins := hpins ▸ ht.pins

/-- Other objects that live are taken in hand. -/
theorem take (hs : s.1.Good s.2) (ht : Underway root s tail scope owed L t)
    (hM : ∀ r ∈ M, t.heap.Living (t.heap.heldRefs ∪ L) r) :
    Underway root s tail scope owed M t := by
  have hfocus : Ops (t.heap, t.heap.heldRefs ∪ L) (t.heap, (t.heap.heldRefs ∪ L) ∪ M) := by
    refine .single (.focus ?_ fun r hr => .inl (.inl hr))
    rintro r (hr | hr)
    · exact living_of_mem hr
    · exact hM r hr
  exact ht.step hs hfocus rfl rfl Set.subset_union_right

theorem release (hs : s.1.Good s.2) (ht : Underway root s tail scope owed L t) :
    Underway root s tail scope owed ∅ t :=
  ht.take hs fun _ hr => hr.elim

/-- The innermost pins change, but what they held is still in hand. -/
theorem repin (ht : Underway root s tail scope owed L t) {inner owed' : List Value}
    {table : Array Value} (hinner : ∀ v ∈ inner, t.heap.Knows (t.heap.heldRefs ∪ L) v)
    (hsub : (owed' ++ table.toList).Subperm inner) :
    Underway root s tail scope owed' L
      { t with table := table, heap := { t.heap with pins := inner :: tail } } where
  ops := by
    have hknown : ∀ v ∈ t.heap.roots ++ (inner :: tail).flatten,
        t.heap.Knows (t.heap.heldRefs ∪ L) v := by
      intro v hv
      rw [List.flatten_cons, List.mem_append, List.mem_append] at hv
      obtain hv | hv | hv := hv
      · exact fun r hr => living_of_mem (.inl (mem_heldRefs.mpr (.inl ⟨v, hv, hr⟩)))
      · exact hinner v hv
      · obtain ⟨vs, hvs, hv⟩ := List.mem_flatten.mp hv
        obtain ⟨old, hpins, -⟩ := ht.pins
        refine fun r hr => living_of_mem (.inl (mem_heldRefs.mpr (.inr ⟨vs, ?_, v, hv, hr⟩)))
        rw [hpins]
        exact List.mem_cons_of_mem _ hvs
    refine (ht.ops.tail (.hold _ _ hknown)).tail (.focus ?_ fun r hr => .inl hr)
    rintro r (hr | hr)
    · exact living_of_mem (.inr hr)
    · exact living_of_mem (.inl (.inr hr))
  root := ht.root
  scope := ht.scope
  pins := ⟨inner, rfl, hsub⟩

theorem knows_inner {inner : List Value}
    (hpins : t.heap.pins = inner :: tail) (hv : v ∈ inner) :
    t.heap.Knows (t.heap.heldRefs ∪ L) v :=
  fun _ hr => living_of_mem (.inl (held_of_innermost hpins hv hr))

theorem hold_eq {h : Heap} {inner : List Value} (hpins : h.pins = inner :: tail) (v : Value) :
    h.hold v = { h with pins := (v :: inner) :: tail } := by
  rw [Heap.hold, hpins]

theorem hold (ht : Underway root s tail scope owed L t)
    (hv : t.heap.Knows (t.heap.heldRefs ∪ L) v) :
    Underway root s tail scope (v :: owed) L { t with heap := t.heap.hold v } := by
  obtain ⟨inner, hpins, hsub⟩ := ht.pins
  rw [hold_eq hpins]
  refine ht.repin (fun w hw => ?_) ((List.subperm_cons v).mpr hsub)
  cases List.mem_cons.mp hw with
  | inl heq => exact heq ▸ hv
  | inr hw => exact knows_inner hpins hw

theorem register (ht : Underway root s tail scope owed L t)
    (hv : t.heap.Knows (t.heap.heldRefs ∪ L) v) :
    Underway root s tail scope owed L
      { t with table := t.table.push v, heap := t.heap.hold v } := by
  obtain ⟨inner, hpins, hsub⟩ := (ht.hold hv).pins
  refine { ht.hold hv with pins := ⟨inner, hpins, ?_⟩ }
  refine List.Perm.subperm ?_ |>.trans hsub
  rw [Array.toList_push, ← List.append_assoc]
  exact List.perm_append_singleton _ _

theorem eq_of_isDict {v : Value} (hv : v.isDict d = true) : v = .dict d := by
  cases v with
  | dict e =>
    have heq : d = e := by simpa [Value.isDict] using hv
    rw [heq]
  | _ => simp [Value.isDict] at hv

theorem letGo (ht : Underway root s tail scope (.dict d :: owed) L t) :
    Underway root s tail scope owed L { t with heap := t.heap.letGo d } := by
  obtain ⟨inner, hpins, hsub⟩ := ht.pins
  have hmem : Value.dict d ∈ inner := hsub.subset List.mem_cons_self
  obtain ⟨w, xs, ys, -, hw, hinner, herase⟩ :=
    List.exists_of_eraseP hmem (by simp [Value.isDict] : (Value.dict d).isDict d = true)
  rw [eq_of_isDict hw] at hinner
  have hgo : t.heap.letGo d = { t.heap with pins := inner.eraseP (·.isDict d) :: tail } := by
    rw [Heap.letGo, hpins]
  rw [hgo]
  refine ht.repin (fun v hv => knows_inner hpins (List.mem_of_mem_eraseP hv)) ?_
  rw [herase]
  rw [hinner] at hsub
  exact (List.subperm_cons _).mp (hsub.trans List.perm_middle.subperm)

/-- A value in hand takes the place of the dictionary with the number. -/
theorem replace (ht : Underway root s tail scope owed L t) (hv : Has L v)
    (hi : t.table[i]? = some (.dict d)) :
    Underway root s tail scope owed L
      { t with table := t.table.set! i v, heap := (t.heap.letGo d).hold v } := by
  obtain ⟨inner, hpins, hsub⟩ := ht.pins
  obtain ⟨hlt, hget⟩ := Array.getElem?_eq_some_iff.mp hi
  have hperm : (Value.dict d :: (owed ++ t.table.toList.eraseIdx i)).Perm
      (owed ++ t.table.toList) := by
    have htable := List.getElem_cons_eraseIdx_perm (l := t.table.toList) (n := i) (by simpa)
    rw [Array.getElem_toList, hget] at htable
    exact List.perm_middle.symm.trans (htable.append_left owed)
  have ht₁ : Underway root s tail scope (.dict d :: owed) L
      { t with table := (t.table.toList.eraseIdx i).toArray } :=
    { ht with pins := ⟨inner, hpins, by simpa using hperm.subperm.trans hsub⟩ }
  have ht₂ := ht₁.letGo.hold (v := v) (hv.mono Set.subset_union_right).knows
  obtain ⟨inner', hpins', hsub'⟩ := ht₂.pins
  refine { ht₂ with pins := ⟨inner', hpins', ?_⟩ }
  have hset : (owed ++ (t.table.set! i v).toList).Perm
      (v :: (owed ++ t.table.toList.eraseIdx i)) := by
    have htable := List.set_perm_cons_eraseIdx (l := t.table.toList) (n := i) (by simpa) (a := v)
    rw [Array.set!_eq_setIfInBounds, Array.toList_setIfInBounds]
    exact (htable.append_left owed).trans List.perm_middle
  exact hset.subperm.trans (by simpa using hsub')

theorem reading (ht : Underway root s tail scope owed L t) (rest : List Token) :
    Underway root s tail scope owed L { t with rest := rest } :=
  ⟨ht.ops, ht.root, ht.scope, ht.pins⟩

/-! The operations of a thaw, one by one. -/

theorem leaves_next (ht : Underway root s tail scope owed L t) :
    Leaves next t (fun _ t' => Underway root s tail scope owed L t' ∧ Keeps t t')
      (Stopped root s tail) := by
  refine Leaves.bind (leaves_get (Q := fun a t' => a = t ∧ t' = t) ⟨rfl, rfl⟩) ?_
  rintro a t' ⟨rfl, rfl⟩
  cases t'.rest with
  | nil => exact ht.stopped
  | cons _ rest => exact ⟨ht.reading rest, fun _ _ => id⟩

theorem leaves_close (m : Mark) (ht : Underway root s tail scope owed L t) :
    Leaves (close m) t (fun _ t' => Underway root s tail scope owed L t' ∧ Keeps t t')
      (Stopped root s tail) := by
  refine Leaves.bind (leaves_get (Q := fun a t' => a = t ∧ t' = t) ⟨rfl, rfl⟩) ?_
  rintro a t' ⟨rfl, rfl⟩
  cases t'.rest with
  | nil => exact ht.stopped
  | cons token rest =>
    cases token with
    | mark n =>
      by_cases hn : n = m
      · simp only [hn, if_true]
        exact ⟨ht.reading rest, fun _ _ => id⟩
      · simp only [hn, if_false]
        exact ⟨ht, .refl _⟩
    | _ => exact ⟨ht, .refl _⟩

theorem leaves_blockName (ht : Underway root s tail scope owed L t) :
    Leaves blockName t (fun _ t' => Underway root s tail scope owed L t' ∧ Keeps t t')
      (Stopped root s tail) := by
  refine ht.leaves_next.bind ?_
  rintro token t' ⟨ht', hkeeps⟩
  cases token with
  | null => exact ⟨ht', hkeeps⟩
  | str name => exact ⟨ht', hkeeps⟩
  | _ => exact ht'.stopped

theorem leaves_paramNames (v : Value) (ht : Underway root s tail scope owed L t) :
    Leaves (paramNames v) t (fun _ t' => t' = t) (Stopped root s tail) := by
  refine Leaves.bind (leaves_get (Q := fun a t' => a = t ∧ t' = t) ⟨rfl, rfl⟩) ?_
  rintro a t' ⟨rfl, rfl⟩
  cases v with
  | list l =>
    cases hparams : (t'.heap.items l).mapM Value.sym? with
    | none =>
      simp only [hparams]
      exact ht.stopped
    | some params =>
      simp only [hparams]
      exact rfl
  | _ => exact ht.stopped

/-- The items of the list are in hand instead of the list. -/
theorem leaves_blockBody (ht : Underway root s tail scope owed L t)
    (hv : Has L v) :
    Leaves (blockBody v) t
      (fun vs t' => t' = t ∧ ∀ r ∈ allRefs vs, t.heap.Living (t.heap.heldRefs ∪ L) r)
      (Stopped root s tail) := by
  refine Leaves.bind (leaves_get (Q := fun a t' => a = t ∧ t' = t) ⟨rfl, rfl⟩) ?_
  rintro a t' ⟨rfl, rfl⟩
  have hknows : t'.heap.Knows (t'.heap.heldRefs ∪ L) v :=
    (hv.mono Set.subset_union_right).knows
  cases v with
  | list l => exact ⟨rfl, fun r hr => (hknows _ (List.mem_singleton_self _)).owned hr⟩
  | _ => exact ht.stopped

/-- The environment of a block is then held. -/
theorem leaves_blockEnv (hs : s.1.Good s.2) (ht : Underway root s tail scope owed L t)
    (hv : Has L v) :
    Leaves (blockEnv scope v) t
      (fun env t' => Underway root s tail scope (.dict env :: owed) ∅
        { t' with heap := t'.heap.hold (.dict env) } ∧ Keeps t t') (Stopped root s tail) := by
  have hpure : ∀ d, t.heap.Living (t.heap.heldRefs ∪ L) (.dict d) →
      Underway root s tail scope (.dict d :: owed) ∅
        { t with heap := t.heap.hold (.dict d) } ∧ Keeps t t := by
    intro d hd
    refine ⟨(ht.hold (knows_dict hd)).release hs, .refl _⟩
  unfold blockEnv
  split
  · exact hpure _ (living_of_mem (.inr (has_dict.mp hv)))
  · exact hpure _ (living_of_mem (.inl (ht.held_scope rfl)))
  · have hnew : Underway root s tail none owed {.dict (t.heap.newDict {}).2}
        { t with heap := (t.heap.newDict {}).1 } := by
      refine ht.step hs (.single (.newDict {} rfl ?_ ?_ ?_ ?_)) rfl rfl ?_
      · simp
      · simp
      · simp
      · simp
      · rintro r rfl
        exact .inl rfl
    refine leaves_create ⟨?_, fun _ _ => id⟩
    exact (hnew.hold (knows_dict (living_of_mem (.inr rfl)))).release hs
  · exact ht.stopped

theorem defrosted {registry : Registry} (tag : String)
    (hregistry : ∀ x ∈ registry, Defroster.Lawful root x.2) (hs : s.1.Good s.2)
    (ht : Underway root s tail scope owed ∅ t) (hd : .dict d ∈ t.heap.heldRefs) :
    ∃ L, Underway root s tail scope owed L
        { t with heap := (registry.defrost tag t.heap d scope).2 } ∧
      ∀ v, (registry.defrost tag t.heap d scope).1 = .ok v →
        (registry.defrost tag t.heap d scope).2.Knows L v := by
  have hops := ht.ops
  rw [Set.union_empty] at hops
  rw [Registry.defrost]
  cases hf : registry.lookup tag with
  | none => exact ⟨∅, ht, by simp⟩
  | some f =>
    have hmem : (tag, f) ∈ registry := by
      obtain ⟨before, behind, heq, -⟩ := List.lookup_eq_some_iff.mp hf
      rw [heq]
      exact List.mem_append_right _ List.mem_cons_self
    have hlawful := hregistry _ hmem
    obtain ⟨L, hlead, hscope, hv⟩ := hlawful t.heap d scope (hs.ops hops) hd
      fun e he => ht.held_scope he
    have hknown : Ops s ((f t.heap d scope).2, (f t.heap d scope).2.heldRefs ∪ L) := by
      refine (hops.trans hlead.ops).tail (.focus ?_ fun r hr => .inl hr)
      rintro r (hr | hr)
      · exact living_of_mem ((hs.ops (hops.trans hlead.ops)).held r hr)
      · exact living_of_mem hr
    refine ⟨L, ⟨hknown, hlead.root ht.root, fun e he => ?_, ?_⟩, hv⟩
    · exact (ht.scope e he).imp_left (hscope e he).root
    · obtain ⟨inner, hpins, hsub⟩ := ht.pins
      exact ⟨inner, hlead.pins.trans hpins, hsub⟩

theorem leaves_finishDict {registry : Registry} {number : Nat}
    (hregistry : ∀ x ∈ registry, Defroster.Lawful root x.2) (hs : s.1.Good s.2)
    (ht : Underway root s tail scope owed L t) (hd : t.table[number]? = some (.dict d)) :
    Leaves (finishDict registry scope number d) t
      (fun v t' => Read root s tail scope owed v t' ∧
        ∀ i, i ≠ number → t'.table[i]? = t.table[i]?) (Stopped root s tail) := by
  have hheld : Ref.dict d ∈ t.heap.heldRefs := ht.held_of_number hd (List.mem_singleton_self _)
  refine Leaves.bind (leaves_get (Q := fun a t' => a = t ∧ t' = t) ⟨rfl, rfl⟩) ?_
  rintro a t' ⟨rfl, rfl⟩
  by_cases htag : t'.heap.holds d tagKey = true
  · simp only [htag, if_true]
    cases hget : t'.heap.get d tagKey with
    | str tag =>
      obtain ⟨M, hdefrosted, hv⟩ := (ht.release hs).defrosted tag hregistry hs hheld
      refine (leaves_onHeap hdefrosted.stopped fun v hok => ?_ :
        Leaves (onHeap fun h => registry.defrost tag h d scope) t'
          (fun v t₁ => Underway root s tail scope owed {r | r ∈ v.refs} t₁ ∧
            t₁.table = t'.table) _).bind ?_
      · exact ⟨hdefrosted.take hs fun r hr => (hv v hok r hr).mono Set.subset_union_right, rfl⟩
      · rintro v t₁ ⟨ht₁, htable⟩
        refine ⟨⟨ht₁.replace (fun r hr => hr) (htable ▸ hd), ?_⟩, fun i hi => ?_⟩
        · rintro e rfl
          refine ⟨number, ?_⟩
          have hlt := (Array.getElem?_eq_some_iff.mp hd).1
          simp [htable, hlt]
        · simp [htable, Ne.symm hi]
    | _ => exact ht.stopped
  · rw [Bool.not_eq_true] at htag
    simp only [htag]
    refine ⟨⟨ht.take hs fun r hr => living_of_mem (.inl ?_), ?_⟩, fun _ _ => rfl⟩
    · exact ht.held_of_number hd hr
    · rintro e heq
      exact ⟨number, heq ▸ hd⟩

theorem keeps_register (v : Value) (h : Heap) :
    Keeps t { t with table := t.table.push v, heap := h } ∧
      ({ t with table := t.table.push v, heap := h } : Thawer).table[t.table.size]? = some v := by
  refine ⟨fun i w hi => ?_, by simp⟩
  have hlt := (Array.getElem?_eq_some_iff.mp hi).1
  show (t.table.push v)[i]? = some w
  rw [Array.getElem?_push_lt hlt, ← hi, Array.getElem?_eq_getElem hlt]

/-- A value without objects. -/
theorem read_plain (hs : s.1.Good s.2) (ht : Underway root s tail scope owed L t)
    (hv : v.refs = []) : Read root s tail scope owed v t := by
  refine ⟨ht.take hs fun r hr => ?_, ?_⟩
  · rw [hv] at hr
    simp at hr
  · rintro d rfl
    cases hv

/-- A value that has a number. -/
theorem read_numbered (hs : s.1.Good s.2) (ht : Underway root s tail scope owed L t)
    (hi : t.table[i]? = some v) : Read root s tail scope owed v t := by
  refine ⟨ht.take hs fun r hr => living_of_mem (.inl (ht.held_of_number hi hr)), ?_⟩
  rintro d rfl
  exact ⟨i, hi⟩

end Underway

/-! The three readers, each from the others with less fuel. -/

variable {root d : DictId} {s : Scene} {tail : List (List Value)} {scope : Option DictId}
variable {registry : Registry} {fuel : Nat} {inert : Bool} {owed : List Value} {l : ListId}

def ReadsValue (root : DictId) (s : Scene) (tail : List (List Value)) (scope : Option DictId)
    (registry : Registry) (fuel : Nat) : Prop :=
  ∀ inert owed t, Underway root s tail scope owed ∅ t →
    Leaves (value registry scope fuel inert) t
      (fun v t' => Read root s tail scope owed v t' ∧ Keeps t t') (Stopped root s tail)

def ReadsItems (root : DictId) (s : Scene) (tail : List (List Value)) (scope : Option DictId)
    (registry : Registry) (fuel : Nat) : Prop :=
  ∀ inert owed t l, Underway root s tail scope owed ∅ t →
    (∃ i : Nat, t.table[i]? = some (.list l)) →
    Leaves (items registry scope fuel inert l) t
      (fun _ t' => Underway root s tail scope owed ∅ t' ∧ Keeps t t') (Stopped root s tail)

def ReadsEntries (root : DictId) (s : Scene) (tail : List (List Value)) (scope : Option DictId)
    (registry : Registry) (fuel : Nat) : Prop :=
  ∀ inert owed t d, Underway root s tail scope owed ∅ t →
    (∃ i : Nat, t.table[i]? = some (.dict d)) →
    Leaves (entries registry scope fuel inert d) t
      (fun _ t' => Underway root s tail scope owed ∅ t' ∧ Keeps t t') (Stopped root s tail)

theorem readsItems_succ (hs : s.1.Good s.2) (hvalue : ReadsValue root s tail scope registry fuel)
    (hitems : ReadsItems root s tail scope registry fuel) :
    ReadsItems root s tail scope registry (fuel + 1) := by
  rintro inert owed t l ht ⟨i, hi⟩
  refine (ht.leaves_close _).bind ?_
  rintro closed t₁ ⟨ht₁, hkeeps₁⟩
  cases closed with
  | true => exact ⟨ht₁, hkeeps₁⟩
  | false =>
    refine (hvalue inert owed t₁ ht₁).bind ?_
    rintro v t₂ ⟨⟨ht₂, -⟩, hkeeps₂⟩
    have hl : Ref.list l ∈ t₂.heap.heldRefs :=
      ht₂.held_of_number (hkeeps₂ i _ (hkeeps₁ i _ hi)) (List.mem_singleton_self _)
    have hpush := ht₂.step hs (M := ∅)
      (.single (.pushItem l v (living_of_mem (.inl hl)) fun r hr => living_of_mem (.inr hr)))
      rfl rfl (Set.empty_subset _)
    refine (leaves_change (Q := fun _ t₃ => t₃ = { t₂ with heap := t₂.heap.pushItem l v })
      rfl).bind ?_
    rintro - t₃ rfl
    refine (hitems inert owed _ l hpush ⟨i, hkeeps₂ i _ (hkeeps₁ i _ hi)⟩).mono ?_
    rintro - t₄ ⟨ht₄, hkeeps₄⟩
    exact ⟨ht₄, hkeeps₁.trans (hkeeps₂.trans hkeeps₄)⟩

theorem readsEntries_succ (hs : s.1.Good s.2) (hvalue : ReadsValue root s tail scope registry fuel)
    (hentries : ReadsEntries root s tail scope registry fuel) :
    ReadsEntries root s tail scope registry (fuel + 1) := by
  rintro inert owed t d ht ⟨i, hi⟩
  refine (ht.leaves_close _).bind ?_
  rintro closed t₁ ⟨ht₁, hkeeps₁⟩
  cases closed with
  | true => exact ⟨ht₁, hkeeps₁⟩
  | false =>
    refine ht₁.leaves_next.bind ?_
    rintro token t₂ ⟨ht₂, hkeeps₂⟩
    cases token with
    | str key =>
      refine (hvalue inert owed t₂ ht₂).bind ?_
      rintro v t₃ ⟨⟨ht₃, hnumbered⟩, hkeeps₃⟩
      have hkeeps := hkeeps₁.trans (hkeeps₂.trans hkeeps₃)
      have hd : Ref.dict d ∈ t₃.heap.heldRefs :=
        ht₃.held_of_number (hkeeps i _ hi) (List.mem_singleton_self _)
      have htight : ∀ p, v = .dict p → ∀ r ∈ t₃.heap.heldRefs ∪ {r | r ∈ v.refs},
          t₃.heap.Living t₃.heap.heldRefs r := by
        -- a parent that was read is held, so that its chain is complete
        rintro p rfl r (hr | hr)
        · exact living_of_mem hr
        · obtain ⟨j, hj⟩ := hnumbered p rfl
          exact living_of_mem (ht₃.held_of_number hj hr)
      have hdefine := leads_define (h := t₃.heap) root key (.inl hd) (fun r hr => .inr hr) htight
      obtain ⟨hroots, hpins⟩ := t₃.heap.held_define d key v
      have ht₄ := ht₃.step hs hdefine.ops hpins hroots (Set.empty_subset _)
      refine (leaves_onHeap (Q := fun _ t₄ =>
        t₄ = { t₃ with heap := (t₃.heap.define d key v).2 }) ht₄.stopped fun _ _ => rfl).bind ?_
      rintro - t₄ rfl
      refine (hentries inert owed _ d ht₄ ⟨i, hkeeps i _ hi⟩).mono ?_
      rintro - t₅ ⟨ht₅, hkeeps₅⟩
      exact ⟨ht₅, hkeeps.trans hkeeps₅⟩
    | _ => exact ht₂.stopped

/-- A list is numbered and then filled. -/
theorem leaves_list (hs : s.1.Good s.2) (hitems : ReadsItems root s tail scope registry fuel)
    (ht : Underway root s tail scope owed ∅ t) :
    Leaves (do
        let l ← create (·.newList [])
        discard (register (.list l))
        items registry scope fuel inert l
        pure (.list l)) t
      (fun v t' => Read root s tail scope owed v t' ∧ Keeps t t') (Stopped root s tail) := by
  have hnew := ht.step hs (M := {.list (t.heap.newList []).2}) (.single (.newList [] (by simp)))
    rfl rfl fun r hr => .inl hr
  have hregistered := (hnew.register (knows_list (living_of_mem (.inr rfl)))).release hs
  obtain ⟨hkeeps, hnumber⟩ := Underway.keeps_register (t := t) (.list (t.heap.newList []).2)
    ((t.heap.newList []).1.hold (.list (t.heap.newList []).2))
  refine .of_gives_bind (gives_create _ t) ?_
  refine .of_gives_bind (gives_register _ _).discard ?_
  refine (hitems inert owed _ _ hregistered ⟨_, hnumber⟩).bind ?_
  rintro - t' ⟨ht', hkeeps'⟩
  exact ⟨ht'.read_numbered hs (hkeeps' _ _ hnumber), hkeeps.trans hkeeps'⟩

theorem leaves_dict (hregistry : ∀ x ∈ registry, Defroster.Lawful root x.2) (hs : s.1.Good s.2)
    (hentries : ReadsEntries root s tail scope registry fuel)
    (ht : Underway root s tail scope owed ∅ t) :
    Leaves (do
        let d ← newDict inert scope
        let number ← register (.dict d)
        entries registry scope fuel inert d
        finishDict registry scope number d) t
      (fun v t' => Read root s tail scope owed v t' ∧ Keeps t t') (Stopped root s tail) := by
  have hparent : ∀ p, (if inert then none else scope) = some p →
      t.heap.Living (t.heap.heldRefs ∪ ∅) (.dict p) := by
    intro p hp
    split at hp
    · cases hp
    · exact living_of_mem (.inl (ht.held_scope hp))
  have hnew := ht.step hs
    (M := {.dict (t.heap.newDict { parent := if inert then none else scope }).2})
    (.single (.newDict { parent := if inert then none else scope } rfl hparent (by simp) (by simp)
      (by simp))) rfl rfl fun r hr => .inl hr
  have hregistered := (hnew.register (knows_dict (living_of_mem (.inr rfl)))).release hs
  generalize hd : t.heap.newDict { parent := if inert then none else scope } = x at hnew hregistered
  obtain ⟨h, d⟩ := x
  obtain ⟨hkeeps, hnumber⟩ := Underway.keeps_register (t := t) (.dict d) (h.hold (.dict d))
  have hgives : Gives (newDict inert scope) t d { t with heap := h } := by
    have hcreate := gives_create (·.newDict { parent := if inert then none else scope }) t
    simp only [hd] at hcreate
    exact hcreate
  refine .of_gives_bind hgives (.of_gives_bind (gives_register _ _) ?_)
  refine (hentries inert owed _ _ hregistered ⟨_, hnumber⟩).bind ?_
  rintro - t₁ ⟨ht₁, hkeeps₁⟩
  refine (ht₁.leaves_finishDict hregistry hs (hkeeps₁ _ _ hnumber)).mono ?_
  rintro v t₂ ⟨hread, hsame⟩
  refine ⟨hread, fun i w hi => ?_⟩
  have hlt := (Array.getElem?_eq_some_iff.mp hi).1
  rw [hsame i (Nat.ne_of_lt hlt)]
  exact hkeeps₁ i w (hkeeps i w hi)

/-- The rest of a block, behind its mark. -/
theorem leaves_block (hs : s.1.Good s.2) (hvalue : ReadsValue root s tail scope registry fuel)
    (ht : Underway root s tail scope owed ∅ t) :
    Leaves (do
        let name ← blockName
        let params ← paramNames (← value registry scope fuel inert)
        let env ← blockEnv scope (← value registry scope fuel inert)
        change (·.hold (.dict env))
        let body ← blockBody (← value registry scope fuel inert)
        change (·.letGo env)
        if ← close .blockClose then
          create (·.newBlock
            { id := 0, name := name, params := params, body := body, env := env, receiver := none })
        else fail (.expected Mark.blockClose.text)) t
      (fun v t' => Read root s tail scope owed v t' ∧ Keeps t t') (Stopped root s tail) := by
  refine ht.leaves_blockName.bind ?_
  rintro name t₁ ⟨ht₁, hkeeps₁⟩
  refine (hvalue inert owed t₁ ht₁).bind ?_
  rintro v₂ t₂ ⟨⟨ht₂, -⟩, hkeeps₂⟩
  refine (ht₂.leaves_paramNames v₂).bind ?_
  rintro params _ rfl
  refine (hvalue inert owed _ (ht₂.release hs)).bind ?_
  rintro v₃ t₃ ⟨⟨ht₃, -⟩, hkeeps₃⟩
  refine (ht₃.leaves_blockEnv hs fun r hr => hr).bind ?_
  rintro env t₄ ⟨ht₄, hkeeps₄⟩
  refine .of_gives_bind (gives_change _ t₄) ?_
  refine (hvalue inert _ _ ht₄).bind ?_
  rintro v₅ t₅ ⟨⟨ht₅, -⟩, hkeeps₅⟩
  refine (ht₅.leaves_blockBody fun r hr => hr).bind ?_
  rintro body _ ⟨rfl, hbody⟩
  refine .of_gives_bind (gives_change _ _) ?_
  have htaken := ht₅.take hs (M := insert (.dict env) {r | r ∈ allRefs body}) ?_
  · refine (htaken.letGo.leaves_close .blockClose).bind ?_
    rintro closed t₆ ⟨ht₆, hkeeps₆⟩
    cases closed with
    | false => exact ht₆.stopped
    | true =>
      let b : Block := ⟨0, name, params, body, env, none⟩
      have hblock : Read root s tail scope owed (t₆.heap.newBlock b).2
          { t₆ with heap := (t₆.heap.newBlock b).1 } := by
        refine ⟨ht₆.step hs (.single (.newBlock b)) rfl rfl fun r hr => ?_, by simp [newBlock]⟩
        simp only [newBlock, b, Set.mem_ofPred_eq, Value.refs, blockRefs, Option.toList_none,
          List.map_nil, List.nil_append, List.mem_cons] at hr
        exact .inr hr
      have hkeeps := hkeeps₁.trans (hkeeps₂.trans (hkeeps₃.trans (hkeeps₄.trans hkeeps₅)))
      exact .of_gives (gives_create (·.newBlock b) t₆) ⟨hblock, hkeeps.trans hkeeps₆⟩
  · rintro r (rfl | hr)
    · refine living_of_mem (.inl (ht₅.held_of_mem (v := .dict env) ?_ (List.mem_singleton_self _)))
      exact List.mem_cons_self
    · exact hbody r hr

theorem readsValue_succ (hregistry : ∀ x ∈ registry, Defroster.Lawful root x.2)
    (hs : s.1.Good s.2) (hvalue : ReadsValue root s tail scope registry fuel)
    (hitems : ReadsItems root s tail scope registry fuel)
    (hentries : ReadsEntries root s tail scope registry fuel) :
    ReadsValue root s tail scope registry (fuel + 1) := by
  intro inert owed t ht
  refine ht.leaves_next.bind ?_
  rintro token t₁ ⟨ht₁, hkeeps₁⟩
  have hplain : ∀ v : Value, v.refs = [] →
      Read root s tail scope owed v t₁ ∧ Keeps t t₁ :=
    fun v hv => ⟨ht₁.read_plain hs hv, hkeeps₁⟩
  have hquoted : ∀ (quote : Value → Value) inert', (∀ v, (quote v).refs = v.refs) →
      (∀ v d, quote v ≠ .dict d) →
      Leaves (do return quote (← value registry scope fuel inert')) t₁
        (fun v t' => Read root s tail scope owed v t' ∧ Keeps t t') (Stopped root s tail) := by
    intro quote inert' hrefs hne
    refine (hvalue inert' owed t₁ ht₁).bind ?_
    rintro v t₂ ⟨ht₂, hkeeps₂⟩
    refine ⟨⟨?_, fun d hd => (hne v d hd).elim⟩, hkeeps₁.trans hkeeps₂⟩
    rw [hrefs]
    exact ht₂.underway
  cases token with
  | null => exact hplain .nil rfl
  | bool b => exact hplain (.bool b) rfl
  | num n => exact hplain (.num n.toFloat) rfl
  | str text => exact hplain (.str text) rfl
  | sym name => exact hplain (.sym name) rfl
  | ref number =>
    refine Leaves.bind (leaves_get (Q := fun a t' => a = t₁ ∧ t' = t₁) ⟨rfl, rfl⟩) ?_
    rintro a t' ⟨rfl, rfl⟩
    cases hi : (readIndex? number).bind fun i => t'.table[i]? with
    | none =>
      simp only [hi]
      exact ht₁.stopped
    | some v =>
      obtain ⟨i, -, hi'⟩ := Option.bind_eq_some_iff.mp hi
      simp only [hi]
      exact ⟨ht₁.read_numbered hs hi', hkeeps₁⟩
  | mark m =>
    cases m with
    | quote => exact hquoted .quote inert (fun _ => rfl) (by simp)
    | fullQuote => exact hquoted .fullQuote true (fun _ => rfl) (by simp)
    | listOpen =>
      refine (leaves_list hs hitems ht₁).mono ?_
      exact fun v t' hread => ⟨hread.1, hkeeps₁.trans hread.2⟩
    | dictOpen =>
      refine (leaves_dict hregistry hs hentries ht₁).mono ?_
      exact fun v t' hread => ⟨hread.1, hkeeps₁.trans hread.2⟩
    | blockOpen =>
      refine (leaves_block hs hvalue ht₁).mono ?_
      exact fun v t' hread => ⟨hread.1, hkeeps₁.trans hread.2⟩
    | _ => exact ht₁.stopped
  | other text => exact ht₁.stopped
  | nested j => exact ht₁.stopped

/-- Every stream is read well, whatever the fuel. -/
theorem reads_all (hregistry : ∀ x ∈ registry, Defroster.Lawful root x.2) (hs : s.1.Good s.2)
    (fuel : Nat) : ReadsValue root s tail scope registry fuel ∧
      ReadsItems root s tail scope registry fuel ∧ ReadsEntries root s tail scope registry fuel := by
  induction fuel with
  | zero =>
    refine ⟨fun inert owed t ht => ?_, fun inert owed t l ht _ => ?_, fun inert owed t d ht _ => ?_⟩
    · exact ht.stopped
    · exact ht.stopped
    · exact ht.stopped
  | succ fuel ih =>
    obtain ⟨hvalue, hitems, hentries⟩ := ih
    exact ⟨readsValue_succ hregistry hs hvalue hitems hentries, readsItems_succ hs hvalue hitems,
      readsEntries_succ hs hvalue hentries⟩

theorem leaves_whole (hregistry : ∀ x ∈ registry, Defroster.Lawful root x.2) (hs : s.1.Good s.2)
    (count : Nat) (ht : Underway root s tail scope [] ∅ t) :
    Leaves (whole registry scope count) t (fun v t' => Read root s tail scope [] v t')
      (Stopped root s tail) := by
  refine ((reads_all hregistry hs _).1 false [] t ht).bind ?_
  rintro v t₁ ⟨ht₁, -⟩
  refine Leaves.bind (leaves_get (Q := fun a t' => a = t₁ ∧ t' = t₁) ⟨rfl, rfl⟩) ?_
  rintro a t' ⟨rfl, rfl⟩
  cases t'.rest with
  | nil => exact ht₁
  | cons _ _ => exact ht₁.underway.stopped

end Thaw

namespace Heap
variable {h : Heap} {root : DictId} {registry : Registry} {scope : Option DictId}

/-- A thaw begins to hold what it makes. -/
theorem underway_enter (tokens : List Token)
    (hroot : .dict root ∈ allRefs h.roots) (hscope : ∀ d, scope = some d → .dict d ∈ h.heldRefs) :
    Thaw.Underway root (h, h.heldRefs) h.pins scope [] ∅ { heap := h.enter [], rest := tokens } where
  ops := by
    have hheld : ∀ v ∈ h.roots ++ ([] :: h.pins).flatten, h.Knows h.heldRefs v := by
      intro v hv r hr
      rw [List.flatten_cons, List.nil_append, List.mem_append] at hv
      refine living_of_mem (mem_heldRefs.mpr ?_)
      cases hv with
      | inl hv => exact .inl ⟨v, hv, hr⟩
      | inr hv =>
        obtain ⟨vs, hvs, hv⟩ := List.mem_flatten.mp hv
        exact .inr ⟨vs, hvs, v, hv, hr⟩
    refine (Relation.ReflTransGen.single (.hold h.roots ([] :: h.pins) hheld)).tail
      (.focus ?_ fun r hr => .inl hr)
    rintro r (hr | hr)
    · exact living_of_mem (.inr hr)
    · exact hr.elim
  root := hroot
  scope d hd := by
    refine (mem_heldRefs.mp (hscope d hd)).imp ?_ ?_
    · rintro ⟨v, hv, hr⟩
      exact mem_allRefs.mpr ⟨v, hv, hr⟩
    · rintro ⟨vs, hvs, v, hv, hr⟩
      exact ⟨vs, hvs, mem_allRefs.mpr ⟨v, hv, hr⟩⟩
  pins := ⟨[], rfl, by simp⟩

/-- The innermost evaluation ends, and what is in hand stays so. -/
theorem ops_leave {K : Set Ref} (hg : h.Good K) : Ops (h, K) (h.leave, K ∪ h.leave.heldRefs) := by
  refine .single (.hold h.roots h.pins.tail fun v hv r hr => living_of_mem (hg.held r ?_))
  refine mem_heldRefs.mpr ?_
  cases List.mem_append.mp hv with
  | inl hv => exact .inl ⟨v, hv, hr⟩
  | inr hv =>
    obtain ⟨vs, hvs, hv⟩ := List.mem_flatten.mp hv
    exact .inr ⟨vs, List.mem_of_mem_tail hvs, v, hv, hr⟩

theorem lawful_thawTokens (hregistry : ∀ x ∈ registry, Defroster.Lawful root x.2)
    (hg : h.Good h.heldRefs) (hroot : .dict root ∈ allRefs h.roots)
    (hscope : ∀ d, scope = some d → .dict d ∈ h.heldRefs) (tokens : List Token) :
    ∃ L, Leads root (h, h.heldRefs) ((h.thawTokens registry tokens scope).2, L) ∧
      ∀ v, (h.thawTokens registry tokens scope).1 = .ok v →
        (h.thawTokens registry tokens scope).2.Knows L v := by
  have hwhole := Thaw.leaves_whole hregistry hg tokens.length
    (underway_enter tokens hroot hscope)
  rw [Thaw.Leaves] at hwhole
  unfold thawTokens
  generalize (Thaw.whole registry scope tokens.length).run.run
    { heap := h.enter [], rest := tokens } = x at hwhole ⊢
  obtain ⟨result, t⟩ := x
  simp only
  have hleave : ∀ K, Ops (h, h.heldRefs) (t.heap, K) → .dict root ∈ allRefs t.heap.roots →
      (∃ inner, t.heap.pins = inner :: h.pins) →
      Leads root (h, h.heldRefs) (t.heap.leave, K ∪ t.heap.leave.heldRefs) := by
    rintro K hops hroot' ⟨inner, hpins⟩
    refine ⟨hops.trans (ops_leave (hg.ops hops)), ?_, fun _ => hroot'⟩
    show t.heap.pins.tail = h.pins
    rw [hpins, List.tail_cons]
  cases result with
  | error e =>
    obtain ⟨⟨K, hops⟩, hroot', hpins⟩ := hwhole
    exact ⟨_, hleave K hops hroot' hpins, by simp⟩
  | ok v =>
    obtain ⟨ht, -⟩ := hwhole
    obtain ⟨inner, hpins, -⟩ := ht.pins
    refine ⟨_, hleave _ ht.ops ht.root ⟨inner, hpins⟩, ?_⟩
    rintro w ⟨⟩ r hr
    exact living_of_mem (.inl (.inr hr))

theorem lawful_thaw (hregistry : ∀ x ∈ registry, Defroster.Lawful root x.2)
    (hg : h.Good h.heldRefs) (hroot : .dict root ∈ allRefs h.roots)
    (hscope : ∀ d, scope = some d → .dict d ∈ h.heldRefs) (frozen : Json) :
    ∃ L, Leads root (h, h.heldRefs) ((h.thaw registry frozen scope).2, L) ∧
      ∀ v, (h.thaw registry frozen scope).1 = .ok v →
        (h.thaw registry frozen scope).2.Knows L v := by
  unfold thaw
  split
  · exact lawful_thawTokens hregistry hg hroot hscope _
  · exact ⟨_, .refl _, by simp⟩

theorem lawful_thawText (hregistry : ∀ x ∈ registry, Defroster.Lawful root x.2)
    (hg : h.Good h.heldRefs) (hroot : .dict root ∈ allRefs h.roots)
    (hscope : ∀ d, scope = some d → .dict d ∈ h.heldRefs) (text : String) :
    ∃ L, Leads root (h, h.heldRefs) ((h.thawText registry text scope).2, L) ∧
      ∀ v, (h.thawText registry text scope).1 = .ok v →
        (h.thawText registry text scope).2.Knows L v := by
  unfold thawText
  split
  · exact lawful_thaw hregistry hg hroot hscope _
  · exact ⟨_, .refl _, by simp⟩

end Heap
end DictScript
