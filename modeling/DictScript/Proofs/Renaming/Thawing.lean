import DictScript.Proofs.Renaming.Copies

/-!
Thawing under other numbers: the same stream is read to the same value, object by object, or fails
in the same place.
-/
namespace DictScript
open Heap

namespace Thaw
variable {α β : Type} {ws : List (List Value)} {t t' u u' : Thawer} {K : Set Ref} {v : Value}
variable {d : DictId} {l : ListId} {registry : Registry} {scope : Option DictId} {fuel : Nat}
variable {inert : Bool} {ρ : Renaming} {g : α → α} {gβ : β → β} {P : Heap → α → Prop}
variable {Q : Heap → β → Prop} {k k' : Heap}

structure Twins (ρ : Renaming) (ws : List (List Value)) (t t' : Thawer) : Prop where
  heaps : ∃ vs, ρ.Heaps (vs :: ws) t.heap t'.heap
  rest : t'.rest = t.rest
  table : t'.table = t.table.map (Value.rename ρ.map)
  has : ∀ v ∈ t.table.toList, Has t.heap.everything v

def Copies (ρ : Renaming) (ws : List (List Value)) (g : α → α) (P : Heap → α → Prop) (t t' : Thawer)
    (x x' : Thaw α) : Prop :=
  match x.run.run t, x'.run.run t' with
  | (.ok a, u), (.ok a', u') => a' = g a ∧ P u.heap a ∧ t.heap.Becomes u.heap ∧ Twins ρ ws u u'
  | (.error e, u), (.error e', u') =>
    e' = e ∧ t.heap.Becomes u.heap ∧ ∃ vs, ρ.Heaps (vs :: ws) u.heap u'.heap
  | _, _ => False

theorem Copies.bind {x x' : Thaw α} {f f' : α → Thaw β} (hx : Copies ρ ws g P t t' x x')
    (hf : ∀ a u u', t.heap.Becomes u.heap → Twins ρ ws u u' → P u.heap a →
      Copies ρ ws gβ Q u u' (f a) (f' (g a))) :
    Copies ρ ws gβ Q t t' (x >>= f) (x' >>= f') := by
  rw [Copies, ExceptT.run_bind, ExceptT.run_bind, StateT.run_bind, StateT.run_bind]
  rw [Copies] at hx
  generalize x.run.run t = y at hx ⊢
  generalize x'.run.run t' = y' at hx ⊢
  obtain ⟨result, u⟩ := y
  obtain ⟨result', u'⟩ := y'
  cases result with
  | error e =>
    cases result' with
    | error e' => exact hx
    | ok a' => exact hx.elim
  | ok a =>
    cases result' with
    | error e' => exact hx.elim
    | ok a' =>
      obtain ⟨rfl, ha, hbecomes, htwins⟩ := hx
      have hrest := hf a u u' hbecomes htwins ha
      rw [Copies] at hrest
      show match (f a).run.run u, (f' (g a)).run.run u' with
        | (.ok a, w), (.ok a', w') => a' = gβ a ∧ Q w.heap a ∧ t.heap.Becomes w.heap ∧ Twins ρ ws w w'
        | (.error e, w), (.error e', w') =>
          e' = e ∧ t.heap.Becomes w.heap ∧ ∃ vs, ρ.Heaps (vs :: ws) w.heap w'.heap
        | _, _ => False
      generalize (f a).run.run u = z at hrest ⊢
      generalize (f' (g a)).run.run u' = z' at hrest ⊢
      obtain ⟨result, w⟩ := z
      obtain ⟨result', w'⟩ := z'
      cases result with
      | error e =>
        cases result' with
        | error e' => exact ⟨hrest.1, hbecomes.trans hrest.2.1, hrest.2.2⟩
        | ok b' => exact hrest.elim
      | ok b =>
        cases result' with
        | error e' => exact hrest.elim
        | ok b' => exact ⟨hrest.1, hrest.2.1, hbecomes.trans hrest.2.2.1, hrest.2.2.2⟩

/-- Looking at where the thaw is changes nothing. -/
theorem Copies.get {f f' : Thawer → Thaw β} (hf : Copies ρ ws gβ Q t t' (f t) (f' t')) :
    Copies ρ ws gβ Q t t' (MonadState.get >>= f) (MonadState.get >>= f') := hf

theorem Copies.of_gives {x x' : Thaw α} {a : α} (hx : Gives x t a u) (hx' : Gives x' t' (g a) u')
    (ha : P u.heap a) (hbecomes : t.heap.Becomes u.heap) (htwins : Twins ρ ws u u') :
    Copies ρ ws g P t t' x x' := by
  rw [Copies, hx, hx']
  exact ⟨rfl, ha, hbecomes, htwins⟩

theorem Copies.discard {x x' : Thaw α} (hx : Copies ρ ws g P t t' x x') :
    Copies ρ ws id (fun _ _ => True) t t' (discard x) (discard x') :=
  hx.bind fun _ _ _ _ hu _ => ⟨rfl, trivial, .refl _, hu⟩

namespace Twins
variable (ht : Twins ρ ws t t')
include ht

theorem pure (a : α) (ha : P t.heap a) :
    Copies ρ ws g P t t' (Pure.pure a) (Pure.pure (g a)) :=
  ⟨rfl, ha, .refl _, ht⟩

theorem fail (why : Malformed) : Copies ρ ws g P t t' (fail why) (fail why) :=
  ⟨rfl, .refl _, ht.heaps⟩

theorem throw (e : RuntimeError) :
    Copies ρ ws g P t t' (MonadExcept.throw e) (MonadExcept.throw e) :=
  ⟨rfl, .refl _, ht.heaps⟩

theorem step {vs : List Value} (hafter : ρ.After (vs :: ws) t.heap k k') :
    Twins ρ ws { t with heap := k } { t' with heap := k' } :=
  ⟨⟨vs, hafter.heaps⟩, ht.rest, ht.table, fun v hv => hafter.becomes.has (ht.has v hv)⟩

theorem reading (rest : List Token) : Twins ρ ws { t with rest := rest } { t' with rest := rest } :=
  ⟨ht.heaps, rfl, ht.table, ht.has⟩

/-! The operations of a thaw, one by one. -/

theorem next : Copies ρ ws id (fun _ _ => True) t t' next next := by
  cases hrest : t.rest with
  | nil =>
    refine Copies.get ?_
    rw [ht.rest, hrest]
    exact ht.fail _
  | cons token rest =>
    exact .of_gives (gives_next hrest) (gives_next (ht.rest.trans hrest)) trivial (.refl _)
      (ht.reading rest)

theorem close (m : Mark) : Copies ρ ws id (fun _ _ => True) t t' (close m) (close m) := by
  cases hrest : t.rest with
  | nil =>
    refine Copies.get ?_
    rw [ht.rest, hrest]
    exact ht.fail _
  | cons token rest =>
    have hrest' : t'.rest = token :: rest := ht.rest.trans hrest
    by_cases hm : token = .mark m
    · subst hm
      exact .of_gives (gives_close hrest) (gives_close hrest') trivial (.refl _) (ht.reading rest)
    · exact .of_gives (gives_close_false hrest hm) (gives_close_false hrest' hm) trivial (.refl _) ht

theorem hold (hv : Has t.heap.everything v) :
    Twins ρ ws { t with heap := t.heap.hold v } { t' with heap := t'.heap.hold (v.rename ρ.map) } ∧
      t.heap.Becomes (t.heap.hold v) := by
  obtain ⟨vs, hh⟩ := ht.heaps
  exact ⟨ht.step (hh.hold hv), (hh.hold hv).becomes⟩

theorem letGo (d : DictId) :
    Twins ρ ws { t with heap := t.heap.letGo d } { t' with heap := t'.heap.letGo (ρ.map d) } ∧
      t.heap.Becomes (t.heap.letGo d) := by
  obtain ⟨vs, hh⟩ := ht.heaps
  exact ⟨ht.step (hh.letGo d), (hh.letGo d).becomes⟩

theorem register (hv : Has t.heap.everything v) :
    Copies ρ ws id (fun _ _ => True) t t' (register v) (register (v.rename ρ.map)) := by
  obtain ⟨hheld, hbecomes⟩ := ht.hold hv
  have hsize : t'.table.size = t.table.size := by rw [ht.table, Array.size_map]
  have hgives := gives_register (v.rename ρ.map) t'
  rw [hsize] at hgives
  refine .of_gives (gives_register v t) hgives trivial hbecomes ⟨hheld.heaps, ht.rest, ?_, ?_⟩
  · rw [ht.table, Array.map_push]
  · intro w hw
    rw [Array.toList_push] at hw
    cases List.mem_append.mp hw with
    | inl hw => exact hheld.has w hw
    | inr hw => exact List.mem_singleton.mp hw ▸ hbecomes.has hv

theorem replace (number : Nat) (d : DictId) (hv : Has t.heap.everything v) :
    Copies ρ ws id (fun _ _ => True) t t' (replace number d v)
      (replace number (ρ.map d) (v.rename ρ.map)) := by
  obtain ⟨hgone, hbecomes₁⟩ := ht.letGo d
  obtain ⟨hheld, hbecomes₂⟩ := hgone.hold (v := v) (hbecomes₁.has hv)
  have hbecomes := hbecomes₁.trans hbecomes₂
  refine .of_gives (gives_modify _ t) (gives_modify _ t') trivial hbecomes
    ⟨hheld.heaps, ht.rest, ?_, fun w hw => ?_⟩
  · show t'.table.set! number _ = (t.table.set! number v).map _
    rw [ht.table, Array.set!_eq_setIfInBounds, Array.set!_eq_setIfInBounds,
      Array.map_setIfInBounds]
  · have hw : w ∈ t.table.set! number v := Array.mem_toList_iff.mp hw
    rw [Array.set!_eq_setIfInBounds] at hw
    cases Array.mem_or_eq_of_mem_setIfInBounds hw with
    | inl hw => exact hheld.has w (Array.mem_toList_iff.mpr hw)
    | inr heq => exact heq ▸ hbecomes.has hv

theorem create (f f' : Heap → Heap × α) {vs : List Value}
    (hafter : ρ.After (vs :: ws) t.heap (f t.heap).1 (f' t'.heap).1)
    (hresult : (f' t'.heap).2 = g (f t.heap).2) (hP : P (f t.heap).1 (f t.heap).2) :
    Copies ρ ws g P t t' (create f) (create f') :=
  .of_gives (gives_create f t) (hresult ▸ gives_create f' t') hP hafter.becomes (ht.step hafter)

theorem onHeap {f f' : Heap → Except RuntimeError α × Heap} {vs : List Value}
    (hafter : ρ.After (vs :: ws) t.heap (f t.heap).2 (f' t'.heap).2)
    (hresult : (f' t'.heap).1 = (f t.heap).1.map g)
    (hP : ∀ a, (f t.heap).1 = .ok a → P (f t.heap).2 a) :
    Copies ρ ws g P t t' (onHeap f) (onHeap f') := by
  have htwins := ht.step hafter
  cases hf : (f t.heap).1 with
  | ok a =>
    rw [hf] at hresult
    exact .of_gives (gives_onHeap (Prod.ext hf rfl)) (gives_onHeap (Prod.ext hresult rfl)) (hP a hf)
      hafter.becomes htwins
  | error e =>
    rw [hf] at hresult
    have hthrow : ∀ {s : Thawer} {q : Heap → Except RuntimeError α × Heap},
        (q s.heap).1 = .error e →
        (Thaw.onHeap q).run.run s = (.error e, { s with heap := (q s.heap).2 }) := by
      intro s q hq
      rw [Thaw.onHeap, ExceptT.run_bind, StateT.run_bind, gives_create]
      generalize q s.heap = x at hq ⊢
      obtain ⟨result, k⟩ := x
      obtain rfl : result = .error e := hq
      rfl
    rw [Copies, hthrow hf, hthrow hresult]
    exact ⟨rfl, hafter.becomes, htwins.heaps⟩

theorem define (key : String) (hd : t.heap.Allocated (.dict d)) (hv : Has t.heap.everything v) :
    Copies ρ ws id (fun _ _ => True) t t' (Thaw.onHeap (·.define d key v))
      (Thaw.onHeap (·.define (ρ.map d) key (v.rename ρ.map))) := by
  obtain ⟨vs, hh⟩ := ht.heaps
  obtain ⟨hresult, hafter⟩ := hh.define key hd hv
  refine ht.onHeap hafter (hresult.trans ?_) fun _ _ => trivial
  cases (t.heap.define d key v).1 <;> rfl

theorem blockName : Copies ρ ws id (fun _ _ => True) t t' blockName blockName := by
  refine ht.next.bind fun token u u' _ hu _ => ?_
  cases token with
  | null => exact hu.pure _ trivial
  | str name => exact hu.pure _ trivial
  | _ => exact hu.fail _

theorem paramNames (hv : Has t.heap.everything v) :
    Copies ρ ws id (fun _ _ => True) t t' (paramNames v) (paramNames (v.rename ρ.map)) := by
  obtain ⟨vs, hh⟩ := ht.heaps
  have hprint := hh.print hv
  refine Copies.get ?_
  cases v with
  | list l =>
    simp only [Value.rename, hh.items, mapM_sym?_renameAll]
    cases (t.heap.items l).mapM Value.sym? with
    | some params => exact ht.pure _ trivial
    | none => exact ht.fail _
  | _ =>
    simp only [Value.rename] at hprint ⊢
    rw [hprint]
    exact ht.fail _

theorem blockBody (hv : Has t.heap.everything v) :
    Copies ρ ws (renameAll ρ.map) (fun k es => ∀ e ∈ es, Has k.everything e) t t' (blockBody v)
      (blockBody (v.rename ρ.map)) := by
  obtain ⟨vs, hh⟩ := ht.heaps
  have hprint := hh.print hv
  refine Copies.get ?_
  cases v with
  | list l =>
    simp only [Value.rename, hh.items]
    exact ht.pure _ fun e he => hh.region.has_item (has_list.mp hv) he
  | _ =>
    simp only [Value.rename] at hprint ⊢
    rw [hprint]
    exact ht.fail _

theorem newDict (inert : Bool) (hscope : ∀ d, scope = some d → t.heap.Allocated (.dict d)) :
    Copies ρ ws ρ.map (fun k d => k.Allocated (.dict d)) t t' (newDict inert scope)
      (newDict inert (scope.map ρ.map)) := by
  obtain ⟨vs, hh⟩ := ht.heaps
  let c : DictCell := { parent := if inert then none else scope }
  have hafter := hh.newDict (c := c) rfl ?_ (by simp [c]) (by simp [c]) (by simp [c])
  have hrename : c.rename ρ.map = { parent := if inert then none else scope.map ρ.map } := by
    cases inert <;> rfl
  rw [hrename] at hafter
  · exact ht.create (·.newDict c) _ hafter (hh.newDict_id c _)
      ((allocated_newDict c).mpr (.inl rfl))
  · intro p hp
    cases inert with
    | true => cases hp
    | false => exact hscope p hp

theorem blockEnv (hscope : ∀ d, scope = some d → t.heap.Allocated (.dict d))
    (hv : Has t.heap.everything v) :
    Copies ρ ws ρ.map (fun k d => k.Allocated (.dict d)) t t' (blockEnv scope v)
      (blockEnv (scope.map ρ.map) (v.rename ρ.map)) := by
  obtain ⟨vs, hh⟩ := ht.heaps
  have hprint := hh.print hv
  cases v with
  | dict d => exact ht.pure (g := ρ.map) d (has_dict.mp hv)
  | nil =>
    cases scope with
    | some d => exact ht.pure (g := ρ.map) d (hscope d rfl)
    | none =>
      exact ht.create (·.newDict {}) (·.newDict {}) (g := ρ.map)
        (P := fun k d => k.Allocated (.dict d)) hh.newBare (hh.newDict_id {} {})
        ((allocated_newDict {}).mpr (.inl rfl))
  | _ =>
    simp only [Value.rename, Thaw.blockEnv] at hprint ⊢
    refine Copies.get ?_
    rw [hprint]
    exact ht.fail _

theorem reference (number : String) :
    Copies ρ ws (Value.rename ρ.map) (fun k v => Has k.everything v) t t' (reference number)
      (reference number) := by
  refine Copies.get ?_
  have hget : ((readIndex? number).bind fun i => t'.table[i]?) =
      ((readIndex? number).bind fun i => t.table[i]?).map (Value.rename ρ.map) := by
    cases readIndex? number with
    | none => rfl
    | some i => simp only [Option.bind_some, ht.table, Array.getElem?_map]
  simp only [hget]
  cases hi : (readIndex? number).bind fun i => t.table[i]? with
  | none => exact ht.fail _
  | some v =>
    obtain ⟨i, -, hi⟩ := Option.bind_eq_some_iff.mp hi
    exact ht.pure _ (ht.has v (Array.mem_toList_iff.mpr (Array.mem_of_getElem? hi)))

theorem defrost (hK : K ⊆ t.heap.everything) (hfixes : ρ.Fixes K)
    (htame : ∀ x ∈ registry, Defroster.Tame K x.2)
    (huniform : ∀ x ∈ registry, Defroster.Uniform K x.2)
    (hscope : ∀ d, scope = some d → t.heap.Allocated (.dict d)) (hd : t.heap.Allocated (.dict d))
    (tag : String) :
    Copies ρ ws (Value.rename ρ.map) (fun k v => Has k.everything v) t t'
      (Thaw.onHeap fun h => registry.defrost tag h d scope)
      (Thaw.onHeap fun h => registry.defrost tag h (ρ.map d) (scope.map ρ.map)) := by
  obtain ⟨vs, hh⟩ := ht.heaps
  have hdefrost : (registry.defrost tag t'.heap (ρ.map d) (scope.map ρ.map)).1 =
        renameAnswer ρ (registry.defrost tag t.heap d scope).1 ∧
      ρ.After (vs :: ws) t.heap (registry.defrost tag t.heap d scope).2
        (registry.defrost tag t'.heap (ρ.map d) (scope.map ρ.map)).2 ∧
      ∀ v ∈ answerValues (registry.defrost tag t.heap d scope).1,
        Has (registry.defrost tag t.heap d scope).2.everything v := by
    rw [Registry.defrost, Registry.defrost]
    cases hf : registry.lookup tag with
    | none => exact ⟨rfl, hh.here, List.forall_mem_nil _⟩
    | some f =>
      obtain ⟨before, behind, heq, -⟩ := List.lookup_eq_some_iff.mp hf
      have hmem : (tag, f) ∈ registry := heq ▸ List.mem_append_right _ List.mem_cons_self
      obtain ⟨hresult, hheaps⟩ := huniform _ hmem ρ (vs :: ws) t.heap t'.heap d scope hh hfixes hK hd
        hscope
      obtain ⟨T, hedits, hhas⟩ := htame _ hmem t.heap t.heap.everything d scope hh.region hK hd hscope
      rw [everything_of_edits hedits hh.region] at hhas
      exact ⟨hresult, ⟨hheaps, .of_edits hedits hh.region⟩, hhas⟩
  obtain ⟨hresult, hafter, hhas⟩ := hdefrost
  refine ht.onHeap hafter hresult fun v hok => hhas v ?_
  rw [hok]
  exact List.mem_singleton_self v

theorem finishDict (hK : K ⊆ t.heap.everything) (hfixes : ρ.Fixes K)
    (htame : ∀ x ∈ registry, Defroster.Tame K x.2)
    (huniform : ∀ x ∈ registry, Defroster.Uniform K x.2)
    (hscope : ∀ d, scope = some d → t.heap.Allocated (.dict d)) (hd : t.heap.Allocated (.dict d))
    (number : Nat) :
    Copies ρ ws (Value.rename ρ.map) (fun k v => Has k.everything v) t t'
      (finishDict registry scope number d)
      (finishDict registry (scope.map ρ.map) number (ρ.map d)) := by
  obtain ⟨vs, hh⟩ := ht.heaps
  refine Copies.get ?_
  simp only [hh.holds, hh.get]
  split
  · cases t.heap.get d tagKey with
    | str tag =>
      simp only [Value.rename]
      refine (ht.defrost hK hfixes htame huniform hscope hd tag).bind fun v u u' _ hu hv => ?_
      refine (hu.replace number d hv).bind fun _ w w' hbecomes hw _ => ?_
      exact hw.pure v (hbecomes.has hv)
    | _ => exact ht.throw _
  · exact ht.pure (g := Value.rename ρ.map) (Value.dict d) (has_dict.mpr hd)

end Twins

/-! The three readers, each from the others with less fuel. -/

structure Fit (ρ : Renaming) (K : Set Ref) (registry : Registry) (scope : Option DictId) (h : Heap) :
    Prop where
  own : K ⊆ h.everything
  fixes : ρ.Fixes K
  tame : ∀ x ∈ registry, Defroster.Tame K x.2
  uniform : ∀ x ∈ registry, Defroster.Uniform K x.2
  scope : ∀ d, scope = some d → h.Allocated (.dict d)

theorem Fit.after (hfit : Fit ρ K registry scope k) (hk : k.Becomes k') :
    Fit ρ K registry scope k' :=
  { hfit with own := hfit.own.trans hk.sub, scope := fun d hd => hk.allocated (hfit.scope d hd) }

def CopiesValue (ρ : Renaming) (ws : List (List Value)) (K : Set Ref) (registry : Registry)
    (scope : Option DictId) (fuel : Nat) : Prop :=
  ∀ inert t t', Fit ρ K registry scope t.heap → Twins ρ ws t t' →
    Copies ρ ws (Value.rename ρ.map) (fun k v => Has k.everything v) t t'
      (value registry scope fuel inert) (value registry (scope.map ρ.map) fuel inert)

def CopiesItems (ρ : Renaming) (ws : List (List Value)) (K : Set Ref) (registry : Registry)
    (scope : Option DictId) (fuel : Nat) : Prop :=
  ∀ inert t t' l, Fit ρ K registry scope t.heap → Twins ρ ws t t' → t.heap.Allocated (.list l) →
    Copies ρ ws id (fun _ _ => True) t t'
      (items registry scope fuel inert l) (items registry (scope.map ρ.map) fuel inert l)

def CopiesEntries (ρ : Renaming) (ws : List (List Value)) (K : Set Ref) (registry : Registry)
    (scope : Option DictId) (fuel : Nat) : Prop :=
  ∀ inert t t' d, Fit ρ K registry scope t.heap → Twins ρ ws t t' → t.heap.Allocated (.dict d) →
    Copies ρ ws id (fun _ _ => True) t t'
      (entries registry scope fuel inert d)
      (entries registry (scope.map ρ.map) fuel inert (ρ.map d))

theorem copiesItems_succ (hvalue : CopiesValue ρ ws K registry scope fuel)
    (hitems : CopiesItems ρ ws K registry scope fuel) :
    CopiesItems ρ ws K registry scope (fuel + 1) := by
  intro inert t t' l hfit ht hl
  refine (ht.close _).bind fun closed t₁ t₁' hb₁ ht₁ _ => ?_
  cases closed with
  | true => exact ht₁.pure _ trivial
  | false =>
    have hfit₁ := hfit.after hb₁
    refine (hvalue inert t₁ t₁' hfit₁ ht₁).bind fun v t₂ t₂' hb₂ ht₂ hv => ?_
    have hl₂ := hb₂.allocated (hb₁.allocated hl)
    obtain ⟨vs, hh⟩ := ht₂.heaps
    have hafter := hh.pushItem hl₂ hv
    refine Copies.bind (g := id) (P := fun _ _ => True)
      (.of_gives (gives_change _ t₂) (gives_change _ t₂') trivial hafter.becomes (ht₂.step hafter)) ?_
    intro _ t₃ t₃' hb₃ ht₃ _
    exact hitems inert t₃ t₃' l ((hfit₁.after hb₂).after hb₃) ht₃ (hb₃.allocated hl₂)

theorem copiesEntries_succ (hvalue : CopiesValue ρ ws K registry scope fuel)
    (hentries : CopiesEntries ρ ws K registry scope fuel) :
    CopiesEntries ρ ws K registry scope (fuel + 1) := by
  intro inert t t' d hfit ht hd
  refine (ht.close _).bind fun closed t₁ t₁' hb₁ ht₁ _ => ?_
  cases closed with
  | true => exact ht₁.pure _ trivial
  | false =>
    refine ht₁.next.bind fun token t₂ t₂' hb₂ ht₂ _ => ?_
    cases token with
    | str key =>
      have hfit₂ := (hfit.after hb₁).after hb₂
      refine (hvalue inert t₂ t₂' hfit₂ ht₂).bind fun v t₃ t₃' hb₃ ht₃ hv => ?_
      have hd₃ := hb₃.allocated (hb₂.allocated (hb₁.allocated hd))
      refine (ht₃.define key hd₃ hv).bind fun _ t₄ t₄' hb₄ ht₄ _ => ?_
      exact hentries inert t₄ t₄' d ((hfit₂.after hb₃).after hb₄) ht₄ (hb₄.allocated hd₃)
    | _ => exact ht₂.fail _

/-- The rest of a block, behind its mark. -/
theorem copies_block (hvalue : CopiesValue ρ ws K registry scope fuel)
    (hfit : Fit ρ K registry scope t.heap) (ht : Twins ρ ws t t') :
    Copies ρ ws (Value.rename ρ.map) (fun k v => Has k.everything v) t t'
      (do
        let name ← blockName
        let params ← paramNames (← value registry scope fuel inert)
        let env ← blockEnv scope (← value registry scope fuel inert)
        change (·.hold (.dict env))
        let body ← blockBody (← value registry scope fuel inert)
        change (·.letGo env)
        if ← close .blockClose then
          create (·.newBlock
            { id := 0, name := name, params := params, body := body, env := env, receiver := none })
        else fail (.expected Mark.blockClose.text))
      (do
        let name ← blockName
        let params ← paramNames (← value registry (scope.map ρ.map) fuel inert)
        let env ← blockEnv (scope.map ρ.map) (← value registry (scope.map ρ.map) fuel inert)
        change (·.hold (.dict env))
        let body ← blockBody (← value registry (scope.map ρ.map) fuel inert)
        change (·.letGo env)
        if ← close .blockClose then
          create (·.newBlock
            { id := 0, name := name, params := params, body := body, env := env, receiver := none })
        else fail (.expected Mark.blockClose.text)) := by
  refine ht.blockName.bind fun name t₁ t₁' hb₁ ht₁ _ => ?_
  have hfit₁ := hfit.after hb₁
  refine (hvalue inert t₁ t₁' hfit₁ ht₁).bind fun v₂ t₂ t₂' hb₂ ht₂ hv₂ => ?_
  refine (ht₂.paramNames hv₂).bind fun params t₃ t₃' hb₃ ht₃ _ => ?_
  have hfit₃ := (hfit₁.after hb₂).after hb₃
  refine (hvalue inert t₃ t₃' hfit₃ ht₃).bind fun v₄ t₄ t₄' hb₄ ht₄ hv₄ => ?_
  have hfit₄ := hfit₃.after hb₄
  refine (ht₄.blockEnv hfit₄.scope hv₄).bind fun env t₅ t₅' hb₅ ht₅ henv => ?_
  obtain ⟨ht₆, hb₆⟩ := ht₅.hold (v := .dict env) (has_dict.mpr henv)
  refine Copies.bind (g := id) (P := fun k _ => t₅.heap.Becomes k)
    (.of_gives (gives_change _ t₅) (gives_change _ t₅') hb₆ hb₆ ht₆) ?_
  intro _ t₆ t₆' hb₆ ht₆ _
  refine (hvalue inert t₆ t₆' ((hfit₄.after hb₅).after hb₆) ht₆).bind
    fun v₇ t₇ t₇' hb₇ ht₇ hv₇ => ?_
  refine (ht₇.blockBody hv₇).bind fun body t₈ t₈' hb₈ ht₈ hbody => ?_
  obtain ⟨ht₉, hb₉⟩ := ht₈.letGo env
  refine Copies.bind (g := id) (P := fun _ _ => True)
    (.of_gives (gives_change _ t₈) (gives_change _ t₈') trivial hb₉ ht₉) ?_
  intro _ t₉ t₉' hb₉ ht₉ _
  refine (ht₉.close .blockClose).bind fun closed u u' hb hu _ => ?_
  cases closed with
  | false => exact hu.fail _
  | true =>
    obtain ⟨vs, hh⟩ := hu.heaps
    let b : Block := ⟨0, name, params, body, env, none⟩
    refine hu.create (·.newBlock b) (·.newBlock (b.rename ρ.map)) (hh.newBlock b _)
      (hh.newBlock_value b) fun r hr => ?_
    simp only [newBlock, Value.refs, blockRefs, Option.toList_none, List.map_nil,
      List.nil_append, List.mem_cons, b] at hr
    have hafter := hb₉.trans hb
    cases hr with
    | inl heq =>
      exact heq ▸ hafter.allocated (hb₈.allocated (hb₇.allocated (hb₆.allocated henv)))
    | inr hr =>
      obtain ⟨w, hw, hr⟩ := mem_allRefs.mp hr
      exact hafter.has (hbody w hw) r hr

theorem copiesValue_succ (hvalue : CopiesValue ρ ws K registry scope fuel)
    (hitems : CopiesItems ρ ws K registry scope fuel)
    (hentries : CopiesEntries ρ ws K registry scope fuel) :
    CopiesValue ρ ws K registry scope (fuel + 1) := by
  intro inert t t' hfit ht
  refine ht.next.bind fun token t₁ t₁' hb₁ ht₁ _ => ?_
  have hfit₁ := hfit.after hb₁
  have hquoted : ∀ (quote : Value → Value) inert', (∀ v, (quote v).refs = v.refs) →
      (∀ v, (quote v).rename ρ.map = quote (v.rename ρ.map)) →
      Copies ρ ws (Value.rename ρ.map) (fun k v => Has k.everything v) t₁ t₁'
        (do return quote (← value registry scope fuel inert'))
        (do return quote (← value registry (scope.map ρ.map) fuel inert')) := by
    intro quote inert' hrefs hrename
    refine (hvalue inert' t₁ t₁' hfit₁ ht₁).bind fun v t₂ t₂' _ ht₂ hv => ?_
    rw [← hrename]
    exact ht₂.pure _ fun r hr => hv r (hrefs v ▸ hr)
  cases token with
  | null => exact ht₁.pure (g := Value.rename ρ.map) Value.nil (has_of_refs rfl)
  | bool b => exact ht₁.pure (g := Value.rename ρ.map) (Value.bool b) (has_of_refs rfl)
  | num n => exact ht₁.pure (g := Value.rename ρ.map) (Value.num n.toFloat) (has_of_refs rfl)
  | str text => exact ht₁.pure (g := Value.rename ρ.map) (Value.str text) (has_of_refs rfl)
  | sym name => exact ht₁.pure (g := Value.rename ρ.map) (Value.sym name) (has_of_refs rfl)
  | ref number => exact ht₁.reference number
  | mark m =>
    cases m with
    | quote => exact hquoted .quote inert (fun _ => rfl) fun _ => rfl
    | fullQuote => exact hquoted .fullQuote true (fun _ => rfl) fun _ => rfl
    | listOpen =>
      obtain ⟨vs, hh⟩ := ht₁.heaps
      refine Copies.bind (g := id) (P := fun k l => k.Allocated (.list l))
        (ht₁.create (·.newList []) (·.newList [])
          (hh.newList (List.forall_mem_nil (Has t₁.heap.everything))) (hh.newList_id [] [])
          ((allocated_newList []).mpr (.inl rfl))) fun l t₂ t₂' hb₂ ht₂ hl => ?_
      refine (ht₂.register (v := .list l) (has_list.mpr hl)).discard.bind
        fun _ t₃ t₃' hb₃ ht₃ _ => ?_
      have hfit₃ := (hfit₁.after hb₂).after hb₃
      refine (hitems inert t₃ t₃' l hfit₃ ht₃ (hb₃.allocated hl)).bind
        fun _ t₄ t₄' hb₄ ht₄ _ => ?_
      exact ht₄.pure (g := Value.rename ρ.map) (Value.list l) (has_list.mpr (hb₄.allocated (hb₃.allocated hl)))
    | dictOpen =>
      refine (ht₁.newDict inert hfit₁.scope).bind fun d t₂ t₂' hb₂ ht₂ hd => ?_
      refine (ht₂.register (v := .dict d) (has_dict.mpr hd)).bind
        fun number t₃ t₃' hb₃ ht₃ _ => ?_
      have hfit₃ := (hfit₁.after hb₂).after hb₃
      have hd₃ := hb₃.allocated hd
      refine (hentries inert t₃ t₃' d hfit₃ ht₃ hd₃).bind fun _ t₄ t₄' hb₄ ht₄ _ => ?_
      have hfit₄ := hfit₃.after hb₄
      exact ht₄.finishDict hfit₄.own hfit₄.fixes hfit₄.tame hfit₄.uniform hfit₄.scope
        (hb₄.allocated hd₃) number
    | blockOpen => exact copies_block hvalue hfit₁ ht₁
    | _ => exact ht₁.fail _
  | other text => exact ht₁.fail _
  | nested j => exact ht₁.fail _

/-- Every stream is read alike, whatever the fuel. -/
theorem copies_all (ρ : Renaming) (ws : List (List Value)) (K : Set Ref) (registry : Registry)
    (scope : Option DictId) (fuel : Nat) :
    CopiesValue ρ ws K registry scope fuel ∧ CopiesItems ρ ws K registry scope fuel ∧
      CopiesEntries ρ ws K registry scope fuel := by
  induction fuel with
  | zero =>
    exact ⟨fun _ _ _ _ ht => ht.fail _, fun _ _ _ _ _ ht _ => ht.fail _,
      fun _ _ _ _ _ ht _ => ht.fail _⟩
  | succ fuel ih =>
    obtain ⟨hvalue, hitems, hentries⟩ := ih
    exact ⟨copiesValue_succ hvalue hitems hentries, copiesItems_succ hvalue hitems,
      copiesEntries_succ hvalue hentries⟩

theorem copies_whole (hfit : Fit ρ K registry scope t.heap) (ht : Twins ρ ws t t') (count : Nat) :
    Copies ρ ws (Value.rename ρ.map) (fun k v => Has k.everything v) t t'
      (whole registry scope count) (whole registry (scope.map ρ.map) count) := by
  refine ((copies_all ρ ws K registry scope _).1 false t t' hfit ht).bind
    fun v t₁ t₁' _ ht₁ hv => Copies.get ?_
  rw [ht₁.rest]
  cases t₁.rest with
  | nil => exact ht₁.pure v hv
  | cons token rest => exact ht₁.fail _

end Thaw

namespace Renaming.Heaps
variable {ws : List (List Value)} {h h' : Heap} {ρ : Renaming} {K : Set Ref} {registry : Registry}
variable {scope : Option DictId}
variable (hh : ρ.Heaps ws h h') (hfit : Thaw.Fit ρ K registry scope h)
include hh hfit

theorem thawTokens (tokens : List Token) :
    (h'.thawTokens registry tokens (scope.map ρ.map)).1 =
        renameAnswer ρ (h.thawTokens registry tokens scope).1 ∧
      ρ.After ws h (h.thawTokens registry tokens scope).2
        (h'.thawTokens registry tokens (scope.map ρ.map)).2 := by
  obtain ⟨hh₁, hbecomes⟩ := hh.enter (List.forall_mem_nil (Has h.everything))
  have htwins : Thaw.Twins ρ ws { heap := h.enter [], rest := tokens }
      { heap := h'.enter [], rest := tokens } :=
    ⟨⟨[], hh₁⟩, rfl, by simp, List.forall_mem_nil _⟩
  have hwhole := Thaw.copies_whole (hfit.after hbecomes) htwins tokens.length
  rw [Thaw.Copies] at hwhole
  unfold Heap.thawTokens
  generalize (Thaw.whole registry scope tokens.length).run.run _ = x at hwhole ⊢
  generalize (Thaw.whole registry (scope.map ρ.map) tokens.length).run.run _ = x' at hwhole ⊢
  obtain ⟨result, t⟩ := x
  obtain ⟨result', t'⟩ := x'
  cases result with
  | error e =>
    cases result' with
    | error e' =>
      obtain ⟨rfl, hrun, vs, hheaps⟩ := hwhole
      exact ⟨rfl, .trans (hbecomes.trans hrun) hheaps.leave⟩
    | ok v' => exact hwhole.elim
  | ok v =>
    cases result' with
    | error e' => exact hwhole.elim
    | ok v' =>
      obtain ⟨rfl, -, hrun, ⟨vs, hheaps⟩, -⟩ := hwhole
      exact ⟨rfl, .trans (hbecomes.trans hrun) hheaps.leave⟩

theorem thaw (frozen : Json) :
    (h'.thaw registry frozen (scope.map ρ.map)).1 =
        renameAnswer ρ (h.thaw registry frozen scope).1 ∧
      ρ.After ws h (h.thaw registry frozen scope).2
        (h'.thaw registry frozen (scope.map ρ.map)).2 := by
  unfold Heap.thaw
  split
  · exact hh.thawTokens hfit _
  · exact ⟨rfl, hh.here⟩

theorem thawText (text : String) :
    (h'.thawText registry text (scope.map ρ.map)).1 =
        renameAnswer ρ (h.thawText registry text scope).1 ∧
      ρ.After ws h (h.thawText registry text scope).2
        (h'.thawText registry text (scope.map ρ.map)).2 := by
  unfold Heap.thawText
  split
  · exact hh.thaw hfit _
  · exact ⟨rfl, hh.here⟩

end Renaming.Heaps
end DictScript
