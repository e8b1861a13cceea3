import DictScript.Proofs.Frozen.Growth
import DictScript.Proofs.Frozen.Stream

/-!
Thawing a stream that shows a value gives a value that the stream shows as well.
-/
namespace DictScript

namespace Thaw
variable {α β : Type} {t t₁ t' : Thawer} {a : Token} {rest : List Token}

def Gives (x : Thaw α) (t : Thawer) (a : α) (t' : Thawer) : Prop := x.run.run t = (.ok a, t')

theorem gives_pure (a : α) (t : Thawer) : Gives (pure a) t a t := rfl

theorem Gives.bind {x : Thaw α} {f : α → Thaw β} {a : α} {b : β} (hx : Gives x t a t₁)
    (hf : Gives (f a) t₁ b t') : Gives (x >>= f) t b t' := by
  rw [Gives, ExceptT.run_bind, StateT.run_bind, hx]
  exact hf

theorem Gives.discard {x : Thaw α} {a : α} (hx : Gives x t a t') : Gives (discard x) t () t' := by
  show (Function.const α () <$> x).run.run t = _
  rw [ExceptT.run_map, StateT.run_map, hx]
  rfl

theorem gives_get (t : Thawer) : Gives get t t t := rfl

theorem gives_modify (f : Thawer → Thawer) (t : Thawer) : Gives (modify f) t () (f t) := rfl

theorem gives_next (ht : t.rest = a :: rest) : Gives next t a { t with rest := rest } := by
  refine (gives_get t).bind ?_
  simp only [ht]
  exact (gives_modify _ t).bind (gives_pure a _)

theorem gives_close {m : Mark} (ht : t.rest = .mark m :: rest) :
    Gives (close m) t true { t with rest := rest } := by
  refine (gives_get t).bind ?_
  simp only [ht, if_true]
  exact (gives_modify _ t).bind (gives_pure true _)

theorem gives_close_false {m : Mark} (ht : t.rest = a :: rest) (ha : a ≠ .mark m) :
    Gives (close m) t false t := by
  refine (gives_get t).bind ?_
  simp only [ht]
  cases a with
  | mark n =>
    have hn : n ≠ m := fun h => ha (h ▸ rfl)
    simp only [hn, if_false]
    exact gives_pure false t
  | _ => exact gives_pure false t

theorem gives_register (v : Value) (t : Thawer) :
    Gives (register v) t t.table.size
      { t with table := t.table.push v, heap := t.heap.hold v } :=
  (gives_get t).bind ((gives_modify _ t).bind (gives_pure _ _))

theorem gives_change (f : Heap → Heap) (t : Thawer) :
    Gives (change f) t () { t with heap := f t.heap } :=
  gives_modify _ t

theorem gives_create (f : Heap → Heap × α) (t : Thawer) :
    Gives (create f) t (f t.heap).2 { t with heap := (f t.heap).1 } := rfl

theorem gives_onHeap {f : Heap → Except RuntimeError α × Heap} {a : α} {h : Heap}
    (hf : f t.heap = (.ok a, h)) : Gives (onHeap f) t a { t with heap := h } := by
  refine (gives_create _ t).bind ?_
  simp only [hf]
  exact gives_pure a _

theorem gives_reference {number : String} {i : Nat} {v : Value} (hi : readIndex? number = some i)
    (hv : t.table[i]? = some v) : Gives (reference number) t v t := by
  refine (gives_get t).bind ?_
  simp only [hi, Option.bind_some, hv]
  exact gives_pure v t

theorem gives_finishDict {registry : Registry} {scope : Option DictId} {number : Nat} {d : DictId}
    (ht : t.heap.holds d tagKey = false) :
    Gives (finishDict registry scope number d) t (.dict d) t := by
  refine (gives_get t).bind ?_
  simp only [ht]
  exact gives_pure _ _

theorem gives_finishDict_tagged {registry : Registry} {scope : Option DictId} {number : Nat}
    {d : DictId} {tag : String} {v : Value} {h : Heap} (ht : t.heap.holds d tagKey = true)
    (htag : t.heap.get d tagKey = .str tag)
    (hv : registry.defrost tag t.heap d scope = (.ok v, h)) :
    Gives (finishDict registry scope number d) t v
      { t with table := t.table.set! number v, heap := (h.letGo d).hold v } := by
  refine (gives_get t).bind ?_
  simp only [ht, htag, if_true]
  refine (gives_onHeap hv).bind ?_
  exact (gives_modify _ _).bind (gives_pure _ _)

theorem gives_blockName {name : Option String} (ht : t.rest = blockNameToken name :: rest) :
    Gives blockName t name { t with rest := rest } := by
  refine (gives_next ht).bind ?_
  cases name <;> exact gives_pure _ _

theorem mapM_sym? (names : List String) : (names.map Value.sym).mapM Value.sym? = some names := by
  induction names with
  | nil => rfl
  | cons n names ih => simp [ih, Value.sym?]

theorem gives_paramNames {l : ListId} {params : List String}
    (hl : t.heap.items l = params.map .sym) : Gives (paramNames (.list l)) t params t := by
  refine (gives_get t).bind ?_
  simp only [hl, mapM_sym?]
  exact gives_pure _ _

theorem gives_blockEnv (scope : Option DictId) (d : DictId) (t : Thawer) :
    Gives (blockEnv scope (.dict d)) t d t := gives_pure d t

theorem gives_blockBody {l : ListId} {vs : List Value} (hl : t.heap.items l = vs) :
    Gives (blockBody (.list l)) t vs t := by
  refine (gives_get t).bind ?_
  simp only [hl]
  exact gives_pure _ _

end Thaw

namespace Heap
variable {h a b k : Heap} {scope : Option DictId} {registry : Registry}
variable {N : Float → JsonNumber → Prop} {o o' p p' : Numbering} {P : Part} {ts rest : List Token}
variable {t t' : Thawer} {q r : Ref} {x y : Option Ref}

def Fresh (h a : Heap) : Ref → Prop
  | .list l => h.lists.size ≤ l.index ∧ l.index < a.lists.size
  | .dict d => h.dicts.size ≤ d.index ∧ d.index < a.dicts.size
  | .native n => h.natives.size ≤ n.index ∧ n.index < a.natives.size

theorem Fresh.mono (hab : WidenedBut y a b) (hq : Fresh h a q) : Fresh h b q := by
  cases q with
  | list l => exact ⟨hq.1, hq.2.trans_le hab.lists⟩
  | dict d => exact ⟨hq.1, hq.2.trans_le hab.dicts⟩
  | native n => exact ⟨hq.1, hq.2.trans_le hab.natives_size⟩

theorem Fresh.not_allocated (hq : Fresh h a q) : ¬ h.Allocated q := by
  cases q <;> exact Nat.not_lt.mpr hq.1

theorem SameKind.mono (hab : WidenedBut y a b) (hrq : SameKind h a r q) : SameKind h b r q := by
  cases hrq with
  | list l m => exact .list l m
  | dict d e => exact .dict d e
  | native hn hm => exact .native hn (native?_mono hab.natives hm)

structure Extends (scope : Option DictId) (h k : Heap) : Prop where
  grown : Widened h k
  untagged : ∀ d : DictId, h.dicts.size ≤ d.index →
    (k.cell d).target = none ∧ (k.cell d).tag = none
  parents : ∀ d p : DictId, h.dicts.size ≤ d.index → (k.cell d).parent = some p → scope = some p

theorem Extends.of_same (hl : b.lists = a.lists) (hd : b.dicts = a.dicts)
    (hn : a.natives.toList <+: b.natives.toList) (ha : Extends scope h a) : Extends scope h b := by
  refine ⟨ha.grown.trans (.of_same hl hd hn), fun d hnew => ?_, fun d p hnew hp => ?_⟩
  · rw [cell_congr hd]
    exact ha.untagged d hnew
  · rw [cell_congr hd] at hp
    exact ha.parents d p hnew hp

theorem Extends.put {d : DictId} {n : String} {v : Value} (ha : Extends scope h a)
    (hd : Fresh h a (.dict d)) :
    Extends scope h (a.put d n v) ∧ WidenedBut (some (.dict d)) a (a.put d n v) ∧
      (a.put d n v).cell d = { a.cell d with slots := (a.cell d).slots.put n v } := by
  have howner : a.owner d = d := by rw [owner, (ha.untagged d hd.1).1]; rfl
  rw [Heap.put, howner]
  have hgrown :=
    (grownBut_modifyCell (f := fun c => { c with slots := c.slots.put n v }) hd.2).widened rfl
  refine ⟨⟨.of_newer hd.not_allocated ha.grown hgrown, fun e he => ?_, fun e p he hp => ?_⟩, hgrown,
    ?_⟩
  · rw [cell_modifyCell hd.2]
    split
    · exact ha.untagged d hd.1
    · exact ha.untagged e he
  · rw [cell_modifyCell hd.2] at hp
    split at hp
    · exact ha.parents d p hd.1 hp
    · exact ha.parents e p he hp
  · rw [cell_modifyCell hd.2, if_pos rfl]

def IsRoot (h : Heap) (scope : Option DictId) (d : DictId) : Prop :=
  scope = some d ∧ (h.cell d).tag = some rootTag ∧ h.owner d = d

theorem IsRoot.allocated {d : DictId} (hd : h.IsRoot scope d) : h.Allocated (.dict d) := by
  by_contra hnot
  have := hd.2.1
  rw [cell_of_size_le (Nat.le_of_not_lt hnot)] at this
  cases this

theorem IsRoot.cell {d : DictId} (hd : h.IsRoot scope d) (hk : Extends scope h k) :
    k.cell d = h.cell d := hk.grown.cell d hd.allocated (by simp)

structure Ready (h : Heap) (scope : Option DictId) (t : Thawer) (o p : Numbering) : Prop where
  ext : Extends scope h t.heap
  size : t.table.size = o.length
  length : p.length = o.length
  entry : ∀ (j : Nat) (r : Ref), o[j]? = some (some r) → ∃ q, p[j]? = some (some q) ∧
    t.table[j]? = some q.toValue ∧ SameKind h t.heap r q
  known : ∀ q, some q ∈ p → Fresh h t.heap q ∨
    ∃ d, q = .dict d ∧ h.IsRoot scope d ∧ some (.dict d) ∈ o

theorem Ready.object? (hr : Ready h scope t o p) (hk : Extends scope h k) (hq : some q ∈ p) :
    k.object? q.toValue = some q := by
  cases hr.known q hq with
  | inl hnew =>
    cases q with
    | list l => rfl
    | dict d => simp [Ref.toValue, Heap.object?, owner, (hk.untagged d hnew.1).1]
    | native n => rfl
  | inr hroot =>
    obtain ⟨d, rfl, hd, -⟩ := hroot
    have howner : k.owner d = d := by rw [owner, hd.cell hk]; exact hd.2.2
    simp [Ref.toValue, Heap.object?, howner]

theorem Ready.mono (hr : Ready h scope t o p) (htable : t'.table = t.table)
    (hgrown : WidenedBut y t.heap t'.heap) (hext : Extends scope h t'.heap) :
    Ready h scope t' o p where
  ext := hext
  size := htable ▸ hr.size
  length := hr.length
  entry j r hj := by
    obtain ⟨q, hp, ht, hkind⟩ := hr.entry j r hj
    exact ⟨q, hp, htable ▸ ht, hkind.mono hgrown⟩
  known q hq := (hr.known q hq).imp_left (Fresh.mono hgrown)

/-- An object takes the next number: a new one, as the counterpart of an object or of none, or the
root environment. -/
theorem Ready.register (hr : Ready h scope t o p) (htable : t'.table = t.table.push q.toValue)
    (hgrown : WidenedBut y t.heap t'.heap) (hext : Extends scope h t'.heap)
    (hq : Fresh h t'.heap q ∨ ∃ d, q = .dict d ∧ h.IsRoot scope d ∧ x = some (.dict d))
    (hkind : ∀ r, x = some r → SameKind h t'.heap r q) :
    Ready h scope t' (o ++ [x]) (p ++ [x.map fun _ => q]) where
  ext := hext
  size := by simp [htable, hr.size]
  length := by simp [hr.length]
  entry j r hj := by
    cases Numbering.getElem?_snoc.mp hj with
    | inl hj =>
      obtain ⟨q', hp, ht, hk⟩ := hr.entry j r hj
      refine ⟨q', Numbering.getElem?_snoc.mpr (.inl hp), ?_, hk.mono hgrown⟩
      have hlt : j < t.table.size := (Array.getElem?_eq_some_iff.mp ht).1
      rw [htable, Array.getElem?_push_lt hlt]
      exact congrArg some (Array.getElem?_eq_some_iff.mp ht).2
    | inr hj =>
      obtain ⟨rfl, rfl⟩ := hj
      refine ⟨q, Numbering.getElem?_snoc.mpr (.inr ⟨hr.length.symm, rfl⟩), ?_, hkind r rfl⟩
      rw [htable, ← hr.size, Array.getElem?_push_size]
  known q' hq' := by
    cases List.mem_append.mp hq' with
    | inl hq' =>
      cases hr.known q' hq' with
      | inl hnew => exact .inl (hnew.mono hgrown)
      | inr hroot =>
        obtain ⟨d, hqd, hroot, ho⟩ := hroot
        exact .inr ⟨d, hqd, hroot, List.mem_append_left _ ho⟩
    | inr hq' =>
      cases x with
      | none => simp at hq'
      | some r =>
        obtain rfl : q' = q := by simpa using hq'
        refine hq.imp_right ?_
        rintro ⟨d, hqd, hroot, hd⟩
        exact ⟨d, hqd, hroot, by simp [hd]⟩

structure Done (h : Heap) (scope : Option DictId) (t t' : Thawer) (o p : Numbering)
    (filled : Option Ref) (rest : List Token) : Prop where
  rest : t'.rest = rest
  ready : Ready h scope t' o p
  grown : WidenedBut filled t.heap t'.heap

def Thawed (x : Float) (n : JsonNumber) : Prop := x = n.toFloat

def Reads (h : Heap) (registry : Registry) (scope : Option DictId) (o : Numbering) :
    Part → List Token → Numbering → Prop
  | .one v, ts, o' => ∀ fuel inert t p rest, 2 * ts.length ≤ fuel → Ready h scope t o p →
      t.rest = ts ++ rest → ∃ w t' p', Thaw.Gives (Thaw.value registry scope fuel inert) t w t' ∧
        Done h scope t t' o' p' none rest ∧ ((∃ d, v = .dict d) → ∃ e, w = .dict e) ∧
        ∀ k, Extends scope h k → Settled t.heap t'.heap k →
          k.Shows Thawed Unmarked scope p (.one w) ts p'
  | .all _, ts, o' => ∀ fuel inert t p rest l, 2 * ts.length + 1 ≤ fuel → Ready h scope t o p →
      t.rest = ts ++ .mark .listClose :: rest → Fresh h t.heap (.list l) →
      ∃ ws t' p', Thaw.Gives (Thaw.items registry scope fuel inert l) t () t' ∧
        Done h scope t t' o' p' (some (.list l)) rest ∧
        t'.heap.items l = t.heap.items l ++ ws ∧
        ∀ k, Extends scope h k → Settled t.heap t'.heap k →
          k.Shows Thawed Unmarked scope p (.all ws) ts p'
  | .slots xs, ts, o' => ∀ fuel inert t p rest d, 2 * ts.length + 1 ≤ fuel →
      Ready h scope t o p → t.rest = ts ++ .mark .dictClose :: rest → Fresh h t.heap (.dict d) →
      (∀ n ∈ xs.map Prod.fst, Key.of n = .slot n) →
      ((t.heap.cell d).slots.toList.map Prod.fst ++ xs.map Prod.fst).Nodup →
      ∃ ys t' p', Thaw.Gives (Thaw.entries registry scope fuel inert d) t () t' ∧
        Done h scope t t' o' p' (some (.dict d)) rest ∧ ys.map Prod.fst = xs.map Prod.fst ∧
        (t'.heap.cell d).slots.toList = (t.heap.cell d).slots.toList ++ ys ∧
        ∀ k, Extends scope h k → Settled t.heap t'.heap k →
          k.Shows Thawed Unmarked scope p (.slots ys) ts p'

/-- An opening bracket makes a new list, which is filled with the items. -/
theorem reads_list {vs : List Value} (hvs : Reads h registry scope (o ++ [x]) (.all vs) ts o')
    (hx : ∀ r, x = some r → ∃ m, r = .list m) (fuel : Nat) (inert : Bool)
    (hfuel : 2 * (ts.length + 2) ≤ fuel) (hr : Ready h scope t o p)
    (hrest : t.rest = .mark .listOpen :: (ts ++ .mark .listClose :: rest)) :
    ∃ l ws t' p', Thaw.Gives (Thaw.value registry scope fuel inert) t (.list l) t' ∧
      Done h scope t t' o' p' none rest ∧ t'.heap.items l = ws ∧ some (.list l) ∉ p ∧
      ∀ k, Extends scope h k → Settled t.heap t'.heap k → k.items l = ws ∧
        k.Shows Thawed Unmarked scope (p ++ [x.map fun _ => .list l]) (.all ws) ts p' := by
  obtain ⟨fuel, rfl⟩ : ∃ f, fuel = f + 1 := ⟨fuel - 1, by omega⟩
  let l : ListId := ⟨t.heap.lists.size⟩
  let t₁ : Thawer :=
    { heap := (t.heap.newList []).1.hold (.list l), rest := ts ++ .mark .listClose :: rest,
      table := t.table.push (.list l) }
  have hgrown : Widened t.heap t₁.heap :=
    ((grown_newList t.heap []).trans (.of_same (lists_hold _ _) (dicts_hold _ _))).widened
      (natives_hold _ _)
  have hfresh : Fresh h t₁.heap (.list l) :=
    ⟨hr.ext.grown.lists, by simp [t₁, l, newList]⟩
  have hext : Extends scope h t₁.heap :=
    ⟨hr.ext.grown.trans hgrown, fun d hd => by
      simpa [t₁, Heap.cell, newList] using hr.ext.untagged d hd, fun d q hd hq =>
      hr.ext.parents d q hd (by simpa [t₁, Heap.cell, newList] using hq)⟩
  have hready : Ready h scope t₁ (o ++ [x]) (p ++ [x.map fun _ => .list l]) :=
    hr.register rfl hgrown hext (.inl hfresh) fun r hr => by
      obtain ⟨m, rfl⟩ := hx r hr
      exact .list m l
  obtain ⟨ws, t', p', hrun, hdone, hitems, hshow⟩ :=
    hvs fuel inert t₁ _ rest l (by omega) hready rfl hfresh
  have hempty : t₁.heap.items l = [] :=
    (items_congr (lists_hold _ _)).trans (items_newList_self t.heap [])
  have hnew : ¬ t.heap.Allocated (.list l) := Nat.lt_irrefl _
  refine ⟨l, ws, t', p', ?_, ⟨hdone.rest, hdone.ready, .of_newer hnew hgrown hdone.grown⟩, ?_, ?_,
    fun k hk hs => ⟨?_, ?_⟩⟩
  · rw [Thaw.value]
    refine (Thaw.gives_next hrest).bind ?_
    refine (Thaw.gives_create _ _).bind ?_
    refine (Thaw.gives_register _ _).discard.bind ?_
    exact hrun.bind (Thaw.gives_pure _ _)
  · simpa [hempty] using hitems
  · intro hmem
    cases hr.known _ hmem with
    | inl hold => exact hnew hold.2
    | inr hroot =>
      obtain ⟨d, hd, -⟩ := hroot
      cases hd
  · have hlt : l.index < t'.heap.lists.size := hfresh.2.trans_le hdone.grown.lists
    rw [hs.items l (le_refl _) hlt, hitems, hempty, List.nil_append]
  · exact hshow k hk (hs.last hgrown)

theorem get_holds {d : DictId} {n : String} (hn : Key.of n = .slot n)
    (hd : (k.cell d).target = none) :
    k.holds d n = ((k.cell d).slots.toList.lookup n).isSome ∧
      k.get d n = ((k.cell d).slots.toList.lookup n).getD .nil := by
  simp [holds, get, hn, slots, owner, hd]

theorem define_slot {d : DictId} {n : String} {v : Value} (hn : Key.of n = .slot n) :
    k.define d n v = (.ok (), k.put d n v) := by
  simp [define, hn]

def openDict (t : Thawer) (parent : Option DictId) (rest : List Token) : Thawer :=
  { heap := (t.heap.newDict { parent := parent }).1.hold (.dict ⟨t.heap.dicts.size⟩), rest := rest,
    table := t.table.push (.dict ⟨t.heap.dicts.size⟩) }

section
variable {parent : Option DictId}

theorem cell_openDict (d : DictId) : (openDict t parent rest).heap.cell d =
    if d.index = t.heap.dicts.size then { parent := parent } else t.heap.cell d := by
  rw [← cell_newDict, openDict]
  exact cell_congr (dicts_hold _ _)

theorem grown_openDict : Widened t.heap (openDict t parent rest).heap :=
  ((grown_newDict t.heap _).trans (.of_same (lists_hold _ _) (dicts_hold _ _))).widened
    (natives_hold _ _)

theorem Ready.openDict {inert : Bool} (hr : Ready h scope t o p) :
    Extends scope h (Heap.openDict t (if inert then none else scope) rest).heap ∧
      Fresh h (Heap.openDict t (if inert then none else scope) rest).heap
        (.dict ⟨t.heap.dicts.size⟩) := by
  refine ⟨⟨hr.ext.grown.trans grown_openDict, fun d hd => ?_, fun d q hd hq => ?_⟩,
    hr.ext.grown.dicts, ?_⟩
  · rw [cell_openDict]
    split
    · exact ⟨rfl, rfl⟩
    · exact hr.ext.untagged d hd
  · rw [cell_openDict] at hq
    split at hq
    · cases inert with
      | true => cases hq
      | false => exact hq
    · exact hr.ext.parents d q hd hq
  · simp [Heap.openDict, newDict]

end

/-- An opening brace makes a new dictionary, which is filled with the slots. -/
theorem reads_open {xs : List (String × Value)}
    (hxs : Reads h registry scope (o ++ [x]) (.slots xs) ts o')
    (hx : ∀ r, x = some r → ∃ d, r = .dict d)
    (hordinary : ∀ n ∈ xs.map Prod.fst, Key.of n = .slot n)
    (hnodup : (xs.map Prod.fst).Nodup) (fuel : Nat) (inert : Bool)
    (hfuel : 2 * (ts.length + 2) ≤ fuel) (hr : Ready h scope t o p)
    (hrest : t.rest = .mark .dictOpen :: (ts ++ .mark .dictClose :: rest)) :
    ∃ e ys t' p', (∀ w t'', Thaw.Gives (Thaw.finishDict registry scope t.table.size e) t' w t'' →
        Thaw.Gives (Thaw.value registry scope fuel inert) t w t'') ∧
      Done h scope t t' o' p' none rest ∧ Fresh h t'.heap (.dict e) ∧ some (.dict e) ∉ p ∧
      ys.map Prod.fst = xs.map Prod.fst ∧ (t'.heap.cell e).slots.toList = ys ∧
      ∀ k, Extends scope h k → Settled t.heap t'.heap k → k.cell e = t'.heap.cell e ∧
        k.Shows Thawed Unmarked scope (p ++ [x.map fun _ => .dict e]) (.slots ys) ts p' := by
  obtain ⟨fuel, rfl⟩ : ∃ f, fuel = f + 1 := ⟨fuel - 1, by omega⟩
  let e : DictId := ⟨t.heap.dicts.size⟩
  let t₁ := openDict t (if inert then none else scope) (ts ++ .mark .dictClose :: rest)
  have hgrown : Widened t.heap t₁.heap := grown_openDict
  obtain ⟨hext, hfresh⟩ : Extends scope h t₁.heap ∧ Fresh h t₁.heap (.dict e) := hr.openDict
  have hready : Ready h scope t₁ (o ++ [x]) (p ++ [x.map fun _ => .dict e]) :=
    hr.register rfl hgrown hext (.inl hfresh) fun r hr => by
      obtain ⟨d, rfl⟩ := hx r hr
      exact .dict d e
  have hempty : (t₁.heap.cell e).slots.toList = [] := by
    rw [cell_openDict, if_pos rfl]
    rfl
  obtain ⟨ys, t', p', hrun, hdone, hnames, hslots, hshow⟩ :=
    hxs fuel inert t₁ _ rest e (by omega) hready rfl hfresh hordinary
      (by simpa [hempty] using hnodup)
  have hnew : ¬ t.heap.Allocated (.dict e) := Nat.lt_irrefl _
  refine ⟨e, ys, t', p', fun w t'' hfinish => ?_,
    ⟨hdone.rest, hdone.ready, .of_newer hnew hgrown hdone.grown⟩, hfresh.mono hdone.grown, ?_,
    hnames, by simpa [hempty] using hslots, fun k hk hs => ⟨?_, ?_⟩⟩
  · rw [Thaw.value]
    refine (Thaw.gives_next hrest).bind ?_
    refine (Thaw.gives_create _ _).bind ?_
    refine (Thaw.gives_register _ _).bind ?_
    exact hrun.bind hfinish
  · intro hmem
    cases hr.known _ hmem with
    | inl hold => exact hnew hold.2
    | inr hroot =>
      obtain ⟨d, hd, hroot, -⟩ := hroot
      cases hd
      exact absurd hr.ext.grown.dicts (Nat.not_le.mpr hroot.allocated)
  · exact hs.cell e (le_refl _) (hfresh.2.trans_le hdone.grown.dicts)
  · exact hshow k hk (hs.last hgrown)

/-- Without a tag a dictionary stands for itself. -/
theorem reads_dict {d : DictId} (hh : h.WellFormed)
    (hname : tagKey ∉ (h.entries (h.owner d)).map Prod.fst)
    (hxs : Reads h registry scope (o ++ [some (.dict (h.owner d))])
      (.slots (h.entries (h.owner d))) ts o')
    (htag : (h.cell (h.owner d)).tag = none) :
    Reads h registry scope o (.one (.dict d)) (.mark .dictOpen :: (ts ++ [.mark .dictClose]))
      o' := by
  intro fuel inert t p rest hfuel hr hrest
  rw [List.cons_append, List.append_assoc] at hrest
  have hentries : h.entries (h.owner d) = h.slots d := by simp [entries, htag, slots]
  obtain ⟨e, ys, t', p', hrun, hdone, hfresh, he, hnames, hslots, hshow⟩ :=
    reads_open hxs (by simp) (hentries ▸ hh.ordinary d) (hentries ▸ h.names_nodup d) fuel inert
      (by simpa using hfuel) hr hrest
  have huntagged := hdone.ready.ext.untagged e hfresh.1
  have hholds : t'.heap.holds e tagKey = false := by
    rw [(get_holds (by decide) huntagged.1).1, hslots, Bool.eq_false_iff, ne_eq,
      lookup_isSome_iff, hnames]
    exact hname
  refine ⟨.dict e, t', p', hrun _ _ (Thaw.gives_finishDict hholds), hdone, fun _ => ⟨e, rfl⟩,
    fun k hk hs => ?_⟩
  obtain ⟨hcell, hys⟩ := hshow k hk hs
  have howner : k.owner e = e := by rw [owner, hcell, huntagged.1]; rfl
  have hentries : k.entries (k.owner e) = ys := by
    rw [howner, entries, hcell, huntagged.2]
    exact hslots
  refine .dict ?_ ?_ ?_ ?_
  · rw [howner]
    exact he
  · rw [howner, hcell, huntagged.2]
  · rw [hentries, hnames]
    exact hname
  · rw [hentries, howner]
    exact hys

def makeObject (t : Thawer) (number : Nat) (e : DictId) (made : Native) : Thawer :=
  { t with
    table := t.table.set! number (.native ⟨t.heap.natives.size⟩)
    heap := ((t.heap.newNative made).1.letGo e).hold (.native ⟨t.heap.natives.size⟩) }

section
variable {number : Nat} {e : DictId} {made : Native}

theorem natives_makeObject :
    (makeObject t number e made).heap.natives = t.heap.natives.push made := by
  simp [makeObject, newNative]

theorem widened_makeObject : Widened t.heap (makeObject t number e made).heap := by
  refine .of_same ?_ ?_ (by simp [natives_makeObject])
  · simp [makeObject, newNative]
  · simp [makeObject, newNative]

theorem native?_makeObject :
    (makeObject t number e made).heap.native? ⟨t.heap.natives.size⟩ = some made := by
  simp [native?, natives_makeObject]

theorem Extends.makeObject (ht : Extends scope h t.heap) :
    Extends scope h (Heap.makeObject t number e made).heap := by
  refine .of_same (a := t.heap) ?_ ?_ widened_makeObject.natives ht
  · simp [Heap.makeObject, newNative]
  · simp [Heap.makeObject, newNative]

/-- The object takes the place that was left empty for it. -/
theorem Ready.makeObject {n : NativeId} {tag : String} {record record' : List (String × Value)}
    {u u' : Numbering} (hr : Ready h scope t (o ++ none :: u) (p ++ none :: u'))
    (hlen : p.length = o.length) (hn : h.HostObject n tag record)
    (hmade : made = .object tag (some record')) :
    Ready h scope (Heap.makeObject t o.length e made) (o ++ some (.native n) :: u)
      (p ++ some (.native ⟨t.heap.natives.size⟩) :: u') where
  ext := hr.ext.makeObject
  size := by simpa [Heap.makeObject] using hr.size
  length := by simpa using hr.length
  entry j r hj := by
    rw [show (Heap.makeObject t o.length e made).table = t.table.set! o.length _ from rfl,
      Array.set!_eq_setIfInBounds]
    cases Numbering.getElem?_fill.mp hj with
    | inl hj =>
      obtain ⟨q, hp, ht, hk⟩ := hr.entry j r hj
      have hne : o.length ≠ j := fun heq => Numbering.getElem?_gap (heq ▸ hj)
      refine ⟨q, Numbering.getElem?_fill.mpr (.inl hp), ?_, hk.mono widened_makeObject⟩
      rw [Array.getElem?_setIfInBounds_ne hne, ht]
    | inr hj =>
      obtain ⟨rfl, rfl⟩ := hj
      have hlt : o.length < t.table.size := by simp [hr.size]
      refine ⟨_, Numbering.getElem?_fill.mpr (.inr ⟨hlen.symm, rfl⟩), ?_,
        .native hn.native (native?_makeObject.trans (congrArg some hmade))⟩
      rw [Array.getElem?_setIfInBounds_self_of_lt hlt]
      rfl
  known q hq := by
    obtain ⟨j, hj⟩ := List.getElem?_of_mem hq
    cases Numbering.getElem?_fill.mp hj with
    | inl hj =>
      cases hr.known q (List.mem_of_getElem? hj) with
      | inl hnew => exact .inl (hnew.mono widened_makeObject)
      | inr hroot =>
        obtain ⟨d, hqd, hroot, hd⟩ := hroot
        obtain ⟨i, hi⟩ := List.getElem?_of_mem hd
        exact .inr ⟨d, hqd, hroot, List.mem_of_getElem? (Numbering.getElem?_fill.mpr (.inl hi))⟩
    | inr hj =>
      obtain ⟨-, rfl⟩ := hj
      exact .inl ⟨hr.ext.grown.natives_size, by simp [natives_makeObject]⟩

end

/-- What was read is built like what the stream was written for. -/
theorem Ready.alike {xs ys : List (String × Value)}
    (hN : ∀ x n, N x n → (x == n.toFloat) = true) (hr : Ready h scope t o' p')
    (hlen : o.length = p.length) (hshow : h.Shows N Unmarked scope o (.slots xs) ts o')
    (hread : t.heap.Shows Thawed Unmarked scope p (.slots ys) ts p') :
    Alike (SameKind h t.heap) h t.heap (.slots xs) (.slots ys) := by
  have hway : ReadOneWay h t.heap Thawed Unmarked scope o (.slots xs) ts o' :=
    hshow.readOneWay (fun x y n hx hy => hy ▸ hN x n hx) fun _ _ => id
  obtain ⟨-, hm⟩ := hway.bindings hread hlen
    (rfl : ts ++ [.mark .dictClose] = ts ++ [.mark .dictClose])
  refine hm.alike.mono ?_
  rintro r s ⟨j, hj, hs⟩
  obtain ⟨q, hq, -, hkind⟩ := hr.entry j r hj
  obtain rfl : s = q := by simpa [hq] using hs.symm
  exact hkind

/-- The defroster of the tag makes a new object of a dictionary that is built like the record, and
the object freezes to what the dictionary holds. -/
def Restores (h : Heap) (registry : Registry) (scope : Option DictId) (tag : String)
    (record : List (String × Value)) : Prop :=
  ∃ f, registry.lookup tag = some f ∧ ∀ k d record',
    Alike (SameKind h k) h k (.slots record) (.slots record') → k.slots d = tagged tag record' →
    f k d scope = (.ok (.native (k.newNative (.object tag (some record'))).2),
      (k.newNative (.object tag (some record'))).1)

theorem names_tagged {tag : String} {record : List (String × Value)} :
    (tagged tag record).map Prod.fst = record.map Prod.fst ++ [tagKey] := by
  simp [tagged]

theorem HostObject.ordinary_tagged {n : NativeId} {tag : String} {record : List (String × Value)}
    (hn : h.HostObject n tag record) :
    ∀ m ∈ (tagged tag record).map Prod.fst, Key.of m = .slot m := by
  rw [names_tagged, List.forall_mem_append, List.forall_mem_singleton]
  exact ⟨hn.ordinary, by decide⟩

theorem HostObject.nodup_tagged {n : NativeId} {tag : String} {record : List (String × Value)}
    (hn : h.HostObject n tag record) : ((tagged tag record).map Prod.fst).Nodup := by
  rw [names_tagged, List.nodup_append]
  refine ⟨hn.nodup, List.nodup_singleton _, fun a ha b hb heq => hn.untagged ?_⟩
  rwa [← List.mem_singleton.mp hb, ← heq]

theorem lookup_tagged {tag : String} {record : List (String × Value)}
    (hrecord : tagKey ∉ record.map Prod.fst) :
    (tagged tag record).lookup tagKey = some (.str tag) := by
  have hnone : record.lookup tagKey = none :=
    Option.not_isSome_iff_eq_none.mp fun hsome => hrecord (lookup_isSome_iff.mp hsome)
  rw [tagged, List.lookup_append, hnone]
  rfl

/-- References in the record are read before the object is made, and they are read as other objects.
Once the record is closed, the object takes its place. -/
theorem reads_native {n : NativeId} {tag : String} {record : List (String × Value)} {u : Numbering}
    (hN : ∀ x n, N x n → (x == n.toFloat) = true) (hn : h.HostObject n tag record)
    (hrestores : h.Restores registry scope tag record)
    (hshow : h.Shows N Unmarked scope (o ++ [none]) (.slots (tagged tag record)) ts
      (o ++ none :: u))
    (hxs : Reads h registry scope (o ++ [none]) (.slots (tagged tag record)) ts (o ++ none :: u)) :
    Reads h registry scope o (.one (.native n)) (.mark .dictOpen :: (ts ++ [.mark .dictClose]))
      (o ++ some (.native n) :: u) := by
  intro fuel inert t p rest hfuel hr hrest
  rw [List.cons_append, List.append_assoc] at hrest
  obtain ⟨e, ys, t₁, p₁, hrun, hdone, hfresh, -, -, hslots, hshow₁⟩ :=
    reads_open hxs (by simp) hn.ordinary_tagged hn.nodup_tagged fuel inert (by simpa using hfuel)
      hr hrest
  have hready := hdone.ready
  have hread := (hshow₁ _ hready.ext (.self _ _)).2
  -- the dictionary is built like the record, so the defroster makes an object of it
  obtain ⟨record', rfl, halike⟩ :=
    (hready.alike hN (by simp [hr.length]) hshow hread).of_tagged
  have hrecord : record'.map Prod.fst = record.map Prod.fst := halike.names_eq.symm
  have huntagged : tagKey ∉ record'.map Prod.fst := hrecord ▸ hn.untagged
  have htarget := (hready.ext.untagged e hfresh.1).1
  have howner : t₁.heap.owner e = e := by rw [owner, htarget]; rfl
  obtain ⟨hholds, hget⟩ := get_holds (n := tagKey) (by decide) htarget
  rw [hslots, lookup_tagged huntagged] at hholds hget
  obtain ⟨f, hf, hmake⟩ := hrestores
  have hdefrost := hmake t₁.heap e record' halike (by rw [slots, howner, hslots])
  -- which takes the place that was left empty
  obtain ⟨u', rfl⟩ := hread.grows
  simp only [Option.map_none, List.append_assoc, List.singleton_append] at hready hshow₁
  let t₂ := makeObject t₁ o.length e (.object tag (some record'))
  have hgrown : Widened t₁.heap t₂.heap := widened_makeObject
  refine ⟨.native ⟨t₁.heap.natives.size⟩, t₂, _, hrun _ _ ?_,
    ⟨hdone.rest, hready.makeObject hr.length hn rfl,
      (hdone.grown : Widened t.heap _).trans hgrown⟩, by simp, fun k hk hs => ?_⟩
  · rw [hr.size]
    refine Thaw.gives_finishDict_tagged hholds hget ?_
    simp only [Registry.defrost, hf]
    exact hdefrost
  · refine .native ⟨native?_mono hs.natives native?_makeObject, hrecord ▸ hn.ordinary,
      hrecord ▸ hn.nodup, huntagged, hn.ne_root⟩ (by simp [Unmarked, tagged]) (fun hmem => ?_)
      (hshow₁ k hk (hs.before hgrown)).2
    cases hready.known _ hmem with
    | inl hold => exact absurd hold.2 (Nat.lt_irrefl _)
    | inr hroot =>
      obtain ⟨d, hd, -⟩ := hroot
      cases hd

theorem IsRoot.owner {d : DictId} (hd : h.IsRoot scope d) (hk : Extends scope h k) :
    k.owner d = d := by
  rw [Heap.owner, hd.cell hk]
  exact hd.2.2

/-- The record of the root environment is thawed to the scope, which takes its place in the table. -/
theorem reads_root {d : DictId} (hreg : registry.lookup rootTag = some Registry.defrostRoot)
    (hroot : h.IsRoot scope (h.owner d)) (hnew : some (.dict (h.owner d)) ∉ o) :
    Reads h registry scope o (.one (.dict d))
      [.mark .dictOpen, .str tagKey, .str rootTag, .mark .dictClose]
      (o ++ [some (.dict (h.owner d))]) := by
  intro fuel inert t p rest hfuel hr hrest
  have hfuel : 8 ≤ fuel := hfuel
  obtain ⟨fuel, rfl⟩ : ∃ f, fuel = f + 3 := ⟨fuel - 3, by omega⟩
  let e : DictId := ⟨t.heap.dicts.size⟩
  let t₁ := openDict t (if inert then none else scope)
    (.str tagKey :: .str rootTag :: .mark .dictClose :: rest)
  have hkey : Key.of tagKey = .slot tagKey := by decide
  obtain ⟨hext, hfresh⟩ : Extends scope h t₁.heap ∧ Fresh h t₁.heap (.dict e) := hr.openDict
  have hcell : t₁.heap.cell e = { parent := if inert then none else scope } := by
    rw [cell_openDict, if_pos rfl]
  obtain ⟨hext₂, hfilled, hput⟩ := hext.put (n := tagKey) (v := .str rootTag) hfresh
  let a := t₁.heap.put e tagKey (.str rootTag)
  have hslots : (a.cell e).slots.toList = [(tagKey, .str rootTag)] := by
    rw [hput, hcell]
    rfl
  obtain ⟨hholds, hget⟩ := get_holds hkey (hext₂.untagged e hfresh.1).1
  rw [hslots] at hholds hget
  let t' : Thawer :=
    { heap := (a.letGo e).hold (.dict (h.owner d)), rest := rest,
      table := t₁.table.set! t.table.size (.dict (h.owner d)) }
  have hlists : t'.heap.lists = a.lists := by simp [t']
  have hdicts : t'.heap.dicts = a.dicts := by simp [t']
  have hnatives : a.natives.toList <+: t'.heap.natives.toList := by simp [t']
  have hext' : Extends scope h t'.heap := hext₂.of_same hlists hdicts hnatives
  have hgrown : Widened t.heap t'.heap :=
    .of_newer (Nat.lt_irrefl _) grown_openDict (hfilled.trans (.of_same hlists hdicts hnatives))
  have htable : t'.table = t.table.push (.dict (h.owner d)) := by
    simp [← Array.toList_inj, t', t₁, openDict]
  have hready : Ready h scope t' (o ++ [some (.dict (h.owner d))])
      (p ++ [some (.dict (h.owner d))]) :=
    hr.register (x := some _) (q := .dict (h.owner d)) htable hgrown hext'
      (.inr ⟨_, rfl, hroot, rfl⟩) fun r hr => by
        cases hr
        exact .dict _ _
  refine ⟨.dict (h.owner d), t', _, ?_, ⟨rfl, hready, hgrown⟩, fun _ => ⟨_, rfl⟩, fun k hk _ => ?_⟩
  · rw [Thaw.value]
    refine (Thaw.gives_next hrest).bind ?_
    refine (Thaw.gives_create _ _).bind ?_
    refine (Thaw.gives_register _ _).bind ?_
    have hentries : Thaw.Gives (Thaw.entries registry scope (fuel + 2) inert e) t₁ ()
        { t₁ with heap := a, rest := rest } := by
      rw [Thaw.entries]
      refine (Thaw.gives_close_false rfl (by simp)).bind ?_
      refine (Thaw.gives_next rfl).bind ?_
      rw [Thaw.value]
      refine Thaw.Gives.bind ((Thaw.gives_next rfl).bind (Thaw.gives_pure _ _)) ?_
      refine (Thaw.gives_onHeap (define_slot hkey)).bind ?_
      rw [Thaw.entries]
      exact (Thaw.gives_close rfl).bind (Thaw.gives_pure _ _)
    refine hentries.bind ?_
    refine Thaw.gives_finishDict_tagged hholds hget ?_
    simp [Registry.defrost, hreg, Registry.defrostRoot, hroot.1]
  · have howner : k.owner (h.owner d) = h.owner d := hroot.owner hk
    have hshow := @Shows.root k Thawed Unmarked scope p (h.owner d)
    rw [howner] at hshow
    refine hshow (fun hmem => ?_) ?_ hroot.1
    · cases hr.known _ hmem with
      | inl hold => exact absurd hroot.allocated hold.not_allocated
      | inr hold =>
        obtain ⟨d', hd, -, hmem⟩ := hold
        cases hd
        exact hnew hmem
    · rw [hroot.cell hk]
      exact hroot.2.1

/-- Holding more or less changes nothing that the thaw has made. -/
theorem Ready.same (hr : Ready h scope t o p) (htable : t'.table = t.table)
    (hl : t'.heap.lists = t.heap.lists) (hd : t'.heap.dicts = t.heap.dicts)
    (hn : t'.heap.natives = t.heap.natives) : Ready h scope t' o p :=
  have hnatives : t.heap.natives.toList <+: t'.heap.natives.toList := hn ▸ List.prefix_rfl
  hr.mono htable (.of_same (x := none) hl hd hnatives) (hr.ext.of_same hl hd hnatives)

/-- Reading a token alone makes nothing. -/
theorem Ready.pass (hr : Ready h scope t o p) (rest : List Token) :
    Done h scope t { t with rest := rest } o p y rest :=
  ⟨rfl, hr.same rfl rfl rfl rfl, .of_same rfl rfl List.prefix_rfl⟩

theorem reads_block {b : Block} {ps es bs : List Token} {o₁ o₂ o₃ : Numbering}
    (hshow : h.Shows N Unmarked scope (o ++ [none]) (.all (b.params.map .sym)) ps o₁)
    (hps : Reads h registry scope (o ++ [none]) (.all (b.params.map .sym)) ps o₁)
    (hes : Reads h registry scope o₁ (.one (.dict b.env)) es o₂)
    (hbs : Reads h registry scope (o₂ ++ [none]) (.all b.body) bs o₃) :
    Reads h registry scope o (.one (.block b))
      (Token.mark .blockOpen :: blockNameToken b.name :: Token.mark .listOpen ::
        (ps ++ Token.mark .listClose :: (es ++ Token.mark .listOpen ::
          (bs ++ [Token.mark .listClose, Token.mark .blockClose])))) o₃ := by
  intro fuel inert t p rest hfuel hr hrest
  simp only [List.length_cons, List.length_append, List.length_nil] at hfuel
  obtain ⟨fuel, rfl⟩ : ∃ f, fuel = f + 1 := ⟨fuel - 1, by omega⟩
  simp only [List.cons_append, List.append_assoc, List.nil_append] at hrest
  obtain rfl := hshow.tokens_of_syms
  -- the parameters
  let t₀ : Thawer := { t with rest := .mark .listOpen :: (b.params.map .sym ++ .mark .listClose ::
    (es ++ .mark .listOpen :: (bs ++ .mark .listClose :: .mark .blockClose :: rest))) }
  have hr₀ : Ready h scope t₀ o p := hr.same rfl rfl rfl rfl
  obtain ⟨l, ws, t₁, p₁, hrun₁, hdone₁, hitems₁, -, hshow₁⟩ :=
    reads_list hps (by simp) fuel inert (by omega) hr₀ rfl
  -- the environment
  obtain ⟨w, t₂, p₂, hrun₂, hdone₂, hdict, hshow₂⟩ :=
    hes fuel inert t₁ p₁ _ (by omega) hdone₁.ready hdone₁.rest
  obtain ⟨e, rfl⟩ := hdict ⟨_, rfl⟩
  let t₃ : Thawer := { t₂ with heap := t₂.heap.hold (.dict e) }
  have hr₃ : Ready h scope t₃ o₂ p₂ :=
    hdone₂.ready.same rfl (by simp [t₃]) (by simp [t₃]) (by simp [t₃])
  have hgrown₃ : Widened t₂.heap t₃.heap := .of_same (by simp [t₃]) (by simp [t₃]) (by simp [t₃])
  -- the body
  obtain ⟨m, vs, t₄, p₄, hrun₄, hdone₄, hitems₄, -, hshow₄⟩ :=
    reads_list hbs (by simp) fuel inert (by omega) hr₃ hdone₂.rest
  let t₅ : Thawer := { t₄ with heap := t₄.heap.letGo e, rest := rest }
  let c : Block :=
    { id := 0, name := b.name, params := b.params, body := vs, env := e, receiver := none }
  let t₆ : Thawer := { t₅ with heap := (t₅.heap.newBlock c).1 }
  have hr₆ : Ready h scope t₆ o₃ p₄ :=
    hdone₄.ready.same rfl (by simp [t₆, t₅, newBlock]) (by simp [t₆, t₅, newBlock])
      (by simp [t₆, t₅, newBlock])
  have hgrown₆ : Widened t₄.heap t₆.heap :=
    .of_same (by simp [t₆, t₅, newBlock]) (by simp [t₆, t₅, newBlock])
      (by simp [t₆, t₅, newBlock])
  have hgrown₄ : Widened t₂.heap t₆.heap := hgrown₃.trans (hdone₄.grown.trans hgrown₆)
  have hparams : ws = b.params.map .sym :=
    (hshow₁ _ hdone₁.ready.ext (.self _ _)).2.syms_of_tokens
  refine ⟨(t₅.heap.newBlock c).2, t₆, p₄, ?_, ⟨rfl, hr₆, ?_⟩, by simp, fun k hk hs => ?_⟩
  · rw [Thaw.value]
    refine (Thaw.gives_next hrest).bind ?_
    refine (Thaw.gives_blockName rfl).bind ?_
    refine hrun₁.bind ?_
    refine (Thaw.gives_paramNames (hitems₁.trans hparams)).bind ?_
    refine hrun₂.bind ?_
    refine (Thaw.gives_blockEnv _ _ _).bind ?_
    refine (Thaw.gives_change _ _).bind ?_
    refine hrun₄.bind ?_
    refine (Thaw.gives_blockBody hitems₄).bind ?_
    refine (Thaw.gives_change _ _).bind ?_
    refine (Thaw.gives_close (t := { t₄ with heap := t₄.heap.letGo e }) hdone₄.rest).bind ?_
    rw [if_pos rfl]
    exact Thaw.gives_create _ _
  · exact (hdone₁.grown : Widened t.heap _).trans (hdone₂.grown.trans hgrown₄)
  · have hs₂ := hs.before hgrown₄
    refine .block ?_ (hshow₂ k hk (hs₂.last hdone₁.grown)) ?_
    · exact hparams ▸ (hshow₁ k hk (hs₂.before hdone₂.grown)).2
    · have hs₄ := hs.before hgrown₆
      have hgrown₅ : Widened t.heap t₃.heap := hdone₁.grown.trans (hdone₂.grown.trans hgrown₃)
      exact (hshow₄ k hk (hs₄.last hgrown₅)).2

/-- The items are read one after the other into the list. -/
theorem reads_item {v : Value} {vs : List Value} {us : List Token} {o₁ o₂ : Numbering}
    (hshow : h.Shows N Unmarked scope o (.one v) ts o₁)
    (hv : Reads h registry scope o (.one v) ts o₁)
    (hvs : Reads h registry scope o₁ (.all vs) us o₂) :
    Reads h registry scope o (.all (v :: vs)) (ts ++ us) o₂ := by
  intro fuel inert t p rest l hfuel hr hrest hl
  rw [List.append_assoc] at hrest
  rw [List.length_append] at hfuel
  obtain ⟨fuel, rfl⟩ : ∃ f, fuel = f + 1 := ⟨fuel - 1, by omega⟩
  obtain ⟨tok, toks, rfl, htok⟩ := hshow.ne_close
  obtain ⟨w, t₁, p₁, hrun₁, hdone₁, -, hshow₁⟩ := hv fuel inert t p _ (by omega) hr hrest
  have hl₁ := hl.mono hdone₁.grown
  let t₂ : Thawer := { t₁ with heap := t₁.heap.pushItem l w }
  have hgrown₂ : WidenedBut (some (.list l)) t₁.heap t₂.heap :=
    (grownBut_pushItem hl₁.2).widened rfl
  have hr₂ : Ready h scope t₂ o₁ p₁ := by
    refine hdone₁.ready.mono rfl hgrown₂
      ⟨?_, hdone₁.ready.ext.untagged, hdone₁.ready.ext.parents⟩
    exact .of_newer hl₁.not_allocated hdone₁.ready.ext.grown hgrown₂
  have hl₂ := hl₁.mono hgrown₂
  simp only [List.length_cons] at hfuel
  obtain ⟨ws, t₃, p₃, hrun₃, hdone₃, hitems, hshow₃⟩ :=
    hvs fuel inert t₂ p₁ rest l (by omega) hr₂ hdone₁.rest hl₂
  have hgrown₁ : WidenedBut (some (.list l)) t.heap t₁.heap := hdone₁.grown.but
  refine ⟨w :: ws, t₃, p₃, ?_,
    ⟨hdone₃.rest, hdone₃.ready, hgrown₁.trans (hgrown₂.trans hdone₃.grown)⟩, ?_, fun k hk hs => ?_⟩
  · rw [Thaw.items]
    refine (Thaw.gives_close_false hrest htok).bind ?_
    refine hrun₁.bind ?_
    exact (Thaw.gives_change _ _).bind hrun₃
  · rw [hitems, items_pushItem hl₁.2, if_pos rfl, hdone₁.grown.items l hl.2 (by simp)]
    simp
  · refine .item (hshow₁ k hk ?_) (hshow₃ k hk (hs.last (hgrown₁.trans hgrown₂)))
    · refine hs.first ?_ (hgrown₂.trans hdone₃.grown)
      intro r hr
      cases hr
      exact .inl hl.2

/-- The slots are read one after the other into the dictionary, which holds none of them yet. -/
theorem reads_slot {n : String} {v : Value} {xs : List (String × Value)} {us : List Token}
    {o₁ o₂ : Numbering} (hv : Reads h registry scope o (.one v) ts o₁)
    (hxs : Reads h registry scope o₁ (.slots xs) us o₂) :
    Reads h registry scope o (.slots ((n, v) :: xs)) (.str n :: (ts ++ us)) o₂ := by
  intro fuel inert t p rest d hfuel hr hrest hd hordinary hnodup
  rw [List.cons_append, List.append_assoc] at hrest
  rw [List.length_cons, List.length_append] at hfuel
  obtain ⟨fuel, rfl⟩ : ∃ f, fuel = f + 1 := ⟨fuel - 1, by omega⟩
  let t₀ : Thawer := { t with rest := ts ++ (us ++ .mark .dictClose :: rest) }
  have hr₀ : Ready h scope t₀ o p := hr.same rfl rfl rfl rfl
  obtain ⟨w, t₁, p₁, hrun₁, hdone₁, -, hshow₁⟩ := hv fuel inert t₀ p _ (by omega) hr₀ rfl
  have hd₁ := hd.mono hdone₁.grown
  obtain ⟨hext₂, hgrown₂, hcell⟩ := hdone₁.ready.ext.put (n := n) (v := w) hd₁
  let t₂ : Thawer := { t₁ with heap := t₁.heap.put d n w }
  have hr₂ : Ready h scope t₂ o₁ p₁ := hdone₁.ready.mono rfl hgrown₂ hext₂
  have hd₂ := hd₁.mono hgrown₂
  have hsame : t₁.heap.cell d = t.heap.cell d := hdone₁.grown.cell d hd.2 (by simp)
  have hslots : (t₂.heap.cell d).slots.toList = (t.heap.cell d).slots.toList ++ [(n, w)] := by
    have hn : n ∉ (t.heap.cell d).slots.toList.map Prod.fst := fun hn =>
      (List.nodup_append.mp hnodup).2.2 n hn n List.mem_cons_self rfl
    rw [show t₂.heap.cell d = _ from hcell, hsame]
    exact putSlot_of_not_mem hn
  obtain ⟨ys, t₃, p₃, hrun₃, hdone₃, hnames, hys, hshow₃⟩ :=
    hxs fuel inert t₂ p₁ rest d (by omega) hr₂ hdone₁.rest hd₂
      (fun m hm => hordinary m (List.mem_cons_of_mem _ hm)) (by rw [hslots]; simpa using hnodup)
  have hgrown₁ : WidenedBut (some (.dict d)) t.heap t₁.heap := hdone₁.grown.but
  refine ⟨(n, w) :: ys, t₃, p₃, ?_,
    ⟨hdone₃.rest, hdone₃.ready, hgrown₁.trans (hgrown₂.trans hdone₃.grown)⟩, ?_, ?_,
    fun k hk hs => ?_⟩
  · rw [Thaw.entries]
    refine (Thaw.gives_close_false hrest (by simp)).bind ?_
    refine (Thaw.gives_next hrest).bind ?_
    refine hrun₁.bind ?_
    exact (Thaw.gives_onHeap (define_slot (hordinary n List.mem_cons_self))).bind hrun₃
  · simp [hnames]
  · rw [hys, hslots]
    simp
  · refine .slot (hshow₁ k hk ?_) (hshow₃ k hk (hs.last (hgrown₁.trans hgrown₂)))
    · refine hs.first ?_ (hgrown₂.trans hdone₃.grown)
      intro r hr
      cases hr
      exact .inl hd.2

theorem reads_leaf {v w : Value} {tok : Token} (hv : ∀ d, v ≠ .dict d)
    (hw : ∀ k p, Heap.Shows k Thawed Unmarked scope p (.one w) [tok] p)
    (hrun : ∀ fuel inert (t : Thawer) rest, t.rest = tok :: rest →
      Thaw.Gives (Thaw.value registry scope (fuel + 1) inert) t w { t with rest := rest }) :
    Reads h registry scope o (.one v) [tok] o := by
  intro fuel inert t p rest hfuel hr hrest
  have hfuel : 2 ≤ fuel := hfuel
  obtain ⟨fuel, rfl⟩ : ∃ f, fuel = f + 1 := ⟨fuel - 1, by omega⟩
  refine ⟨w, _, p, hrun fuel inert t rest hrest, hr.pass rest, ?_, fun k _ _ => hw k p⟩
  rintro ⟨d, hd⟩
  exact (hv d hd).elim

/-- A reference is read as the counterpart of the object. -/
theorem reads_met {v : Value} {j : Nat} (hv : h.object? v = some r)
    (ho : o[j]? = some (some r)) : Reads h registry scope o (.one v) [.ref (toString j)] o := by
  intro fuel inert t p rest hfuel hr hrest
  have hfuel : 2 ≤ fuel := hfuel
  obtain ⟨fuel, rfl⟩ : ∃ f, fuel = f + 1 := ⟨fuel - 1, by omega⟩
  obtain ⟨q, hq, htable, hkind⟩ := hr.entry j r ho
  refine ⟨q.toValue, { t with rest := rest }, p, ?_, hr.pass rest, ?_, fun k hk _ => ?_⟩
  · rw [Thaw.value]
    exact (Thaw.gives_next hrest).bind (Thaw.gives_reference (readIndex?_toString j) htable)
  · rintro ⟨d, rfl⟩
    cases hv
    cases hkind with
    | dict _ e => exact ⟨e, rfl⟩
  · exact .met (hr.object? hk (List.mem_of_getElem? hq)) hq

theorem reads_quote {v : Value} (hv : Reads h registry scope o (.one v) ts o') :
    Reads h registry scope o (.one (.quote v)) (.mark .quote :: ts) o' := by
  intro fuel inert t p rest hfuel hr hrest
  rw [List.length_cons] at hfuel
  obtain ⟨fuel, rfl⟩ : ∃ f, fuel = f + 1 := ⟨fuel - 1, by omega⟩
  obtain ⟨w, t', p', hrun, hdone, -, hshow⟩ := hv fuel inert { t with rest := ts ++ rest } p rest
    (by omega) (hr.same rfl rfl rfl rfl) rfl
  refine ⟨.quote w, t', p', ?_, ⟨hdone.rest, hdone.ready, hdone.grown⟩, by simp,
    fun k hk hs => .quote (hshow k hk hs)⟩
  rw [Thaw.value]
  exact (Thaw.gives_next hrest).bind (hrun.bind (Thaw.gives_pure _ _))

theorem reads_fullQuote {v : Value} (hv : Reads h registry scope o (.one v) ts o') :
    Reads h registry scope o (.one (.fullQuote v)) (.mark .fullQuote :: ts) o' := by
  intro fuel inert t p rest hfuel hr hrest
  rw [List.length_cons] at hfuel
  obtain ⟨fuel, rfl⟩ : ∃ f, fuel = f + 1 := ⟨fuel - 1, by omega⟩
  obtain ⟨w, t', p', hrun, hdone, -, hshow⟩ := hv fuel true { t with rest := ts ++ rest } p rest
    (by omega) (hr.same rfl rfl rfl rfl) rfl
  refine ⟨.fullQuote w, t', p', ?_, ⟨hdone.rest, hdone.ready, hdone.grown⟩, by simp,
    fun k hk hs => .fullQuote (hshow k hk hs)⟩
  rw [Thaw.value]
  exact (Thaw.gives_next hrest).bind (hrun.bind (Thaw.gives_pure _ _))

theorem reads_noItem : Reads h registry scope o (.all []) [] o := by
  intro fuel inert t p rest l hfuel hr hrest hl
  obtain ⟨fuel, rfl⟩ : ∃ f, fuel = f + 1 := ⟨fuel - 1, by omega⟩
  refine ⟨[], { t with rest := rest }, p, ?_, hr.pass rest,
    (List.append_nil _).symm, fun _ _ _ => .noItem⟩
  rw [Thaw.items]
  exact (Thaw.gives_close hrest).bind (Thaw.gives_pure _ _)

theorem reads_noSlot : Reads h registry scope o (.slots []) [] o := by
  intro fuel inert t p rest d hfuel hr hrest hd _ _
  obtain ⟨fuel, rfl⟩ : ∃ f, fuel = f + 1 := ⟨fuel - 1, by omega⟩
  refine ⟨[], { t with rest := rest }, p, ?_, hr.pass rest, rfl,
    (List.append_nil _).symm, fun _ _ _ => .noSlot⟩
  rw [Thaw.entries]
  exact (Thaw.gives_close hrest).bind (Thaw.gives_pure _ _)

/-- A stream that shows a part is read as a part that it shows. -/
theorem Shows.reads (hh : h.WellFormed)
    (hreg : registry.lookup rootTag = some Registry.defrostRoot)
    (hN : ∀ x n, N x n → (x == n.toFloat) = true) (hs : h.Shows N Unmarked scope o P ts o')
    (hnatives : ∀ n tag record, some (.native n) ∈ o' → h.HostObject n tag record →
      h.Restores registry scope tag record) : Reads h registry scope o P ts o' := by
  induction hs with
  | nil =>
    refine reads_leaf (w := .nil) (by simp) (fun _ _ => .nil) fun fuel inert t rest ht => ?_
    rw [Thaw.value]
    exact (Thaw.gives_next ht).bind (Thaw.gives_pure _ _)
  | bool b =>
    refine reads_leaf (w := .bool b) (by simp) (fun _ _ => .bool b) fun fuel inert t rest ht => ?_
    rw [Thaw.value]
    exact (Thaw.gives_next ht).bind (Thaw.gives_pure _ _)
  | num _ =>
    refine reads_leaf (by simp) (fun _ _ => .num rfl) fun fuel inert t rest ht => ?_
    rw [Thaw.value]
    exact (Thaw.gives_next ht).bind (Thaw.gives_pure _ _)
  | str s =>
    refine reads_leaf (w := .str s) (by simp) (fun _ _ => .str s) fun fuel inert t rest ht => ?_
    rw [Thaw.value]
    exact (Thaw.gives_next ht).bind (Thaw.gives_pure _ _)
  | sym n =>
    refine reads_leaf (w := .sym n) (by simp) (fun _ _ => .sym n) fun fuel inert t rest ht => ?_
    rw [Thaw.value]
    exact (Thaw.gives_next ht).bind (Thaw.gives_pure _ _)
  | quote _ ih => exact reads_quote (ih hnatives)
  | fullQuote _ ih => exact reads_fullQuote (ih hnatives)
  | met hv ho => exact reads_met hv ho
  | @list o o' l ts hnew hs ih =>
    intro fuel inert t p rest hfuel hr hrest
    rw [List.cons_append, List.append_assoc] at hrest
    obtain ⟨m, ws, t', p', hrun, hdone, hitems, hm, hshow⟩ :=
      reads_list (ih hnatives) (by simp) fuel inert (by simpa using hfuel) hr hrest
    refine ⟨.list m, t', p', hrun, hdone, by simp, fun k hk hs => ?_⟩
    obtain ⟨hk, hws⟩ := hshow k hk hs
    exact .list hm (hk ▸ hws)
  | dict _ htag hname _ ih => exact reads_dict hh hname (ih hnatives) htag
  | root hnew htag hscope => exact reads_root hreg ⟨hscope, htag, hh.views _⟩ hnew
  | @native o u n tag record ts hn _ _ hs ih =>
    refine reads_native hN hn (hnatives _ _ _ (by simp) hn) hs (ih fun m _ _ hm => ?_)
    obtain ⟨j, hj⟩ := List.getElem?_of_mem hm
    exact hnatives m _ _ (List.mem_of_getElem? (Numbering.getElem?_fill.mpr (.inl hj)))
  | block hps hes hbs ihps ihes ihbs =>
    have hlast := (List.prefix_append _ _).trans hbs.grows
    have hrest := hes.grows.trans hlast
    exact reads_block hps (ihps fun m _ _ hm => hnatives m _ _ (hrest.subset hm))
      (ihes fun m _ _ hm => hnatives m _ _ (hlast.subset hm)) (ihbs hnatives)
  | noItem => exact reads_noItem
  | item hv hvs ihv ihvs =>
    exact reads_item hv (ihv fun m _ _ hm => hnatives m _ _ (hvs.grows.subset hm)) (ihvs hnatives)
  | noSlot => exact reads_noSlot
  | slot _ hxs ihv ihxs =>
    exact reads_slot (ihv fun m _ _ hm => hnatives m _ _ (hxs.grows.subset hm)) (ihxs hnatives)

/-- A stream that shows a value thaws to a value that it shows as well, made of new objects and of
the root environment. -/
theorem exists_thaw (hh : h.WellFormed) (hreg : registry.lookup rootTag = some Registry.defrostRoot)
    (hN : ∀ x n, N x n → (x == n.toFloat) = true) {v : Value}
    (hs : h.Shows N Unmarked scope [] (.one v) ts o)
    (hnatives : ∀ n tag record, some (.native n) ∈ o → h.HostObject n tag record →
      h.Restores registry scope tag record) :
    ∃ w k p, h.thawTokens registry ts scope = (.ok w, k) ∧ Extends scope h k ∧
      k.Shows Thawed Unmarked scope [] (.one w) ts p ∧
      ∀ q, some q ∈ p → Fresh h k q ∨ ∃ d, q = .dict d ∧ h.IsRoot scope d := by
  let t : Thawer := { heap := h.enter [], rest := ts }
  have hext : Extends scope h t.heap := by
    refine ⟨.of_same rfl rfl List.prefix_rfl, fun d hd => ?_, fun d q hd hq => ?_⟩
    · rw [show t.heap.cell d = h.cell d from rfl, cell_of_size_le hd]
      exact ⟨rfl, rfl⟩
    · rw [show t.heap.cell d = h.cell d from rfl, cell_of_size_le hd] at hq
      cases hq
  have hr : Ready h scope t [] [] :=
    ⟨hext, rfl, rfl, fun j r hj => by simp at hj, fun q hq => by simp at hq⟩
  obtain ⟨w, t', p, hrun, hdone, -, hshow⟩ :=
    hs.reads hh hreg hN hnatives (2 * ts.length + 2) false t [] [] (by omega) hr
      (List.append_nil _).symm
  have hleave : Extends scope h t'.heap.leave :=
    .of_same (a := t'.heap) rfl rfl List.prefix_rfl hdone.ready.ext
  refine ⟨w, t'.heap.leave, p, ?_, hleave, ?_, fun q hq => ?_⟩
  · have hwhole : Thaw.Gives (Thaw.whole registry scope ts.length) t w t' := by
      refine hrun.bind ((Thaw.gives_get _).bind ?_)
      simp only [hdone.rest]
      exact Thaw.gives_pure _ _
    rw [thawTokens, show (Thaw.whole registry scope ts.length).run.run t = _ from hwhole]
  · exact hshow _ hleave ⟨fun _ _ _ => rfl, fun _ _ _ => rfl, List.prefix_rfl⟩
  · refine (hdone.ready.known q hq).imp (fun hnew => ?_) ?_
    · cases q <;> exact hnew
    rintro ⟨d, hqd, hroot, -⟩
    exact ⟨d, hqd, hroot⟩

end Heap
end DictScript
