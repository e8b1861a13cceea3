import DictScript.Proofs.Calls.Binding
import DictScript.Proofs.Ownership.Enlarged
import DictScript.Proofs.Parents.Cycles

/-!
What the body of a block sees: its receiver, its arguments, and behind them the names of the
environment it was made in. The call site is not among it.
-/
namespace DictScript
open Heap
variable {rt : Runtime} {h k : Heap} {e d p : DictId} {b : Block} {v : Value} {depth : Nat}
variable {name m : String} {params : List String} {vs xs : List Value} {stack : List Frame}
variable {log : List String} {pins : List (List Value)} {s : Slots} {r o : Ref} {n : Nat}

namespace Heap

theorem Good.complete {K : Set Ref} (hg : h.Good K) : h.Complete where
  held r hr := hg.known r (hg.held r hr)
  owned := hg.wellFormed.closed
  parent := hg.parents
  caller := hg.callers

/-! The heap in which the body of a block starts. -/

theorem mem_putAll {x : String × Value} {ys : List (String × Value)}
    (hx : x ∈ (s.putAll ys).toList) : x ∈ s.toList ∨ x ∈ ys := by
  induction ys generalizing s with
  | nil => exact .inl hx
  | cons y ys ih =>
    cases ih hx with
    | inr hmem => exact .inr (List.mem_cons_of_mem _ hmem)
    | inl hmem =>
      refine (mem_of_mem_putSlot hmem).imp_right ?_
      rintro rfl
      exact List.mem_cons_self

theorem mem_bodySlots {x : String × Value} (hx : x ∈ (bodySlots b s).toList) :
    x ∈ s.toList ∨ ∃ d, b.receiver = some d ∧ x.2 = .dict d := by
  have hcopied : ∀ {y}, y ∈ (Slots.empty.putAll (s.toList.filter fun x => x.1 ≠ envName)).toList →
      y ∈ s.toList := by
    intro y hy
    cases mem_putAll hy with
    | inl hmem => exact (List.not_mem_nil hmem).elim
    | inr hmem => exact List.mem_of_mem_filter hmem
  rw [bodySlots] at hx
  cases hreceiver : b.receiver with
  | none => exact .inl (hcopied (by simpa [hreceiver] using hx))
  | some d =>
    simp only [hreceiver] at hx
    refine (mem_of_mem_putSlot hx).imp hcopied ?_
    rintro rfl
    exact ⟨d, rfl, rfl⟩

/-- A parameter is bound to an argument, or to the list of those that are left. -/
theorem mem_bindings {x : String × Value} {rest : ListId} (hx : x ∈ bindings rest params vs) :
    x.2 ∈ vs ∨ x.2 = .list rest ∧ (remaining? params vs).isSome := by
  induction params generalizing vs with
  | nil => cases hx
  | cons p params ih =>
    cases hrest : restName? p with
    | some name =>
      simp only [bindings, remaining?, hrest] at hx ⊢
      rw [List.mem_singleton.mp hx]
      exact .inr ⟨rfl, rfl⟩
    | none =>
      cases vs with
      | nil => simp only [bindings, hrest, List.not_mem_nil] at hx
      | cons v vs =>
        simp only [bindings, remaining?, hrest] at hx ⊢
        cases List.mem_cons.mp hx with
        | inl heq => exact .inl (heq ▸ List.mem_cons_self)
        | inr hmem => exact (ih hmem).imp_left (List.mem_cons_of_mem _)

theorem mem_of_remaining? (hrest : remaining? params vs = some xs) : ∀ v ∈ xs, v ∈ vs := by
  induction params generalizing vs with
  | nil => cases hrest
  | cons p params ih =>
    cases hp : restName? p with
    | some name =>
      simp only [remaining?, hp, Option.some.injEq] at hrest
      exact hrest ▸ fun _ => id
    | none =>
      cases vs with
      | nil => simp only [remaining?, hp, reduceCtorEq] at hrest
      | cons v vs =>
        simp only [remaining?, hp] at hrest
        exact fun w hw => List.mem_cons_of_mem _ (ih hrest w hw)

def started (h : Heap) (e : DictId) (b : Block) (vs : List Value) : Heap :=
  (h.withRest b.params vs).withBody e b (Slots.empty.putAll (bindings ⟨h.lists.size⟩ b.params vs))

theorem dicts_withRest (h : Heap) (params : List String) (vs : List Value) :
    (h.withRest params vs).dicts = h.dicts := by
  unfold withRest
  split <;> rfl

theorem natives_withRest (h : Heap) (params : List String) (vs : List Value) :
    (h.withRest params vs).natives = h.natives := by
  unfold withRest
  split <;> rfl

theorem grown_withRest (h : Heap) (params : List String) (vs : List Value) :
    Grown h (h.withRest params vs) := by
  unfold withRest
  split
  · exact grown_newList h _
  · exact .of_same rfl rfl

theorem grown_started (h : Heap) (e : DictId) (b : Block) (vs : List Value)
    (pins : List (List Value)) : Grown h { h.started e b vs with pins := pins } :=
  ((grown_withRest h b.params vs).trans ((grown_newDict _ _).trans (grown_newDict _ _))).trans
    (.of_same rfl rfl)

theorem size_started (h : Heap) (e : DictId) (b : Block) (vs : List Value) :
    (h.started e b vs).dicts.size = h.dicts.size + 2 := by
  simp [started, withBody, withArgs, newDict, dicts_withRest]

theorem cell_started (h : Heap) (e : DictId) (b : Block) (vs : List Value) (d : DictId) :
    (h.started e b vs).cell d =
      if d = h.bodyFrame then
        { parent := some b.env, scope := some b.env, caller := some e, name := b.name
          slots := bodySlots b (Slots.empty.putAll (bindings ⟨h.lists.size⟩ b.params vs)) }
      else if d = h.argsFrame then
        { parent := some e, scope := some e, caller := some e, name := b.name
          slots := Slots.empty.putAll (bindings ⟨h.lists.size⟩ b.params vs) }
      else h.cell d := by
  obtain ⟨i⟩ := d
  have hsize : ((h.withRest b.params vs).withArgs e b
      (Slots.empty.putAll (bindings ⟨h.lists.size⟩ b.params vs))).dicts.size =
        h.dicts.size + 1 := by
    simp [withArgs, newDict, dicts_withRest]
  simp only [started, withBody, cell_newDict, hsize, bodyFrame, argsFrame, DictId.mk.injEq]
  split
  · rfl
  · rw [withArgs, cell_newDict, dicts_withRest]
    rw [cell_congr (dicts_withRest h _ _)]

theorem items_started (h : Heap) (e : DictId) (b : Block) (vs : List Value) (l : ListId)
    (hl : ¬ h.Allocated (.list l)) (hv : v ∈ (h.started e b vs).items l) : v ∈ vs := by
  have hitems : (h.started e b vs).items l = (h.withRest b.params vs).items l := rfl
  rw [hitems, withRest] at hv
  split at hv
  · rename_i xs hrest
    rw [items_newList] at hv
    split at hv
    · exact mem_of_remaining? hrest v hv
    · rw [items_of_size_le (Nat.le_of_not_lt hl)] at hv
      cases hv
  · rw [items_of_size_le (Nat.le_of_not_lt hl)] at hv
    cases hv

theorem allocated_rest (hrest : (remaining? b.params vs).isSome) :
    (h.started e b vs).Allocated (.list ⟨h.lists.size⟩) := by
  obtain ⟨xs, hxs⟩ := Option.isSome_iff_exists.mp hrest
  have hlists : (h.started e b vs).lists = (h.withRest b.params vs).lists := rfl
  simp [Allocated, hlists, withRest, hxs, newList]

/-- The two frames and the list of a call own what is held, and that list. -/
theorem refs_started (he : .dict e ∈ h.heldRefs) (hb : Has h.heldRefs (.block b))
    (hvs : ∀ v ∈ vs, Has h.heldRefs v) (ho : ¬ h.Allocated o)
    (hr : r ∈ (h.started e b vs).owned o) :
    r ∈ h.heldRefs ∨ r = .list ⟨h.lists.size⟩ ∧ (remaining? b.params vs).isSome := by
  have hbound : ∀ x ∈ (Slots.empty.putAll (bindings ⟨h.lists.size⟩ b.params vs)).toList,
      ∀ r ∈ x.2.refs, r ∈ h.heldRefs ∨
        r = .list ⟨h.lists.size⟩ ∧ (remaining? b.params vs).isSome := by
    intro x hx r hr
    cases mem_putAll hx with
    | inl hempty => exact (List.not_mem_nil hempty).elim
    | inr hx =>
      obtain hx | ⟨hx, hrest⟩ := mem_bindings hx
      · exact .inl (hvs x.2 hx r hr)
      · rw [hx] at hr
        exact .inr ⟨List.mem_singleton.mp hr, hrest⟩
  cases o with
  | list l =>
    obtain ⟨v, hv, hr⟩ := mem_allRefs.mp hr
    exact .inl (hvs v (items_started h e b vs l ho hv) r hr)
  | native n =>
    have hnatives : (h.started e b vs).natives = h.natives := natives_withRest h _ _
    rw [owned, native?, hnatives] at hr
    have hnone : h.owned (.native n) = [] := owned_of_not_allocated ho
    rw [owned, native?] at hnone
    rw [hnone] at hr
    cases hr
  | dict d =>
    rw [owned, cell_started] at hr
    split at hr
    · simp only [DictCell.refs, Option.toList_some, Option.toList_none, List.map_cons,
        List.map_nil, List.append_nil, List.mem_append, List.mem_flatMap, List.mem_singleton] at hr
      obtain ⟨x, hx, hr⟩ | rfl := hr
      · obtain hx | ⟨c, hc, hx⟩ := mem_bodySlots hx
        · exact hbound x hx r hr
        · rw [hx] at hr
          exact .inl (List.mem_singleton.mp hr ▸ has_receiver hb hc)
      · exact .inl (has_env hb)
    · split at hr
      · simp only [DictCell.refs, Option.toList_some, Option.toList_none, List.map_cons,
          List.map_nil, List.append_nil, List.mem_append, List.mem_flatMap,
          List.mem_singleton] at hr
        obtain ⟨x, hx, hr⟩ | rfl := hr
        · exact hbound x hx r hr
        · exact .inl he
      · have hnone : h.owned (.dict d) = [] := owned_of_not_allocated ho
        rw [owned] at hnone
        rw [hnone] at hr
        cases hr

theorem Good.enlarged_started (hg : h.Good h.heldRefs) (he : .dict e ∈ h.heldRefs)
    (hb : Has h.heldRefs (.block b)) (hvs : ∀ v ∈ vs, Has h.heldRefs v)
    (hpins : ∀ ws ∈ h.pins, ws ∈ pins)
    (hkept : ∀ ws ∈ pins, ws ∈ h.pins ∨ ∀ w ∈ ws, ∀ r ∈ w.refs,
      r ∈ h.heldRefs ∨ r = .dict h.argsFrame ∨ r = .dict h.bodyFrame) :
    h.Enlarged { h.started e b vs with pins := pins } := by
  have hgrown := grown_started h e b vs pins
  have hroots : (h.started e b vs).roots = h.roots := by
    simp only [started, withBody, withArgs, Heap.newDict, withRest]
    split <;> rfl
  have hold : ∀ r ∈ h.heldRefs, (h.started e b vs).Allocated r ∧
      (h.Allocated r → h.Living h.heldRefs r) := by
    intro r hr
    refine ⟨?_, fun _ => living_of_mem hr⟩
    have hmade := hg.known r hr
    cases r with
    | list l => exact Nat.lt_of_lt_of_le hmade hgrown.lists
    | dict d => exact Nat.lt_of_lt_of_le hmade hgrown.dicts
    | native n =>
      rw [Allocated, started, withBody, withArgs]
      exact (natives_withRest h b.params vs).symm ▸ hmade
  refine ⟨hgrown, natives_withRest h b.params vs, fun o ho r hr => ?_, fun r hr => ?_,
    fun r hr => ?_⟩
  · cases refs_started he hb hvs ho hr with
    | inl hr => exact hold r hr
    | inr hr =>
      obtain ⟨rfl, hrest⟩ := hr
      exact ⟨allocated_rest (e := e) hrest, fun hmade => absurd hmade (Nat.lt_irrefl _)⟩
  · refine living_of_mem (mem_heldRefs.mpr ((mem_heldRefs.mp hr).imp (fun hr => hroots ▸ hr) ?_))
    rintro ⟨ws, hws, hr⟩
    exact ⟨ws, hpins ws hws, hr⟩
  · obtain hr | ⟨ws, hws, w, hw, hr⟩ := mem_heldRefs.mp hr
    · exact hold r (mem_heldRefs.mpr (.inl (hroots ▸ hr)))
    · cases hkept ws hws with
      | inl hws => exact hold r (mem_heldRefs.mpr (.inr ⟨ws, hws, w, hw, hr⟩))
      | inr hnew =>
        have hsize := size_started h e b vs
        obtain hr | rfl | rfl := hnew w hw r hr
        · exact hold r hr
        · refine ⟨?_, fun hmade => absurd hmade (Nat.lt_irrefl _)⟩
          exact Nat.lt_of_lt_of_eq (Nat.lt_add_of_pos_right Nat.two_pos) hsize.symm
        · refine ⟨?_, fun hmade => absurd hmade (by simp [Allocated, bodyFrame])⟩
          exact Nat.lt_of_lt_of_eq (Nat.lt_succ_self _) hsize.symm

/-! What is looked up from the frame of the body. -/

theorem lookup_bodySlots (hm : m ≠ envName) :
    (bodySlots b s).toList.lookup m =
      if m = "self" ∧ b.receiver.isSome then b.receiver.map Value.dict
      else s.toList.lookup m := by
  have hcopied : (Slots.empty.putAll (s.toList.filter fun x => x.1 ≠ envName)).toList.lookup m =
      s.toList.lookup m := by
    have hnodup : ((s.toList.filter fun x => x.1 ≠ envName).reverse.map Prod.fst).Nodup := by
      rw [List.map_reverse, List.nodup_reverse]
      exact s.nodup.sublist (List.filter_sublist.map Prod.fst)
    rw [Slots.lookup_putAll, show Slots.empty.toList.lookup m = none from rfl, Option.or_none]
    refine Option.ext fun v => ?_
    rw [lookup_eq_some_iff hnodup, lookup_eq_some_iff s.nodup, List.mem_reverse, List.mem_filter]
    simp [hm]
  unfold bodySlots
  cases hreceiver : b.receiver with
  | none => simpa using hcopied
  | some d =>
    simp only [Slots.put, lookup_putSlot, hcopied, Option.isSome_some, and_true, Option.map_some]

/-- What a call itself gives the name: `self` is the block's receiver, and a parameter is its
argument, the last one if it is there twice. -/
def boundByCall (b : Block) (rest : ListId) (vs : List Value) (name : String) : Option Value :=
  if canonical name = "self" ∧ b.receiver.isSome then b.receiver.map Value.dict
  else (bindings rest b.params vs).reverse.lookup (canonical name)

def seenInBody (h : Heap) (b : Block) (vs : List Value) (name : String) :
    Option (DictId × Value) :=
  match boundByCall b ⟨h.lists.size⟩ vs name with
  | some v => some (h.bodyFrame, v)
  | none => h.lookup b.env name

theorem Enlarged.lookup_bodyFrame (hk : h.Enlarged { h.started e b vs with pins := pins })
    (hg : h.Good h.heldRefs) (henv : h.Allocated (.dict b.env)) (hname : Ordinary name) :
    ({ h.started e b vs with pins := pins } : Heap).lookup h.bodyFrame name =
      h.seenInBody b vs name := by
  set k : Heap := { h.started e b vs with pins := pins } with hkdef
  have hcell : k.cell h.bodyFrame = _ := (cell_started h e b vs h.bodyFrame).trans (if_pos rfl)
  have hslots : k.slots h.bodyFrame =
      (bodySlots b (Slots.empty.putAll (bindings ⟨h.lists.size⟩ b.params vs))).toList := by
    rw [Heap.slots, owner, hcell]
    simp only [Option.getD_none]
    rw [hcell]
  have hparent : k.parent h.bodyFrame = some b.env := by
    rw [Heap.parent, hcell]
    simp
  have hbound : (k.slots h.bodyFrame).lookup (canonical name) =
      boundByCall b ⟨h.lists.size⟩ vs name := by
    rw [hslots, lookup_bodySlots hname.2, boundByCall, Slots.lookup_putAll]
    simp [Slots.empty]
  have hholds : k.holds h.bodyFrame name = (boundByCall b ⟨h.lists.size⟩ vs name).isSome := by
    simp only [Heap.holds, hname.1, hbound]
  rw [Heap.lookup, find_step, hholds, hparent, Option.bind_some, seenInBody]
  cases hcall : boundByCall b ⟨h.lists.size⟩ vs name with
  | some v =>
    simp only [Option.isSome_some, if_true, Option.map_some, Heap.get, hname.1, hbound, hcall,
      Option.getD_some]
  | none =>
    simp only [Option.isSome_none, Bool.false_eq_true, if_false]
    exact hk.lookup hg.complete henv

end Heap
/-! Calls. -/

def Machine.call (rt : Runtime) (stack : List Frame) (depth : Nat) (log : List String) (h : Heap)
    (e : DictId) (b : Block) (vs : List Value) : Machine :=
  let (move, k) := (Request.call e b vs).begin rt depth (h.enter (Request.call e b vs).held)
  proceed stack depth log move k

theorem held_call (he : .dict e ∈ h.heldRefs) (hb : Has h.heldRefs (.block b))
    (hvs : ∀ v ∈ vs, Has h.heldRefs v) : ∀ v ∈ (Request.call e b vs).held, Has h.heldRefs v := by
  intro v hv
  simp only [Request.held, List.mem_cons] at hv
  obtain rfl | rfl | hv := hv
  · exact has_dict.mpr he
  · exact hb
  · exact hvs v hv

/-- The work that the body leaves for later needs the frames and the block. -/
theorem held_startBody (hb : Has h.heldRefs (.block b)) {f : Frame}
    (hf : f ∈ (startBody h b).frames) (hv : v ∈ f.held) (r : Ref) (hr : r ∈ v.refs) :
    r ∈ h.heldRefs ∨ r = .dict h.argsFrame ∨ r = .dict h.bodyFrame := by
  have happlication : ∀ w ∈ (Frame.application h.bodyFrame
      [.block b, .dict h.argsFrame, .dict b.env, .dict h.bodyFrame]).held, ∀ r ∈ w.refs,
      r ∈ h.heldRefs ∨ r = .dict h.argsFrame ∨ r = .dict h.bodyFrame := by
    intro w hw r hr
    simp only [Frame.held, List.mem_cons, List.not_mem_nil, or_false] at hw
    obtain rfl | rfl | rfl | rfl | rfl := hw
    · exact .inr (.inr (List.mem_singleton.mp hr))
    · exact .inl (hb r hr)
    · exact .inr (.inl (List.mem_singleton.mp hr))
    · exact .inl (List.mem_singleton.mp hr ▸ has_env hb)
    · exact .inr (.inr (List.mem_singleton.mp hr))
  rw [startBody] at hf
  cases hbody : b.body with
  | nil =>
    rw [hbody] at hf
    exact happlication v (List.mem_singleton.mp hf ▸ hv) r hr
  | cons a as =>
    rw [hbody] at hf
    cases List.mem_cons.mp hf with
    | inr hf => exact happlication v (List.mem_singleton.mp hf ▸ hv) r hr
    | inl hf =>
      rw [hf] at hv
      simp only [Frame.held, List.mem_cons] at hv
      obtain rfl | rfl | hv := hv
      · simp [Value.refs] at hr
      · exact .inr (.inr (List.mem_singleton.mp hr))
      · exact .inl (has_body hb (hbody ▸ List.mem_cons_of_mem _ hv) r hr)

section
variable (hg : h.Good h.heldRefs) (hb : Has h.heldRefs (.block b))
variable (hvs : ∀ v ∈ vs, Has h.heldRefs v) (hparams : ∀ p ∈ b.params, Ordinary (paramName p))
variable (harity : ¬ (b.fixedArity < vs.length ∧ ¬ b.hasRest)) (hdepth : depth < rt.maxDepth)
include hparams harity hdepth

/-- A call starts with its arguments, in a frame that only the call site is a scope of. -/
theorem callBlock_eq (h : Heap) (pins : List (List Value)) :
    callBlock rt depth e b (vs.map Value.quote) { h with pins := pins } =
      let x := bindArgs rt depth e b h.argsFrame b.params (vs.map Value.quote)
        (h.withArgs e b .empty)
      (x.1, { x.2 with pins := pins }) := by
  rw [callBlock, List.length_map, if_neg harity]
  exact bindArgs_pins (h := h) (e := e) (b := b) (s := .empty) hdepth rfl hparams vs pins

/-- A host function that waits for a call is work below it. -/
theorem Machine.ask_call (stack : List Frame) (log : List String) (h : Heap) (e : DictId)
    (resume : Except RuntimeError Value → Heap → Reply) :
    let x := (Reply.ask (.call e b vs) h resume).move rt depth
    proceed stack depth log x.1 x.2 =
      call rt (.host resume (Request.call e b vs).held :: stack) depth log h e b vs := by
  let y := bindArgs rt depth e b h.argsFrame b.params (vs.map Value.quote) (h.withArgs e b .empty)
  have hask : (Request.call e b vs).begin rt depth h = (y.1, { y.2 with pins := h.pins }) :=
    callBlock_eq hparams harity hdepth h h.pins
  have hcall : (Request.call e b vs).begin rt depth (h.enter (Request.call e b vs).held) =
      (y.1, { y.2 with pins := (Request.call e b vs).held :: h.pins }) :=
    callBlock_eq hparams harity hdepth h _
  simp only [Reply.move, call, hask, hcall, proceed, Frame.held, List.map_append, List.map_cons,
    List.map_nil, List.append_assoc, List.cons_append, List.nil_append, List.countP_append,
    List.countP_cons, List.countP_nil]
  rfl

/-- After the arguments the body is next. -/
theorem Machine.run_call (stack : List Frame) (log : List String) (h : Heap) (e : DictId) :
    ∃ n, (call rt stack depth log h e b vs).run rt n =
      after stack depth log ((Request.call e b vs).held :: h.pins)
        (startBody h b, h.started e b vs) := by
  have hstart : call rt stack depth log h e b vs =
      after stack depth log ((Request.call e b vs).held :: h.pins)
        (bindArgs rt depth e b h.argsFrame b.params (vs.map Value.quote)
          (h.withArgs e b .empty)) := by
    exact congrArg (fun x : Move × Heap => proceed stack depth log x.1 x.2)
      (callBlock_eq hparams harity hdepth h _)
  rw [hstart]
  exact run_bindArgs (h := h) (e := e) (b := b) (s := .empty) hdepth rfl hparams vs

include hg hb hvs

/-- Wherever a block is called from, its body runs in a frame that sees the same. -/
theorem Machine.call_lookup (stack : List Frame) (log : List String) (he : .dict e ∈ h.heldRefs) :
    ∃ n k,
    (call rt stack depth log h e b vs).run rt n = proceed stack depth log (startBody h b) k ∧
    (∀ name, Ordinary name →
      (proceed stack depth log (startBody h b) k).heap.lookup h.bodyFrame name =
        h.seenInBody b vs name) ∧
    ∀ xs, remaining? b.params vs = some xs →
      (proceed stack depth log (startBody h b) k).heap.items ⟨h.lists.size⟩ = xs := by
  obtain ⟨n, hn⟩ := run_call hparams harity hdepth stack log h e
  refine ⟨n, _, hn, fun name hname => ?_, fun xs hxs => ?_⟩
  · refine Enlarged.lookup_bodyFrame (hg.enlarged_started he hb hvs ?_ ?_) hg
      (hg.known _ (has_env hb)) hname
    · exact fun ws hws => List.mem_append_right _ (List.mem_cons_of_mem _ hws)
    · intro ws hws
      cases List.mem_append.mp hws with
      | inl hws =>
        obtain ⟨f, hf, rfl⟩ := List.mem_map.mp hws
        exact .inr fun w hw => held_startBody hb hf hw
      | inr hws =>
        refine (List.mem_cons.mp hws).symm.imp_right ?_
        rintro rfl w hw r hr
        exact .inl (held_call he hb hvs w hw r hr)
  · have hitems : (h.withRest b.params vs).items ⟨h.lists.size⟩ = xs := by
      rw [withRest, hxs]
      simp [items_newList]
    exact hitems

/-- Lexical scope: called from any two places, a block runs its body in a frame that sees the same
under every ordinary name, namely its receiver, its arguments and else what its own environment
has. -/
theorem Machine.call_scope {e₁ e₂ : DictId} (stack : List Frame) (log : List String)
    (he₁ : .dict e₁ ∈ h.heldRefs) (he₂ : .dict e₂ ∈ h.heldRefs) : ∃ n₁ n₂ k₁ k₂,
    (call rt stack depth log h e₁ b vs).run rt n₁ = proceed stack depth log (startBody h b) k₁ ∧
    (call rt stack depth log h e₂ b vs).run rt n₂ = proceed stack depth log (startBody h b) k₂ ∧
    (∀ name, Ordinary name →
      (proceed stack depth log (startBody h b) k₁).heap.lookup h.bodyFrame name =
        h.seenInBody b vs name ∧
      (proceed stack depth log (startBody h b) k₂).heap.lookup h.bodyFrame name =
        h.seenInBody b vs name) ∧
    ∀ xs, remaining? b.params vs = some xs →
      (proceed stack depth log (startBody h b) k₁).heap.items ⟨h.lists.size⟩ = xs ∧
      (proceed stack depth log (startBody h b) k₂).heap.items ⟨h.lists.size⟩ = xs := by
  obtain ⟨n₁, k₁, hrun₁, hsees₁, hrest₁⟩ :=
    call_lookup hg hb hvs hparams harity hdepth stack log he₁
  obtain ⟨n₂, k₂, hrun₂, hsees₂, hrest₂⟩ :=
    call_lookup hg hb hvs hparams harity hdepth stack log he₂
  exact ⟨n₁, n₂, k₁, k₂, hrun₁, hrun₂,
    fun name hname => ⟨hsees₁ name hname, hsees₂ name hname⟩,
    fun xs hxs => ⟨hrest₁ xs hxs, hrest₂ xs hxs⟩⟩

end

/-- The block `[x | x]`, called with true from the root environment and from a child of it. -/
theorem Machine.call_scope_identity : ∃ rt b n₁ n₂ k₁ k₂,
    (call rt [] 0 [] Interpreter.withChild ⟨0⟩ b [.bool true]).run rt n₁ =
      proceed [] 0 [] (startBody Interpreter.withChild b) k₁ ∧
    (call rt [] 0 [] Interpreter.withChild ⟨20⟩ b [.bool true]).run rt n₂ =
      proceed [] 0 [] (startBody Interpreter.withChild b) k₂ ∧
    (proceed [] 0 [] (startBody Interpreter.withChild b) k₁).heap.lookup ⟨22⟩ "x" =
      some (⟨22⟩, .bool true) ∧
    (proceed [] 0 [] (startBody Interpreter.withChild b) k₂).heap.lookup ⟨22⟩ "x" =
      some (⟨22⟩, .bool true) := by
  let b : Block :=
    { id := 0, name := none, params := ["x"], body := [.sym "x"], env := ⟨0⟩, receiver := none }
  have hg := (Reachable.kept (Interpreter.lawful_standard 100) .withChild).good
  have hroot : Ref.dict ⟨0⟩ ∈ Interpreter.withChild.held := by decide +kernel
  have hchild : Ref.dict ⟨20⟩ ∈ Interpreter.withChild.held := by decide +kernel
  have hx : Ordinary "x" := by
    unfold Ordinary
    decide
  have hb : Has Interpreter.withChild.heldRefs (.block b) := by
    intro r hr
    rw [show r = .dict ⟨0⟩ by simpa [b, Value.refs, blockRefs, allRefs] using hr]
    exact hroot
  have hvs : ∀ v ∈ [Value.bool true], Has Interpreter.withChild.heldRefs v := by
    simp [Has, Value.refs]
  have hparams : ∀ p ∈ b.params, Ordinary (paramName p) := by
    intro p hp
    rw [List.mem_singleton.mp hp]
    exact hx
  have harity : ¬ (b.fixedArity < [Value.bool true].length ∧ ¬ b.hasRest) := by decide
  have hdepth : 0 < (Interpreter.standard 100).runtime.maxDepth := by
    rw [Interpreter.standard, Interpreter.runtime_new]
    decide
  obtain ⟨n₁, n₂, k₁, k₂, hrun₁, hrun₂, hsees, -⟩ :=
    call_scope hg hb hvs hparams harity hdepth [] [] hroot hchild
  have hframe : Interpreter.withChild.bodyFrame = ⟨22⟩ := by decide +kernel
  have hseen : Interpreter.withChild.seenInBody b [.bool true] "x" = some (⟨22⟩, .bool true) := by
    rw [← hframe]
    rfl
  have hlookups := hsees "x" hx
  rw [hseen, hframe] at hlookups
  exact ⟨_, b, n₁, n₂, k₁, k₂, hrun₁, hrun₂, hlookups.1, hlookups.2⟩

end DictScript
