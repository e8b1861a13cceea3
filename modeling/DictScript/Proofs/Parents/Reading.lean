import DictScript.Proofs.Parents.Invariant

/-!
What lookups answer lives if they start from what is in hand, and heaps that are changed in several
operations.
-/
namespace DictScript.Heap
variable {h k : Heap} {K L : Set Ref} {r o : Ref} {d e p root : DictId} {l : ListId} {v : Value}
variable {name : String} {n : Nat}

def Has (K : Set Ref) (v : Value) : Prop := ∀ r ∈ v.refs, r ∈ K

theorem Has.knows (hv : Has K v) : h.Knows K v := fun r hr => living_of_mem (hv r hr)

theorem Has.mono (hKL : K ⊆ L) (hv : Has K v) : Has L v := fun r hr => hKL (hv r hr)

theorem has_dict : Has K (.dict d) ↔ .dict d ∈ K := by simp [Has, Value.refs]

theorem has_list : Has K (.list l) ↔ .list l ∈ K := by simp [Has, Value.refs]

theorem has_env {b : Block} (hb : Has K (.block b)) : .dict b.env ∈ K := by
  refine hb _ ?_
  cases b
  simp [Value.refs, blockRefs]

theorem has_receiver {b : Block} (hb : Has K (.block b)) (hd : b.receiver = some d) :
    .dict d ∈ K := by
  refine hb _ ?_
  cases b
  cases hd
  simp [Value.refs, blockRefs]

theorem has_body {b : Block} (hb : Has K (.block b)) (hv : v ∈ b.body) : Has K v := by
  intro r hr
  refine hb _ ?_
  cases b
  simp only [Value.refs, blockRefs, List.mem_cons, List.mem_append]
  exact .inr (.inr (mem_allRefs.mpr ⟨v, hv, hr⟩))

theorem knows_nil : h.Knows K .nil := fun r hr => by simp [Value.refs] at hr

theorem knows_dict (hd : h.Living K (.dict d)) : h.Knows K (.dict d) := by
  intro r hr
  rw [Value.refs, List.mem_singleton] at hr
  exact hr ▸ hd

theorem knows_list (hl : h.Living K (.list l)) : h.Knows K (.list l) := by
  intro r hr
  rw [Value.refs, List.mem_singleton] at hr
  exact hr ▸ hl

/-! Lookups. -/

theorem Good.living_parent (hg : h.Good K) (hd : h.Living K (.dict d)) (hp : h.Inherits d p) :
    h.Living K (.dict p) := by
  cases (hg.link_of_inherits hp).2 with
  | inl hscope => exact hd.owned (by simp [owned, DictCell.refs, hscope])
  | inr hlive => exact hlive

theorem Good.living_ancestor (hg : h.Good K) (hd : h.Living K (.dict d))
    (he : Relation.ReflTransGen h.Inherits d e) : h.Living K (.dict e) := by
  induction he with
  | refl => exact hd
  | tail _ hstep ih => exact hg.living_parent ih hstep

theorem Good.living_find (hg : h.Good K) (hd : h.Living K (.dict d))
    (he : h.find d name = some e) : h.Living K (.dict e) :=
  hg.living_ancestor hd (inherits_of_findFrom he)

theorem Good.living_anchor (hg : h.Good K) (hd : h.Living K (.dict d)) :
    h.Living K (.dict (h.anchor d)) := by
  obtain ⟨e, hde, he⟩ := h.anchorFrom_eq_or (h.dicts.size + 1) d
  have hlive := hg.living_ancestor hd hde
  rw [anchor]
  cases he with
  | inl he => exact he ▸ hlive
  | inr he => exact he ▸ Good.living_owner hlive

theorem knows_of_mem_slots (hd : h.Living K (.dict d)) (hv : (name, v) ∈ h.slots d) :
    h.Knows K v := by
  intro r hr
  exact (Good.living_owner hd).owned (DictCell.mem_refs_of_slot hv hr)

theorem knows_items (hl : h.Living K (.list l)) (hv : v ∈ h.items l) : h.Knows K v :=
  fun _ hr => hl.owned (mem_allRefs.mpr ⟨v, hv, hr⟩)

theorem knows_linkValue {link : Option DictId}
    (hlink : ∀ p, link = some p → h.Living K (.dict p)) : h.Knows K (linkValue link) := by
  cases link with
  | none => exact knows_nil
  | some p => exact knows_dict (hlink p rfl)

theorem Good.knows_get (hg : h.Good K) (hd : h.Living K (.dict d)) (name : String) :
    h.Knows K (h.get d name) := by
  rw [get]
  split
  · exact knows_linkValue fun p hp => hg.living_parent hd hp
  · refine knows_linkValue fun c hc => ?_
    obtain ⟨hraw, halive⟩ := Option.filter_eq_some_iff.mp hc
    exact hg.living_of_alive (hg.callers d c hraw) halive
  · rename_i m _
    cases hlookup : (h.slots d).lookup m with
    | none => exact knows_nil
    | some v => exact knows_of_mem_slots hd (lookup_slots_iff.mp hlookup)

theorem Good.knows_resolve (hg : h.Good K) (hd : h.Living K (.dict d)) (name : String) :
    h.Knows K (h.resolve d name) := by
  rw [resolve]
  cases he : h.find d name with
  | none => exact knows_nil
  | some e => exact hg.knows_get (hg.living_find hd he) name

/-! Several operations, after which the pending evaluations hold what they held before. -/

structure Leads (root : DictId) (s s' : Scene) : Prop where
  ops : Ops s s'
  pins : s'.1.pins = s.1.pins
  root : .dict root ∈ allRefs s.1.roots → .dict root ∈ allRefs s'.1.roots

variable {s s' t : Scene}

theorem Leads.refl (s : Scene) : Leads root s s := ⟨.refl, rfl, id⟩

theorem Leads.trans (hst : Leads root s s') (htu : Leads root s' t) : Leads root s t :=
  ⟨hst.ops.trans htu.ops, htu.pins.trans hst.pins, htu.root ∘ hst.root⟩

theorem Leads.of_op (hop : Op s s') (hpins : s'.1.pins = s.1.pins)
    (hroots : s'.1.roots = s.1.roots) : Leads root s s' :=
  ⟨.single hop, hpins, fun hroot => hroots ▸ hroot⟩

theorem Leads.good (hlead : Leads root s s') (hg : s.1.Good s.2) : s'.1.Good s'.2 :=
  hg.ops hlead.ops

/-- Objects that live can be taken in hand. -/
theorem Good.take (hg : h.Good K) (hL : ∀ r ∈ L, h.Living K r) :
    Leads root (h, K) (h, K ∪ L) :=
  .of_op (.focus (fun r hr => hr.elim living_of_mem (hL r)) fun r hr => .inl (hg.held r hr)) rfl rfl

/-- What is not held need not stay in hand. -/
theorem leads_release (hL : L ⊆ K) (hheld : ∀ r ∈ h.held, r ∈ L) :
    Leads root (h, K) (h, L) :=
  .of_op (.focus (fun _ hr => living_of_mem (hL hr)) hheld) rfl rfl

theorem leads_newDict (root : DictId) {c : DictCell} (hslots : c.slots = .empty)
    (hparent : ∀ p, c.parent = some p → .dict p ∈ K) (hscope : ∀ p, c.scope = some p → .dict p ∈ K)
    (hcaller : ∀ p, c.caller = some p → .dict p ∈ K)
    (htarget : ∀ p, c.target = some p → h.Living K (.dict p) ∧ h.owner p = p) :
    Leads root (h, K) ((h.newDict c).1, insert (.dict (h.newDict c).2) K) :=
  .of_op (.newDict c hslots (fun p hp => living_of_mem (hparent p hp))
    (fun p hp => living_of_mem (hscope p hp)) (fun p hp => living_of_mem (hcaller p hp)) htarget)
    rfl rfl

theorem leads_frame (root : DictId) (hd : .dict d ∈ K) (he : .dict e ∈ K) (name : Option String) :
    Leads root (h, K) ((h.frame d e name).1, insert (.dict (h.frame d e name).2) K) := by
  refine leads_newDict root rfl ?_ ?_ ?_ ?_
  · rintro p ⟨⟩
    exact hd
  · rintro p ⟨⟩
    exact hd
  · rintro p ⟨⟩
    exact he
  · rintro p ⟨⟩

theorem Good.leads_view (hg : h.Good K) (root : DictId) (hd : .dict d ∈ K) (hp : .dict p ∈ K) :
    Leads root (h, K) ((h.view d p).1, insert (.dict (h.view d p).2) K) := by
  refine leads_newDict root rfl ?_ ?_ ?_ ?_
  · rintro q ⟨⟩
    exact hp
  · rintro q ⟨⟩
    exact hp
  · rintro q ⟨⟩
  · rintro q ⟨⟩
    exact ⟨Good.living_owner (living_of_mem hd), hg.wellFormed.views d⟩

theorem leads_newList (root : DictId) (vs : List Value) (hvs : ∀ v ∈ vs, h.Knows K v) :
    Leads root (h, K) ((h.newList vs).1, insert (.list (h.newList vs).2) K) :=
  .of_op (.newList vs hvs) rfl rfl

theorem leads_newBlock (root : DictId) (b : Block) :
    Leads root (h, K) ((h.newBlock b).1, K) :=
  .of_op (.newBlock b) rfl rfl

theorem leads_put (root : DictId) (hd : .dict d ∈ K) (hv : Has K v)
    (hn : Key.of name = .slot name) : Leads root (h, K) (h.put d name v, K) :=
  .of_op (.put d name v (living_of_mem hd) hv.knows hn) rfl rfl

theorem leads_putAll (root : DictId) (hd : .dict d ∈ K) {xs : List (String × Value)}
    (hxs : ∀ x ∈ xs, Key.of x.1 = .slot x.1 ∧ Has K x.2) :
    Leads root (h, K) (h.putAll d xs, K) := by
  induction xs generalizing h with
  | nil => exact .refl _
  | cons x xs ih =>
    obtain ⟨hn, hv⟩ := hxs x List.mem_cons_self
    exact (leads_put root hd hv hn).trans (ih fun y hy => hxs y (List.mem_cons_of_mem _ hy))

/-- Binding a name that is no link, or a link to a dictionary when nothing is in hand that is not
held. -/
theorem leads_define (root : DictId) (name : String) (hd : .dict d ∈ K) (hv : Has K v)
    (htight : ∀ p, v = .dict p → ∀ r ∈ K, h.Living h.heldRefs r) :
    Leads root (h, K) ((h.define d name v).2, K) := by
  have hlive := living_of_mem (h := h) hd
  unfold define
  split
  · rename_i n hn
    exact leads_put root hd hv (Key.of_eq_slot hn)
  · rename_i p _
    rw [Heap.setParent]
    split
    · exact .refl _
    · rename_i hchain
      have hp := living_of_mem (h := h) (has_dict.mp hv)
      exact .of_op (.setParent d p (htight p rfl) hlive hp (by simpa using hchain)) rfl rfl
  · exact .of_op (.unparent d hlive) rfl rfl
  · rename_i c _
    refine .of_op (.setCaller d (some c) hlive ?_) rfl rfl
    rintro e ⟨⟩
    exact living_of_mem (has_dict.mp hv)
  · exact .of_op (.setCaller d none hlive (by simp)) rfl rfl
  · exact .refl _

/-- Binding a name changes nothing that is held. -/
theorem held_define (h : Heap) (d : DictId) (name : String) (v : Value) :
    (h.define d name v).2.roots = h.roots ∧ (h.define d name v).2.pins = h.pins := by
  unfold define
  split
  · exact ⟨rfl, rfl⟩
  · rw [Heap.setParent]
    split
    · exact ⟨rfl, rfl⟩
    · exact ⟨rfl, rfl⟩
  · exact ⟨rfl, rfl⟩
  · exact ⟨rfl, rfl⟩
  · exact ⟨rfl, rfl⟩
  · exact ⟨rfl, rfl⟩

theorem Good.takeValue (hg : h.Good K) (root : DictId) (hv : h.Knows K v) :
    Leads root (h, K) (h, K ∪ {r | r ∈ v.refs}) :=
  hg.take hv

/-- The slots of a dictionary in hand can be copied to another. -/
theorem Good.leads_copy (hg : h.Good K) (root : DictId) (hd : .dict d ∈ K) (ha : .dict args ∈ K)
    (keep : String × Value → Bool) :
    ∃ L, K ⊆ L ∧ Leads root (h, K) (h.putAll d ((h.slots args).filter keep), L) := by
  refine ⟨K ∪ {r | ∃ x ∈ h.slots args, r ∈ x.2.refs}, Set.subset_union_left, ?_⟩
  have htake : Leads root (h, K) (h, K ∪ {r | ∃ x ∈ h.slots args, r ∈ x.2.refs}) := by
    refine hg.take ?_
    rintro r ⟨x, hx, hr⟩
    exact knows_of_mem_slots (living_of_mem ha) hx r hr
  refine htake.trans (leads_putAll root (.inl hd) fun x hx => ?_)
  have hmem := List.mem_of_mem_filter hx
  exact ⟨hg.wellFormed.ordinary args x.1 (List.mem_map.mpr ⟨x, hmem, rfl⟩),
    fun r hr => .inr ⟨x, hmem, hr⟩⟩

end DictScript.Heap
