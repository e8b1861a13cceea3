import DictScript.Proofs.Frozen.Growth
import DictScript.Proofs.Ownership.Counting
import DictScript.Proofs.Parents.Chain

/-!
What every state of the heap keeps, and the operations that lead from one state to the next. An
operation sees the heap and the objects that someone has in hand: nothing else can be reached or
made to live again.
-/
namespace DictScript.Heap
variable {h k : Heap} {K L : Set Ref} {r o : Ref} {d e p : DictId} {l : ListId} {v : Value}
variable {n : String}

def Link (h : Heap) (K : Set Ref) (d p : DictId) : Prop :=
  (h.cell d).parent = some p ∧ ((h.cell d).scope = some p ∨ h.Living K (.dict p))

structure Good (h : Heap) (K : Set Ref) : Prop where
  wellFormed : h.WellFormed
  known : ∀ r ∈ K, h.Allocated r
  held : ∀ r ∈ h.held, r ∈ K
  parents : ∀ d p, (h.cell d).parent = some p → h.Allocated (.dict p)
  callers : ∀ d c, (h.cell d).caller = some c → h.Allocated (.dict c)
  acyclic : ∀ d, ¬ Relation.TransGen (h.Link K) d d

abbrev Scene := Heap × Set Ref

def Knows (h : Heap) (K : Set Ref) (v : Value) : Prop := ∀ r ∈ v.refs, h.Living K r

inductive Op : Scene → Scene → Prop where
  /-- Other objects are taken in hand; what is held stays there. -/
  | focus {h : Heap} {K L : Set Ref} : (∀ r ∈ L, h.Living K r) → (∀ r ∈ h.held, r ∈ L) →
      Op (h, K) (h, L)
  | newDict {h : Heap} {K : Set Ref} (c : DictCell) : c.slots = .empty →
      (∀ p, c.parent = some p → h.Living K (.dict p)) →
      (∀ p, c.scope = some p → h.Living K (.dict p)) →
      (∀ p, c.caller = some p → h.Living K (.dict p)) →
      (∀ p, c.target = some p → h.Living K (.dict p) ∧ h.owner p = p) →
      Op (h, K) ((h.newDict c).1, insert (.dict (h.newDict c).2) K)
  | newList {h : Heap} {K : Set Ref} (vs : List Value) : (∀ v ∈ vs, h.Knows K v) →
      Op (h, K) ((h.newList vs).1, insert (.list (h.newList vs).2) K)
  | newNative {h : Heap} {K : Set Ref} (x : Native) : (∀ r ∈ x.refs, h.Living K r) →
      Op (h, K) ((h.newNative x).1, insert (.native (h.newNative x).2) K)
  | newBlock {h : Heap} {K : Set Ref} (b : Block) : Op (h, K) ((h.newBlock b).1, K)
  | pushItem {h : Heap} {K : Set Ref} (l : ListId) (v : Value) : h.Living K (.list l) →
      h.Knows K v → Op (h, K) (h.pushItem l v, K)
  | put {h : Heap} {K : Set Ref} (d : DictId) (n : String) (v : Value) : h.Living K (.dict d) →
      h.Knows K v → Key.of n = .slot n → Op (h, K) (h.put d n v, K)
  | erase {h : Heap} {K : Set Ref} (d : DictId) (n : String) : h.Living K (.dict d) →
      Op (h, K) (h.eraseSlot d n, K)
  /-- A parent is declared. Nothing is in hand that is not held, so that the chain is complete. -/
  | setParent {h : Heap} {K : Set Ref} (d p : DictId) : (∀ r ∈ K, h.Living h.heldRefs r) →
      h.Living K (.dict d) → h.Living K (.dict p) → d ∉ h.chain p → Op (h, K) (h.link d (some p) true, K)
  /-- A dictionary that is nobody's parent is attached to a scope. -/
  | attach {h : Heap} {K : Set Ref} (d p : DictId) (declared : Bool) : h.Living K (.dict d) →
      h.Living K (.dict p) → d ≠ p → (∀ e, (h.cell e).parent ≠ some d) →
      Op (h, K) (h.link d (some p) declared, K)
  | unparent {h : Heap} {K : Set Ref} (d : DictId) : h.Living K (.dict d) →
      Op (h, K) (h.link d none false, K)
  | setCaller {h : Heap} {K : Set Ref} (d : DictId) (c : Option DictId) : h.Living K (.dict d) →
      (∀ e, c = some e → h.Living K (.dict e)) → Op (h, K) (h.setCaller d c, K)
  | setName {h : Heap} {K : Set Ref} (d : DictId) (n : Option String) : h.Living K (.dict d) →
      Op (h, K) (h.setName d n, K)
  | setTag {h : Heap} {K : Set Ref} (d : DictId) (t : String) : h.Living K (.dict d) →
      Op (h, K) (h.setTag d t, K)
  | hold {h : Heap} {K : Set Ref} (roots : List Value) (pins : List (List Value)) :
      (∀ v ∈ roots ++ pins.flatten, h.Knows K v) →
      Op (h, K) ({ h with roots := roots, pins := pins },
        K ∪ heldRefs { h with roots := roots, pins := pins })

abbrev Ops : Scene → Scene → Prop := Relation.ReflTransGen Op

/-! Each operation keeps the invariant. -/

theorem Good.allocated (hg : h.Good K) (hr : h.Living K r) : h.Allocated r := by
  cases living_iff.mp hr with
  | inl hr => exact hg.known r hr
  | inr hr =>
    obtain ⟨o, -, hro⟩ := hr
    by_contra hnot
    refine hnot (hg.wellFormed.closed o ?_ r hro)
    by_contra ho
    simp [owned_of_not_allocated ho] at hro

/-- If whatever is owned or in hand anew is new or lived before, and the parents of what was there
have not changed, then the invariant is kept. -/
theorem Good.step (hg : h.Good K) (hgrow : ∀ r, h.Allocated r → k.Allocated r)
    (howned : ∀ o, ∀ r ∈ k.owned o,
      r ∈ h.owned o ∨ k.Allocated r ∧ (h.Allocated r → h.Living K r))
    (hknown : ∀ r ∈ L, k.Allocated r ∧ (h.Allocated r → h.Living K r))
    (hheld : ∀ r ∈ k.held, r ∈ L)
    (hviews : ∀ d, k.owner (k.owner d) = k.owner d)
    (hordinary : ∀ d, ∀ n ∈ k.names d, Key.of n = .slot n)
    (hparents : ∀ d p, (k.cell d).parent = some p → h.Allocated (.dict p) ∧
      (h.Allocated (.dict d) → (h.cell d).parent = some p ∧ (k.cell d).scope = (h.cell d).scope))
    (hcallers : ∀ d c, (k.cell d).caller = some c → k.Allocated (.dict c)) : k.Good L := by
  have hlink : ∀ d p, k.Link L d p → h.Allocated (.dict d) → h.Link K d p := by
    rintro d p ⟨hp, hlive⟩ hd
    obtain ⟨hmade, hold⟩ := hparents d p hp
    obtain ⟨hold, hscope⟩ := hold hd
    refine ⟨hold, hlive.imp (fun hs => hscope ▸ hs) fun hlive => ?_⟩
    exact hlive.back (fun s hs => (hknown s hs).2)
      (fun o s hso hs => (howned o s hso).imp_right fun hnew => hnew.2 hs) hmade
  refine ⟨⟨fun o ho s hs => ?_, hviews, hordinary⟩, fun r hr => (hknown r hr).1, hheld,
    fun d p hp => hgrow _ (hparents d p hp).1, hcallers, fun d hcycle => ?_⟩
  · cases howned o s hs with
    | inr hnew => exact hnew.1
    | inl hold =>
      refine hgrow _ (hg.wellFormed.closed o ?_ s hold)
      by_contra hnot
      simp [owned_of_not_allocated hnot] at hold
  · have hpath : ∀ a b, Relation.TransGen (k.Link L) a b → h.Allocated (.dict a) →
        h.Allocated (.dict b) ∧ Relation.TransGen (h.Link K) a b := by
      intro a b hab ha
      induction hab with
      | single hstep => exact ⟨(hparents _ _ hstep.1).1, .single (hlink _ _ hstep ha)⟩
      | tail _ hstep ih => exact ⟨(hparents _ _ hstep.1).1, ih.2.tail (hlink _ _ hstep ih.1)⟩
    have hd : h.Allocated (.dict d) := by
      cases hcycle with
      | single hstep => exact (hparents _ _ hstep.1).1
      | tail _ hstep => exact (hparents _ _ hstep.1).1
    exact hg.acyclic d (hpath d d hcycle hd).2

theorem Good.living_owner (hd : h.Living K (.dict d)) : h.Living K (.dict (h.owner d)) := by
  rw [owner]
  cases ht : (h.cell d).target with
  | none => exact hd
  | some e => exact hd.owned (by simp [owned, DictCell.refs, ht])

/-- Changes within one dictionary that leave what it is a scope or a view for. -/
theorem Good.modifyCell (hg : h.Good K) (hd : h.Allocated (.dict d)) {f : DictCell → DictCell}
    (hslots : ∀ x ∈ (f (h.cell d)).slots.toList,
      x ∈ (h.cell d).slots.toList ∨ Key.of x.1 = .slot x.1 ∧ h.Knows K x.2)
    (hparent : ∀ p, (f (h.cell d)).parent = some p → (h.cell d).parent = some p)
    (hcaller : ∀ c, (f (h.cell d)).caller = some c → h.Allocated (.dict c))
    (hscope : (f (h.cell d)).scope = (h.cell d).scope)
    (htarget : (f (h.cell d)).target = (h.cell d).target) : (h.modifyCell d f).Good K := by
  have hcell : ∀ e, (h.modifyCell d f).cell e = if e = d then f (h.cell d) else h.cell e :=
    fun e => cell_modifyCell hd
  have hsame : ∀ r, (h.modifyCell d f).Allocated r ↔ h.Allocated r := by
    intro r
    cases r <;> simp [Allocated, Heap.modifyCell]
  have howner : ∀ e, (h.modifyCell d f).owner e = h.owner e := by
    intro e
    rw [owner, owner, hcell]
    split
    · rename_i he
      rw [htarget, he]
    · rfl
  refine hg.step (fun r hr => (hsame r).mpr hr) ?_ (fun r hr =>
    ⟨(hsame r).mpr (hg.known r hr), fun _ => living_of_mem hr⟩) hg.held ?_ ?_ ?_ ?_
  · intro o r hr
    cases o with
    | list l => exact .inl hr
    | native x => exact .inl hr
    | dict e =>
      rw [owned, hcell] at hr
      split at hr
      · rename_i he
        subst he
        obtain ⟨x, hx, hr⟩ | hold := DictCell.mem_slot_or_refs hscope htarget hr
        · cases hslots x hx with
          | inl hx => exact .inl (DictCell.mem_refs_of_slot hx hr)
          | inr hx => exact .inr ⟨(hsame r).mpr (hg.allocated (hx.2 r hr)), fun _ => hx.2 r hr⟩
        · exact .inl hold
      · exact .inl hr
  · intro e
    rw [howner, howner]
    exact hg.wellFormed.views e
  · intro e m hm
    rw [names, slots, howner, hcell] at hm
    split at hm
    · rename_i he
      obtain ⟨x, hx, rfl⟩ := List.mem_map.mp hm
      cases hslots x hx with
      | inr hx => exact hx.1
      | inl hx =>
        refine hg.wellFormed.ordinary e x.1 ?_
        rw [names, slots, he]
        exact List.mem_map.mpr ⟨x, hx, rfl⟩
    · exact hg.wellFormed.ordinary e m hm
  · intro e p hp
    rw [hcell] at hp
    split at hp
    · rename_i he
      subst he
      refine ⟨hg.parents _ _ (hparent p hp), fun _ => ⟨hparent p hp, ?_⟩⟩
      rw [hcell, if_pos rfl, hscope]
    · rename_i he
      refine ⟨hg.parents _ _ hp, fun _ => ⟨hp, ?_⟩⟩
      rw [hcell, if_neg he]
  · intro e c hc
    rw [hcell] at hc
    split at hc
    · exact (hsame _).mpr (hcaller c hc)
    · exact (hsame _).mpr (hg.callers _ _ hc)

theorem Good.put (hg : h.Good K) (hd : h.Living K (.dict d)) (hv : h.Knows K v)
    (hn : Key.of n = .slot n) : (h.put d n v).Good K := by
  have howner := hg.allocated (Good.living_owner hd)
  refine hg.modifyCell howner (fun x hx => ?_) (fun _ hp => hp) (fun _ => hg.callers _ _) rfl rfl
  refine (mem_of_mem_putSlot hx).imp_right ?_
  rintro rfl
  exact ⟨hn, hv⟩

theorem Good.erase (hg : h.Good K) (hd : h.Living K (.dict d)) : (h.eraseSlot d n).Good K := by
  have howner := hg.allocated (Good.living_owner hd)
  refine hg.modifyCell howner (fun x hx => ?_) (fun _ hp => hp) (fun _ => hg.callers _ _) rfl rfl
  exact .inl (List.mem_of_mem_filter hx)

theorem Good.unparent (hg : h.Good K) (hd : h.Living K (.dict d)) :
    (h.link d none false).Good K :=
  hg.modifyCell (hg.allocated hd) (fun _ => .inl) (by simp) (fun _ => hg.callers _ _) rfl rfl

theorem Good.setCaller (hg : h.Good K) (hd : h.Living K (.dict d)) {c : Option DictId}
    (hc : ∀ e, c = some e → h.Living K (.dict e)) : (h.setCaller d c).Good K :=
  hg.modifyCell (hg.allocated hd) (fun _ => .inl) (fun _ hp => hp)
    (fun e he => hg.allocated (hc e he)) rfl rfl

theorem Good.setName (hg : h.Good K) (hd : h.Living K (.dict d)) (m : Option String) :
    (h.setName d m).Good K :=
  hg.modifyCell (hg.allocated hd) (fun _ => .inl) (fun _ hp => hp) (fun _ => hg.callers _ _) rfl rfl

theorem Good.setTag (hg : h.Good K) (hd : h.Living K (.dict d)) (t : String) :
    (h.setTag d t).Good K :=
  hg.modifyCell (hg.allocated hd) (fun _ => .inl) (fun _ hp => hp) (fun _ => hg.callers _ _) rfl rfl

/-! Real parents are among the links that hold, so that chains end. -/

theorem Good.living_of_alive (hg : h.Good K) (hd : h.Allocated (.dict d)) (ha : h.alive d = true) :
    h.Living K (.dict d) :=
  ((alive_iff hg.wellFormed.closed (fun r hr => hg.known r (hg.held r hr)) hd).mp ha).mono hg.held

theorem Good.link_of_inherits (hg : h.Good K) (hp : h.Inherits d p) : h.Link K d p := by
  rw [Inherits, parent] at hp
  obtain ⟨hraw, hholds⟩ := Option.filter_eq_some_iff.mp hp
  rw [Bool.or_eq_true, decide_eq_true_eq] at hholds
  exact ⟨hraw, hholds.imp_right (hg.living_of_alive (hg.parents d p hraw))⟩

theorem Good.inherits_of_link (hg : h.Good K) (htight : ∀ r ∈ K, h.Living h.heldRefs r)
    (hp : h.Link K d p) : h.Inherits d p := by
  refine Option.filter_eq_some_iff.mpr ⟨hp.1, ?_⟩
  rw [Bool.or_eq_true, decide_eq_true_eq]
  refine hp.2.imp_right fun hlive => ?_
  exact (alive_iff hg.wellFormed.closed (fun r hr => hg.known r (hg.held r hr))
    (hg.parents d p hp.1)).mpr (hlive.trans htight)

theorem Good.orderly (hg : h.Good K) : h.Orderly where
  bounded d p hp := hg.parents d p (hg.link_of_inherits hp).1
  acyclic d hcycle :=
    hg.acyclic d (Relation.TransGen.mono (fun _ _ => hg.link_of_inherits) _ _ hcycle)

/-! A parent that is declared closes no circle: a circle would lead over the new link, and so from
the parent to the dictionary before. -/

theorem path_of_new_link {E E' : DictId → DictId → Prop} {a b : DictId}
    (hnew : ∀ a b, E' a b → E a b ∨ a = d ∧ b = p) (hab : Relation.TransGen E' a b) :
    Relation.TransGen E a b ∨ Relation.ReflTransGen E a d ∧ Relation.ReflTransGen E p b := by
  induction hab with
  | single hstep =>
    cases hnew _ _ hstep with
    | inl hold => exact .inl (.single hold)
    | inr heq =>
      obtain ⟨rfl, rfl⟩ := heq
      exact .inr ⟨.refl, .refl⟩
  | tail _ hstep ih =>
    cases hnew _ _ hstep with
    | inl hold => exact ih.imp (·.tail hold) fun hpath => ⟨hpath.1, hpath.2.tail hold⟩
    | inr heq =>
      obtain ⟨rfl, rfl⟩ := heq
      refine .inr ⟨?_, .refl⟩
      cases ih with
      | inl hold => exact hold.to_reflTransGen
      | inr hpath => exact hpath.1

theorem owned_link {q : Option DictId} {b : Bool} (hd : h.Allocated (.dict d)) :
    (h.link d q b).owned = h.owned := by
  funext r
  cases r with
  | list l => rfl
  | native n => rfl
  | dict e =>
    rw [owned, owned, link, cell_modifyCell hd]
    split
    · rename_i he
      rw [he]
      rfl
    · rfl

theorem Good.relink {declared : Bool} (hg : h.Good K) (hd : h.Living K (.dict d))
    (hp : h.Living K (.dict p)) (hpath : ¬ Relation.ReflTransGen (h.Link K) p d) :
    (h.link d (some p) declared).Good K := by
  have hmade := hg.allocated hd
  have hcell : ∀ e, (h.link d (some p) declared).cell e =
      if e = d then { h.cell d with parent := some p, declared := declared } else h.cell e :=
    fun e => cell_modifyCell hmade
  have howned := owned_link (q := some p) (b := declared) hmade
  have hsame : ∀ r, (h.link d (some p) declared).Allocated r ↔ h.Allocated r := by
    intro r
    cases r <;> simp [Allocated, link, Heap.modifyCell]
  have hcellEq : ∀ e, ((h.link d (some p) declared).cell e).target = (h.cell e).target ∧
      ((h.link d (some p) declared).cell e).slots = (h.cell e).slots ∧
      ((h.link d (some p) declared).cell e).scope = (h.cell e).scope ∧
      ((h.link d (some p) declared).cell e).caller = (h.cell e).caller := by
    intro e
    rw [hcell]
    split
    · rename_i he
      rw [he]
      exact ⟨rfl, rfl, rfl, rfl⟩
    · exact ⟨rfl, rfl, rfl, rfl⟩
  have howner : ∀ e, (h.link d (some p) declared).owner e = h.owner e := by
    intro e
    rw [owner, owner, (hcellEq e).1]
  have hlinks : ∀ a b, (h.link d (some p) declared).Link K a b → h.Link K a b ∨ a = d ∧ b = p := by
    rintro a b ⟨hraw, hholds⟩
    rw [(hcellEq a).2.2.1, Living, howned] at hholds
    rw [hcell] at hraw
    split at hraw
    · rename_i ha
      exact .inr ⟨ha, (Option.some.inj hraw).symm⟩
    · exact .inl ⟨hraw, hholds⟩
  refine ⟨⟨fun r hr s hs => ?_, fun e => ?_, fun e m hm => ?_⟩,
    fun r hr => (hsame r).mpr (hg.known r hr), hg.held, fun e q hq => ?_, fun e c hc => ?_, fun e hcycle => ?_⟩
  · rw [howned] at hs
    exact (hsame s).mpr (hg.wellFormed.closed r ((hsame r).mp hr) s hs)
  · rw [howner, howner]
    exact hg.wellFormed.views e
  · rw [names, slots, howner, (hcellEq _).2.1] at hm
    exact hg.wellFormed.ordinary e m hm
  · rw [hcell] at hq
    split at hq
    · obtain rfl := Option.some.inj hq
      exact (hsame _).mpr (hg.allocated hp)
    · exact (hsame _).mpr (hg.parents e q hq)
  · rw [(hcellEq e).2.2.2] at hc
    exact (hsame _).mpr (hg.callers e c hc)
  · cases path_of_new_link hlinks hcycle with
    | inl hold => exact hg.acyclic e hold
    | inr hback => exact hpath (hback.2.trans hback.1)

theorem Good.setParent (hg : h.Good K) (htight : ∀ r ∈ K, h.Living h.heldRefs r)
    (hd : h.Living K (.dict d)) (hp : h.Living K (.dict p)) (hchain : d ∉ h.chain p) :
    (h.link d (some p) true).Good K := by
  refine hg.relink hd hp fun hpath => hchain (hg.orderly.mem_chain.mpr ?_)
  exact Relation.ReflTransGen.mono (fun _ _ => hg.inherits_of_link htight) _ _ hpath

theorem Good.attach {declared : Bool} (hg : h.Good K) (hd : h.Living K (.dict d))
    (hp : h.Living K (.dict p)) (hne : d ≠ p) (hnone : ∀ e, (h.cell e).parent ≠ some d) :
    (h.link d (some p) declared).Good K := by
  refine hg.relink hd hp fun hpath => ?_
  cases Relation.ReflTransGen.cases_tail hpath with
  | inl heq => exact hne heq
  | inr hlast =>
    obtain ⟨e, -, he⟩ := hlast
    exact hnone e he.1

/-! New objects. -/

theorem Good.focus (hg : h.Good K) (hL : ∀ r ∈ L, h.Living K r) (hheld : ∀ r ∈ h.held, r ∈ L) :
    h.Good L :=
  hg.step (fun _ hr => hr) (fun _ _ hr => .inl hr)
    (fun r hr => ⟨hg.allocated (hL r hr), fun _ => hL r hr⟩) hheld hg.wellFormed.views hg.wellFormed.ordinary
    (fun d p hp => ⟨hg.parents d p hp, fun _ => ⟨hp, rfl⟩⟩) hg.callers

/-- A dictionary and what it shows are what they were, or else the new dictionary shows itself. -/
theorem Good.shown_newDict (hg : h.Good K) {c : DictCell}
    (htarget : ∀ p, c.target = some p → h.Living K (.dict p) ∧ h.owner p = p) (e : DictId) :
    ((h.newDict c).1.owner e = e ∧ (h.newDict c).1.cell e = c) ∨
      ∃ t, h.owner t = t ∧ (h.newDict c).1.owner e = t ∧ (h.newDict c).1.cell t = h.cell t := by
  by_cases he : e.index = h.dicts.size
  · have hcell : (h.newDict c).1.cell e = c := by rw [cell_newDict, if_pos he]
    cases ht : c.target with
    | none => exact .inl ⟨by rw [owner, hcell, ht, Option.getD_none], hcell⟩
    | some t =>
      obtain ⟨hlive, htt⟩ := htarget t ht
      refine .inr ⟨t, htt, ?_, cell_newDict_of_allocated c (hg.allocated hlive)⟩
      rw [owner, hcell, ht, Option.getD_some]
  · have hcell : (h.newDict c).1.cell e = h.cell e := by rw [cell_newDict, if_neg he]
    have howner : (h.newDict c).1.owner e = h.owner e := by rw [owner, owner, hcell]
    refine .inr ⟨h.owner e, hg.wellFormed.views e, howner, ?_⟩
    by_cases hmade : h.Allocated (.dict e)
    · exact cell_newDict_of_allocated c (allocated_owner hg.wellFormed hmade)
    · rw [owner_of_size_le (Nat.le_of_not_lt hmade), hcell]

theorem Good.newDict (hg : h.Good K) {c : DictCell} (hslots : c.slots = .empty)
    (hparent : ∀ p, c.parent = some p → h.Living K (.dict p))
    (hscope : ∀ p, c.scope = some p → h.Living K (.dict p))
    (hcaller : ∀ p, c.caller = some p → h.Living K (.dict p))
    (htarget : ∀ p, c.target = some p → h.Living K (.dict p) ∧ h.owner p = p) :
    (h.newDict c).1.Good (insert (.dict (h.newDict c).2) K) := by
  have hgrow : ∀ r, h.Allocated r → (h.newDict c).1.Allocated r := by
    intro r hr
    cases r <;> simp only [Allocated, Heap.newDict, Array.size_push] at * <;> omega
  have hnew : ∀ {e : DictId}, e.index = h.dicts.size → ¬ h.Allocated (.dict e) :=
    fun he hmade => Nat.ne_of_lt hmade he
  refine hg.step hgrow ?_ ?_ (fun r hr => .inr (hg.held r hr)) ?_ ?_ ?_ ?_
  · intro o r hr
    cases o with
    | list l => exact .inl hr
    | native n => exact .inl hr
    | dict e =>
      rw [owned, cell_newDict] at hr
      split at hr
      · have hlive : h.Living K r := by
          simp only [DictCell.refs, hslots, Slots.empty, List.flatMap_nil, List.nil_append,
            List.mem_append, List.mem_map, Option.mem_toList] at hr
          obtain ⟨p, hp, rfl⟩ | ⟨p, hp, rfl⟩ := hr
          · exact hscope p hp
          · exact (htarget p hp).1
        exact .inr ⟨hgrow r (hg.allocated hlive), fun _ => hlive⟩
      · exact .inl hr
  · rintro r (rfl | hr)
    · exact ⟨by simp [Allocated, Heap.newDict], fun hmade => absurd hmade (hnew rfl)⟩
    · exact ⟨hgrow r (hg.known r hr), fun _ => living_of_mem hr⟩
  · intro e
    obtain ⟨howner, -⟩ | ⟨t, ht, howner, hcell⟩ := hg.shown_newDict htarget e
    · rw [howner, howner]
    · rw [howner, owner, hcell]
      exact ht
  · intro e m hm
    obtain ⟨howner, hcell⟩ | ⟨t, ht, howner, hcell⟩ := hg.shown_newDict htarget e
    · rw [names, slots, howner, hcell, hslots] at hm
      exact (List.not_mem_nil hm).elim
    · refine hg.wellFormed.ordinary t m ?_
      rwa [names, slots, howner, hcell, ← ht] at hm
  · intro e p hp
    rw [cell_newDict] at hp
    split at hp
    · rename_i he
      exact ⟨hg.allocated (hparent p hp), fun hmade => absurd hmade (hnew he)⟩
    · exact ⟨hg.parents e p hp, fun hmade => ⟨hp, by rw [cell_newDict_of_allocated c hmade]⟩⟩
  · intro e p hp
    rw [cell_newDict] at hp
    split at hp
    · exact hgrow _ (hg.allocated (hcaller p hp))
    · exact hgrow _ (hg.callers e p hp)

theorem Good.newList (hg : h.Good K) {vs : List Value} (hvs : ∀ v ∈ vs, h.Knows K v) :
    (h.newList vs).1.Good (insert (.list (h.newList vs).2) K) := by
  have hgrow : ∀ r, h.Allocated r → (h.newList vs).1.Allocated r := by
    intro r hr
    cases r <;> simp only [Allocated, Heap.newList, Array.size_push] at * <;> omega
  refine hg.step hgrow ?_ ?_ (fun r hr => .inr (hg.held r hr)) hg.wellFormed.views
    hg.wellFormed.ordinary (fun d p hp => ⟨hg.parents d p hp, fun _ => ⟨hp, rfl⟩⟩)
    fun d c hc => hgrow _ (hg.callers d c hc)
  · intro o r hr
    cases o with
    | dict d => exact .inl hr
    | native n => exact .inl hr
    | list l =>
      rw [owned, items_newList] at hr
      split at hr
      · obtain ⟨v, hv, hr⟩ := mem_allRefs.mp hr
        exact .inr ⟨hgrow r (hg.allocated (hvs v hv r hr)), fun _ => hvs v hv r hr⟩
      · exact .inl hr
  · rintro r (rfl | hr)
    · exact ⟨by simp [Allocated, Heap.newList], fun hmade => absurd hmade (Nat.lt_irrefl _)⟩
    · exact ⟨hgrow r (hg.known r hr), fun _ => living_of_mem hr⟩

theorem Good.newNative (hg : h.Good K) {x : Native} (hx : ∀ r ∈ x.refs, h.Living K r) :
    (h.newNative x).1.Good (insert (.native (h.newNative x).2) K) := by
  have hgrow : ∀ r, h.Allocated r → (h.newNative x).1.Allocated r := by
    intro r hr
    cases r <;> simp only [Allocated, Heap.newNative, Array.size_push] at * <;> omega
  refine hg.step hgrow ?_ ?_ (fun r hr => .inr (hg.held r hr)) hg.wellFormed.views
    hg.wellFormed.ordinary (fun d p hp => ⟨hg.parents d p hp, fun _ => ⟨hp, rfl⟩⟩)
    fun d c hc => hgrow _ (hg.callers d c hc)
  · intro o r hr
    cases o with
    | dict d => exact .inl hr
    | list l => exact .inl hr
    | native n =>
      simp only [owned, native?, Heap.newNative, Array.getElem?_push] at hr
      split at hr
      · exact .inr ⟨hgrow r (hg.allocated (hx r hr)), fun _ => hx r hr⟩
      · exact .inl hr
  · rintro r (rfl | hr)
    · exact ⟨by simp [Allocated, Heap.newNative], fun hmade => absurd hmade (Nat.lt_irrefl _)⟩
    · exact ⟨hgrow r (hg.known r hr), fun _ => living_of_mem hr⟩

theorem Good.pushItem (hg : h.Good K) (hl : h.Living K (.list l)) (hv : h.Knows K v) :
    (h.pushItem l v).Good K := by
  have hsame : ∀ r, (h.pushItem l v).Allocated r ↔ h.Allocated r := by
    intro r
    cases r <;> simp [Allocated, Heap.pushItem]
  refine hg.step (fun r hr => (hsame r).mpr hr) ?_
    (fun r hr => ⟨(hsame r).mpr (hg.known r hr), fun _ => living_of_mem hr⟩) hg.held
    hg.wellFormed.views hg.wellFormed.ordinary
    (fun d p hp => ⟨hg.parents d p hp, fun _ => ⟨hp, rfl⟩⟩) hg.callers
  intro o r hr
  cases o with
  | dict d => exact .inl hr
  | native n => exact .inl hr
  | list m =>
    rw [owned, items_pushItem (hg.allocated hl)] at hr
    split at hr
    · rename_i hm
      obtain ⟨w, hw, hr⟩ := mem_allRefs.mp hr
      cases List.mem_append.mp hw with
      | inl hw => exact .inl (mem_allRefs.mpr ⟨w, hm ▸ hw, hr⟩)
      | inr hw =>
        rw [List.mem_singleton.mp hw] at hr
        exact .inr ⟨(hsame r).mpr (hg.allocated (hv r hr)), fun _ => hv r hr⟩
    · exact .inl hr

/-- Nothing but what is in hand depends on what is held. -/
theorem Good.hold (hg : h.Good K) {roots : List Value} {pins : List (List Value)}
    (hvs : ∀ v ∈ roots ++ pins.flatten, h.Knows K v) :
    ({ h with roots := roots, pins := pins } : Heap).Good
      (K ∪ heldRefs { h with roots := roots, pins := pins }) := by
  have hlive : ∀ r ∈ heldRefs { h with roots := roots, pins := pins }, h.Living K r := by
    intro r hr
    obtain ⟨v, hv, hr⟩ | ⟨vs, hvs', v, hv, hr⟩ := mem_heldRefs.mp hr
    · exact hvs v (List.mem_append_left _ hv) r hr
    · exact hvs v (List.mem_append_right _ (List.mem_flatten.mpr ⟨vs, hvs', hv⟩)) r hr
  refine hg.step (fun _ hr => hr) (fun _ _ hr => .inl hr) (fun r hr => ?_) (fun r hr => .inr hr)
    hg.wellFormed.views hg.wellFormed.ordinary
    (fun d p hp => ⟨hg.parents d p hp, fun _ => ⟨hp, rfl⟩⟩) hg.callers
  cases hr with
  | inl hr => exact ⟨hg.known r hr, fun _ => living_of_mem hr⟩
  | inr hr => exact ⟨hg.allocated (hlive r hr), fun _ => hlive r hr⟩

/-- Other things are held, and nothing else but the objects of `L` stays in hand. -/
theorem Good.rehold (hg : h.Good K)
    (hk : ∃ roots pins, k = { h with roots := roots, pins := pins })
    (hheld : ∀ r ∈ k.heldRefs, h.Living K r) (hL : ∀ r ∈ L, h.Living K r) :
    k.Good (k.heldRefs ∪ L) := by
  obtain ⟨roots, pins, rfl⟩ := hk
  have hvs : ∀ v ∈ roots ++ pins.flatten, h.Knows K v := by
    intro v hv r hr
    refine hheld r (mem_heldRefs.mpr ?_)
    cases List.mem_append.mp hv with
    | inl hv => exact .inl ⟨v, hv, hr⟩
    | inr hv =>
      obtain ⟨vs, hvs, hv⟩ := List.mem_flatten.mp hv
      exact .inr ⟨vs, hvs, v, hv, hr⟩
  refine (hg.hold hvs).focus ?_ fun r hr => .inl hr
  rintro r (hr | hr)
  · exact living_of_mem (.inr hr)
  · exact (hL r hr).mono Set.subset_union_left

/-- One operation keeps the invariant. -/
theorem Good.op {s s' : Scene} (hg : s.1.Good s.2) (hop : Op s s') : s'.1.Good s'.2 := by
  cases hop with
  | focus hL hheld => exact hg.focus hL hheld
  | newDict c hslots hparent hscope hcaller htarget =>
    exact hg.newDict hslots hparent hscope hcaller htarget
  | newList vs hvs => exact hg.newList hvs
  | newNative x hx => exact hg.newNative hx
  | newBlock b =>
    exact hg.step (fun _ hr => hr) (fun _ _ hr => .inl hr)
      (fun r hr => ⟨hg.known r hr, fun _ => living_of_mem hr⟩) hg.held hg.wellFormed.views
      hg.wellFormed.ordinary (fun d p hp => ⟨hg.parents d p hp, fun _ => ⟨hp, rfl⟩⟩) hg.callers
  | pushItem l v hl hv => exact hg.pushItem hl hv
  | put d n v hd hv hn => exact hg.put hd hv hn
  | erase d n hd => exact hg.erase hd
  | setParent d p htight hd hp hchain => exact hg.setParent htight hd hp hchain
  | attach d p declared hd hp hne hnone => exact hg.attach hd hp hne hnone
  | unparent d hd => exact hg.unparent hd
  | setCaller d c hd hc => exact hg.setCaller hd hc
  | setName d n hd => exact hg.setName hd n
  | setTag d t hd => exact hg.setTag hd t
  | hold roots pins hvs => exact hg.hold hvs

/-- Any number of operations keep the invariant. -/
theorem Good.ops {s s' : Scene} (hg : s.1.Good s.2) (hops : Ops s s') : s'.1.Good s'.2 := by
  induction hops with
  | refl => exact hg
  | tail _ hop ih => exact ih.op hop

end DictScript.Heap
