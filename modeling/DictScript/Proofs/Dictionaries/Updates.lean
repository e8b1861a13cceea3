import DictScript.Proofs.Dictionaries.Representation
import DictScript.Proofs.Parents.Cycles

/-!
What an update of a dictionary changes for all the others. Those see it that come to its owner, or
to a view of it, before anything else that has the name; no chain becomes longer or shorter.
-/
namespace DictScript
open Heap
variable {h k : Heap} {d e a o p : DictId} {m n name : String} {v : Value} {f : Slots → Slots}
variable {xs : List (String × Value)}

/-! Slots. -/

theorem lookup_filter_ne :
    (xs.filter fun x => x.1 ≠ name).lookup n = if n = name then none else xs.lookup n := by
  induction xs with
  | nil => simp
  | cons x xs ih =>
    obtain ⟨k, w⟩ := x
    by_cases hk : k = name
    · subst hk
      rw [List.filter_cons_of_neg (by simp), ih, lookup_cons_eq]
      split <;> simp_all
    · rw [List.filter_cons_of_pos (by simpa using hk), lookup_cons_eq, lookup_cons_eq, ih]
      by_cases hn : n = k
      · subst hn
        simp [hk]
      · simp [hn]

/-- A name that is there keeps its place. -/
theorem names_putSlot_of_mem (hn : name ∈ xs.map Prod.fst) :
    (putSlot name v xs).map Prod.fst = xs.map Prod.fst := by
  induction xs with
  | nil => exact (List.not_mem_nil hn).elim
  | cons x xs ih =>
    rw [putSlot]
    split
    · rfl
    · rename_i hne
      have hrest := ih ((List.mem_cons.mp hn).resolve_left (Ne.symm hne))
      rw [List.map_cons, List.map_cons, hrest]

namespace Heap

def withSlots (h : Heap) (o : DictId) (f : Slots → Slots) : Heap :=
  h.modifyCell o fun c => { c with slots := f c.slots }

def KeepsAlive (h k : Heap) : Prop :=
  ∀ p, h.Allocated (.dict p) → h.alive p = true → k.alive p = true

def ShowsSlotsOf (h : Heap) (a o : DictId) : Prop := a = o ∨ (h.cell a).target = some o

instance (h : Heap) (a o : DictId) : Decidable (h.ShowsSlotsOf a o) :=
  inferInstanceAs (Decidable (_ ∨ _))

theorem showsSlotsOf_owner_iff (hw : h.WellFormed) :
    h.ShowsSlotsOf a (h.owner d) ↔ h.owner a = h.owner d := by
  constructor
  · rintro (rfl | ha)
    · exact hw.views d
    · rw [owner, ha, Option.getD_some]
  · intro ha
    cases htarget : (h.cell a).target with
    | none =>
      rw [owner, htarget, Option.getD_none] at ha
      exact .inl ha
    | some t =>
      rw [owner, htarget, Option.getD_some] at ha
      exact .inr (ha ▸ htarget)

/-! Chains and what is found on them. -/

theorem chainOf_congr (hparent : ∀ e, k.parent e = h.parent e) (fuel : Nat) (e : DictId) :
    k.chainOf fuel e = h.chainOf fuel e := by
  induction fuel generalizing e with
  | zero => rfl
  | succ fuel ih => simp only [chainOf, hparent, ih]

theorem findFrom_eq_find? (h : Heap) (name : String) (fuel : Nat) (d : DictId) :
    h.findFrom name fuel d = (h.chainOf fuel d).find? fun a => h.holds a name := by
  induction fuel generalizing d with
  | zero => rfl
  | succ fuel ih =>
    rw [findFrom, chainOf]
    cases hp : h.parent d with
    | none =>
      split
      · rw [List.find?_cons_of_pos ‹_›]
      · rw [List.find?_cons_of_neg ‹_›, List.find?_nil]
    | some p =>
      split
      · rw [List.find?_cons_of_pos ‹_›]
      · rw [List.find?_cons_of_neg ‹_›]
        exact ih p

/-- The first on the chain is found. -/
theorem find_eq_find? (h : Heap) (d : DictId) (name : String) :
    h.find d name = (h.chain d).find? fun a => h.holds a name :=
  h.findFrom_eq_find? name _ d

/-! Slots that are rewritten, in a heap in which chains end. The new slots hold nothing that does
not live anyway, and nothing that lived has lost its last owner. -/

section
variable (hg : h.Good h.heldRefs) (hd : h.Allocated (.dict d))
include hg hd

theorem owner_withSlots (e : DictId) : (h.withSlots (h.owner d) f).owner e = h.owner e := by
  have htarget : ((h.withSlots (h.owner d) f).cell e).target = (h.cell e).target := by
    rw [withSlots, cell_modifyCell (allocated_owner hg.wellFormed hd)]
    split
    · rename_i heq
      rw [heq]
    · rfl
  rw [owner, htarget, owner]

theorem slots_withSlots (e : DictId) : (h.withSlots (h.owner d) f).slots e =
    if h.owner e = h.owner d then (f (h.cell (h.owner d)).slots).toList else h.slots e := by
  rw [slots, owner_withSlots hg hd, withSlots,
    cell_modifyCell (allocated_owner hg.wellFormed hd)]
  split <;> rfl

variable (hslots : ∀ x ∈ (f (h.cell (h.owner d)).slots).toList,
    x ∈ (h.cell (h.owner d)).slots.toList ∨ Key.of x.1 = .slot x.1 ∧ h.Knows h.heldRefs x.2)
  (hkeep : h.KeepsAlive (h.withSlots (h.owner d) f))
include hslots

theorem good_withSlots : (h.withSlots (h.owner d) f).Good h.heldRefs :=
  hg.modifyCell (allocated_owner hg.wellFormed hd) hslots (fun _ hp => hp)
    (fun c => hg.callers _ c) rfl rfl

/-- What lives now lived before. -/
theorem alive_of_withSlots (hp : h.Allocated (.dict p))
    (halive : (h.withSlots (h.owner d) f).alive p = true) : h.alive p = true := by
  have hg' := good_withSlots hg hd hslots
  have hp' : (h.withSlots (h.owner d) f).Allocated (.dict p) := by
    simpa [Allocated, withSlots, Heap.modifyCell] using hp
  have howner := allocated_owner hg.wellFormed hd
  refine (alive_iff hg.wellFormed.closed (fun r hr => hg.known r (hg.held r hr)) hp).mpr ?_
  refine (hg'.living_of_alive hp' halive).back (fun s hs _ => living_of_mem hs)
    (fun r s hs _ => ?_) hp
  cases r with
  | list l => exact .inl hs
  | native x => exact .inl hs
  | dict c =>
    rw [owned, withSlots, cell_modifyCell howner] at hs
    split at hs
    · rename_i heq
      subst heq
      obtain ⟨x, hx, hs⟩ | hold :=
        DictCell.mem_slot_or_refs (c := h.cell (h.owner d)) (by rfl) (by rfl) hs
      · cases hslots x hx with
        | inl hx => exact .inl (DictCell.mem_refs_of_slot hx hs)
        | inr hx => exact .inr (hx.2 s hs)
      · exact .inl hold
    · exact .inl hs

include hkeep

theorem parent_withSlots (e : DictId) : (h.withSlots (h.owner d) f).parent e = h.parent e := by
  have hcell : ((h.withSlots (h.owner d) f).cell e).parent = (h.cell e).parent ∧
      ((h.withSlots (h.owner d) f).cell e).scope = (h.cell e).scope := by
    rw [withSlots, cell_modifyCell (allocated_owner hg.wellFormed hd)]
    split
    · rename_i heq
      rw [heq]
      exact ⟨rfl, rfl⟩
    · exact ⟨rfl, rfl⟩
  rw [parent, parent, hcell.1, hcell.2]
  cases hp : (h.cell e).parent with
  | none => rfl
  | some p =>
    have halive : (h.withSlots (h.owner d) f).alive p = h.alive p :=
      Bool.eq_iff_iff.mpr ⟨alive_of_withSlots hg hd hslots (hg.parents e p hp),
        hkeep p (hg.parents e p hp)⟩
    rw [Option.filter_some, Option.filter_some, halive]

theorem chain_withSlots (e : DictId) : (h.withSlots (h.owner d) f).chain e = h.chain e := by
  have hsize : (h.withSlots (h.owner d) f).dicts.size = h.dicts.size := by
    simp [withSlots, Heap.modifyCell]
  rw [chain, chain, hsize]
  exact chainOf_congr (parent_withSlots hg hd hslots hkeep) _ e

end

end Heap

/-! Names of slots. -/

theorem Key.of_not_reserved (hn : ¬ IsReserved n) : Key.of n = .slot (canonical n) := by
  obtain ⟨n', hn'⟩ := exists_slot_of_not_reserved hn
  simp only [Key.of] at hn' ⊢
  split at hn'
  · cases hn'
  · split at hn'
    · cases hn'
    · simp [*]

/-! Walks that look for less. -/

theorem find?_eq_none_of_imp {α : Type} {xs : List α} {P Q : α → Bool}
    (hQP : ∀ a, Q a = true → P a = true) (hP : xs.find? P = none) : xs.find? Q = none := by
  rw [List.find?_eq_none] at hP ⊢
  exact fun a ha hQ => hP a ha (hQP a hQ)

theorem find?_eq_some_of_imp {α : Type} {xs : List α} {P Q : α → Bool} {a : α}
    (hQP : ∀ a, Q a = true → P a = true) (hP : xs.find? P = some a) (ha : Q a = true) :
    xs.find? Q = some a := by
  rw [List.find?_eq_some_iff_append] at hP ⊢
  obtain ⟨-, before, behind, hxs, hbefore⟩ := hP
  refine ⟨ha, before, behind, hxs, fun b hb => ?_⟩
  have hPb := hbefore b hb
  rw [Bool.not_eq_true'] at hPb ⊢
  exact Bool.eq_false_iff.mpr fun hQ => by simp [hQP b hQ] at hPb

namespace Heap

theorem holds_of_key (hm : ¬ IsReserved m) :
    h.holds e m = ((h.slots e).lookup (canonical m)).isSome := by
  simp only [holds, Key.of_not_reserved hm]

theorem get_of_key (hm : ¬ IsReserved m) :
    h.get e m = ((h.slots e).lookup (canonical m)).getD .nil := by
  simp only [get, Key.of_not_reserved hm]

/-- Where everyone holds and has the same, the same is resolved. -/
theorem resolve_congr (hchain : k.chain e = h.chain e) (hholds : ∀ a, k.holds a m = h.holds a m)
    (hget : ∀ a, k.get a m = h.get a m) : k.resolve e m = h.resolve e m := by
  rw [resolve, resolve, find_eq_find?, find_eq_find?, hchain]
  simp only [hholds, hget]

theorem define_eq_withSlots (h : Heap) (d : DictId) (hn : ¬ IsReserved n) (v : Value) :
    h.define d n v = (.ok (), h.withSlots (h.owner d) fun s => s.put (canonical n) v) := by
  unfold define
  simp only [Key.of_not_reserved hn]
  rfl

theorem remove_eq_withSlots (h : Heap) (d : DictId) (hn : ¬ IsReserved n) :
    h.remove d n = (h.withSlots (h.owner d) fun s => s.erase (canonical n), h.get d n) := by
  unfold remove
  simp only [Key.of_not_reserved hn]
  rfl

/-! One slot is rewritten: it has `w` then, or is not there. -/

section
variable {w : Option Value} {key : String} (hg : h.Good h.heldRefs) (hd : h.Allocated (.dict d))
  (hf : ∀ s name, (f s).toList.lookup name = if name = key then w else s.toList.lookup name)
include hg hd hf

theorem lookup_withSlots (e : DictId) (name : String) :
    ((h.withSlots (h.owner d) f).slots e).lookup name =
      if h.owner e = h.owner d ∧ name = key then w else (h.slots e).lookup name := by
  rw [slots_withSlots hg hd]
  by_cases ho : h.owner e = h.owner d
  · rw [if_pos ho, hf]
    simp only [ho, true_and, slots]
  · simp only [ho, false_and, if_false]

theorem holds_withSlots (hm : ¬ IsReserved m) (e : DictId) :
    (h.withSlots (h.owner d) f).holds e m =
      if h.owner e = h.owner d ∧ canonical m = key then w.isSome else h.holds e m := by
  rw [holds_of_key hm, holds_of_key hm, lookup_withSlots hg hd hf]
  split <;> rfl

theorem get_withSlots (hm : ¬ IsReserved m) (e : DictId) :
    (h.withSlots (h.owner d) f).get e m =
      if h.owner e = h.owner d ∧ canonical m = key then w.getD .nil else h.get e m := by
  rw [get_of_key hm, get_of_key hm, lookup_withSlots hg hd hf]
  split <;> rfl

theorem resolve_withSlots_of_ne (hchain : (h.withSlots (h.owner d) f).chain e = h.chain e)
    (hm : ¬ IsReserved m) (hne : canonical m ≠ key) :
    (h.withSlots (h.owner d) f).resolve e m = h.resolve e m := by
  refine resolve_congr hchain (fun a => ?_) fun a => ?_
  · rw [holds_withSlots hg hd hf hm, if_neg fun heq => hne heq.2]
  · rw [get_withSlots hg hd hf hm, if_neg fun heq => hne heq.2]

end

/-- A definition is seen where the owner comes first. -/
theorem Good.resolve_define (hg : h.Good h.heldRefs) (hd : h.Allocated (.dict d))
    (hv : h.Knows h.heldRefs v) (hn : ¬ IsReserved n)
    (hkeep : h.KeepsAlive (h.define d n v).2) :
    (∀ e, (h.define d n v).2.chain e = h.chain e) ∧
    (∀ e m a, ¬ IsReserved m → canonical m = canonical n →
      ((h.chain e).find? fun a => (h.define d n v).2.holds a n) = some a →
      h.ShowsSlotsOf a (h.owner d) → (h.define d n v).2.resolve e m = v) ∧
    (∀ e m, ¬ IsReserved m →
      ¬ (canonical m = canonical n ∧
        ∃ a, ((h.chain e).find? fun a => (h.define d n v).2.holds a n) = some a ∧
          h.ShowsSlotsOf a (h.owner d)) →
      (h.define d n v).2.resolve e m = h.resolve e m) := by
  have hput : ∀ (s : Slots) name, (s.put (canonical n) v).toList.lookup name =
      if name = canonical n then some v else s.toList.lookup name := fun s name => lookup_putSlot
  have hslots : ∀ x ∈ ((h.cell (h.owner d)).slots.put (canonical n) v).toList,
      x ∈ (h.cell (h.owner d)).slots.toList ∨ Key.of x.1 = .slot x.1 ∧ h.Knows h.heldRefs x.2 := by
    intro x hx
    refine (mem_of_mem_putSlot hx).imp_right ?_
    rintro rfl
    exact ⟨Key.of_eq_slot (Key.of_not_reserved hn), hv⟩
  rw [define_eq_withSlots h d hn v] at hkeep ⊢
  have hchain := chain_withSlots hg hd hslots hkeep
  have hholds := fun m hm => holds_withSlots (m := m) hg hd hput hm
  have hget := fun m hm => get_withSlots (m := m) hg hd hput hm
  have hother := fun e m => resolve_withSlots_of_ne (e := e) (m := m) hg hd hput (hchain e)
  simp only
  generalize (h.withSlots (h.owner d) fun s => s.put (canonical n) v) = k at *
  -- what is found under `m` is the first that holds `n` now
  have hfind : ∀ e m, ¬ IsReserved m → canonical m = canonical n →
      k.find e m = (h.chain e).find? fun a => k.holds a n := by
    intro e m hm heq
    have hkey : Key.of m = Key.of n := by rw [Key.of_not_reserved hm, Key.of_not_reserved hn, heq]
    rw [find_eq_find?, hchain]
    simp only [(k.synonyms hkey _).holds]
  refine ⟨hchain, fun e m a hm heq ha hshows => ?_, fun e m hm hnot => ?_⟩
  · have howner := (showsSlotsOf_owner_iff hg.wellFormed).mp hshows
    rw [resolve, hfind e m hm heq, ha, Option.map_some, Option.getD_some, hget m hm,
      if_pos ⟨howner, heq⟩, Option.getD_some]
  · by_cases heq : canonical m = canonical n
    · have hless : ∀ a, h.holds a m = true → k.holds a m = true := by
        intro a ha
        rw [hholds m hm]
        split
        · rfl
        · exact ha
      have hwalk := find_eq_find? k e m
      rw [hchain] at hwalk
      rw [resolve, resolve, find_eq_find? h]
      cases hfirst : k.find e m with
      | none => rw [find?_eq_none_of_imp hless (hwalk.symm.trans hfirst)]; rfl
      | some a =>
        have howner : h.owner a ≠ h.owner d := fun ho =>
          hnot ⟨heq, a, hfind e m hm heq ▸ hfirst, (showsSlotsOf_owner_iff hg.wellFormed).mpr ho⟩
        have ha : h.holds a m = true := by
          have hk := List.find?_some (hwalk.symm.trans hfirst)
          rwa [hholds m hm, if_neg fun hboth => howner hboth.1] at hk
        rw [find?_eq_some_of_imp hless (hwalk.symm.trans hfirst) ha, Option.map_some,
          Option.map_some, hget m hm, if_neg fun hboth => howner hboth.1]
    · exact hother e m hm heq

/-- After a removal the owner and its views are passed by. -/
theorem Good.resolve_remove (hg : h.Good h.heldRefs) (hd : h.Allocated (.dict d))
    (hn : ¬ IsReserved n) (hkeep : h.KeepsAlive (h.remove d n).1) :
    (∀ e, (h.remove d n).1.chain e = h.chain e) ∧
    (∀ e m, ¬ IsReserved m → canonical m = canonical n →
      (h.remove d n).1.resolve e m =
        (((h.chain e).find? fun a => h.holds a n && !decide (h.ShowsSlotsOf a (h.owner d))).map
          fun a => h.get a n).getD .nil) ∧
    (∀ e m, ¬ IsReserved m → canonical m ≠ canonical n →
      (h.remove d n).1.resolve e m = h.resolve e m) := by
  have herase : ∀ (s : Slots) name, (s.erase (canonical n)).toList.lookup name =
      if name = canonical n then none else s.toList.lookup name := fun s name => lookup_filter_ne
  have hslots : ∀ x ∈ ((h.cell (h.owner d)).slots.erase (canonical n)).toList,
      x ∈ (h.cell (h.owner d)).slots.toList ∨ Key.of x.1 = .slot x.1 ∧ h.Knows h.heldRefs x.2 :=
    fun x hx => .inl (List.mem_of_mem_filter hx)
  rw [remove_eq_withSlots h d hn] at hkeep ⊢
  have hchain := chain_withSlots hg hd hslots hkeep
  have hholds := fun m hm => holds_withSlots (m := m) hg hd herase hm
  have hget := fun m hm => get_withSlots (m := m) hg hd herase hm
  have hother := fun e m => resolve_withSlots_of_ne (e := e) (m := m) hg hd herase (hchain e)
  simp only
  generalize (h.withSlots (h.owner d) fun s => s.erase (canonical n)) = k at *
  refine ⟨hchain, fun e m hm heq => ?_, fun e m => hother e m⟩
  have hkey : Key.of m = Key.of n := by rw [Key.of_not_reserved hm, Key.of_not_reserved hn, heq]
  have hleft : (fun a => k.holds a m) =
      fun a => h.holds a n && !decide (h.ShowsSlotsOf a (h.owner d)) := by
    funext a
    rw [hholds m hm, (h.synonyms hkey a).holds]
    by_cases ho : h.owner a = h.owner d
    · simp [ho, heq, showsSlotsOf_owner_iff hg.wellFormed]
    · simp [ho, showsSlotsOf_owner_iff hg.wellFormed]
  rw [resolve, find_eq_find?, hchain, hleft]
  cases hfirst : (h.chain e).find? fun a =>
      h.holds a n && !decide (h.ShowsSlotsOf a (h.owner d)) with
  | none => rfl
  | some a =>
    have ha := List.find?_some hfirst
    rw [Bool.and_eq_true, Bool.not_eq_true', decide_eq_false_iff_not,
      showsSlotsOf_owner_iff hg.wellFormed] at ha
    rw [Option.map_some, Option.map_some, hget m hm, if_neg fun hboth => ha.2 hboth.1,
      (h.synonyms hkey a).get]

/-! The order of the names. -/

theorem names_define (hg : h.Good h.heldRefs) (hd : h.Allocated (.dict d)) (hn : ¬ IsReserved n)
    (v : Value) : (h.define d n v).2.names d =
      if canonical n ∈ h.names d then h.names d else h.names d ++ [canonical n] := by
  rw [define_eq_withSlots h d hn v, names, slots_withSlots hg hd, if_pos rfl]
  split
  · rename_i hmem
    exact names_putSlot_of_mem hmem
  · rename_i hmem
    have hlast := putSlot_of_not_mem (v := v) hmem
    exact (congrArg (List.map Prod.fst) hlast).trans (List.map_append ..)

theorem names_remove (hg : h.Good h.heldRefs) (hd : h.Allocated (.dict d)) (hn : ¬ IsReserved n) :
    (h.remove d n).1.names d = (h.names d).filter fun m => m ≠ canonical n := by
  rw [remove_eq_withSlots h d hn, names, slots_withSlots hg hd, if_pos rfl, names, List.filter_map]
  rfl

theorem slots_define_ne (hg : h.Good h.heldRefs) (hd : h.Allocated (.dict d))
    (hn : ¬ IsReserved n) (v : Value) (he : h.owner e ≠ h.owner d) :
    (h.define d n v).2.slots e = h.slots e := by
  rw [define_eq_withSlots h d hn v, slots_withSlots hg hd, if_neg he]

theorem slots_remove_ne (hg : h.Good h.heldRefs) (hd : h.Allocated (.dict d))
    (hn : ¬ IsReserved n) (he : h.owner e ≠ h.owner d) :
    (h.remove d n).1.slots e = h.slots e := by
  rw [remove_eq_withSlots h d hn, slots_withSlots hg hd, if_neg he]

/-- In a heap in which chains end, for a value whose objects live. A definition is resolved wherever
the first on the chain that holds the name now shows the slots it was made in, and nowhere else is
anything resolved differently. After a removal the walk goes on past all that show those slots. For
both, as long as the value that was there before was not what kept a dictionary alive. A name that
is there keeps its place, a new one comes last, and a removal keeps the others in order. -/
theorem Good.resolve_updated (hg : h.Good h.heldRefs) (hd : h.Allocated (.dict d))
    (hv : h.Knows h.heldRefs v) (hn : ¬ IsReserved n) :
    (h.define d n v).1 = .ok () ∧ (h.remove d n).2 = h.get d n ∧
    (h.KeepsAlive (h.define d n v).2 →
      (∀ e, (h.define d n v).2.chain e = h.chain e) ∧
      (∀ e m a, ¬ IsReserved m → canonical m = canonical n →
        ((h.chain e).find? fun a => (h.define d n v).2.holds a n) = some a →
        h.ShowsSlotsOf a (h.owner d) → (h.define d n v).2.resolve e m = v) ∧
      (∀ e m, ¬ IsReserved m →
        ¬ (canonical m = canonical n ∧
          ∃ a, ((h.chain e).find? fun a => (h.define d n v).2.holds a n) = some a ∧
            h.ShowsSlotsOf a (h.owner d)) →
        (h.define d n v).2.resolve e m = h.resolve e m)) ∧
    (h.KeepsAlive (h.remove d n).1 →
      (∀ e, (h.remove d n).1.chain e = h.chain e) ∧
      (∀ e m, ¬ IsReserved m → canonical m = canonical n →
        (h.remove d n).1.resolve e m =
          (((h.chain e).find? fun a => h.holds a n && !decide (h.ShowsSlotsOf a (h.owner d))).map
            fun a => h.get a n).getD .nil) ∧
      (∀ e m, ¬ IsReserved m → canonical m ≠ canonical n →
        (h.remove d n).1.resolve e m = h.resolve e m)) ∧
    (h.define d n v).2.names d =
      (if canonical n ∈ h.names d then h.names d else h.names d ++ [canonical n]) ∧
    (h.remove d n).1.names d = ((h.names d).filter fun m => m ≠ canonical n) ∧
    (∀ e, ¬ h.ShowsSlotsOf e (h.owner d) →
      (h.define d n v).2.slots e = h.slots e ∧ (h.remove d n).1.slots e = h.slots e) := by
  refine ⟨?_, ?_, hg.resolve_define hd hv hn, hg.resolve_remove hd hn, names_define hg hd hn v,
    names_remove hg hd hn, fun e he => ?_⟩
  · rw [define_eq_withSlots h d hn]
  · rw [remove_eq_withSlots h d hn]
  · have howner := mt (showsSlotsOf_owner_iff hg.wellFormed).mpr he
    exact ⟨slots_define_ne hg hd hn v howner, slots_remove_ne hg hd hn howner⟩

end Heap

def Interpreter.bound : Heap :=
  let o := HostOp.define ⟨0⟩ "x" (.bool false)
  (o.run withChild).1.keep (o.run withChild).2

def Interpreter.shadowed : Heap :=
  let o := HostOp.define ⟨20⟩ "x" (.bool true)
  (o.run bound).1.keep (o.run bound).2

theorem Reachable.shadowed :
    Reachable (Interpreter.standard 100).runtime Interpreter.shadowed := by
  have hheld : ∀ {h : Heap} {d : DictId} {b : Bool}, .dict d ∈ h.heldRefs →
      ∀ v ∈ (HostOp.define d "x" (.bool b)).held, Has h.heldRefs v := by
    intro h d b hd v hv
    simp only [HostOp.held, List.mem_cons, List.not_mem_nil, or_false] at hv
    obtain rfl | rfl := hv
    · exact has_dict.mpr hd
    · exact has_of_refs rfl
  have hchild : Ref.dict ⟨20⟩ ∈ Interpreter.bound.held := by decide +kernel
  have hroot := Reachable.withChild.root_held (Interpreter.lawful_standard 100)
  have hbound : Reachable (Interpreter.standard 100).runtime Interpreter.bound :=
    .change (.define ⟨0⟩ "x" (.bool false)) .withChild (hheld hroot) trivial
  exact .change (.define ⟨20⟩ "x" (.bool true)) hbound (hheld hchild) trivial

/-- The child's own slot is the one that is overwritten, and the root's shows when it is removed. -/
theorem Heap.Good.resolve_updated_shadowed :
    (Interpreter.shadowed.define ⟨20⟩ "x" (.str "new")).2.resolve ⟨20⟩ "x" = .str "new" ∧
    (Interpreter.shadowed.define ⟨20⟩ "x" (.str "new")).2.resolve ⟨0⟩ "x" =
      Interpreter.shadowed.resolve ⟨0⟩ "x" ∧
    (Interpreter.shadowed.remove ⟨20⟩ "x").1.resolve ⟨20⟩ "x" =
      Interpreter.shadowed.get ⟨0⟩ "x" := by
  have hg := (Reachable.shadowed.kept (Interpreter.lawful_standard 100)).good
  have hd : Interpreter.shadowed.Allocated (.dict ⟨20⟩) := by decide +kernel
  have hx : ¬ IsReserved "x" := fun hx => hx "x" (by decide)
  have hsize : Interpreter.shadowed.dicts.size = 21 := by decide +kernel
  have hdefine : ∀ i < 21, Interpreter.shadowed.alive ⟨i⟩ = true →
      (Interpreter.shadowed.define ⟨20⟩ "x" (.str "new")).2.alive ⟨i⟩ = true := by decide +kernel
  have hremove : ∀ i < 21, Interpreter.shadowed.alive ⟨i⟩ = true →
      (Interpreter.shadowed.remove ⟨20⟩ "x").1.alive ⟨i⟩ = true := by decide +kernel
  obtain ⟨-, -, hdefined, hremoved, -⟩ := hg.resolve_updated (v := .str "new") hd
    (fun r hr => (List.not_mem_nil hr).elim) hx
  obtain ⟨-, hseen, hunseen⟩ := hdefined fun p hp => hdefine p.index (hsize ▸ hp)
  obtain ⟨-, hpassed, -⟩ := hremoved fun p hp => hremove p.index (hsize ▸ hp)
  refine ⟨hseen ⟨20⟩ "x" ⟨20⟩ hx rfl (by decide +kernel) (by decide +kernel),
    hunseen ⟨0⟩ "x" hx ?_, (hpassed ⟨20⟩ "x" hx rfl).trans ?_⟩
  · rintro ⟨-, a, ha, hshows⟩
    have hfirst : ((Interpreter.shadowed.chain ⟨0⟩).find? fun a =>
        (Interpreter.shadowed.define ⟨20⟩ "x" (.str "new")).2.holds a "x") = some ⟨0⟩ := by
      decide +kernel
    obtain rfl := Option.some.inj (hfirst.symm.trans ha)
    exact absurd hshows (by decide +kernel)
  · have hfirst : ((Interpreter.shadowed.chain ⟨20⟩).find? fun a =>
        Interpreter.shadowed.holds a "x" && !decide (Interpreter.shadowed.ShowsSlotsOf a
          (Interpreter.shadowed.owner ⟨20⟩))) = some ⟨0⟩ := by decide +kernel
    rw [hfirst, Option.map_some, Option.getD_some]

end DictScript
