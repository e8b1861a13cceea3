import DictScript.Proofs.Calls.Writing
import DictScript.Proofs.Dictionaries.Updates

/-!
Slots that get other values. No name comes or goes, and what is written was alive before, so a
lookup finds the dictionary it found before, unless one on its way has died.
-/
namespace DictScript.Heap
open Relation
variable {g h k : Heap} {c d e o p : DictId} {n m : String} {v : Value} {r : Ref}
variable {xs : List (String × Value)}

theorem exists_hold_eq (h : Heap) (v : Value) :
    ∃ vs rest, h.hold v = { h with pins := (v :: vs) :: rest } := by
  rw [hold]
  split
  · exact ⟨_, _, rfl⟩
  · exact ⟨_, _, rfl⟩

theorem Complete.hold (hh : h.Complete) (hv : ∀ r ∈ v.refs, h.Allocated r) :
    (h.hold v).Complete := by
  have hheld : ∀ r ∈ (h.hold v).heldRefs, h.Allocated r :=
    fun r hr => (mem_heldRefs_hold hr).elim (hh.held r) (hv r)
  obtain ⟨vs, rest, hheap⟩ := h.exists_hold_eq v
  rw [hheap] at hheld ⊢
  exact ⟨hheld, hh.owned, hh.parent, hh.caller⟩

theorem living_hold (h : Heap) (d : DictId) :
    (h.hold (.dict d)).Living (h.hold (.dict d)).heldRefs (.dict d) := by
  obtain ⟨vs, rest, hheap⟩ := h.exists_hold_eq (.dict d)
  rw [hheap]
  exact living_of_mem (mem_heldRefs.mpr (.inr
    ⟨_, List.mem_cons_self, _, List.mem_cons_self, List.mem_singleton_self _⟩))

/-- What the slots of a dictionary that lives refer to lives as well. -/
theorem knows_slots (hd : h.Living h.heldRefs (.dict d)) {x : String × Value}
    (hx : x ∈ h.slots d) : h.Knows h.heldRefs x.2 :=
  fun _ hr => (Good.living_owner hd).owned (DictCell.mem_refs_of_slot hx hr)

theorem slots_put (ho : h.Allocated (.dict (h.owner o))) (n : String) (v : Value) (c : DictId) :
    (h.put o n v).slots c =
      if h.owner c = h.owner o then putSlot n v (h.slots c) else h.slots c := by
  rw [slots, owner_put, cell_put ho, slots]
  split <;> rfl

theorem lookup_put (ho : h.Allocated (.dict (h.owner o))) (v : Value) (c : DictId) :
    ((h.put o n v).slots c).lookup m =
      if h.owner c = h.owner o ∧ m = n then some v else (h.slots c).lookup m := by
  rw [slots_put ho]
  by_cases hc : h.owner c = h.owner o
  · rw [if_pos hc, lookup_putSlot]
    simp only [hc, true_and]
  · rw [if_neg hc, if_neg fun hboth => hc hboth.1]

structure Rewritten (h k : Heap) : Prop where
  size : k.dicts.size = h.dicts.size
  lists : k.lists = h.lists
  natives : k.natives = h.natives
  roots : k.roots = h.roots
  pins : k.pins = h.pins
  cell : ∀ c, k.cell c = { h.cell c with slots := (k.cell c).slots }
  names : ∀ c, k.names c = h.names c
  known : ∀ c, ∀ r ∈ (k.cell c).refs, r ∈ (h.cell c).refs ∨ h.Living h.heldRefs r

def KeepsChain (h k : Heap) (d : DictId) : Prop :=
  ∀ p, ReflTransGen h.Inherits d p → h.alive p = true → k.alive p = true

namespace Rewritten

theorem refl (h : Heap) : h.Rewritten h :=
  ⟨rfl, rfl, rfl, rfl, rfl, fun _ => rfl, fun _ => rfl, fun _ _ hr => .inl hr⟩

variable (hk : h.Rewritten k)
include hk

theorem allocated_iff : k.Allocated r ↔ h.Allocated r := by
  cases r <;> simp only [Allocated, hk.size, hk.lists, hk.natives]

theorem heldRefs : k.heldRefs = h.heldRefs := by
  ext r
  rw [mem_heldRefs, mem_heldRefs, hk.roots, hk.pins]

theorem owner (c : DictId) : k.owner c = h.owner c := by
  rw [Heap.owner, hk.cell, Heap.owner]

theorem owned (o : Ref) : ∀ r ∈ k.owned o, r ∈ h.owned o ∨ h.Living h.heldRefs r := by
  cases o with
  | dict c => exact hk.known c
  | list l =>
    intro r hr
    rw [Heap.owned, items_congr hk.lists] at hr
    exact .inl hr
  | native x =>
    intro r hr
    rw [Heap.owned, native?, hk.natives] at hr
    exact .inl hr

theorem holds (hn : Key.of n = .slot n) (c : DictId) : k.holds c n = h.holds c n := by
  rw [Bool.eq_iff_iff, ← mem_names_iff hn, hk.names, mem_names_iff hn]

/-- A name that is there gets another value. -/
theorem put (ho : k.Allocated (.dict (k.owner o))) (hn : n ∈ k.names o)
    (hv : h.Knows h.heldRefs v) : h.Rewritten (k.put o n v) where
  size := Array.size_modify.trans hk.size
  lists := hk.lists
  natives := hk.natives
  roots := hk.roots
  pins := hk.pins
  cell c := by
    rw [cell_put ho]
    split
    · rw [hk.cell]
    · exact hk.cell c
  names c := by
    rw [← hk.names, Heap.names, slots_put ho]
    split
    · rename_i heq
      refine names_putSlot_of_mem ?_
      rwa [Heap.names, slots, ← heq] at hn
    · rfl
  known c r hr := by
    rw [cell_put ho] at hr
    split at hr
    · obtain ⟨x, hx, hr⟩ | hold := DictCell.mem_slot_or_refs (c := k.cell c) (by rfl) (by rfl) hr
      · obtain hx | rfl := mem_of_mem_putSlot hx
        · exact hk.known c r (DictCell.mem_refs_of_slot hx hr)
        · exact .inr (hv r hr)
      · exact hk.known c r hold
    · exact hk.known c r hr

variable (hh : h.Complete)
include hh

theorem alive_iff (hp : h.Allocated (.dict p)) :
    k.alive p = true ↔ k.Living h.heldRefs (.dict p) := by
  have hclosed : ∀ r, k.Allocated r → ∀ s ∈ k.owned r, k.Allocated s := by
    intro r hr s hs
    refine hk.allocated_iff.mpr ((hk.owned r s hs).elim (hh.owned r (hk.allocated_iff.mp hr) s) ?_)
    exact hh.allocated_of_living
  have hheld : ∀ r ∈ k.held, k.Allocated r := by
    intro r hr
    have hr : r ∈ k.heldRefs := hr
    rw [hk.heldRefs] at hr
    exact hk.allocated_iff.mpr (hh.held r hr)
  rw [Heap.alive_iff hclosed hheld (hk.allocated_iff.mpr hp), hk.heldRefs]

/-- Nothing begins to live. -/
theorem alive_of_alive (hp : h.Allocated (.dict p)) (halive : k.alive p = true) :
    h.alive p = true := by
  have hliving := (hk.alive_iff hh hp).mp halive
  exact (hh.alive_iff hp).mpr (hliving.back (fun _ hs _ => living_of_mem hs)
    (fun o s hs _ => hk.owned o s hs) hp)

/-- A chain that is held stays. -/
theorem keepsChain (hheld : ∀ p, ReflTransGen h.Inherits d p → .dict p ∈ h.heldRefs) :
    h.KeepsChain k d :=
  fun p hp _ => (hk.alive_iff hh (hh.held _ (hheld p hp))).mpr (living_of_mem (hheld p hp))

theorem parent (hkeep : h.KeepsChain k d) (he : ReflTransGen h.Inherits d e) :
    k.parent e = h.parent e := by
  rw [Heap.parent, hk.cell, Heap.parent]
  cases hp : (h.cell e).parent with
  | none => rfl
  | some p =>
    rw [Option.filter_some, Option.filter_some]
    by_cases hscope : (h.cell e).scope = some p
    · simp only [hscope, decide_true, Bool.true_or]
    · have halive : k.alive p = h.alive p := by
        refine Bool.eq_iff_iff.mpr ⟨hk.alive_of_alive hh (hh.parent e p hp), fun halive => ?_⟩
        refine hkeep p (he.tail ?_) halive
        rw [Inherits, Heap.parent, hp, Option.filter_some, if_pos (by rw [halive, Bool.or_true])]
      rw [halive]

theorem chainOf (hkeep : h.KeepsChain k d) (fuel : Nat) (he : ReflTransGen h.Inherits d e) :
    k.chainOf fuel e = h.chainOf fuel e := by
  induction fuel generalizing e with
  | zero => rfl
  | succ fuel ih =>
    rw [Heap.chainOf, Heap.chainOf, hk.parent hh hkeep he]
    cases hp : h.parent e with
    | none => rfl
    | some p => exact congrArg (e :: ·) (ih (he.tail hp))

theorem chain (hkeep : h.KeepsChain k d) : k.chain d = h.chain d := by
  rw [Heap.chain, Heap.chain, hk.size, hk.chainOf hh hkeep _ .refl]

theorem find (hkeep : h.KeepsChain k d) (hn : Key.of n = .slot n) : k.find d n = h.find d n := by
  rw [find_eq_find?, find_eq_find?, hk.chain hh hkeep]
  simp only [hk.holds hn]

theorem unboundFrom (hkeep : h.KeepsChain k d) (n : String) :
    k.unboundFrom d n = h.unboundFrom d n := by
  have hnames : k.names = h.names := funext hk.names
  rw [Heap.unboundFrom, Heap.unboundFrom, visibleNames, visibleNames, hk.chain hh hkeep, hnames]

end Rewritten

/-! Several names. -/

def rebound (h : Heap) (d : DictId) (xs : List (String × Value)) : Heap :=
  xs.foldl (fun k x => (h.find d x.1).elim k fun o => k.put o x.1 x.2) h

theorem rebound_snoc (ho : h.find d n = some o) :
    h.rebound d (xs ++ [(n, v)]) = (h.rebound d xs).put o n v := by
  rw [rebound, List.foldl_append, List.foldl_cons, List.foldl_nil, ho]
  rfl

theorem holds_of_find (ho : h.find d n = some o) : h.holds o n = true := by
  rw [find_eq_find?] at ho
  simpa using List.find?_some ho

theorem mem_names_of_find (hn : Key.of n = .slot n) (ho : h.find d n = some o) :
    n ∈ h.names o :=
  (mem_names_iff hn).mpr (holds_of_find ho)

section
variable (hh : h.Complete) (hd : h.Allocated (.dict d))
  (hxs : ∀ x ∈ xs, Key.of x.1 = .slot x.1 ∧ h.Knows h.heldRefs x.2)
include hh hd hxs

theorem rewritten_rebound : h.Rewritten (h.rebound d xs) := by
  induction xs using List.reverseRecOn with
  | nil => exact .refl h
  | append_singleton xs x ih =>
    obtain ⟨n, v⟩ := x
    obtain ⟨hxs, hx⟩ := List.forall_mem_append.mp hxs
    obtain ⟨hn, hv⟩ := List.forall_mem_singleton.mp hx
    have hk := ih hxs
    cases ho : h.find d n with
    | none =>
      rw [rebound, List.foldl_append, List.foldl_cons, List.foldl_nil, ho]
      exact hk
    | some o =>
      rw [rebound_snoc ho]
      refine hk.put ?_ ?_ hv
      · rw [hk.allocated_iff, hk.owner]
        exact hh.owner (hh.find hd ho)
      · rw [hk.names]
        exact mem_names_of_find hn ho

/-- In the slots in which a name was found it has its new value. -/
theorem lookup_rebound (hnodup : (xs.map Prod.fst).Nodup) (c : DictId) (m : String) :
    ((h.rebound d xs).slots c).lookup m =
      if (h.find d m).map h.owner = some (h.owner c) then (xs.lookup m).or ((h.slots c).lookup m)
      else (h.slots c).lookup m := by
  induction xs using List.reverseRecOn with
  | nil =>
    split <;> rfl
  | append_singleton xs x ih =>
    obtain ⟨n, v⟩ := x
    obtain ⟨hxs, hx⟩ := List.forall_mem_append.mp hxs
    rw [List.map_append, List.nodup_append] at hnodup
    obtain ⟨hnodup, -, hapart⟩ := hnodup
    have hn : xs.lookup n = none := by
      rw [← Option.not_isSome_iff_eq_none, lookup_isSome_iff]
      exact fun hmem => hapart n hmem n List.mem_cons_self rfl
    have hrest := ih hxs hnodup
    have hk := rewritten_rebound hh hd hxs
    rw [List.lookup_append, lookup_cons_eq]
    cases ho : h.find d n with
    | none =>
      have hsame : h.rebound d (xs ++ [(n, v)]) = h.rebound d xs := by
        rw [rebound, List.foldl_append, List.foldl_cons, List.foldl_nil, ho]
        rfl
      rw [hsame, hrest]
      by_cases hm : m = n
      · subst hm
        rw [ho]
        rfl
      · rw [if_neg hm, List.lookup_nil, Option.or_none]
    | some o =>
      have howner : (h.rebound d xs).Allocated (.dict ((h.rebound d xs).owner o)) := by
        rw [hk.allocated_iff, hk.owner]
        exact hh.owner (hh.find hd ho)
      rw [rebound_snoc ho, lookup_put howner, hk.owner, hk.owner, hrest]
      by_cases hm : m = n
      · subst hm
        by_cases hc : h.owner c = h.owner o
        · rw [if_pos ⟨hc, rfl⟩, if_pos rfl, ho, Option.map_some, if_pos (congrArg some hc.symm), hn]
          rfl
        · have hcond : ¬ some (h.owner o) = some (h.owner c) := fun heq =>
            hc (Option.some.inj heq).symm
          rw [if_neg fun hboth => hc hboth.1, ho, Option.map_some, if_neg hcond, if_neg hcond]
      · rw [if_neg fun hboth => hm hboth.2, if_neg hm, List.lookup_nil, Option.or_none]

end

/-- How an assignment of `xs` from `d` ends. Each name that is bound is rebound where it was found
at first, up to the first name that was not bound then. -/
inductive Assigned (h : Heap) (d : DictId) (xs : List (String × Value)) : Move × Heap → Prop where
  | all : (∀ x ∈ xs, (h.find d x.1).isSome) → Assigned h d xs (.ret .nil, h.rebound d xs)
  | unbound {done rest : List (String × Value)} {n : String} {v : Value} {error : RuntimeError} :
      xs = done ++ (n, v) :: rest → (∀ x ∈ done, (h.find d x.1).isSome) → h.find d n = none →
      error.cause = h.unboundFrom d n → Assigned h d xs (.raise error, h.rebound d done)

section
variable (hh : h.Complete) (hd : h.Allocated (.dict d))
  (hxs : ∀ x ∈ xs, Key.of x.1 = .slot x.1 ∧ h.Knows h.heldRefs x.2)
  (hkeep : ∀ done, done <+: xs → h.KeepsChain (h.rebound d done) d)
include hh hd hxs hkeep

/-- The names in `done` have been rebound, and those in `todo` are left. -/
theorem assigned_rest {done todo : List (String × Value)} (hsplit : xs = done ++ todo)
    (hfound : ∀ x ∈ done, (h.find d x.1).isSome) :
    h.Assigned d xs (assignAll d todo (h.rebound d done)) := by
  induction todo generalizing done with
  | nil =>
    rw [List.append_nil] at hsplit
    exact hsplit ▸ .all (hsplit ▸ hfound)
  | cons x todo ih =>
    obtain ⟨n, v⟩ := x
    have hchain := hkeep done (hsplit ▸ List.prefix_append ..)
    have hk : h.Rewritten (h.rebound d done) :=
      rewritten_rebound hh hd fun x hx => hxs x (hsplit ▸ List.mem_append_left _ hx)
    have hn : Key.of n = .slot n := (hxs (n, v) (by simp [hsplit])).1
    rw [assignAll, hk.find hh hchain hn]
    cases ho : h.find d n with
    | none =>
      refine .unbound hsplit hfound ho ?_
      rw [cause_raisedIn]
      exact hk.unboundFrom hh hchain n
    | some o =>
      show h.Assigned d xs (assignAll d todo ((h.rebound d done).put o n v))
      rw [← rebound_snoc ho]
      refine ih (by rw [hsplit, List.append_assoc]; rfl) ?_
      rw [List.forall_mem_append, List.forall_mem_singleton, ho]
      exact ⟨hfound, rfl⟩

theorem assigned_assignAll : h.Assigned d xs (assignAll d xs h) :=
  assigned_rest hh hd hxs hkeep (List.nil_append xs).symm (List.forall_mem_nil _)

end

end DictScript.Heap
