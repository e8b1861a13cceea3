import DictScript.Proofs.Renaming.Writing

/-!
Walks along the parents under other numbers. They have fuel for all dictionaries, which may be more
in the second heap; it makes no difference.
-/
namespace DictScript
open Heap
variable {ws : List (List Value)} {h h' : Heap} {d e p : DictId} {name : String} {m n : Nat}
variable {ρ : Renaming}

namespace Heap

/-! Chains, whether parents lead in a circle or not. -/

theorem mem_chainOf_iff : e ∈ h.chainOf n d ↔ (h.walk (fun x => decide (x = e)) n d).isSome := by
  induction n generalizing d with
  | zero => simp [chainOf, walk]
  | succ n ih =>
    rw [chainOf, walk]
    by_cases hd : d = e
    · cases h.parent d <;> simp [hd]
    · cases hp : h.parent d with
      | none => simp [hd, Ne.symm hd]
      | some p => simp [hd, Ne.symm hd, ih]

theorem chainOf_prefix_of_le (hmn : m ≤ n) : h.chainOf m d <+: h.chainOf n d := by
  induction m generalizing n d with
  | zero => exact List.nil_prefix
  | succ m ih =>
    obtain ⟨n, rfl⟩ := Nat.exists_eq_succ_of_ne_zero (Nat.ne_zero_of_lt hmn)
    rw [chainOf, chainOf]
    cases h.parent d with
    | none => exact List.prefix_refl _
    | some p => exact List.cons_prefix_cons.mpr ⟨rfl, ih (Nat.le_of_succ_le_succ hmn)⟩

namespace Complete
variable (hh : h.Complete)
include hh

theorem mem_chainOf (he : e ∈ h.chainOf n d) : e = d ∨ h.Allocated (.dict e) := by
  induction n generalizing d with
  | zero => cases he
  | succ n ih =>
    rw [chainOf] at he
    cases hp : h.parent d with
    | none =>
      rw [hp] at he
      exact .inl (List.mem_singleton.mp he)
    | some p =>
      rw [hp] at he
      refine (List.mem_cons.mp he).imp_right fun he => ?_
      cases ih he with
      | inl heq => exact heq ▸ hh.inherits hp
      | inr hmade => exact hmade

/-- With fuel for all dictionaries the whole chain is there. -/
theorem mem_chain_of_mem_chainOf (he : e ∈ h.chainOf n d) : e ∈ h.chain d := by
  rw [Heap.chain, mem_chainOf_iff]
  by_cases hmade : h.Allocated (.dict e)
  · have hstop : ∀ x, decide (x = e) = true → h.Allocated (.dict x) :=
      fun x hx => of_decide_eq_true hx ▸ hmade
    rw [walk_eq hstop (Nat.le_succ _)]
    by_cases hn : h.dicts.size ≤ n
    · rwa [mem_chainOf_iff, walk_eq hstop hn] at he
    · have hmem := (chainOf_prefix_of_le (Nat.le_of_not_le hn)).subset he
      rwa [mem_chainOf_iff] at hmem
  · obtain rfl := (hh.mem_chainOf he).resolve_right hmade
    simp [walk]

theorem visibleNames_eq (hn : h.dicts.size < n) (d : DictId) :
    ((h.chainOf n d).flatMap h.names).eraseDups = h.visibleNames d := by
  obtain ⟨more, hmore⟩ := chainOf_prefix_of_le (h := h) (d := d) (Nat.succ_le_of_lt hn)
  have hseen : ((more.flatMap h.names).removeAll ((h.chain d).flatMap h.names)) = [] := by
    refine List.filter_eq_nil_iff.mpr fun name hname => ?_
    obtain ⟨e, he, hname⟩ := List.mem_flatMap.mp hname
    have hmem : e ∈ h.chain d :=
      hh.mem_chain_of_mem_chainOf (n := n) (hmore ▸ List.mem_append_right _ he)
    simpa using ⟨e, hmem, hname⟩
  rw [← hmore, List.flatMap_append, List.eraseDups_append]
  show _ ++ ((more.flatMap h.names).removeAll ((h.chain d).flatMap h.names)).eraseDups = _
  rw [hseen, List.eraseDups_nil, List.append_nil]
  rfl

end Complete
end Heap

namespace Renaming

/-- The second heap has no fewer dictionaries. -/
theorem Objects.size_le (ho : ρ.Objects h h') : h.dicts.size ≤ h'.dicts.size := by
  let f : Fin h.dicts.size → Fin h'.dicts.size :=
    fun i => ⟨(ρ.map ⟨i⟩).index, (ho.allocated_iff (r := .dict ⟨i⟩)).mpr i.isLt⟩
  have hf : Function.Injective f := by
    intro i j hij
    have hindex := congrArg DictId.mk (congrArg Fin.val hij)
    exact Fin.ext (congrArg DictId.index (ρ.injective hindex))
  simpa using Fintype.card_le_of_injective f hf

namespace Heaps
variable (hh : ρ.Heaps ws h h')
include hh

theorem find (d : DictId) (name : String) : h'.find (ρ.map d) name = (h.find d name).map ρ.map := by
  rw [Heap.find, hh.findFrom, findFrom_eq_find (Nat.le_succ_of_le hh.size_le)]

theorem resolve (d : DictId) (name : String) :
    h'.resolve (ρ.map d) name = (h.resolve d name).rename ρ.map := by
  rw [Heap.resolve, Heap.resolve, hh.find]
  cases h.find d name with
  | none => rfl
  | some e => exact hh.get e name

theorem mem_chain : ρ.map e ∈ h'.chain (ρ.map d) ↔ e ∈ h.chain d := by
  rw [Heap.chain, hh.chainOf, List.mem_map_of_injective ρ.injective]
  constructor
  · exact hh.complete.mem_chain_of_mem_chainOf
  · exact fun he => (chainOf_prefix_of_le (Nat.succ_le_succ hh.size_le)).subset he

theorem visibleNames (d : DictId) : h'.visibleNames (ρ.map d) = h.visibleNames d := by
  rw [Heap.visibleNames, Heap.chain, hh.chainOf, List.flatMap_map,
    ← hh.complete.visibleNames_eq (Nat.lt_succ_of_le hh.size_le) d]
  exact congrArg List.eraseDups (List.flatMap_congr fun e _ => hh.names e)

theorem unboundFrom (d : DictId) (name : String) :
    h'.unboundFrom (ρ.map d) name = h.unboundFrom d name := by
  rw [Heap.unboundFrom, Heap.unboundFrom, hh.visibleNames]

/-- Where parents lead nowhere in a circle. -/
theorem anchor (ho : h.Orderly) (d : DictId) : h'.anchor (ρ.map d) = ρ.map (h.anchor d) := by
  have hheight := h.height_le d
  rw [Heap.anchor, hh.anchorFrom, Heap.anchor,
    ho.anchorFrom_eq (Nat.lt_succ_of_le (hheight.trans hh.size_le)) (Nat.lt_succ_of_le hheight)]

end Heaps
end Renaming
end DictScript
