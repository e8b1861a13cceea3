import DictScript.Proofs.Renaming.Writing

/-!
A heap beside itself with one dictionary more: all that was there keeps its number, and what is made
later comes one number later.
-/
namespace DictScript
open Heap
variable {h : Heap} {f : DictId → DictId} {ρ : Renaming} {c : DictCell} {d : DictId} {n : Nat}

def shift (n : Nat) (d : DictId) : DictId := if d.index < n then d else ⟨d.index + 1⟩

theorem shift_of_lt (hd : d.index < n) : shift n d = d := if_pos hd

theorem shift_of_le (hd : n ≤ d.index) : shift n d = ⟨d.index + 1⟩ := if_neg (Nat.not_lt.mpr hd)

theorem shift_injective (n : Nat) : Function.Injective (shift n) := by
  intro d e heq
  have hindex := congrArg DictId.index heq
  obtain ⟨i⟩ := d
  obtain ⟨j⟩ := e
  unfold shift at hindex
  simp only at hindex
  rw [DictId.mk.injEq]
  split at hindex <;> split at hindex <;> simp only at hindex <;> omega

theorem shift_ne (n : Nat) (d : DictId) : shift n d ≠ ⟨n⟩ := by
  intro heq
  have hindex := congrArg DictId.index heq
  unfold shift at hindex
  split at hindex <;> simp only at hindex <;> omega

theorem exists_shift (hd : d ≠ ⟨n⟩) : ∃ e, d = shift n e := by
  by_cases hlt : d.index < n
  · exact ⟨d, (shift_of_lt hlt).symm⟩
  · have hne : d.index ≠ n := fun heq => hd (heq ▸ rfl)
    refine ⟨⟨d.index - 1⟩, ?_⟩
    rw [shift_of_le (Nat.le_sub_one_of_lt (by omega))]
    obtain ⟨i⟩ := d
    simp only at hlt hne ⊢
    rw [DictId.mk.injEq]
    omega

/-! What is there keeps its number. -/

theorem renameAll_eq_self {vs : List Value} (hf : ∀ v ∈ vs, ∀ d, .dict d ∈ v.refs → f d = d) :
    renameAll f vs = vs := by
  rw [renameAll_eq]
  exact (List.map_congr_left fun v hv => v.rename_eq_self (hf v hv)).trans (List.map_id _)

theorem renameSlots_eq_self {xs : List (String × Value)}
    (hf : ∀ x ∈ xs, ∀ d, .dict d ∈ x.2.refs → f d = d) : renameSlots f xs = xs := by
  refine (List.map_congr_left fun x hx => ?_).trans (List.map_id _)
  exact Prod.ext rfl (x.2.rename_eq_self (hf x hx))

theorem DictCell.rename_eq_self (hrefs : ∀ d, .dict d ∈ c.refs → f d = d)
    (hparent : ∀ p, c.parent = some p → f p = p) (hcaller : ∀ p, c.caller = some p → f p = p) :
    c.rename f = c := by
  obtain ⟨slots, parent, declared, caller, scope, target, name, tag⟩ := c
  have hlink : ∀ {o : Option DictId}, (∀ p, o = some p → f p = p) → o.map f = o := by
    rintro (_ | p) ho
    · rfl
    · exact congrArg some (ho p rfl)
  have hslots : slots.rename f = slots := by
    refine Slots.ext (renameSlots_eq_self fun x hx d hd => hrefs d ?_)
    exact List.mem_append_left _ (List.mem_append_left _ (List.mem_flatMap.mpr ⟨x, hx, hd⟩))
  have hscope : scope.map f = scope := by
    refine hlink ?_
    rintro p rfl
    exact hrefs p (by simp [refs])
  have htarget : target.map f = target := by
    refine hlink ?_
    rintro p rfl
    exact hrefs p (by simp [refs])
  simp only [rename, hslots, hscope, htarget, hlink hparent, hlink hcaller]

theorem Native.rename_eq_self {x : Native} (hf : ∀ d, .dict d ∈ x.refs → f d = d) :
    x.rename f = x := by
  cases x with
  | function name code => rfl
  | object tag record =>
    cases record with
    | none => rfl
    | some record =>
      have hrecord : renameSlots f record = record :=
        renameSlots_eq_self fun x hx d hd => hf d (List.mem_flatMap.mpr ⟨x, hx, hd⟩)
      simp only [rename, Option.map_some, hrecord]

namespace Heap
variable (hf : ∀ d, h.Allocated (.dict d) → f d = d) (hh : h.Complete)
include hf hh

theorem Complete.rename_refs {o : Ref} (ho : h.Allocated o) :
    ∀ d, .dict d ∈ h.owned o → f d = d :=
  fun d hd => hf d (hh.owned o ho _ hd)

theorem Complete.rename_cell (d : DictId) : (h.cell d).rename f = h.cell d := by
  by_cases hd : h.Allocated (.dict d)
  · exact DictCell.rename_eq_self (hh.rename_refs hf hd)
      (fun p hp => hf p (hh.parent d p hp)) fun p hp => hf p (hh.caller d p hp)
  · rw [cell_of_size_le (Nat.le_of_not_lt hd)]
    rfl

theorem Complete.rename_items (l : ListId) : renameAll f (h.items l) = h.items l := by
  refine renameAll_eq_self fun v hv d hd => ?_
  by_cases hl : h.Allocated (.list l)
  · exact hh.rename_refs hf hl d (mem_allRefs.mpr ⟨v, hv, hd⟩)
  · rw [items_of_size_le (Nat.le_of_not_lt hl)] at hv
    cases hv

theorem Complete.rename_native (n : NativeId) :
    (h.native? n).map (Native.rename f) = h.native? n := by
  cases hx : h.native? n with
  | none => rfl
  | some x =>
    refine congrArg some (Native.rename_eq_self fun d hd => ?_)
    by_cases hn : h.Allocated (.native n)
    · refine hh.rename_refs hf hn d ?_
      rw [Heap.owned, hx]
      exact hd
    · have hnone : h.native? n = none := Array.getElem?_eq_none (Nat.le_of_not_lt hn)
      rw [hnone] at hx
      cases hx

end Heap

namespace Renaming

/-- A heap has its own objects, under their own numbers. -/
theorem objects_self (hmap : ρ.map = id) : ρ.Objects h h := by
  have hf : ∀ d, ρ.map d = d := fun d => by rw [hmap, id]
  refine ⟨rfl, rfl, rfl, fun l => ?_, fun n => ?_, fun d => ?_, fun i => hf _, fun d hd => ?_⟩
  · exact (renameAll_eq_self fun _ _ d _ => hf d).symm
  · cases h.native? n with
    | none => rfl
    | some x => exact congrArg some (Native.rename_eq_self fun d _ => hf d).symm
  · rw [hf]
    exact (DictCell.rename_eq_self (fun d _ => hf d) (fun d _ => hf d) fun d _ => hf d).symm
  · exact (hd d (hf d).symm).elim

/-- A new dictionary makes no difference if it owns what is held all the time, or shown by a view
that is. -/
theorem objects_beside (hh : h.Complete) (hmap : ρ.map = shift h.dicts.size)
    (hc : ∀ r ∈ c.refs, h.Allocated r ∧
      (r ∈ ρ.kept ∨ ∃ v t, .dict v ∈ ρ.kept ∧ (h.cell v).target = some t ∧ r = .dict t)) :
    ρ.Objects h (h.newDict c).1 := by
  have hf : ∀ d, h.Allocated (.dict d) → ρ.map d = d := fun d hd => hmap ▸ shift_of_lt hd
  refine ⟨rfl, rfl, rfl, fun l => (hh.rename_items hf l).symm, fun n => (hh.rename_native hf n).symm,
    fun d => ?_, fun i => ?_, fun d hd r hr => ?_⟩
  · have hne : (ρ.map d).index ≠ h.dicts.size := by
      intro heq
      exact shift_ne h.dicts.size d (hmap ▸ congrArg DictId.mk heq)
    rw [cell_newDict, if_neg hne, hh.rename_cell hf]
    by_cases hd : h.Allocated (.dict d)
    · rw [hf d hd]
    · have hle := Nat.le_of_not_lt hd
      rw [hmap, shift_of_le hle, cell_of_size_le hle, cell_of_size_le (Nat.le_succ_of_le hle)]
  · rw [hmap, shift_of_le (Nat.le_add_right _ _)]
    simp only [Heap.newDict, Array.size_push, DictId.mk.injEq]
    omega
  · have hnew : d = ⟨h.dicts.size⟩ := by
      by_contra hne
      obtain ⟨e, he⟩ := exists_shift hne
      exact hd e (hmap ▸ he)
    rw [hnew, cell_newDict, if_pos rfl] at hr
    obtain ⟨hmade, hheld⟩ := hc r hr
    refine ⟨r, ?_, hheld⟩
    cases r with
    | dict e => exact congrArg Ref.dict (hf e hmade).symm
    | _ => rfl

end Renaming
end DictScript
