import Mathlib
import DictScript.Heap.Dict

/-!
Slots by name: what a lookup finds, and what writing and erasing do to it.
-/
namespace DictScript
variable {n name : String} {v w : Value} {xs ys : List (String × Value)}

theorem lookup_cons_eq {α : Type} {k : String} {w : α} {xs : List (String × α)} :
    ((k, w) :: xs).lookup n = if n = k then some w else xs.lookup n := by
  by_cases h : n = k
  · simp [h]
  · rw [List.lookup_cons, beq_false_of_ne h, if_neg h]

theorem lookup_eq_some_iff (hn : (xs.map Prod.fst).Nodup) :
    xs.lookup n = some v ↔ (n, v) ∈ xs := by
  induction xs with
  | nil => simp
  | cons x xs ih =>
    obtain ⟨k, w⟩ := x
    have hx := List.nodup_cons.mp hn
    rw [lookup_cons_eq]
    by_cases hk : n = k
    · subst hk
      have hnot : (n, v) ∉ xs := fun hm => hx.1 (List.mem_map.mpr ⟨_, hm, rfl⟩)
      simp [hnot, eq_comm]
    · simp [hk, ih hx.2]

theorem lookup_isSome_iff : (xs.lookup n).isSome ↔ n ∈ xs.map Prod.fst := by
  induction xs with
  | nil => simp
  | cons x xs ih =>
    obtain ⟨k, w⟩ := x
    rw [lookup_cons_eq, List.map_cons, List.mem_cons]
    by_cases hk : n = k
    · simp [hk]
    · rw [if_neg hk, ih]
      simp [hk]

theorem lookup_putSlot :
    (putSlot name v xs).lookup n = if n = name then some v else xs.lookup n := by
  induction xs with
  | nil => rw [putSlot, lookup_cons_eq]
  | cons x xs ih =>
    obtain ⟨k, w⟩ := x
    by_cases hk : k = name
    · subst hk
      rw [putSlot, if_pos rfl, lookup_cons_eq, lookup_cons_eq]
      by_cases h : n = k <;> simp [h]
    · rw [putSlot, if_neg hk, lookup_cons_eq, lookup_cons_eq, ih]
      by_cases h : n = k
      · subst h; simp [hk]
      · simp [h]

theorem mem_of_mem_putSlot {x : String × Value} (hx : x ∈ putSlot name v xs) :
    x ∈ xs ∨ x = (name, v) := by
  induction xs with
  | nil => exact .inr (List.mem_singleton.mp hx)
  | cons y xs ih =>
    rw [putSlot] at hx
    split at hx
    · rename_i hy
      cases List.mem_cons.mp hx with
      | inl heq => exact .inr (hy ▸ heq)
      | inr hmem => exact .inl (List.mem_cons_of_mem _ hmem)
    · cases List.mem_cons.mp hx with
      | inl heq => exact .inl (heq ▸ List.mem_cons_self)
      | inr hmem => exact (ih hmem).imp_left (List.mem_cons_of_mem _)

theorem putSlot_of_not_mem (hn : name ∉ xs.map Prod.fst) :
    putSlot name v xs = xs ++ [(name, v)] := by
  induction xs with
  | nil => rfl
  | cons x xs ih =>
    have hne : ¬ x.1 = name := fun heq => hn (heq ▸ List.mem_cons_self)
    rw [putSlot, if_neg hne, ih fun hm => hn (List.mem_cons_of_mem _ hm), List.cons_append]

/-- A name in full is its own full form. -/
theorem Key.of_eq_slot (hn : Key.of name = .slot n) : Key.of n = .slot n := by
  have hcanonical : canonical (canonical name) = canonical name := by
    by_cases hup : name = "^"
    · subst hup
      decide
    · by_cases hself : name = "@"
      · subst hself
        decide
      · simp [canonical, hup, hself]
  simp only [Key.of] at hn ⊢
  split at hn
  · cases hn
  · split at hn
    · cases hn
    · cases hn
      simp [*]

namespace Heap
variable (h : Heap) (d : DictId)

theorem names_nodup : (h.names d).Nodup := (h.cell (h.owner d)).slots.nodup

variable {h d}

theorem lookup_slots_iff : (h.slots d).lookup n = some v ↔ (n, v) ∈ h.slots d :=
  lookup_eq_some_iff (h.names_nodup d)

theorem cell_of_size_le (hd : h.dicts.size ≤ d.index) : h.cell d = {} := by
  simp [cell, Array.getD, Nat.not_lt.mpr hd]

theorem owner_of_size_le (hd : h.dicts.size ≤ d.index) : h.owner d = d := by
  rw [owner, cell_of_size_le hd]
  rfl

theorem slots_of_size_le (hd : h.dicts.size ≤ d.index) : h.slots d = [] := by
  rw [slots, owner_of_size_le hd, cell_of_size_le hd]
  rfl

theorem items_of_size_le {l : ListId} (hl : h.lists.size ≤ l.index) : h.items l = [] := by
  simp [items, Array.getD, Nat.not_lt.mpr hl]

end Heap
end DictScript
