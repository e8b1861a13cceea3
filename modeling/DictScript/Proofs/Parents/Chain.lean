import DictScript.Proofs.Graph

/-!
Chains of parents. Where parents lead nowhere in a circle, a walk along them ends by itself, and the
fuel of the walks is never used up.
-/
namespace DictScript.Heap
variable {h : Heap} {d e p : DictId} {m n : Nat} {name : String}

def Inherits (h : Heap) (d p : DictId) : Prop := h.parent d = some p

structure Orderly (h : Heap) : Prop where
  bounded : ∀ d p, h.Inherits d p → h.Allocated (.dict p)
  acyclic : ∀ d, ¬ Relation.TransGen h.Inherits d d

open Classical in
noncomputable def height (h : Heap) (d : DictId) : Nat :=
  ((Finset.range h.dicts.size).filter fun i => Relation.TransGen h.Inherits d ⟨i⟩).card

theorem height_le (h : Heap) (d : DictId) : h.height d ≤ h.dicts.size := by
  classical
  have hcard := Finset.card_filter_le (Finset.range h.dicts.size)
    fun i => Relation.TransGen h.Inherits d ⟨i⟩
  rwa [Finset.card_range] at hcard

theorem height_lt_of_inherits (hp : h.Inherits d p) (hmade : h.Allocated (.dict p))
    (hself : ¬ Relation.TransGen h.Inherits p p) : h.height p < h.height d := by
  classical
  refine Finset.card_lt_card (Finset.ssubset_iff_of_subset ?_ |>.mpr ⟨p.index, ?_, ?_⟩)
  · intro i hi
    rw [Finset.mem_filter] at hi ⊢
    exact ⟨hi.1, .head hp hi.2⟩
  · rw [Finset.mem_filter, Finset.mem_range]
    exact ⟨hmade, .single hp⟩
  · rw [Finset.mem_filter]
    exact fun hmem => hself hmem.2

theorem Orderly.height_lt (ho : h.Orderly) (hp : h.Inherits d p) : h.height p < h.height d :=
  height_lt_of_inherits hp (ho.bounded d p hp) (ho.acyclic p)

/-! With more fuel than ancestors, a walk does not depend on it. -/

theorem Orderly.chainOf_eq (ho : h.Orderly) (hn : h.height d < n) (hm : h.height d < m) :
    h.chainOf n d = h.chainOf m d := by
  induction n generalizing m d with
  | zero => omega
  | succ n ih =>
    obtain ⟨m, rfl⟩ : ∃ k, m = k + 1 := ⟨m - 1, by omega⟩
    rw [chainOf, chainOf]
    cases hp : h.parent d with
    | none => rfl
    | some p =>
      have hlt := ho.height_lt hp
      have hsame := ih (d := p) (m := m) (by omega) (by omega)
      simp only [hsame]

theorem Orderly.findFrom_eq (ho : h.Orderly) (hn : h.height d < n) (hm : h.height d < m) :
    h.findFrom name n d = h.findFrom name m d := by
  induction n generalizing m d with
  | zero => omega
  | succ n ih =>
    obtain ⟨m, rfl⟩ : ∃ k, m = k + 1 := ⟨m - 1, by omega⟩
    rw [findFrom, findFrom]
    cases hp : h.parent d with
    | none => rfl
    | some p =>
      have hlt := ho.height_lt hp
      have hsame := ih (d := p) (m := m) (by omega) (by omega)
      simp only [hsame]

theorem Orderly.anchorFrom_eq (ho : h.Orderly) (hn : h.height d < n) (hm : h.height d < m) :
    h.anchorFrom n d = h.anchorFrom m d := by
  induction n generalizing m d with
  | zero => omega
  | succ n ih =>
    obtain ⟨m, rfl⟩ : ∃ k, m = k + 1 := ⟨m - 1, by omega⟩
    rw [anchorFrom, anchorFrom]
    cases hp : h.parent d with
    | none => rfl
    | some p =>
      have hlt := ho.height_lt hp
      have hsame := ih (d := p) (m := m) (by omega) (by omega)
      simp only [hsame]

/-! The chain of a dictionary is itself and all its ancestors. -/

theorem Orderly.mem_chainOf (ho : h.Orderly) (hn : h.height d < n) :
    e ∈ h.chainOf n d ↔ Relation.ReflTransGen h.Inherits d e := by
  induction n generalizing d with
  | zero => omega
  | succ n ih =>
    rw [chainOf, Relation.ReflTransGen.cases_head_iff]
    cases hp : h.parent d with
    | none => simp [Inherits, hp, eq_comm]
    | some p =>
      have hlt := ho.height_lt hp
      simp only [List.mem_cons, ih (by omega : h.height p < n), Inherits, hp, Option.some.injEq,
        exists_eq_left', eq_comm]

theorem Orderly.mem_chain (ho : h.Orderly) :
    e ∈ h.chain d ↔ Relation.ReflTransGen h.Inherits d e :=
  ho.mem_chainOf (Nat.lt_succ_of_le (h.height_le d))

/-- A parent is refused just if the dictionary is that parent or one of its ancestors. -/
theorem Orderly.setParent_eq (ho : h.Orderly) (d p : DictId) :
    (Relation.ReflTransGen h.Inherits p d ∧
      h.setParent d (some p) = (.error (.of (.cycle (h.displayName d))), h)) ∨
    (¬ Relation.ReflTransGen h.Inherits p d ∧
      h.setParent d (some p) = (.ok (), h.link d (some p) true)) := by
  have hmem : (h.chain p).contains d = true ↔ Relation.ReflTransGen h.Inherits p d := by
    rw [List.contains_iff_mem, ho.mem_chain]
  by_cases hd : Relation.ReflTransGen h.Inherits p d
  · refine .inl ⟨hd, ?_⟩
    rw [setParent, if_pos (hmem.mpr hd)]
  · refine .inr ⟨hd, ?_⟩
    rw [setParent, if_neg fun hin => hd (hmem.mp hin)]

/-- What is found is on the chain. -/
theorem inherits_of_findFrom (he : h.findFrom name n d = some e) :
    Relation.ReflTransGen h.Inherits d e := by
  induction n generalizing d with
  | zero => cases he
  | succ n ih =>
    rw [findFrom] at he
    split at he
    · cases he
      exact .refl
    · split at he
      · cases he
      · rename_i p hp
        exact .head hp (ih he)

/-- A dictionary attaches to one of its ancestors, or to what an ancestor shows. -/
theorem anchorFrom_eq_or (h : Heap) (n : Nat) (d : DictId) :
    ∃ e, Relation.ReflTransGen h.Inherits d e ∧
      (h.anchorFrom n d = e ∨ h.anchorFrom n d = h.owner e) := by
  induction n generalizing d with
  | zero => exact ⟨d, .refl, .inl rfl⟩
  | succ n ih =>
    rw [anchorFrom]
    split
    · split
      · exact ⟨d, .refl, .inr rfl⟩
      · rename_i p hp
        obtain ⟨e, hpe, he⟩ := ih p
        exact ⟨e, .head hp hpe, he⟩
    · exact ⟨d, .refl, .inl rfl⟩

end DictScript.Heap
