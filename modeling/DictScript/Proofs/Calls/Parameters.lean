import DictScript.Proofs.Calls.Binding

/-!
What the parameters of a block bind, by name: each fixed parameter the argument at its position, and
the first rest parameter the arguments behind those.
-/
namespace DictScript
variable {name p : String} {params : List String} {vs : List Value}

theorem lookup_reverse {ys : List (String × Value)} (hn : (ys.map Prod.fst).Nodup) :
    ys.reverse.lookup name = ys.lookup name := by
  have hn' : (ys.reverse.map Prod.fst).Nodup := by
    rwa [List.map_reverse, List.nodup_reverse]
  refine Option.ext fun v => ?_
  rw [lookup_eq_some_iff hn', lookup_eq_some_iff hn, List.mem_reverse]

/-- The names are those of the parameters, as far as it goes. -/
theorem names_bindings (l : ListId) (params : List String) (vs : List Value) :
    (bindings l params vs).map Prod.fst <+: params.map fun p => canonical (paramName p) := by
  induction params generalizing vs with
  | nil => exact List.prefix_rfl
  | cons p params ih =>
    cases hrest : restName? p with
    | some name =>
      simp only [bindings, hrest, List.map_cons, List.map_nil, paramName_of_some hrest]
      exact List.cons_prefix_cons.mpr ⟨rfl, List.nil_prefix ..⟩
    | none =>
      cases vs with
      | nil =>
        simp only [bindings, hrest, List.map_nil]
        exact List.nil_prefix ..
      | cons v vs =>
        simp only [bindings, hrest, List.map_cons, paramName_of_none hrest]
        exact List.cons_prefix_cons.mpr ⟨rfl, ih vs⟩

def fixedCount (params : List String) : Nat :=
  (params.takeWhile fun p => (restName? p).isNone).length

theorem fixedCount_of_some (hrest : restName? p = some name) : fixedCount (p :: params) = 0 := by
  simp [fixedCount, hrest]

theorem fixedCount_of_none (hrest : restName? p = none) :
    fixedCount (p :: params) = fixedCount params + 1 := by
  simp [fixedCount, hrest]

theorem restName?_of_lt {i : Nat} (hi : i < fixedCount params) (hp : params[i]? = some p) :
    restName? p = none := by
  induction params generalizing i with
  | nil => cases hp
  | cons q params ih =>
    cases hq : restName? q with
    | some name => exact absurd hi (by simp [fixedCount_of_some hq])
    | none =>
      rw [fixedCount_of_none hq] at hi
      cases i with
      | zero =>
        obtain rfl : q = p := by simpa using hp
        exact hq
      | succ i => exact ih (Nat.lt_of_succ_lt_succ hi) hp

/-- The parameter that ends them is a rest parameter. -/
theorem restName?_of_fixedCount (hp : params[fixedCount params]? = some p) :
    (restName? p).isSome := by
  induction params with
  | nil => cases hp
  | cons q params ih =>
    cases hq : restName? q with
    | some name =>
      rw [fixedCount_of_some hq] at hp
      obtain rfl : q = p := by simpa using hp
      rw [hq, Option.isSome_some]
    | none =>
      rw [fixedCount_of_none hq] at hp
      exact ih hp

section
variable (hdistinct : (params.map fun p => canonical (paramName p)).Nodup)
include hdistinct

theorem lookup_putAll_bindings (l : ListId) (vs : List Value) (name : String) :
    (Slots.empty.putAll (bindings l params vs)).toList.lookup name =
      (bindings l params vs).lookup name := by
  rw [Slots.lookup_putAll, lookup_reverse (hdistinct.sublist (names_bindings l params vs).sublist)]
  exact Option.or_none

/-- A fixed parameter is bound to the argument at its position. -/
theorem lookup_bindings_fixed {i : Nat} (l : ListId) (vs : List Value) (hi : i < fixedCount params)
    (hp : params[i]? = some p) : (bindings l params vs).lookup (canonical p) = vs[i]? := by
  have hfixed := restName?_of_lt hi hp
  induction params generalizing i vs with
  | nil => cases hp
  | cons q params ih =>
    rw [List.map_cons, List.nodup_cons] at hdistinct
    obtain ⟨hq, hdistinct⟩ := hdistinct
    cases hrest : restName? q with
    | some name => exact absurd hi (by simp [fixedCount_of_some hrest])
    | none =>
      rw [fixedCount_of_none hrest] at hi
      rw [paramName_of_none hrest] at hq
      cases vs with
      | nil => simp only [bindings, hrest, List.lookup_nil, List.getElem?_nil]
      | cons v vs =>
        simp only [bindings, hrest, lookup_cons_eq]
        cases i with
        | zero =>
          obtain rfl : q = p := by simpa using hp
          rw [if_pos rfl, List.getElem?_cons_zero]
        | succ i =>
          have hne : canonical p ≠ canonical q := by
            intro heq
            refine hq (List.mem_map.mpr ⟨p, List.mem_of_getElem? hp, ?_⟩)
            rw [paramName_of_none hfixed, heq]
          rw [if_neg hne, List.getElem?_cons_succ]
          exact ih hdistinct vs (Nat.lt_of_succ_lt_succ hi) hp

/-- The rest parameter is bound if there is an argument for each parameter before it. -/
theorem lookup_bindings_rest (l : ListId) (vs : List Value)
    (hp : params[fixedCount params]? = some p) (hrest : restName? p = some name) :
    (bindings l params vs).lookup (canonical name) =
      if fixedCount params ≤ vs.length then some (.list l) else none := by
  induction params generalizing vs with
  | nil => cases hp
  | cons q params ih =>
    rw [List.map_cons, List.nodup_cons] at hdistinct
    obtain ⟨hq, hdistinct⟩ := hdistinct
    cases hq' : restName? q with
    | some name' =>
      rw [fixedCount_of_some hq'] at hp ⊢
      obtain rfl : q = p := by simpa using hp
      obtain rfl : name' = name := Option.some.inj (hq'.symm.trans hrest)
      simp only [bindings, hq', lookup_cons_eq, if_pos, Nat.zero_le]
    | none =>
      rw [fixedCount_of_none hq'] at hp ⊢
      rw [paramName_of_none hq'] at hq
      cases vs with
      | nil => simp only [bindings, hq', List.lookup_nil, List.length_nil, Nat.le_zero,
          Nat.add_one_ne_zero, if_false]
      | cons v vs =>
        have hne : canonical name ≠ canonical q := by
          intro heq
          refine hq (List.mem_map.mpr ⟨p, List.mem_of_getElem? hp, ?_⟩)
          rw [paramName_of_some hrest, heq]
        simp only [bindings, hq', lookup_cons_eq, if_neg hne, List.length_cons,
          Nat.add_le_add_iff_right]
        exact ih hdistinct vs hp

/-- No parameter behind a rest parameter is bound. -/
theorem lookup_bindings_behind {i : Nat} (l : ListId) (vs : List Value) (hi : fixedCount params < i)
    (hp : params[i]? = some p) :
    (bindings l params vs).lookup (canonical (paramName p)) = none := by
  induction params generalizing i vs with
  | nil => cases hp
  | cons q params ih =>
    rw [List.map_cons, List.nodup_cons] at hdistinct
    obtain ⟨hq, hdistinct⟩ := hdistinct
    obtain ⟨i, rfl⟩ : ∃ j, i = j + 1 := Nat.exists_eq_add_one_of_ne_zero (by omega)
    have hne : canonical (paramName p) ≠ canonical (paramName q) := by
      intro heq
      exact hq (List.mem_map.mpr ⟨p, List.mem_of_getElem? hp, heq⟩)
    cases hrest : restName? q with
    | some name =>
      rw [paramName_of_some hrest] at hne
      simp only [bindings, hrest, lookup_cons_eq, if_neg hne, List.lookup_nil]
    | none =>
      rw [paramName_of_none hrest] at hne
      rw [fixedCount_of_none hrest] at hi
      cases vs with
      | nil => simp only [bindings, hrest, List.lookup_nil]
      | cons v vs =>
        simp only [bindings, hrest, lookup_cons_eq, if_neg hne]
        exact ih hdistinct vs (Nat.lt_of_succ_lt_succ hi) hp

end

/-- The arguments that a rest parameter collects are those behind the ones of the fixed
parameters. -/
theorem remaining?_eq_some_drop (hp : params[fixedCount params]? = some p)
    (hvs : fixedCount params ≤ vs.length) :
    remaining? params vs = some (vs.drop (fixedCount params)) := by
  induction params generalizing vs with
  | nil => cases hp
  | cons q params ih =>
    cases hq : restName? q with
    | some name =>
      simp only [remaining?, hq, fixedCount_of_some hq, List.drop_zero]
    | none =>
      rw [fixedCount_of_none hq] at hp hvs
      cases vs with
      | nil => exact absurd hvs (Nat.not_succ_le_zero _)
      | cons v vs =>
        simp only [remaining?, hq, fixedCount_of_none hq, List.drop_succ_cons]
        exact ih hp (Nat.le_of_succ_le_succ hvs)

end DictScript
