import DictScript.Proofs.Parents.Chain

/-!
Walks along parents. Parents may lead in a circle, but a walk that ends where it should meets no
dictionary twice, so its fuel is always enough, and a lookup can be read one dictionary at a time.
-/
namespace DictScript.Heap
variable {h : Heap} {d e p x : DictId} {name : String} {n : Nat} {stop : DictId → Bool}

def Passes (h : Heap) (name : String) (d p : DictId) : Prop :=
  h.holds d name = false ∧ h.Inherits d p

abbrev Visits (h : Heap) (name : String) : DictId → DictId → Prop :=
  Relation.ReflTransGen (h.Passes name)

/-! Only dictionaries that are there have parents or hold names. -/

theorem parent_of_size_le (hd : h.dicts.size ≤ d.index) : h.parent d = none := by
  rw [parent, cell_of_size_le hd]
  rfl

theorem allocated_of_inherits (hp : h.Inherits d p) : h.Allocated (.dict d) := by
  by_contra hnew
  exact nomatch (parent_of_size_le (Nat.le_of_not_lt hnew)).symm.trans hp

theorem allocated_of_holds (hd : h.holds d name = true) : h.Allocated (.dict d) := by
  by_contra hnew
  have hsize := Nat.le_of_not_lt hnew
  have hcaller : h.caller d = none := by rw [caller, cell_of_size_le hsize]; rfl
  rw [holds] at hd
  split at hd
  · simp [parent_of_size_le hsize] at hd
  · simp [hcaller] at hd
  · simp [slots_of_size_le hsize] at hd

/-! Fuel. -/

def walk (h : Heap) (stop : DictId → Bool) : Nat → DictId → Option DictId
  | 0, _ => none
  | n + 1, d => if stop d then some d else (h.parent d).bind (h.walk stop n)

theorem findFrom_eq_walk : h.findFrom name n d = h.walk (h.holds · name) n d := by
  induction n generalizing d with
  | zero => rfl
  | succ n ih =>
    rw [findFrom, walk]
    cases h.parent d with
    | none => rfl
    | some p => exact if_congr Iff.rfl rfl ih

/-- More fuel leads to the same. -/
theorem walk_succ_of_eq_some (he : h.walk stop n d = some e) : h.walk stop (n + 1) d = some e := by
  induction n generalizing d with
  | zero => cases he
  | succ n ih =>
    rw [walk] at he ⊢
    split
    · rwa [if_pos ‹_›] at he
    · rw [if_neg ‹_›] at he
      obtain ⟨p, hp, he⟩ := Option.bind_eq_some_iff.mp he
      exact Option.bind_eq_some_iff.mpr ⟨p, hp, ih he⟩

def arrivals (h : Heap) (stop : DictId → Bool) (n : Nat) : Finset Nat :=
  (Finset.range h.dicts.size).filter fun i => (h.walk stop n ⟨i⟩).isSome

theorem mem_arrivals (hd : h.Allocated (.dict d)) :
    d.index ∈ h.arrivals stop n ↔ (h.walk stop n d).isSome := by
  rw [arrivals, Finset.mem_filter, Finset.mem_range]
  exact and_iff_right hd

theorem arrivals_mono : h.arrivals stop n ⊆ h.arrivals stop (n + 1) := by
  intro i hi
  rw [arrivals, Finset.mem_filter] at hi ⊢
  obtain ⟨e, he⟩ := Option.isSome_iff_exists.mp hi.2
  exact ⟨hi.1, Option.isSome_iff_exists.mpr ⟨e, walk_succ_of_eq_some he⟩⟩

section
variable (hstop : ∀ x, stop x = true → h.Allocated (.dict x))
include hstop

/-- If one more unit of fuel is of use here, each unit before was of use further on. -/
theorem lt_card_arrivals (hnone : h.walk stop n d = none) (hsome : h.walk stop (n + 1) d = some e) :
    n < (h.arrivals stop (n + 1)).card := by
  induction n generalizing d with
  | zero =>
    rw [walk] at hsome
    split at hsome
    · rename_i hd
      have hmem : d.index ∈ h.arrivals stop 1 := by
        rw [mem_arrivals (hstop d hd), walk, if_pos hd]
        rfl
      exact Finset.card_pos.mpr ⟨_, hmem⟩
    · obtain ⟨p, -, he⟩ := Option.bind_eq_some_iff.mp hsome
      cases he
  | succ n ih =>
    have harrives := Option.isSome_iff_exists.mpr ⟨e, hsome⟩
    have hstays : ¬ (h.walk stop (n + 1) d).isSome := by rw [hnone]; exact Bool.false_ne_true
    rw [walk] at hnone hsome
    split at hsome
    · rw [if_pos ‹_›] at hnone
      cases hnone
    · rw [if_neg ‹_›] at hnone
      obtain ⟨p, hp, he⟩ := Option.bind_eq_some_iff.mp hsome
      have hd : h.Allocated (.dict d) := allocated_of_inherits hp
      have hsub : insert d.index (h.arrivals stop (n + 1)) ⊆ h.arrivals stop (n + 2) :=
        Finset.insert_subset ((mem_arrivals hd).mpr harrives) arrivals_mono
      rw [hp, Option.bind_some] at hnone
      refine Nat.lt_of_lt_of_le ?_ (Finset.card_le_card hsub)
      rw [Finset.card_insert_of_notMem (mt (mem_arrivals hd).mp hstays)]
      exact Nat.succ_lt_succ (ih hnone he)

theorem walk_succ_eq (hn : h.dicts.size ≤ n) : h.walk stop (n + 1) d = h.walk stop n d := by
  cases hnone : h.walk stop n d with
  | some e => exact walk_succ_of_eq_some hnone
  | none =>
    refine Option.eq_none_iff_forall_not_mem.mpr fun e hsome => ?_
    have hmany := lt_card_arrivals hstop hnone hsome
    have hfew : (h.arrivals stop (n + 1)).card ≤ h.dicts.size :=
      (Finset.card_filter_le _ _).trans_eq (Finset.card_range _)
    omega

/-- Fuel for all dictionaries is enough. -/
theorem walk_eq (hn : h.dicts.size ≤ n) : h.walk stop n d = h.walk stop h.dicts.size d := by
  induction n, hn using Nat.le_induction with
  | base => rfl
  | succ n hn ih => exact (walk_succ_eq hstop hn).trans ih

end

theorem findFrom_eq_find (hn : h.dicts.size ≤ n) : h.findFrom name n d = h.find d name := by
  have hholds : ∀ x, h.holds x name = true → h.Allocated (.dict x) := fun _ => allocated_of_holds
  rw [find, findFrom_eq_walk, findFrom_eq_walk, walk_eq hholds hn,
    walk_eq hholds (Nat.le_succ _)]

/-! A lookup, one dictionary at a time. -/

theorem find_step (h : Heap) (d : DictId) (name : String) :
    h.find d name = if h.holds d name then some d else (h.parent d).bind (h.find · name) := by
  rw [find, findFrom]
  congr 1
  cases h.parent d with
  | none => rfl
  | some p => exact findFrom_eq_find (Nat.le_refl _)

theorem find_of_holds (hd : h.holds d name = true) : h.find d name = some d := by
  rw [find_step, if_pos hd]

theorem find_of_not_holds (hd : h.holds d name = false) :
    h.find d name = (h.parent d).bind (h.find · name) := by
  rw [find_step, hd]
  rfl

theorem find_of_passes (hpass : h.Passes name d p) : h.find d name = h.find p name := by
  have hp : h.parent d = some p := hpass.2
  rw [find_of_not_holds hpass.1, hp, Option.bind_some]

theorem find_of_visits (hx : h.Visits name d x) : h.find d name = h.find x name := by
  induction hx with
  | refl => rfl
  | tail _ hpass ih => exact ih.trans (find_of_passes hpass)

theorem visits_of_findFrom (he : h.findFrom name n d = some e) :
    h.Visits name d e ∧ h.holds e name = true := by
  induction n generalizing d with
  | zero => cases he
  | succ n ih =>
    rw [findFrom] at he
    split at he
    · rename_i hd
      cases he
      exact ⟨.refl, hd⟩
    · rename_i hd
      split at he
      · cases he
      · rename_i p hp
        obtain ⟨hvisits, hholds⟩ := ih he
        exact ⟨.head ⟨Bool.eq_false_of_not_eq_true hd, hp⟩ hvisits, hholds⟩

/-- The nearest holder is found, however long the chain is. -/
theorem find_eq_some_iff :
    h.find d name = some e ↔ h.Visits name d e ∧ h.holds e name = true := by
  refine ⟨visits_of_findFrom, fun ⟨hvisits, hholds⟩ => ?_⟩
  rw [find_of_visits hvisits, find_of_holds hholds]

/-- Nothing is found just if nobody on the chain holds the name. -/
theorem find_eq_none_iff :
    h.find d name = none ↔
      ∀ x, Relation.ReflTransGen h.Inherits d x → h.holds x name = false := by
  constructor
  · intro hnone x hx
    have hpasses : ∀ y, h.find y name = none → h.holds y name = false := by
      refine fun y hy => Bool.eq_false_of_not_eq_true fun hholds => ?_
      exact nomatch hy.symm.trans (find_of_holds hholds)
    have hall : h.find x name = none := by
      induction hx with
      | refl => exact hnone
      | tail _ hstep ih => exact (find_of_passes ⟨hpasses _ ih, hstep⟩).symm.trans ih
    exact hpasses x hall
  · intro hall
    refine Option.eq_none_iff_forall_not_mem.mpr fun e he => ?_
    obtain ⟨hvisits, hholds⟩ := find_eq_some_iff.mp he
    have hchain : Relation.ReflTransGen h.Inherits d e :=
      hvisits.lift id fun _ _ hpass => hpass.2
    exact nomatch (hall e hchain).symm.trans hholds

def seen (h : Heap) (d : DictId) (name : String) : Option Value :=
  (h.find d name).map fun e => h.get e name

/-- A name stands for the slot of the dictionary itself, and else for what it stands for in the
parent. -/
theorem seen_step {n : String} (hname : Key.of name = .slot n) :
    h.seen d name = ((h.slots d).lookup n).or ((h.parent d).bind (h.seen · name)) := by
  rw [seen, find_step]
  cases hslot : (h.slots d).lookup n with
  | some v => simp [holds, get, hname, hslot]
  | none =>
    simp only [holds, hname, hslot, Option.isSome_none, Bool.false_eq_true, if_false,
      Option.none_or]
    exact Option.map_bind

/-! The nearest dictionary that is no view. -/

def Skips (h : Heap) (d p : DictId) : Prop := h.isView d = true ∧ h.Inherits d p

theorem anchorFrom_of_not_view (hd : h.isView d = false) : h.anchorFrom n d = d := by
  cases n with
  | zero => rfl
  | succ n => rw [anchorFrom, hd]; rfl

theorem anchorFrom_of_walk
    (he : h.walk (fun x => !h.isView x && decide (h.Allocated (.dict x))) n d = some e) :
    h.anchorFrom n d = e := by
  induction n generalizing d with
  | zero => cases he
  | succ n ih =>
    rw [walk] at he
    split at he
    · rename_i hstop
      cases he
      exact anchorFrom_of_not_view (by simpa using (Bool.and_eq_true_iff.mp hstop).1)
    · rename_i hgoes
      obtain ⟨p, hp, he⟩ := Option.bind_eq_some_iff.mp he
      have hview : h.isView d = true := by
        have hmade : h.Allocated (.dict d) := allocated_of_inherits hp
        simpa [hmade] using hgoes
      rw [anchorFrom, if_pos hview, hp]
      exact ih he

/-- New dictionaries attach to the nearest dictionary that is no view, if there is one. -/
theorem anchor_eq (hp : Relation.ReflTransGen h.Skips d p) (hmade : h.Allocated (.dict p))
    (hview : h.isView p = false) : h.anchor d = p := by
  set stop : DictId → Bool := fun x => !h.isView x && decide (h.Allocated (.dict x)) with hstop
  have hwalk : ∃ n, h.walk stop n d = some p := by
    induction hp using Relation.ReflTransGen.head_induction_on with
    | refl => exact ⟨1, by rw [walk, if_pos (by simp [hstop, hview, hmade])]⟩
    | @head x y hskip _ ih =>
      obtain ⟨n, hn⟩ := ih
      have hy : h.parent x = some y := hskip.2
      exact ⟨n + 1, by rw [walk, if_neg (by simp [hstop, hskip.1]), hy, Option.bind_some, hn]⟩
  obtain ⟨n, hn⟩ := hwalk
  have hmany : h.walk stop (n + h.dicts.size) d = some p := by
    induction h.dicts.size with
    | zero => exact hn
    | succ k ih => exact walk_succ_of_eq_some ih
  have hall : ∀ x, stop x = true → h.Allocated (.dict x) :=
    fun x hx => by simpa using (Bool.and_eq_true_iff.mp hx).2
  refine anchorFrom_of_walk ?_
  rw [walk_eq hall (Nat.le_succ _), ← walk_eq hall (Nat.le_add_left _ n), hmany]

end DictScript.Heap
