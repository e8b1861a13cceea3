import DictScript.Proofs.Graph

/-!
The objects of a heap by number, and which of them live: those that are held, and those with an
owner that lives. Objects that own each other in a circle all live.
-/
namespace DictScript.Heap
variable {h k : Heap} {K L : Set Ref} {r o : Ref} {d : DictId} {v : Value} {i : Nat}

/-! Objects and their numbers. -/

theorem number_lt (hr : h.Allocated r) : h.number r < h.size := by
  cases r <;> simp only [Allocated, number, size] at * <;> omega

theorem ofNumber_number (hr : h.Allocated r) : h.ofNumber (h.number r) = r := by
  cases r with
  | dict d =>
    rw [ofNumber, number]
    exact if_pos hr
  | list l =>
    have hlow : ¬ h.dicts.size + l.index < h.dicts.size := by omega
    have hlt : h.dicts.size + l.index < h.dicts.size + h.lists.size := Nat.add_lt_add_left hr _
    rw [ofNumber, number, if_neg hlow, if_pos hlt, Nat.add_sub_cancel_left]
  | native n =>
    have hlow : ¬ h.dicts.size + h.lists.size + n.index < h.dicts.size := by omega
    have hmid : ¬ h.dicts.size + h.lists.size + n.index < h.dicts.size + h.lists.size := by omega
    rw [ofNumber, number, if_neg hlow, if_neg hmid, Nat.sub_sub, Nat.add_sub_cancel_left]

theorem number_ofNumber : h.number (h.ofNumber i) = i := by
  rw [ofNumber]
  split
  · rfl
  · split
    · simp only [number]
      omega
    · simp only [number]
      omega

theorem allocated_ofNumber (hi : i < h.size) : h.Allocated (h.ofNumber i) := by
  rw [size] at hi
  rw [ofNumber]
  split
  · assumption
  · split
    · simp only [Allocated]
      omega
    · simp only [Allocated]
      omega

theorem number_inj {q : Ref} (hr : h.Allocated r) (hq : h.Allocated q)
    (heq : h.number r = h.number q) : r = q := by
  rw [← ofNumber_number hr, heq, ofNumber_number hq]

/-! Living objects. -/

/-- With `K` held, `r` lives: it belongs to objects each of which is held or has an owner among
them. -/
def Living (h : Heap) (K : Set Ref) (r : Ref) : Prop :=
  ∃ S : Set Ref, r ∈ S ∧ ∀ s ∈ S, s ∈ K ∨ ∃ o ∈ S, s ∈ h.owned o

def heldRefs (h : Heap) : Set Ref := {r | r ∈ h.held}

theorem living_of_mem (hr : r ∈ K) : h.Living K r :=
  ⟨K, hr, fun _ hs => .inl hs⟩

theorem Living.owned (ho : h.Living K o) (hr : r ∈ h.owned o) : h.Living K r := by
  obtain ⟨S, hoS, hS⟩ := ho
  refine ⟨insert r S, Set.mem_insert _ _, fun s hs => ?_⟩
  cases hs with
  | inl heq => exact .inr ⟨o, .inr hoS, heq ▸ hr⟩
  | inr hs =>
    refine (hS s hs).imp_right ?_
    rintro ⟨q, hq, hsq⟩
    exact ⟨q, .inr hq, hsq⟩

theorem living_iff : h.Living K r ↔ r ∈ K ∨ ∃ o, h.Living K o ∧ r ∈ h.owned o := by
  constructor
  · rintro ⟨S, hr, hS⟩
    refine (hS r hr).imp_right ?_
    rintro ⟨o, ho, hro⟩
    exact ⟨o, ⟨S, ho, hS⟩, hro⟩
  · rintro (hr | ⟨o, ho, hro⟩)
    · exact living_of_mem hr
    · exact ho.owned hro

theorem owned_of_not_allocated (ho : ¬ h.Allocated o) : h.owned o = [] := by
  cases o with
  | list l => rw [owned, items_of_size_le (Nat.le_of_not_lt ho)]; rfl
  | dict d => rw [owned, cell_of_size_le (Nat.le_of_not_lt ho)]; rfl
  | native n => simp [owned, native?, Nat.le_of_not_lt ho]

/-- What lives in `k` lived in `h`, when all that is held or owned anew lived there, or was not
there. -/
theorem Living.back (hK : ∀ s ∈ L, h.Allocated s → h.Living K s)
    (howned : ∀ o, ∀ s ∈ k.owned o, h.Allocated s → s ∈ h.owned o ∨ h.Living K s)
    (hr : k.Living L r) (hmade : h.Allocated r) : h.Living K r := by
  obtain ⟨S, hrS, hS⟩ := hr
  refine ⟨{s | h.Allocated s ∧ (s ∈ S ∨ h.Living K s)}, ⟨hmade, .inl hrS⟩, ?_⟩
  rintro s ⟨hs, hsS⟩
  have hliving : h.Living K s → s ∈ K ∨ ∃ o ∈ {s | h.Allocated s ∧ (s ∈ S ∨ h.Living K s)},
      s ∈ h.owned o := by
    intro hs
    refine (living_iff.mp hs).imp_right ?_
    rintro ⟨o, ho, hso⟩
    refine ⟨o, ⟨?_, .inr ho⟩, hso⟩
    by_contra hnot
    simp [owned_of_not_allocated hnot] at hso
  cases hsS with
  | inr hs => exact hliving hs
  | inl hsS =>
    cases hS s hsS with
    | inl hsK => exact hliving (hK s hsK hs)
    | inr hso =>
      obtain ⟨o, ho, hso⟩ := hso
      cases howned o s hso hs with
      | inr hs => exact hliving hs
      | inl hso =>
        refine .inr ⟨o, ⟨?_, .inl ho⟩, hso⟩
        by_contra hnot
        simp [owned_of_not_allocated hnot] at hso

theorem Living.trans (hK : ∀ s ∈ L, h.Living K s) (hr : h.Living L r) : h.Living K r := by
  obtain ⟨S, hrS, hS⟩ := hr
  refine ⟨{s | s ∈ S ∨ h.Living K s}, .inl hrS, fun s hs => ?_⟩
  have hliving : h.Living K s → s ∈ K ∨ ∃ o ∈ {s | s ∈ S ∨ h.Living K s}, s ∈ h.owned o := by
    intro hs
    refine (living_iff.mp hs).imp_right ?_
    rintro ⟨o, ho, hso⟩
    exact ⟨o, .inr ho, hso⟩
  cases hs with
  | inr hs => exact hliving hs
  | inl hsS =>
    cases hS s hsS with
    | inl hsL => exact hliving (hK s hsL)
    | inr hso =>
      obtain ⟨o, ho, hso⟩ := hso
      exact .inr ⟨o, .inl ho, hso⟩

theorem Living.mono (hKL : K ⊆ L) (hr : h.Living K r) : h.Living L r :=
  hr.trans fun _ hs => living_of_mem (hKL hs)

/-! The quick looks at what is held find living objects only. -/

theorem living_of_leadTo {n : Nat} {refs : List Ref} (hrefs : ∀ s ∈ refs, h.Living K s)
    (hd : h.leadTo d n refs = true) : h.Living K (.dict d) := by
  induction n generalizing refs with
  | zero => cases hd
  | succ n ih =>
    rw [leadTo, Bool.or_eq_true] at hd
    cases hd with
    | inl hmem => exact hrefs _ (by simpa using hmem)
    | inr hlead =>
      refine ih (fun s hs => ?_) hlead
      obtain ⟨o, ho, hso⟩ := List.mem_flatMap.mp (List.mem_of_mem_take hs)
      exact (hrefs o ho).owned hso

theorem living_of_isNear (hd : h.isNear d = true) : h.Living h.heldRefs (.dict d) := by
  refine living_of_leadTo (fun s hs => living_of_mem ?_) hd
  cases List.mem_append.mp hs with
  | inl hroots => exact List.mem_append_left _ hroots
  | inr hpins =>
    obtain ⟨vs, hvs, hs⟩ := List.mem_flatMap.mp hpins
    exact List.mem_append_right _ (List.mem_flatMap.mpr ⟨vs, List.mem_of_mem_take hvs, hs⟩)

theorem mem_heldRefs : r ∈ h.heldRefs ↔
    (∃ v ∈ h.roots, r ∈ v.refs) ∨ ∃ vs ∈ h.pins, ∃ v ∈ vs, r ∈ v.refs := by
  show r ∈ h.held ↔ _
  rw [held, List.mem_append, mem_allRefs, List.mem_flatMap]
  simp only [mem_allRefs]

theorem mem_heldRefs_hold (hr : r ∈ (h.hold v).heldRefs) : r ∈ h.heldRefs ∨ r ∈ v.refs := by
  rw [mem_heldRefs] at hr ⊢
  rw [hold] at hr
  split at hr
  · obtain hroots | ⟨vs, hvs, w, hw, hr⟩ := hr
    · exact .inl (.inl hroots)
    · rw [List.mem_singleton.mp hvs, List.mem_singleton] at hw
      exact .inr (hw ▸ hr)
  · rename_i vs rest hpins
    rw [hpins]
    obtain hroots | ⟨ws, hws, w, hw, hr⟩ := hr
    · exact .inl (.inl hroots)
    · cases List.mem_cons.mp hws with
      | inr hmem => exact .inl (.inr ⟨ws, List.mem_cons_of_mem _ hmem, w, hw, hr⟩)
      | inl heq =>
        cases List.mem_cons.mp (heq ▸ hw) with
        | inl heq => exact .inr (heq ▸ hr)
        | inr hw => exact .inl (.inr ⟨vs, List.mem_cons_self, w, hw, hr⟩)

theorem held_of_innermost {vs : List Value} {rest : List (List Value)} (hpins : h.pins = vs :: rest)
    (hv : v ∈ vs) (hr : r ∈ v.refs) : r ∈ h.heldRefs := by
  refine mem_heldRefs.mpr (.inr ⟨vs, ?_, v, hv, hr⟩)
  rw [hpins]
  exact List.mem_cons_self

theorem living_of_isPinned (hd : h.isPinned d = true) : h.Living h.heldRefs (.dict d) := by
  rw [isPinned, List.any_eq_true] at hd
  obtain ⟨vs, hvs, hd⟩ := hd
  obtain ⟨v, hv, hd⟩ := List.any_eq_true.mp hd
  refine living_of_mem (mem_heldRefs.mpr (.inr ⟨vs, hvs, v, hv, ?_⟩))
  cases v with
  | dict e =>
    obtain rfl : d = e := by simpa [Value.isDict] using hd
    exact List.mem_singleton_self _
  | _ => simp [Value.isDict] at hd

end DictScript.Heap
