import DictScript.Proofs.Renaming.Printing

/-!
Frozen values under other numbers. Freezing numbers the objects itself, in the order in which it
meets them, so the stream stays the same.
-/
namespace DictScript
open Heap
variable {ws : List (List Value)} {h h' : Heap} {d : DictId} {v : Value} {vs : List Value}
variable {xs : List (String × Value)} {n n' k : Nat} {ρ : Renaming} {f : DictId → DictId} {r : Ref}
variable {P : Ref → Prop} {Q : List (Ref × Nat) → Prop} {x x' y y' : Freeze}
variable {object object' : Ref → Freeze} {s : Freezer}

def Freezer.rename (f : DictId → DictId) (s : Freezer) : Freezer :=
  { s with ids := s.ids.map fun x => (x.1.rename f, x.2) }

def Freeze.Agree (f : DictId → DictId) (Q : List (Ref × Nat) → Prop) (x x' : Freeze) : Prop :=
  ∀ s, Q s.ids → x' (s.rename f) = (x s).map (Freezer.rename f) ∧ ∀ t, x s = .ok t → Q t.ids

namespace Freeze.Agree

theorem ok (f : DictId → DictId) (Q : List (Ref × Nat) → Prop) : Agree f Q .ok .ok := by
  refine fun s hs => ⟨rfl, ?_⟩
  rintro t ⟨⟩
  exact hs

theorem emit (hx : Agree f Q x x') (t : Token) :
    Agree f Q (fun s => x (s.emit t)) fun s => x' (s.emit t) :=
  fun s => hx (s.emit t)

theorem openMark (hx : Agree f Q x x') (m : Mark) :
    Agree f Q (fun s => x (s.openMark m)) fun s => x' (s.openMark m) :=
  fun s => hx (s.openMark m)

theorem andThen (hx : Agree f Q x x') (hy : Agree f Q y y') :
    Agree f Q (fun s => match x s with | .error e => .error e | .ok s => y s)
      fun s => match x' s with | .error e => .error e | .ok s => y' s := by
  intro s hs
  obtain ⟨hsame, hafter⟩ := hx s hs
  simp only [hsame]
  cases hrun : x s with
  | error e => exact ⟨rfl, fun t ht => by cases ht⟩
  | ok t => exact hy t (hafter t hrun)

theorem mapEmit (hx : Agree f Q x x') (t : Token) :
    Agree f Q (fun s => (x s).map (·.emit t)) fun s => (x' s).map (·.emit t) := by
  intro s hs
  obtain ⟨hsame, hafter⟩ := hx s hs
  simp only [hsame]
  cases hrun : x s with
  | error e => exact ⟨rfl, fun t ht => by cases ht⟩
  | ok t =>
    refine ⟨rfl, ?_⟩
    rintro _ ⟨⟩
    exact hafter t hrun

end Freeze.Agree

/-! Values and what they consist of. -/

theorem freezeAll_agree (hvs : ∀ v ∈ vs, Freeze.Agree f Q (v.freeze object) ((v.rename f).freeze object')) :
    Freeze.Agree f Q (freezeAll object vs) (freezeAll object' (renameAll f vs)) := by
  induction vs with
  | nil => exact .ok f Q
  | cons v vs ih =>
    obtain ⟨hv, hvs⟩ := List.forall_mem_cons.mp hvs
    exact hv.andThen (ih hvs)

theorem freezeSlots_agree
    (hxs : ∀ x ∈ xs, Freeze.Agree f Q (x.2.freeze object) ((x.2.rename f).freeze object')) :
    Freeze.Agree f Q (freezeSlots object xs) (freezeSlots object' (renameSlots f xs)) := by
  induction xs with
  | nil => exact .ok f Q
  | cons x xs ih =>
    obtain ⟨hx, hxs⟩ := List.forall_mem_cons.mp hxs
    exact (hx.emit (.str x.1)).andThen (ih hxs)

theorem freezeEntries_agree
    (hxs : ∀ x ∈ xs, Freeze.Agree f Q (x.2.freeze object) ((x.2.rename f).freeze object')) :
    Freeze.Agree f Q (freezeEntries object xs) (freezeEntries object' (renameSlots f xs)) :=
  ((freezeSlots_agree hxs).openMark .dictOpen).mapEmit (.mark .dictClose)

theorem emitParams_rename (params : List String) (s : Freezer) :
    params.foldl (fun s p => s.emit (.sym p)) (s.rename f) =
      (params.foldl (fun s p => s.emit (.sym p)) s).rename f := by
  induction params generalizing s with
  | nil => rfl
  | cons p params ih => exact ih (s.emit (.sym p))

theorem ids_emitParams (params : List String) (s : Freezer) :
    (params.foldl (fun s p => s.emit (.sym p)) s).ids = s.ids := by
  induction params generalizing s with
  | nil => rfl
  | cons p params ih => exact ih (s.emit (.sym p))

theorem Value.freeze_agree (hobject : ∀ r, P r → Freeze.Agree f Q (object r) (object' (r.rename f)))
    (v : Value) (hv : ∀ r ∈ v.refs, P r) :
    Freeze.Agree f Q (v.freeze object) ((v.rename f).freeze object') := by
  induction v using Value.ind with
  | nil => exact (Freeze.Agree.ok f Q).emit .null
  | bool b => exact (Freeze.Agree.ok f Q).emit (.bool b)
  | str t => exact (Freeze.Agree.ok f Q).emit (.str t)
  | sym n => exact (Freeze.Agree.ok f Q).emit (.sym n)
  | num x =>
    intro s hs
    simp only [rename, freeze]
    cases freezeNumber x with
    | error e => exact ⟨rfl, fun t ht => by cases ht⟩
    | ok n =>
      refine ⟨rfl, ?_⟩
      rintro _ ⟨⟩
      exact hs
  | quote v ih => exact (ih hv).emit (.mark .quote)
  | fullQuote v ih => exact (ih hv).emit (.mark .fullQuote)
  | list l => exact hobject (.list l) (hv _ (List.mem_singleton_self _))
  | dict d => exact hobject (.dict d) (hv _ (List.mem_singleton_self _))
  | native n => exact hobject (.native n) (hv _ (List.mem_singleton_self _))
  | block b ih =>
    obtain ⟨id, name, params, body, env, receiver⟩ := b
    have henv := hobject (.dict env) (hv _ (by simp [refs, blockRefs]))
    have hbody : Freeze.Agree f Q (freezeAll object body) (freezeAll object' (renameAll f body)) := by
      refine freezeAll_agree fun v hmem => ih v hmem fun r hr => hv r ?_
      simp only [refs, blockRefs, List.mem_cons, List.mem_append]
      exact .inr (.inr (mem_allRefs.mpr ⟨v, hmem, hr⟩))
    have hend : Freeze.Agree f Q (fun s => .ok ((s.emit (.mark .listClose)).emit (.mark .blockClose)))
        fun s => .ok ((s.emit (.mark .listClose)).emit (.mark .blockClose)) :=
      ((Freeze.Agree.ok f Q).emit (.mark .blockClose)).emit (.mark .listClose)
    have hrest := (henv.emit (.mark .listClose)).andThen ((hbody.openMark .listOpen).andThen hend)
    intro s hs
    have hparams := hrest (params.foldl (fun s p => s.emit (.sym p))
      (((s.emit (.mark .blockOpen)).emit ((name.map Token.str).getD .null)).openMark .listOpen))
      (by rw [ids_emitParams]; exact hs)
    rw [← emitParams_rename] at hparams
    exact hparams

/-! Objects. -/

namespace Heap

def objects (h : Heap) : List Ref := (List.range h.size).map h.ofNumber

theorem mem_objects (hr : h.Allocated r) : r ∈ h.objects :=
  List.mem_map.mpr ⟨h.number r, List.mem_range.mpr (number_lt hr), ofNumber_number hr⟩

def unnumbered (h : Heap) (ids : List (Ref × Nat)) : Nat :=
  (h.objects.filter fun q => q ∉ ids.map Prod.fst).length

theorem unnumbered_cons_lt {ids : List (Ref × Nat)} {i : Nat} (hr : h.Allocated r)
    (hnew : r ∉ ids.map Prod.fst) : h.unnumbered ((r, i) :: ids) < h.unnumbered ids :=
  length_filter_cons_lt (mem_objects hr) hnew

theorem unnumbered_le (h : Heap) (ids : List (Ref × Nat)) : h.unnumbered ids ≤ h.size := by
  refine (List.length_filter_le _ _).trans (Nat.le_of_eq ?_)
  rw [objects, List.length_map, List.length_range]

end Heap

namespace Renaming

theorem lookup_rename (ids : List (Ref × Nat)) (r : Ref) :
    (ids.map fun x => (x.1.rename ρ.map, x.2)).lookup (r.rename ρ.map) = ids.lookup r := by
  induction ids with
  | nil => rfl
  | cons x ids ih =>
    obtain ⟨q, i⟩ := x
    have heq : (r.rename ρ.map == q.rename ρ.map) = (r == q) := by
      rw [Bool.eq_iff_iff, beq_iff_eq, beq_iff_eq,
        (Ref.rename_injective ρ.injective).eq_iff]
    simp only [List.map_cons, List.lookup_cons, heq, ih]

theorem record_rename (x : Native) :
    (x.rename f).record = x.record.map (renameSlots f) := by
  cases x with
  | function name code => rfl
  | object tag record =>
    cases record with
    | none => rfl
    | some record =>
      simp only [Native.rename, Native.record, Option.map_some, lookup_renameSlots,
        Option.isSome_map]
      split
      · rfl
      · simp only [Except.map, renameSlots, List.map_append]
        rfl

namespace Heaps
variable (hh : ρ.Heaps ws h h')
include hh

theorem freezable (r : Ref) : h'.freezable (r.rename ρ.map) = (h.freezable r).rename ρ.map := by
  cases r with
  | dict d => exact congrArg Ref.dict (hh.owner d)
  | _ => rfl

theorem refs_record {i : NativeId} {x : Native} {record : List (String × Value)}
    (hi : h.native? i = some x) (hmade : h.Allocated (.native i)) (hrecord : x.record = .ok record) :
    ∀ s ∈ record, ∀ r ∈ s.2.refs, h.Allocated r := by
  cases x with
  | function name code =>
    cases hrecord
    simp [Value.refs]
  | object tag stored =>
    cases stored with
    | none => cases hrecord
    | some stored =>
      have hold : ∀ s ∈ stored, ∀ r ∈ s.2.refs, h.Allocated r := by
        intro s hs r hr
        refine hh.complete.owned (.native i) hmade r ?_
        simp only [Heap.owned, hi, Option.map_some, Option.getD_some, Native.refs]
        exact List.mem_flatMap.mpr ⟨s, hs, hr⟩
      simp only [Native.record, Except.ok.injEq] at hrecord
      split at hrecord
      · exact hrecord ▸ hold
      · rw [← hrecord]
        intro s hs
        cases List.mem_append.mp hs with
        | inl hs => exact hold s hs
        | inr hs => simp [List.mem_singleton.mp hs, Value.refs]

theorem freezeContent_agree (hr : h.Allocated r)
    (hobject : ∀ r, h.Allocated r → Freeze.Agree ρ.map Q (object r) (object' (r.rename ρ.map))) :
    Freeze.Agree ρ.map Q (h.freezeContent object r) (h'.freezeContent object' (r.rename ρ.map)) := by
  have hvalue := fun v (hv : ∀ r ∈ v.refs, h.Allocated r) => Value.freeze_agree hobject v hv
  cases r with
  | list l =>
    have hitems : ∀ v ∈ h.items l, ∀ r ∈ v.refs, h.Allocated r :=
      fun v hv => hh.region.has_item (S := h.everything) hr hv
    have hall := freezeAll_agree fun v hv => hvalue v (hitems v hv)
    rw [← hh.items] at hall
    exact (hall.openMark .listOpen).mapEmit (.mark .listClose)
  | dict d =>
    have hslots : ∀ s ∈ h.slots d, ∀ r ∈ s.2.refs, h.Allocated r :=
      fun s hs => hh.region.has_slot (S := h.everything) hr hs
    have hentries := freezeEntries_agree fun s hs => hvalue s.2 (hslots s hs)
    have htag : (h'.cell (ρ.map d)).tag = (h.cell d).tag := by
      rw [hh.cell]
      rfl
    rw [← hh.slots] at hentries
    simp only [freezeContent, Ref.rename, htag]
    cases (h.cell d).tag with
    | none => exact hentries
    | some tag =>
      refine freezeEntries_agree fun s (hs : s ∈ [(tagKey, Value.str tag)]) => hvalue s.2 ?_
      rw [List.mem_singleton.mp hs]
      exact List.forall_mem_nil _
  | native i =>
    simp only [freezeContent, Ref.rename, hh.native]
    cases hi : h.native? i with
    | none => exact freezeEntries_agree (List.forall_mem_nil _)
    | some x =>
      simp only [Option.map_some, Option.getD_some, record_rename]
      cases hrecord : x.record with
      | error e => exact fun s hs => ⟨rfl, fun t ht => by cases ht⟩
      | ok record =>
        exact freezeEntries_agree fun s hs => hvalue s.2 (hh.refs_record hi hr hrecord s hs)

/-- With fuel for all that has no number, the fuel makes no difference. -/
theorem freezeObject_agree (hn : k < n) (hn' : k < n') (hr : h.Allocated r) :
    Freeze.Agree ρ.map (fun ids => h.unnumbered ids ≤ k) (h.freezeObject n r)
      (h'.freezeObject n' (r.rename ρ.map)) := by
  induction k using Nat.strong_induction_on generalizing n n' r with
  | h k ih =>
  obtain ⟨n, rfl⟩ := Nat.exists_eq_succ_of_ne_zero (Nat.ne_zero_of_lt hn)
  obtain ⟨n', rfl⟩ := Nat.exists_eq_succ_of_ne_zero (Nat.ne_zero_of_lt hn')
  intro s hs
  have hlookup : (s.rename ρ.map).ids.lookup (h'.freezable (r.rename ρ.map)) =
      s.ids.lookup (h.freezable r) := by
    rw [hh.freezable]
    exact lookup_rename s.ids _
  rw [freezeObject, freezeObject]
  simp only [hlookup]
  cases hfound : s.ids.lookup (h.freezable r) with
  | some id =>
    refine ⟨rfl, ?_⟩
    rintro t ⟨⟩
    exact hs
  | none =>
    have hmade : h.Allocated (h.freezable r) := by
      cases r with
      | dict d => exact hh.complete.owner hr
      | _ => exact hr
    have hnew : h.freezable r ∉ s.ids.map Prod.fst := by
      intro hmem
      obtain ⟨x, hx, heq⟩ := List.mem_map.mp hmem
      exact bne_iff_ne.mp (List.lookup_eq_none_iff.mp hfound x hx) heq.symm
    have hless := (unnumbered_cons_lt (i := s.opened) hmade hnew).trans_le hs
    have hpos : k - 1 < k := Nat.sub_lt (Nat.zero_lt_of_lt hless) Nat.one_pos
    have hcontent := hh.freezeContent_agree hmade fun q hq =>
      ih (k - 1) hpos (Nat.lt_of_lt_of_le hpos (Nat.le_of_lt_succ hn))
        (Nat.lt_of_lt_of_le hpos (Nat.le_of_lt_succ hn')) hq
    obtain ⟨hsame, hafter⟩ := hcontent { s with ids := (h.freezable r, s.opened) :: s.ids }
      (Nat.le_sub_one_of_lt hless)
    rw [hh.freezable]
    exact ⟨hsame, fun t ht => (hafter t ht).trans hpos.le⟩

theorem freeze (hv : Has h.everything v) : h'.freeze (v.rename ρ.map) = h.freeze v := by
  have hsize : h.size < h.size + 1 := Nat.lt_succ_self _
  have hsize' : h.size < h'.size + 1 := by
    have hdicts := hh.size_le
    rw [Heap.size, Heap.size, hh.lists, hh.natives]
    omega
  obtain ⟨hsame, -⟩ := Value.freeze_agree
    (fun r hr => hh.freezeObject_agree hsize hsize' hr) v hv {} (unnumbered_le h _)
  rw [Heap.freeze, Heap.freeze]
  refine (congrArg _ hsame).trans ?_
  cases v.freeze (h.freezeObject (h.size + 1)) {} <;> rfl

end Heaps
end Renaming
end DictScript
