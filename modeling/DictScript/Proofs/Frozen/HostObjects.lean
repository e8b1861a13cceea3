import DictScript.Proofs.Frozen.Numbers
import DictScript.Proofs.Frozen.RoundTrip

/-!
Host objects in a frozen graph. A defroster runs when the record of its object is closed, so what
the record refers to must be there before the object. An object that is reached from its own record
is met in the thaw as the dictionary of the record.
-/
namespace DictScript.Heap
variable {h : Heap} {scope : Option DictId} {registry : Registry} {v w : Value} {n : NativeId}

theorem HostObject.unique {tag tag' : String} {record record' : List (String × Value)}
    (hn : h.HostObject n tag record) (hn' : h.HostObject n tag' record') :
    tag' = tag ∧ record' = record := by
  have heq := hn'.native.symm.trans hn.native
  simpa using heq

def Restorable (h : Heap) (registry : Registry) (scope : Option DictId) : Value → Prop
  | .native n => ∃ tag record, h.HostObject n tag record ∧ h.Restores registry scope tag record
  | v => h.Plain scope v

/-- Freezing succeeds, and thawing the stream makes a value with the same graph, when no host object
is reached from its own content. Host objects correspond one to one to new objects of the same tags,
wherever they are shared. -/
theorem thaw_freeze_objects (hh : h.WellFormed) (hv : h.Bounded v)
    (hgraph : ∀ w, h.Within v w → h.Restorable registry scope w)
    (hapart : ∀ n, h.Within v (.native n) → ∀ w ∈ h.inner (.native n), ¬ h.Within w (.native n))
    (hreg : registry.lookup rootTag = some Registry.defrostRoot) :
    ∃ tokens w k ρ, h.freeze v = .ok tokens ∧
      h.thaw registry (.arr (tokens.map Token.toJson)) scope = (.ok w, k) ∧
      Isomorphism h k v w ρ ∧ (∀ r s, ρ r s → SameKind h k r s) ∧
      (∀ r n, ρ r (.native n) → ¬ h.Allocated (.native n)) ∧ Grown h k := by
  have hwritable : h.Writable (fun x n => (x == n.toFloat) = true) Unmarked scope v := by
    refine ⟨hv, fun w hw => ?_, fun x n _ => Number.beq_of_freezeNumber,
      fun n hn w hw hreach => hapart n hn w hw hreach.within_native⟩
    have hw := hgraph w hw
    cases w with
    | native n =>
      obtain ⟨tag, record, hn, -⟩ := hw
      exact ⟨tag, record, hn, by simp [Unmarked, tagged]⟩
    | _ => exact hw
  have hrestores : ∀ n tag record, h.Within v (.native n) → h.HostObject n tag record →
      h.Restores registry scope tag record := by
    intro n tag record hw hn
    obtain ⟨tag', record', hn', hrestores⟩ := hgraph _ hw
    obtain ⟨rfl, rfl⟩ := hn'.unique hn
    exact hrestores
  obtain ⟨tokens, w, k, ρ, hfreeze, hthaw, hiso, hext, hmade⟩ :=
    hwritable.exists_copy hh hreg hrestores
  refine ⟨tokens, w, k, ρ, hfreeze, hthaw, hiso, fun r s hrs => (hmade r s hrs).1,
    fun r n hrn => ?_, hext.grown.toGrownBut⟩
  obtain hnew | ⟨d, hd, -⟩ := (hmade _ _ hrn).2
  · exact hnew.not_allocated
  · cases hd

/-! Boxes, as an example of host objects. -/

def defrostBox : Defroster := fun h record _ =>
  let (h, n) := h.newNative (.object "box" (some [("inner", h.get record "inner")]))
  (.ok (.native n), h)

def boxRegistry : Registry := Registry.standard ++ [("box", defrostBox)]

/-- Boxes are made again, whatever they hold. -/
theorem restores_box : h.Restores boxRegistry scope "box" [("inner", v)] := by
  refine ⟨defrostBox, rfl, fun k d record' halike hslots => ?_⟩
  obtain ⟨w, rfl⟩ : ∃ w, record' = [("inner", w)] := by
    cases halike with
    | slot _ hrest =>
      cases hrest
      exact ⟨_, rfl⟩
  have hget : k.get d "inner" = w := by
    rw [get, show Key.of "inner" = .slot "inner" from by decide, hslots]
    rfl
  rw [defrostBox, hget]

/-- A list that holds itself and one box twice, and the list in the box. -/
def boxes : Heap :=
  { lists := #[#[.list ⟨0⟩, .native ⟨0⟩, .native ⟨0⟩], #[.str "content"]]
    natives := #[.object "box" (some [("inner", .list ⟨1⟩)])] }

theorem wellFormed_boxes : boxes.WellFormed := by
  refine ⟨fun r hr => ?_, fun d => ?_, fun d => ?_⟩
  · match r with
    | .list ⟨0⟩ | .list ⟨1⟩ => decide
    | .list ⟨n + 2⟩ => exact absurd hr (Nat.not_lt.mpr (Nat.le_add_left 2 n))
    | .dict d => exact absurd hr (Nat.not_lt_zero _)
    | .native ⟨0⟩ => decide
    | .native ⟨n + 1⟩ => exact absurd hr (Nat.not_lt.mpr (Nat.le_add_left 1 n))
  · have howner : boxes.owner d = d := owner_of_size_le (Nat.zero_le _)
    rw [howner, howner]
  · have hslots : boxes.slots d = [] := slots_of_size_le (Nat.zero_le _)
    simp [names, hslots]

theorem inner_boxes : boxes.inner (.list ⟨0⟩) = [.list ⟨0⟩, .native ⟨0⟩, .native ⟨0⟩] ∧
    boxes.inner (.native ⟨0⟩) = [.list ⟨1⟩] ∧ boxes.inner (.list ⟨1⟩) = [.str "content"] ∧
    boxes.inner (.str "content") = [] :=
  ⟨rfl, rfl, rfl, rfl⟩

/-- The box is shared in the copy too. -/
theorem thaw_freeze_boxes :
    ∃ tokens w k ρ, boxes.freeze (.list ⟨0⟩) = .ok tokens ∧
      boxes.thaw boxRegistry (.arr (tokens.map Token.toJson)) none = (.ok w, k) ∧
      Isomorphism boxes k (.list ⟨0⟩) w ρ ∧ (∀ r s, ρ r s → SameKind boxes k r s) ∧
      (∀ r n, ρ r (.native n) → ¬ boxes.Allocated (.native n)) ∧ Grown boxes k := by
  obtain ⟨hlist, hbox, hcontent, hstr⟩ := inner_boxes
  have hwithin : ∀ w, boxes.Within (.list ⟨0⟩) w →
      w ∈ [.list ⟨0⟩, .native ⟨0⟩, .list ⟨1⟩, .str "content"] := by
    refine fun w hw => hw.mem_closed ?_ List.mem_cons_self
    simp only [List.forall_mem_cons, hlist, hbox, hcontent, hstr]
    simp
  have hinside : ∀ w, boxes.Within (.list ⟨1⟩) w → w ∈ [.list ⟨1⟩, .str "content"] := by
    refine fun w hw => hw.mem_closed ?_ List.mem_cons_self
    simp only [List.forall_mem_cons, hcontent, hstr]
    simp
  refine thaw_freeze_objects wellFormed_boxes (fun r hr => ?_) (fun w hw => ?_)
    (fun n hn w hw hin => ?_) rfl
  · obtain rfl : r = .list ⟨0⟩ := List.mem_singleton.mp hr
    decide
  · have hmem := hwithin w hw
    simp only [List.mem_cons, List.not_mem_nil, or_false] at hmem
    obtain rfl | rfl | rfl | rfl := hmem
    · trivial
    · exact ⟨"box", _, ⟨rfl, by decide, by decide, by decide, by decide⟩, restores_box⟩
    · trivial
    · trivial
  · obtain rfl : n = ⟨0⟩ := by simpa using hwithin _ hn
    obtain rfl : w = .list ⟨1⟩ := by simpa [hbox] using hw
    simpa using hinside _ hin

def selfBox : Heap :=
  { lists := #[#[.native ⟨0⟩]]
    natives := #[.object "box" (some [("inner", .list ⟨0⟩)])] }

def selfBoxTokens : List Token :=
  [.mark .dictOpen, .str "inner", .mark .listOpen, .ref "0", .mark .listClose, .str "native",
    .str "box", .mark .dictClose]

/-- The box in the list is met before the box is made. -/
theorem thawTokens_selfBox :
    (selfBox.thawTokens boxRegistry selfBoxTokens none).1 = .ok (.native ⟨1⟩) ∧
      (selfBox.thawTokens boxRegistry selfBoxTokens none).2.items ⟨1⟩ = [.dict ⟨0⟩] :=
  ⟨rfl, rfl⟩

theorem native?_thawTokens_selfBox :
    (selfBox.thawTokens boxRegistry selfBoxTokens none).2.native? ⟨1⟩ =
      some (.object "box" (some [("inner", .list ⟨1⟩)])) := rfl

/-- The copy is no copy: where its list should hold the new box, it holds the dictionary of the
record that the box was made of. -/
theorem thaw_freeze_selfBox :
    ∃ tokens w k, selfBox.freeze (.native ⟨0⟩) = .ok tokens ∧
      selfBox.thaw boxRegistry (.arr (tokens.map Token.toJson)) none = (.ok w, k) ∧
      w = .native ⟨1⟩ ∧ k.native? ⟨1⟩ = some (.object "box" (some [("inner", .list ⟨1⟩)])) ∧
      k.items ⟨1⟩ = [.dict ⟨0⟩] ∧ ∀ ρ, ¬ Isomorphism selfBox k (.native ⟨0⟩) w ρ := by
  obtain ⟨hresult, hitems⟩ := thawTokens_selfBox
  have hmade := native?_thawTokens_selfBox
  have hread : (selfBoxTokens.map Token.toJson).map Token.ofJson = selfBoxTokens := rfl
  generalize hk : (selfBox.thawTokens boxRegistry selfBoxTokens none).2 = k at hitems hmade
  have hthaw : selfBox.thaw boxRegistry (.arr (selfBoxTokens.map Token.toJson)) none =
      (.ok (.native ⟨1⟩), k) := by
    rw [thaw, hread]
    exact Prod.ext hresult hk
  refine ⟨selfBoxTokens, _, k, rfl, hthaw, rfl, hmade, hitems, fun ρ hiso => ?_⟩
  obtain ⟨s, hs, hbox⟩ := hiso.values.object_inv (r := .native ⟨0⟩) rfl
  obtain rfl : s = .native ⟨1⟩ := (Option.some.inj hs).symm
  have hrecord := hiso.content _ _ hbox
  rw [content, content, hmade] at hrecord
  obtain ⟨s, hs, hlist⟩ : ∃ s, k.object? (.list ⟨1⟩) = some s ∧ ρ (.list ⟨0⟩) s := by
    cases hrecord with
    | slot hinner _ => exact hinner.object_inv rfl
  obtain rfl : s = .list ⟨1⟩ := (Option.some.inj hs).symm
  have hcontent := hiso.content _ _ hlist
  rw [content, content, hitems] at hcontent
  obtain ⟨s, hs, hdict⟩ : ∃ s, k.object? (.dict ⟨0⟩) = some s ∧ ρ (.native ⟨0⟩) s := by
    cases hcontent with
    | item hself _ => exact hself.object_inv rfl
  have hsame := hiso.functional _ _ _ hbox hdict
  subst hsame
  cases hs

end DictScript.Heap
