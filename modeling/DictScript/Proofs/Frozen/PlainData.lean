import DictScript.Proofs.Equality.Laws
import DictScript.Proofs.Frozen.Numbers
import DictScript.Proofs.Frozen.RoundTrip

/-!
Plain data is thawed to data that equals it, wherever no key is that of a tag. Graphs of the same
shape are bisimilar, as long as no block and no native comes in between.
-/
namespace DictScript.Heap
variable {h k : Heap} {ρ : Ref → Ref → Prop} {v w : Value}

def Data (h : Heap) : Value → Prop
  | .num x => x.isFinite
  | .dict d => (h.cell (h.owner d)).tag = none
  | .block _ => False
  | .native _ => False
  | _ => True

/-! Alike parts, one by one. -/

/-- Slots of one name are alike. -/
theorem Alike.slot_values {xs ys : List (String × Value)} {n : String}
    (ha : Alike ρ h k (.slots xs) (.slots ys)) (hys : (ys.map Prod.fst).Nodup)
    (hv : (n, v) ∈ xs) (hw : (n, w) ∈ ys) : Alike ρ h k (.one v) (.one w) := by
  induction xs generalizing ys with
  | nil => cases hv
  | cons x xs ih =>
    cases ha with
    | @slot m a b _ ys hab hxs =>
      have hnodup := List.nodup_cons.mp hys
      have hfresh : ∀ {u : Value}, (m, u) ∉ ys := fun hu =>
        hnodup.1 (List.mem_map.mpr ⟨_, hu, rfl⟩)
      have hfresh' : ∀ {u : Value}, (m, u) ∉ xs := fun hu => by
        refine hnodup.1 (hxs.names_eq ▸ List.mem_map.mpr ⟨_, hu, rfl⟩)
      rw [List.mem_cons] at hv hw
      obtain hhead | hv := hv
      · cases hhead
        obtain hhead | hw := hw
        · cases hhead
          exact hab
        · exact (hfresh hw).elim
      · obtain hhead | hw := hw
        · cases hhead
          exact (hfresh' hv).elim
        · exact ih hxs hnodup.2 hv hw

theorem not_alike_all_slots {vs : List Value} {xs : List (String × Value)} :
    ¬ Alike ρ h k (.all vs) (.slots xs) := by
  rintro ⟨⟩

theorem not_alike_slots_all {vs : List Value} {xs : List (String × Value)} :
    ¬ Alike ρ h k (.slots xs) (.all vs) := by
  rintro ⟨⟩

/-! Graphs of the same shape are bisimilar. -/

structure PlainData (h : Heap) (v : Value) : Prop where
  bounded : h.Bounded v
  data : ∀ w, h.Within v w → h.Data w

theorem PlainData.inner (hh : h.WellFormed) (hv : h.PlainData v) (hw : w ∈ h.inner v) :
    h.PlainData w :=
  ⟨hv.bounded.inner hh hw, fun _ hx => hv.data _ (hx.step hw)⟩

def Counterpart (h k : Heap) (ρ : Ref → Ref → Prop) (v w : Value) : Prop :=
  h.PlainData v ∧ Alike ρ h k (.one v) (.one w)

theorem forall₂_counterpart {vs ws : List Value} (hvs : ∀ v ∈ vs, h.PlainData v)
    (ha : Alike ρ h k (.all vs) (.all ws)) : List.Forall₂ (Counterpart h k ρ) vs ws := by
  induction vs generalizing ws with
  | nil =>
    cases ha
    exact .nil
  | cons v vs ih =>
    rw [List.forall_mem_cons] at hvs
    cases ha with
    | item hv hrest => exact .cons ⟨hvs.1, hv⟩ (ih hvs.2 hrest)

theorem PlainData.slots_eq (hh : h.WellFormed) (hgrown : Grown h k) {d : DictId}
    (hd : h.PlainData (.dict d)) : k.slots d = h.slots d ∧ h.entries (h.owner d) = h.slots d := by
  have hallocated : h.Allocated (.dict d) := hd.bounded _ (List.mem_singleton_self _)
  have hcell := hgrown.cell d hallocated (by simp)
  have howner := hgrown.cell _ (allocated_owner hh hallocated) (by simp)
  have htag : (h.cell (h.owner d)).tag = none := hd.data _ .refl
  have hsame : k.owner d = h.owner d := by rw [owner, owner, hcell]
  refine ⟨?_, by simp [entries, slots, htag]⟩
  rw [slots, slots, hsame, howner]

theorem Isomorphism.bisimulation (hh : h.WellFormed) (hgrown : Grown h k)
    (hiso : Isomorphism h k v w ρ) (hnative : ∀ r n, ¬ ρ r (.native n)) :
    k.Bisimulation (Counterpart h k ρ) := by
  rintro a b ⟨ha, halike⟩
  cases halike with
  | nil => exact .nil
  | num hxy => exact .num hxy
  | bool b => exact .bool b
  | str t => exact .str t
  | sym n => exact .sym n
  | quote hvw => exact .quote ⟨ha.inner hh (List.mem_singleton_self _), hvw⟩
  | fullQuote hvw => exact .fullQuote ⟨ha.inner hh (List.mem_singleton_self _), hvw⟩
  | block _ _ _ _ => exact (ha.data _ .refl).elim
  | @object a b r s hr hs hrs =>
    have hcontent := hiso.content r s hrs
    cases a with
    | list l =>
      cases hr
      have hitems : k.items l = h.items l :=
        hgrown.items l (ha.bounded (.list l) (List.mem_singleton_self _)) (by simp)
      cases s with
      | list m =>
        have hcontent : Alike ρ h k (.all (h.items l)) (.all (k.items m)) := hcontent
        cases b <;> cases hs
        refine .list ?_
        rw [hitems]
        exact forall₂_counterpart (fun x hx => ha.inner hh hx) hcontent
      | dict e => exact (not_alike_all_slots hcontent).elim
      | native n => exact (hnative _ _ hrs).elim
    | dict d =>
      cases hr
      obtain ⟨hslots, hentries⟩ := ha.slots_eq hh hgrown
      cases s with
      | list m => exact (not_alike_slots_all hcontent).elim
      | dict e' =>
        cases b <;> cases hs
        rename_i e
        have htag : (k.cell (k.owner e)).tag = none :=
          (hiso.tags _ _ hrs).1.trans (ha.data _ .refl)
        have hcontent : Alike ρ h k (.slots (h.entries (h.owner d)))
          (.slots (k.entries (k.owner e))) := hcontent
        rw [hentries, show k.entries (k.owner e) = k.slots e by simp [entries, slots, htag]]
          at hcontent
        refine .dict (fun n => ?_) fun n x y hx hy => ?_
        · rw [names, names, hslots, hcontent.names_eq]
        · rw [hslots] at hx
          refine ⟨ha.inner hh ?_, hcontent.slot_values (k.names_nodup e) hx hy⟩
          exact List.mem_map.mpr ⟨_, hentries ▸ hx, rfl⟩
      | native n => exact (hnative _ _ hrs).elim
    | native n => exact (ha.data _ .refl).elim
    | _ => cases hr

/-- Data without the key of a tag is thawed, in no scope at all, to a value that equals it. -/
theorem equal_thaw_freeze (hh : h.WellFormed) (hv : h.PlainData v)
    (hkeys : ∀ d, h.Within v (.dict d) → "native" ∉ h.names d) (more : Registry) :
    ∃ tokens w k, h.freeze v = .ok tokens ∧
      h.thaw (Registry.standard ++ more) (.arr (tokens.map Token.toJson)) none = (.ok w, k) ∧
      k.equal w v = true ∧ Grown h k := by
  have hplain : ∀ w, h.Within v w → h.Plain none w := by
    intro w hw
    have hdata := hv.data w hw
    cases w with
    | dict d => exact .inl ⟨hdata, hkeys d hw⟩
    | block b => exact hdata.elim
    | _ => exact hdata
  have hstore : h.Storable (fun x n => (x == n.toFloat) = true) none v :=
    ⟨hv.bounded, hplain, fun x n _ => Number.beq_of_freezeNumber⟩
  have hreg : (Registry.standard ++ more).lookup rootTag = some Registry.defrostRoot := rfl
  obtain ⟨tokens, w, k, ρ, hfreeze, hthaw, hiso, hext, hmade⟩ := hstore.exists_copy hh hreg
  have hnative : ∀ r n, ¬ ρ r (.native n) := by
    intro r n hrn
    have hreach := (hiso.domain r).mpr ⟨_, hrn⟩
    cases (hmade _ _ hrn).1 with
    | native _ _ => exact hv.data _ hreach.within_native
  have hsimilar : k.Similar v w :=
    ⟨_, hiso.bisimulation hh hext.grown.toGrownBut hnative, hv, hiso.values⟩
  exact ⟨tokens, w, k, hfreeze, hthaw, equal_of_similar hsimilar.symm,
    hext.grown.toGrownBut⟩

def Acyclic (h : Heap) (v : Value) : Prop := Acc (fun x w => x ∈ h.inner w) v

/-- A dictionary with the key of a tag, and one with keys and a text that look like marks, a
reference and a symbol. -/
def lookalikes : Heap :=
  { lists := #[#[.num (-1), .str "$x"]]
    dicts := #[{ slots := Slots.empty.put "native" (.num 1) },
      { slots := (Slots.empty.put "[" (.list ⟨0⟩)).put "&0" (.quote (.sym "'")) }] }

theorem wellFormed_lookalikes : lookalikes.WellFormed := by
  refine ⟨fun r hr => ?_, fun d => ?_, fun d => ?_⟩
  · match r with
    | .list ⟨0⟩ => decide
    | .list ⟨n + 1⟩ => exact absurd hr (Nat.not_lt.mpr (Nat.le_add_left 1 n))
    | .dict ⟨0⟩ | .dict ⟨1⟩ => decide
    | .dict ⟨n + 2⟩ => exact absurd hr (Nat.not_lt.mpr (Nat.le_add_left 2 n))
    | .native n => exact absurd hr (Nat.not_lt_zero _)
  · match d with
    | ⟨0⟩ | ⟨1⟩ => decide
    | ⟨n + 2⟩ =>
      have howner : lookalikes.owner ⟨n + 2⟩ = ⟨n + 2⟩ := owner_of_size_le (Nat.le_add_left 2 n)
      rw [howner, howner]
  · match d with
    | ⟨0⟩ | ⟨1⟩ => decide
    | ⟨n + 2⟩ =>
      have hslots : lookalikes.slots ⟨n + 2⟩ = [] := slots_of_size_le (Nat.le_add_left 2 n)
      simp [names, hslots]

theorem inner_tagged : lookalikes.inner (.dict ⟨0⟩) = [.num 1] := rfl

theorem plainData_tagged : lookalikes.PlainData (.dict ⟨0⟩) := by
  have hone : lookalikes.Data (.num 1) := by
    show Float.isFinite 1 = true
    decide +kernel
  have hnum : lookalikes.inner (.num 1) = [] := rfl
  refine ⟨fun r hr => ?_, fun w hw => ?_⟩
  · obtain rfl : r = .dict ⟨0⟩ := List.mem_singleton.mp hr
    decide
  · have hclosed : ∀ w ∈ [Value.dict ⟨0⟩, .num 1], ∀ x ∈ lookalikes.inner w,
        x ∈ [.dict ⟨0⟩, .num 1] := by
      simp only [List.forall_mem_cons, inner_tagged, hnum]
      simp
    have hmem := hw.mem_closed hclosed List.mem_cons_self
    simp only [List.mem_cons, List.not_mem_nil, or_false] at hmem
    obtain rfl | rfl := hmem
    · exact rfl
    · exact hone

theorem within_marked (hw : lookalikes.Within (.dict ⟨1⟩) w) :
    w ∈ [.dict ⟨1⟩, .list ⟨0⟩, .quote (.sym "'"), .sym "'", .num (-1), .str "$x"] := by
  have hdict : lookalikes.inner (.dict ⟨1⟩) = [.list ⟨0⟩, .quote (.sym "'")] := rfl
  have hlist : lookalikes.inner (.list ⟨0⟩) = [.num (-1), .str "$x"] := rfl
  have hquote : lookalikes.inner (.quote (.sym "'")) = [.sym "'"] := rfl
  have hsym : lookalikes.inner (.sym "'") = [] := rfl
  have hnum : lookalikes.inner (.num (-1)) = [] := rfl
  have hstr : lookalikes.inner (.str "$x") = [] := rfl
  refine hw.mem_closed ?_ List.mem_cons_self
  simp only [List.forall_mem_cons, hdict, hlist, hquote, hsym, hnum, hstr]
  simp

theorem acyclic_tagged : lookalikes.Acyclic (.dict ⟨0⟩) := by
  refine ⟨_, fun x hx => ?_⟩
  obtain rfl : x = .num 1 := List.mem_singleton.mp (inner_tagged ▸ hx)
  exact ⟨_, fun y hy => by cases hy⟩

/-- A dictionary with the key of a tag is plain data, but is not read back. -/
theorem thaw_freeze_tagged :
    lookalikes.WellFormed ∧ lookalikes.PlainData (.dict ⟨0⟩) ∧ lookalikes.Acyclic (.dict ⟨0⟩) ∧
      lookalikes.freeze (.dict ⟨0⟩) =
        .ok [.mark .dictOpen, .str "native", .num (.nat 1), .mark .dictClose] ∧
      (lookalikes.thaw Registry.standard (.arr (List.map Token.toJson
        [.mark .dictOpen, .str "native", .num (.nat 1), .mark .dictClose])) none).1 =
        .error (.of (.wrongType "string" "number")) :=
  ⟨wellFormed_lookalikes, plainData_tagged, acyclic_tagged, rfl, rfl⟩

/-- Keys and texts that look like marks are read back. -/
theorem equal_thaw_freeze_marked :
    ∃ tokens w k, lookalikes.freeze (.dict ⟨1⟩) = .ok tokens ∧
      lookalikes.thaw (Registry.standard ++ []) (.arr (tokens.map Token.toJson)) none =
        (.ok w, k) ∧ k.equal w (.dict ⟨1⟩) = true ∧ Grown lookalikes k := by
  refine equal_thaw_freeze wellFormed_lookalikes ⟨fun r hr => ?_, fun w hw => ?_⟩
    (fun d hd => ?_) []
  · obtain rfl : r = .dict ⟨1⟩ := List.mem_singleton.mp hr
    decide
  · have hminus : lookalikes.Data (.num (-1)) := by
      show Float.isFinite (-1) = true
      decide +kernel
    have hmem := within_marked hw
    simp only [List.mem_cons, List.not_mem_nil, or_false] at hmem
    obtain rfl | rfl | rfl | rfl | rfl | rfl := hmem
    · exact rfl
    · trivial
    · trivial
    · trivial
    · exact hminus
    · trivial
  · obtain rfl : d = ⟨1⟩ := by simpa using within_marked hd
    decide

end DictScript.Heap
