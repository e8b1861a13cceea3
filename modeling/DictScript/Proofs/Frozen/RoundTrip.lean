import DictScript.Proofs.Frozen.Freeze
import DictScript.Proofs.Frozen.Thaw

/-!
Thawing what was frozen rebuilds the graph.
-/
namespace DictScript

namespace Token

theorem ofText_str (text : String) : ofText ("'" ++ text) = str text := by
  have htext : ("'" ++ text).toList = '\'' :: text.toList := by simp
  rw [ofText, htext]
  simp

theorem ofText_sym (name : String) : ofText ("$" ++ name) = sym name := by
  have htext : ("$" ++ name).toList = '$' :: name.toList := by simp
  rw [ofText, htext]
  simp

theorem ofText_ref (number : String) : ofText ("&" ++ number) = ref number := by
  have htext : ("&" ++ number).toList = '&' :: number.toList := by simp
  rw [ofText, htext]
  simp

theorem ofText_mark (m : Mark) : ofText m.text = mark m := by
  cases m <;> rfl

def Readable (t : Token) : Prop := ofJson t.toJson = t

theorem readable_str (text : String) : (str text).Readable := ofText_str text

theorem readable_sym (name : String) : (sym name).Readable := ofText_sym name

theorem readable_ref (number : String) : (ref number).Readable := ofText_ref number

theorem readable_mark (m : Mark) : (mark m).Readable := ofText_mark m

theorem readable_blockName (name : Option String) : (blockNameToken name).Readable := by
  cases name with
  | none => rfl
  | some name => exact readable_str name

end Token

namespace Heap
variable {h k : Heap} {N : Float → JsonNumber → Prop} {K : List String → Prop}
variable {scope : Option DictId} {registry : Registry} {o o' : Numbering} {P : Part}
variable {ts : List Token} {v : Value}

theorem Shows.readable (hs : h.Shows N K scope o P ts o') : ∀ t ∈ ts, t.Readable := by
  have hmark := Token.readable_mark
  have hnil := List.forall_mem_nil Token.Readable
  induction hs with
  | nil => exact List.forall_mem_singleton.mpr rfl
  | bool b => exact List.forall_mem_singleton.mpr rfl
  | num _ => exact List.forall_mem_singleton.mpr rfl
  | str t => exact List.forall_mem_singleton.mpr (Token.readable_str t)
  | sym n => exact List.forall_mem_singleton.mpr (Token.readable_sym n)
  | met _ _ => exact List.forall_mem_singleton.mpr (Token.readable_ref _)
  | quote _ ih => exact List.forall_mem_cons.mpr ⟨hmark _, ih⟩
  | fullQuote _ ih => exact List.forall_mem_cons.mpr ⟨hmark _, ih⟩
  | list _ _ ih =>
    simp only [List.forall_mem_cons, List.forall_mem_append]
    exact ⟨hmark _, ih, hmark _, hnil⟩
  | dict _ _ _ _ ih =>
    simp only [List.forall_mem_cons, List.forall_mem_append]
    exact ⟨hmark _, ih, hmark _, hnil⟩
  | native _ _ _ _ ih =>
    simp only [List.forall_mem_cons, List.forall_mem_append]
    exact ⟨hmark _, ih, hmark _, hnil⟩
  | root _ _ _ =>
    simp only [List.forall_mem_cons]
    exact ⟨hmark _, Token.readable_str _, Token.readable_str _, hmark _, hnil⟩
  | block _ _ _ hp he hb =>
    simp only [List.forall_mem_cons, List.forall_mem_append]
    exact ⟨hmark _, Token.readable_blockName _, hmark _, hp, hmark _, he, hmark _, hb, hmark _,
      hmark _, hnil⟩
  | noItem => exact List.forall_mem_nil _
  | item _ _ hv hvs => exact List.forall_mem_append.mpr ⟨hv, hvs⟩
  | noSlot => exact List.forall_mem_nil _
  | slot _ _ hv hxs =>
    exact List.forall_mem_cons.mpr ⟨Token.readable_str _, List.forall_mem_append.mpr ⟨hv, hxs⟩⟩

theorem Reaches.within_native {n : NativeId} (hn : h.Reaches v (.native n)) :
    h.Within v (.native n) := by
  obtain ⟨w, hw, hr⟩ := hn
  cases w with
  | native m =>
    cases hr
    exact hw
  | _ => cases hr

/-- What can be written is frozen and thawed to a value with the same graph, whose objects are new
but for the root environment. -/
theorem Writable.exists_copy (hh : h.WellFormed)
    (hv : h.Writable (fun x n => (x == n.toFloat) = true) Unmarked scope v)
    (hreg : registry.lookup rootTag = some Registry.defrostRoot)
    (hnatives : ∀ n tag record, h.Within v (.native n) → h.HostObject n tag record →
      h.Restores registry scope tag record) :
    ∃ tokens w k ρ, h.freeze v = .ok tokens ∧
      h.thaw registry (.arr (tokens.map Token.toJson)) scope = (.ok w, k) ∧
      Isomorphism h k v w ρ ∧ Extends scope h k ∧ ∀ r q, ρ r q →
        SameKind h k r q ∧ (Fresh h k q ∨ ∃ d, q = .dict d ∧ h.IsRoot scope d) := by
  obtain ⟨tokens, o, hfreeze, hshow⟩ := hv.exists_freeze hh
  have hrestores : ∀ n tag record, some (.native n) ∈ o → h.HostObject n tag record →
      h.Restores registry scope tag record := by
    intro n tag record hn
    obtain ⟨x, hx, hn⟩ := (hshow.reached hn).resolve_left List.not_mem_nil
    obtain rfl := List.mem_singleton.mp hx
    exact hnatives n tag record hn.within_native
  obtain ⟨w, k, p, hthaw, hext, hshow', hmade⟩ :=
    exists_thaw hh hreg (fun _ _ => id) hshow hrestores
  have hread : (tokens.map Token.toJson).map Token.ofJson = tokens := by
    rw [List.map_map]
    exact (List.map_congr_left hshow.readable).trans (List.map_id _)
  have hnumbers : ∀ (x y : Float) (n : JsonNumber), (x == n.toFloat) = true → Thawed y n →
      (x == y) = true := by
    rintro x y n hx rfl
    exact hx
  refine ⟨tokens, w, k, _, hfreeze, ?_, hshow.isomorphism hnumbers (fun _ _ => id) hshow', hext, ?_⟩
  · rw [thaw, hread]
    exact hthaw
  · intro r q hrq
    refine ⟨(hshow.agree hnumbers (fun _ _ => id) hshow' hrq).kind, ?_⟩
    obtain ⟨j, -, hq⟩ := hrq
    exact hmade q (List.mem_of_getElem? hq)

/-- What can be stored is frozen and thawed so. -/
theorem Storable.exists_copy (hh : h.WellFormed)
    (hv : h.Storable (fun x n => (x == n.toFloat) = true) scope v)
    (hreg : registry.lookup rootTag = some Registry.defrostRoot) :
    ∃ tokens w k ρ, h.freeze v = .ok tokens ∧
      h.thaw registry (.arr (tokens.map Token.toJson)) scope = (.ok w, k) ∧
      Isomorphism h k v w ρ ∧ Extends scope h k ∧ ∀ r q, ρ r q →
        SameKind h k r q ∧ (Fresh h k q ∨ ∃ d, q = .dict d ∧ h.IsRoot scope d) :=
  hv.writable.exists_copy hh hreg fun _ _ _ hn => (hv.plain _ hn).elim

/-- Freezing succeeds, and thawing the stream makes a value with the same graph: lists correspond to
lists and dictionaries to dictionaries, one to one, and what is shared or cyclic in the one is so in
the other. The objects of the copy are new, but for the root environment: it may occur where it is
the scope of the thaw, and stands for itself. Nothing that was there has changed. -/
theorem thaw_freeze (hh : h.WellFormed) (hv : h.Bounded v)
    (hplain : ∀ w, h.Within v w → h.Plain scope w)
    (hnum : ∀ x n, h.Within v (.num x) → freezeNumber x = .ok n → (x == n.toFloat) = true)
    (hreg : registry.lookup rootTag = some Registry.defrostRoot) :
    ∃ tokens w k ρ, h.freeze v = .ok tokens ∧
      h.thaw registry (.arr (tokens.map Token.toJson)) scope = (.ok w, k) ∧
      Isomorphism h k v w ρ ∧ (∀ r s, ρ r s → SameKind h k r s) ∧ (∀ n s, ¬ ρ (.native n) s) ∧
      (∀ r s, ρ r s → Fresh h k s ∨ ∃ d, r = .dict d ∧ s = .dict d ∧ h.IsRoot scope d) ∧
      Widened h k := by
  have hstore : h.Storable (fun x n => (x == n.toFloat) = true) scope v := ⟨hv, hplain, hnum⟩
  obtain ⟨tokens, w, k, ρ, hfreeze, hthaw, hiso, hext, hmade⟩ := hstore.exists_copy hh hreg
  have hnative : ∀ n s, ¬ ρ (.native n) s := by
    intro n s hns
    have hreach : h.Reaches v (.native n) := (hiso.domain _).mpr ⟨s, hns⟩
    exact hplain _ hreach.within_native
  refine ⟨tokens, w, k, ρ, hfreeze, hthaw, hiso, fun r s hrs => (hmade r s hrs).1, hnative,
    fun r s hrs => (hmade r s hrs).2.imp_right ?_, hext.grown⟩
  rintro ⟨d, rfl, hroot⟩
  cases (hmade r _ hrs).1 with
  | dict e d =>
    -- the counterpart has the tag of the root environment, and a tagged dictionary is its own
    obtain ⟨htag, hself⟩ := hiso.tags e d hrs
    rw [hroot.cell hext, hroot.2.1] at htag
    obtain rfl : d = e := hself (htag ▸ rfl)
    exact ⟨d, rfl, rfl, hroot⟩

def knotClosure : Block :=
  { id := 0, name := some "f", params := ["x"], body := [.list ⟨0⟩], env := ⟨0⟩, receiver := none }

/-- The root environment, a list that holds itself, a dictionary that holds a view of itself, the
list and a closure, and the view. -/
def knot : Heap :=
  { lists := #[#[.list ⟨0⟩, .num 1]]
    dicts := #[{ name := some "root", tag := some rootTag },
      { slots := ((Slots.empty.put "me" (.dict ⟨2⟩)).put "items" (.list ⟨0⟩)).put "f"
          (.block knotClosure) },
      { target := some ⟨1⟩ }]
    blocks := 1 }

theorem within_knot {w : Value} (hw : knot.Within (.dict ⟨2⟩) w) :
    w ∈ [.dict ⟨2⟩, .list ⟨0⟩, .num 1, .block knotClosure, .dict ⟨0⟩] := by
  induction hw with
  | refl => exact List.mem_cons_self
  | @tail w x _ hstep ih =>
    have hclosed : ∀ w ∈ [Value.dict ⟨2⟩, .list ⟨0⟩, .num 1, .block knotClosure, .dict ⟨0⟩],
        ∀ x ∈ knot.inner w, x ∈ [.dict ⟨2⟩, .list ⟨0⟩, .num 1, .block knotClosure, .dict ⟨0⟩] := by
      simp only [List.forall_mem_cons]
      have hdict : knot.inner (.dict ⟨2⟩) = [.dict ⟨2⟩, .list ⟨0⟩, .block knotClosure] := rfl
      have hlist : knot.inner (.list ⟨0⟩) = [.list ⟨0⟩, .num 1] := rfl
      have hblock : knot.inner (.block knotClosure) = [.dict ⟨0⟩, .list ⟨0⟩] := rfl
      have hroot : knot.inner (.dict ⟨0⟩) = [] := rfl
      have hnum : knot.inner (.num 1) = [] := rfl
      simp [hdict, hlist, hblock, hroot, hnum]
    exact hclosed w ih x hstep

theorem wellFormed_knot : knot.WellFormed := by
  refine ⟨fun r hr => ?_, fun d => ?_, fun d => ?_⟩
  · match r with
    | .list ⟨0⟩ => decide
    | .list ⟨n + 1⟩ => exact absurd hr (Nat.not_lt.mpr (Nat.le_add_left 1 n))
    | .dict ⟨0⟩ | .dict ⟨1⟩ | .dict ⟨2⟩ => decide
    | .dict ⟨n + 3⟩ => exact absurd hr (Nat.not_lt.mpr (Nat.le_add_left 3 n))
    | .native n => exact absurd hr (Nat.not_lt_zero _)
  · match d with
    | ⟨0⟩ | ⟨1⟩ | ⟨2⟩ => decide
    | ⟨n + 3⟩ =>
      have howner : knot.owner ⟨n + 3⟩ = ⟨n + 3⟩ := owner_of_size_le (Nat.le_add_left 3 n)
      rw [howner, howner]
  · match d with
    | ⟨0⟩ | ⟨1⟩ | ⟨2⟩ => decide
    | ⟨n + 3⟩ =>
      have hslots : knot.slots ⟨n + 3⟩ = [] := slots_of_size_le (Nat.le_add_left 3 n)
      simp [names, hslots]

/-- The view is frozen as its target, and thawed in the root environment. -/
theorem thaw_freeze_knot :
    ∃ tokens w k ρ, knot.freeze (.dict ⟨2⟩) = .ok tokens ∧
      knot.thaw Registry.standard (.arr (tokens.map Token.toJson)) (some ⟨0⟩) = (.ok w, k) ∧
      Isomorphism knot k (.dict ⟨2⟩) w ρ ∧ (∀ r s, ρ r s → SameKind knot k r s) ∧
      (∀ n s, ¬ ρ (.native n) s) ∧
      (∀ r s, ρ r s → Fresh knot k s ∨
        ∃ d, r = .dict d ∧ s = .dict d ∧ knot.IsRoot (some ⟨0⟩) d) ∧
      Widened knot k := by
  have hbounded : knot.Bounded (.dict ⟨2⟩) := fun r hr => by
    obtain rfl : r = .dict ⟨2⟩ := List.mem_singleton.mp hr
    decide
  have hplain : ∀ w ∈ [Value.dict ⟨2⟩, .list ⟨0⟩, .num 1, .block knotClosure, .dict ⟨0⟩],
      knot.Plain (some ⟨0⟩) w := by
    simp only [List.forall_mem_cons]
    have hone : Float.isFinite 1 = true := by decide +kernel
    exact ⟨.inl (by decide), trivial, hone, trivial, .inr (by decide),
      List.forall_mem_nil _⟩
  refine thaw_freeze wellFormed_knot hbounded (fun w hw => hplain w (within_knot hw))
    (fun x n hx hn => ?_) rfl
  obtain rfl : x = 1 := by simpa using within_knot hx
  obtain rfl : JsonNumber.nat 1 = n := Except.ok.inj hn
  decide +kernel

end Heap
end DictScript
