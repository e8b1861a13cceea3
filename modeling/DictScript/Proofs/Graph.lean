import DictScript.Proofs.Numbers
import DictScript.Proofs.Slots

/-!
Value graphs: what is inside a value, and when two graphs have the same shape.
-/
namespace DictScript

def Ref.toValue : Ref → Value
  | .list l => .list l
  | .dict d => .dict d
  | .native n => .native n

inductive Part where
  | one (v : Value)
  | all (vs : List Value)
  | slots (xs : List (String × Value))

def Part.values : Part → List Value
  | one v => [v]
  | all vs => vs
  | slots xs => xs.map Prod.snd

def Native.bindings : Native → List (String × Value)
  | .object _ (some record) => record
  | _ => []

/-- Induction on a value, over the bodies of blocks as well. -/
@[elab_as_elim]
theorem Value.ind {p : Value → Prop} (nil : p .nil) (num : ∀ x, p (.num x))
    (bool : ∀ b, p (.bool b)) (str : ∀ s, p (.str s)) (sym : ∀ n, p (.sym n))
    (quote : ∀ v, p v → p (.quote v)) (fullQuote : ∀ v, p v → p (.fullQuote v))
    (list : ∀ l, p (.list l)) (dict : ∀ d, p (.dict d))
    (block : ∀ b : Block, (∀ v ∈ b.body, p v) → p (.block b)) (native : ∀ n, p (.native n))
    (v : Value) : p v :=
  @Value.rec p (fun b => ∀ v ∈ b.body, p v) (fun vs => ∀ v ∈ vs, p v) nil num bool str sym
    quote fullQuote list dict block native (fun _ _ _ _ _ _ hbody => hbody)
    (fun v hv => (List.not_mem_nil hv).elim)
    (fun _ _ hv hvs w hw => by
      cases List.mem_cons.mp hw with
      | inl heq => exact heq ▸ hv
      | inr hmem => exact hvs w hmem) v

theorem mem_allRefs {r : Ref} {vs : List Value} : r ∈ allRefs vs ↔ ∃ v ∈ vs, r ∈ v.refs := by
  induction vs with
  | nil => simp [allRefs]
  | cons v vs ih => simp [allRefs, ih]

theorem DictCell.mem_refs_of_slot {c : DictCell} {x : String × Value} {r : Ref}
    (hx : x ∈ c.slots.toList) (hr : r ∈ x.2.refs) : r ∈ c.refs := by
  rw [refs, List.mem_append, List.mem_append, List.mem_flatMap]
  exact .inl (.inl ⟨x, hx, hr⟩)

/-- With the same scope and target, what is not in a slot was there before. -/
theorem DictCell.mem_slot_or_refs {c c' : DictCell} {r : Ref} (hscope : c'.scope = c.scope)
    (htarget : c'.target = c.target) (hr : r ∈ c'.refs) :
    (∃ x ∈ c'.slots.toList, r ∈ x.2.refs) ∨ r ∈ c.refs := by
  rw [refs, hscope, htarget, List.mem_append, List.mem_append, List.mem_flatMap] at hr
  obtain (hr | hr) | hr := hr
  · exact .inl hr
  · exact .inr (List.mem_append_left _ (List.mem_append_right _ hr))
  · exact .inr (List.mem_append_right _ hr)

namespace Heap
variable {h k : Heap} {v w x : Value} {r s : Ref} {d e : DictId}

/-! Objects and what they consist of. -/

def Allocated (h : Heap) : Ref → Prop
  | .list l => l.index < h.lists.size
  | .dict d => d.index < h.dicts.size
  | .native n => n.index < h.natives.size

instance (h : Heap) (r : Ref) : Decidable (h.Allocated r) :=
  match r with
  | .list _ | .dict _ | .native _ => inferInstanceAs (Decidable (_ < _))

/-- What every heap keeps: the links stay in bounds, a view shows a dictionary that is no view, and
no slot has the name of a link. -/
structure WellFormed (h : Heap) : Prop where
  closed : ∀ r, h.Allocated r → ∀ s ∈ h.owned r, h.Allocated s
  views : ∀ d, h.owner (h.owner d) = h.owner d
  ordinary : ∀ d, ∀ n ∈ h.names d, Key.of n = .slot n

def object? (h : Heap) : Value → Option Ref
  | .list l => some (.list l)
  | .dict d => some (.dict (h.owner d))
  | .native n => some (.native n)
  | _ => none

/-- The slots that belong to the graph. A tagged dictionary keeps its slots to itself. -/
def entries (h : Heap) (d : DictId) : List (String × Value) :=
  if (h.cell d).tag.isSome then [] else (h.cell d).slots.toList

def content (h : Heap) : Ref → Part
  | .list l => .all (h.items l)
  | .dict d => .slots (h.entries d)
  | .native n => .slots (((h.native? n).map Native.bindings).getD [])

def inner (h : Heap) : Value → List Value
  | .quote v => [v]
  | .fullQuote v => [v]
  | .list l => h.items l
  | .dict d => (h.entries (h.owner d)).map Prod.snd
  | .block b => .dict b.env :: b.body
  | .native n => (((h.native? n).map Native.bindings).getD []).map Prod.snd
  | _ => []

/-- A value is within another if it is reached over list items, quoted values, slots, and the
environments and bodies of blocks. -/
def Within (h : Heap) : Value → Value → Prop := Relation.ReflTransGen fun v w => w ∈ h.inner v

def Reaches (h : Heap) (v : Value) (r : Ref) : Prop := ∃ w, h.Within v w ∧ h.object? w = some r

theorem Within.step (hw : w ∈ h.inner v) (hx : h.Within w x) : h.Within v x :=
  Relation.ReflTransGen.head hw hx

/-- A list of values that holds all that is inside of them. -/
theorem Within.mem_closed {vs : List Value} (hclosed : ∀ w ∈ vs, ∀ x ∈ h.inner w, x ∈ vs)
    (hv : v ∈ vs) (hw : h.Within v w) : w ∈ vs := by
  induction hw with
  | refl => exact hv
  | tail _ hx ih => exact hclosed _ ih _ hx

/-- What an object consists of is what is inside the value. -/
theorem values_content (hr : h.object? v = some r) : (h.content r).values = h.inner v := by
  cases v with
  | list l => cases hr; rfl
  | dict d => cases hr; rfl
  | native n => cases hr; rfl
  | _ => cases hr

def Bounded (h : Heap) (v : Value) : Prop := ∀ r ∈ v.refs, h.Allocated r

theorem bounded_of_mem_allRefs {vs : List Value} (ha : ∀ r ∈ allRefs vs, h.Allocated r)
    (hv : v ∈ vs) : h.Bounded v :=
  fun r hr => ha r (mem_allRefs.mpr ⟨v, hv, hr⟩)

theorem allocated_owner (hh : h.WellFormed) (hd : h.Allocated (.dict d)) :
    h.Allocated (.dict (h.owner d)) := by
  rw [owner]
  cases ht : (h.cell d).target with
  | none => exact hd
  | some e => exact hh.closed _ hd _ (by simp [owned, DictCell.refs, ht])

theorem bounded_of_mem_slots (hh : h.WellFormed) (hd : h.Allocated (.dict d)) {n : String}
    (hs : (n, v) ∈ h.slots d) : h.Bounded v := by
  intro r hr
  exact hh.closed _ (allocated_owner hh hd) r (DictCell.mem_refs_of_slot hs hr)

theorem Bounded.inner (hh : h.WellFormed) (hv : h.Bounded v) (hw : w ∈ h.inner v) :
    h.Bounded w := by
  cases v with
  | quote v => obtain rfl : w = v := List.mem_singleton.mp hw; exact hv
  | fullQuote v => obtain rfl : w = v := List.mem_singleton.mp hw; exact hv
  | list l => exact bounded_of_mem_allRefs (hh.closed _ (hv (.list l) (by simp [Value.refs]))) hw
  | dict d =>
    obtain ⟨⟨n, v⟩, hs, rfl⟩ := List.mem_map.mp hw
    have hs : (n, v) ∈ h.slots d := by
      rw [entries] at hs
      split at hs
      · simp at hs
      · exact hs
    exact bounded_of_mem_slots hh (hv (.dict d) (by simp [Value.refs])) hs
  | block b =>
    obtain ⟨id, name, params, body, env, receiver⟩ := b
    cases List.mem_cons.mp hw with
    | inl heq =>
      subst heq
      intro r hr
      exact hv r (by simpa [Value.refs, blockRefs] using .inl (by simpa [Value.refs] using hr))
    | inr hmem =>
      intro r hr
      refine hv r ?_
      have := mem_allRefs.mpr ⟨w, hmem, hr⟩
      simp [Value.refs, blockRefs, this]
  | native n =>
    obtain ⟨⟨name, v⟩, hs, rfl⟩ := List.mem_map.mp hw
    intro r hr
    refine hh.closed _ (hv (.native n) (by simp [Value.refs])) r ?_
    rw [owned]
    cases hn : h.native? n with
    | none => simp [hn] at hs
    | some o =>
      cases o with
      | function _ _ => simp [hn, Native.bindings] at hs
      | object tag record =>
        cases record with
        | none => simp [hn, Native.bindings] at hs
        | some record =>
          have hs : (name, v) ∈ record := by simpa [hn, Native.bindings] using hs
          exact List.mem_flatMap.mpr ⟨_, hs, hr⟩
  | _ => simp [Heap.inner] at hw

/-! Graphs of the same shape. -/

/-- The parts are built alike, with the objects of the one in the places of their counterparts. -/
inductive Alike (ρ : Ref → Ref → Prop) (h k : Heap) : Part → Part → Prop where
  | nil : Alike ρ h k (.one .nil) (.one .nil)
  | num {x y : Float} : (x == y) = true → Alike ρ h k (.one (.num x)) (.one (.num y))
  | bool (b : Bool) : Alike ρ h k (.one (.bool b)) (.one (.bool b))
  | str (t : String) : Alike ρ h k (.one (.str t)) (.one (.str t))
  | sym (n : String) : Alike ρ h k (.one (.sym n)) (.one (.sym n))
  | quote {v w : Value} : Alike ρ h k (.one v) (.one w) →
      Alike ρ h k (.one (.quote v)) (.one (.quote w))
  | fullQuote {v w : Value} : Alike ρ h k (.one v) (.one w) →
      Alike ρ h k (.one (.fullQuote v)) (.one (.fullQuote w))
  | object {v w : Value} {r s : Ref} : h.object? v = some r → k.object? w = some s → ρ r s →
      Alike ρ h k (.one v) (.one w)
  | block {b c : Block} : b.name = c.name → b.params = c.params →
      Alike ρ h k (.one (.dict b.env)) (.one (.dict c.env)) →
      Alike ρ h k (.all b.body) (.all c.body) → Alike ρ h k (.one (.block b)) (.one (.block c))
  | noItem : Alike ρ h k (.all []) (.all [])
  | item {v w : Value} {vs ws : List Value} : Alike ρ h k (.one v) (.one w) →
      Alike ρ h k (.all vs) (.all ws) → Alike ρ h k (.all (v :: vs)) (.all (w :: ws))
  | noSlot : Alike ρ h k (.slots []) (.slots [])
  | slot {n : String} {v w : Value} {xs ys : List (String × Value)} :
      Alike ρ h k (.one v) (.one w) → Alike ρ h k (.slots xs) (.slots ys) →
      Alike ρ h k (.slots ((n, v) :: xs)) (.slots ((n, w) :: ys))

/-- A one-to-one correspondence between the objects reached from `v` and those reached from `w`
under which the graphs are the same. Tags agree, and a tagged dictionary corresponds to itself. -/
structure Isomorphism (h k : Heap) (v w : Value) (ρ : Ref → Ref → Prop) : Prop where
  values : Alike ρ h k (.one v) (.one w)
  content : ∀ r s, ρ r s → Alike ρ h k (h.content r) (k.content s)
  tags : ∀ d e, ρ (.dict d) (.dict e) →
    (k.cell e).tag = (h.cell d).tag ∧ ((h.cell d).tag.isSome → e = d)
  domain : ∀ r, h.Reaches v r ↔ ∃ s, ρ r s
  range : ∀ s, k.Reaches w s ↔ ∃ r, ρ r s
  functional : ∀ r s t, ρ r s → ρ r t → s = t
  injective : ∀ q r s, ρ q s → ρ r s → q = r

section
variable {ρ σ : Ref → Ref → Prop} {P Q : Part}

theorem Alike.mono (hρ : ∀ r s, ρ r s → σ r s) (ha : Alike ρ h k P Q) : Alike σ h k P Q := by
  induction ha with
  | nil => exact .nil
  | num hxy => exact .num hxy
  | bool b => exact .bool b
  | str t => exact .str t
  | sym n => exact .sym n
  | quote _ ih => exact .quote ih
  | fullQuote _ ih => exact .fullQuote ih
  | object hv hw hr => exact .object hv hw (hρ _ _ hr)
  | block hn hp _ _ henv hbody => exact .block hn hp henv hbody
  | noItem => exact .noItem
  | item _ _ hv hvs => exact .item hv hvs
  | noSlot => exact .noSlot
  | slot _ _ hv hxs => exact .slot hv hxs

theorem Alike.flip (ha : Alike ρ h k P Q) : Alike (fun r s => ρ s r) k h Q P := by
  induction ha with
  | nil => exact .nil
  | num hxy => exact .num (Number.beq_comm _ _ ▸ hxy)
  | bool b => exact .bool b
  | str t => exact .str t
  | sym n => exact .sym n
  | quote _ ih => exact .quote ih
  | fullQuote _ ih => exact .fullQuote ih
  | object hv hw hr => exact .object hw hv hr
  | block hn hp _ _ henv hbody => exact .block hn.symm hp.symm henv hbody
  | noItem => exact .noItem
  | item _ _ hv hvs => exact .item hv hvs
  | noSlot => exact .noSlot
  | slot _ _ hv hxs => exact .slot hv hxs

/-- Alike parts have their values in pairs. -/
theorem Alike.exists_value (ha : Alike ρ h k P Q) :
    ∀ x ∈ P.values, ∃ y ∈ Q.values, Alike ρ h k (.one x) (.one y) := by
  have hone : ∀ v w, Alike ρ h k (.one v) (.one w) →
      ∀ x ∈ (Part.one v).values, ∃ y ∈ (Part.one w).values, Alike ρ h k (.one x) (.one y) := by
    intro v w hvw x hx
    obtain rfl : x = v := by simpa [Part.values] using hx
    exact ⟨w, by simp [Part.values], hvw⟩
  induction ha with
  | noItem => simp [Part.values]
  | noSlot => simp [Part.values]
  | item hv _ _ ih =>
    intro x hx
    cases List.mem_cons.mp hx with
    | inl heq => exact ⟨_, List.mem_cons_self, heq ▸ hv⟩
    | inr hmem =>
      obtain ⟨y, hy, hxy⟩ := ih x hmem
      exact ⟨y, List.mem_cons_of_mem _ hy, hxy⟩
  | slot hv _ _ ih =>
    intro x hx
    cases List.mem_cons.mp hx with
    | inl heq => exact ⟨_, List.mem_cons_self, heq ▸ hv⟩
    | inr hmem =>
      obtain ⟨y, hy, hxy⟩ := ih x hmem
      exact ⟨y, List.mem_cons_of_mem _ hy, hxy⟩
  | nil => exact hone _ _ .nil
  | num hxy => exact hone _ _ (.num hxy)
  | bool b => exact hone _ _ (.bool b)
  | str t => exact hone _ _ (.str t)
  | sym n => exact hone _ _ (.sym n)
  | quote hv _ => exact hone _ _ (.quote hv)
  | fullQuote hv _ => exact hone _ _ (.fullQuote hv)
  | object hv hw hr => exact hone _ _ (.object hv hw hr)
  | block hn hp henv hbody _ _ => exact hone _ _ (.block hn hp henv hbody)

theorem Alike.inner (hc : ∀ r s, ρ r s → Alike ρ h k (h.content r) (k.content s))
    (ha : Alike ρ h k (.one v) (.one w)) (hx : x ∈ h.inner v) :
    ∃ y ∈ k.inner w, Alike ρ h k (.one x) (.one y) := by
  generalize hP : Part.one v = P at ha
  generalize hQ : Part.one w = Q at ha
  cases ha with
  | quote hvw =>
    cases hP; cases hQ
    exact hvw.exists_value x hx
  | fullQuote hvw =>
    cases hP; cases hQ
    exact hvw.exists_value x hx
  | object hv hw hr =>
    cases hP; cases hQ
    obtain ⟨y, hy, hxy⟩ := (hc _ _ hr).exists_value x (values_content hv ▸ hx)
    exact ⟨y, values_content hw ▸ hy, hxy⟩
  | block _ _ henv hbody =>
    cases hP; cases hQ
    cases List.mem_cons.mp hx with
    | inl heq => exact ⟨_, List.mem_cons_self, heq ▸ henv⟩
    | inr hmem =>
      obtain ⟨y, hy, hxy⟩ := hbody.exists_value x hmem
      exact ⟨y, List.mem_cons_of_mem _ hy, hxy⟩
  | _ => cases hP <;> simp [Heap.inner] at hx

/-- Wherever one can go in the one graph, one can go in the other. -/
theorem Alike.within (hc : ∀ r s, ρ r s → Alike ρ h k (h.content r) (k.content s))
    (ha : Alike ρ h k (.one v) (.one w)) (hx : h.Within v x) :
    ∃ y, k.Within w y ∧ Alike ρ h k (.one x) (.one y) := by
  induction hx with
  | refl => exact ⟨w, .refl, ha⟩
  | tail _ hstep ih =>
    obtain ⟨y, hy, hxy⟩ := ih
    obtain ⟨z, hz, hxz⟩ := hxy.inner hc hstep
    exact ⟨z, hy.tail hz, hxz⟩

end

end Heap
end DictScript
