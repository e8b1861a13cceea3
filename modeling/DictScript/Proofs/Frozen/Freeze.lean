import DictScript.Proofs.Frozen.Stream
import DictScript.Proofs.Ownership.Living

/-!
Freezing a value whose graph holds nothing but plain data, blocks, untagged dictionaries and host
objects that are not reached from their own records gives a stream that shows the value.
-/
namespace DictScript

theorem exists_freezeNumber {x : Float} (hx : x.isFinite) : ∃ n, freezeNumber x = .ok n := by
  rw [freezeNumber, if_pos hx]
  split
  · split
    · exact ⟨_, rfl⟩
    · split <;> exact ⟨_, rfl⟩
  · exact ⟨_, rfl⟩

theorem lookup_ref_cons {r q : Ref} {j : Nat} {ids : List (Ref × Nat)} :
    ((q, j) :: ids).lookup r = if r = q then some j else ids.lookup r := by
  by_cases hr : r = q
  · simp [hr]
  · rw [List.lookup_cons, beq_false_of_ne hr, if_neg hr]

@[simp] theorem Freezer.out_emit (s : Freezer) (t : Token) : (s.emit t).out = t :: s.out := rfl

@[simp] theorem Freezer.out_openMark (s : Freezer) (t : Mark) :
    (s.openMark t).out = .mark t :: s.out := rfl

namespace Numbering
variable {o q : Numbering} {B : List Ref} {r : Ref} {j : Nat}

def hide (B : List Ref) (o : Numbering) : Numbering := o.map fun x => x.filter (· ∉ B)

@[simp] theorem hide_nil (o : Numbering) : o.hide [] = o := by
  refine (List.map_congr_left fun x _ => ?_).trans (List.map_id o)
  cases x <;> simp [Option.filter]

@[simp] theorem hide_skip : hide B (o ++ [none]) = o.hide B ++ [none] := by
  simp [hide]

theorem hide_snoc (hr : r ∉ B) : hide B (o ++ [some r]) = o.hide B ++ [some r] := by
  simp [hide, hr]

theorem getElem?_hide : (o.hide B)[j]? = some (some r) ↔ o[j]? = some (some r) ∧ r ∉ B := by
  simp [hide, Option.filter_eq_some_iff]

theorem mem_hide : some r ∈ o.hide B ↔ some r ∈ o ∧ r ∉ B := by
  simp [hide, Option.filter_eq_some_iff]

theorem hide_cons (hr : some r ∉ o) : o.hide (r :: B) = o.hide B := by
  refine List.map_congr_left fun x hx => ?_
  cases x with
  | none => rfl
  | some s =>
    have hne : s ≠ r := fun heq => hr (heq ▸ hx)
    simp [Option.filter, hne]

theorem hide_open (hr : some r ∉ o ++ none :: q) :
    hide (r :: B) (o ++ some r :: q) = o.hide B ++ none :: q.hide B := by
  have hor : some r ∉ o := fun ho => hr (List.mem_append_left _ ho)
  have hqr : some r ∉ q := fun hq => hr (List.mem_append_right _ (List.mem_cons_of_mem _ hq))
  rw [← hide_cons hor, ← hide_cons hqr]
  simp [hide]

theorem hide_close (hr : r ∉ B) :
    hide B (o ++ some r :: q) = o.hide B ++ some r :: q.hide B := by
  simp [hide, hr]

/-- A place is the only one of its object. -/
theorem Distinct.not_mem (ho : Distinct (o ++ some r :: q)) : some r ∉ o ++ none :: q := by
  intro hmem
  obtain ⟨j, hj⟩ := List.getElem?_of_mem hmem
  have hplace := ho j o.length r (getElem?_fill.mpr (.inl hj)) (by simp)
  exact getElem?_gap (hplace ▸ hj)

end Numbering

namespace Heap
variable {h : Heap} {N : Float → JsonNumber → Prop} {K : List String → Prop}
variable {scope : Option DictId} {m : Nat} {s : Freezer} {o : Numbering} {r : Ref} {v w : Value}
variable {B : List Ref}

/-- What can be frozen and thawed again: finite numbers, and dictionaries without a tag and without
a slot that would be taken for one. The root environment counts where it is the scope of the thaw. -/
def Plain (h : Heap) (scope : Option DictId) : Value → Prop
  | .num x => x.isFinite
  | .dict d =>
    (h.cell (h.owner d)).tag = none ∧ tagKey ∉ h.names d ∨
      (h.cell (h.owner d)).tag = some rootTag ∧ scope = some (h.owner d)
  | .native _ => False
  | _ => True

structure Storable (h : Heap) (N : Float → JsonNumber → Prop) (scope : Option DictId)
    (v : Value) : Prop where
  bounded : h.Bounded v
  plain : ∀ w, h.Within v w → h.Plain scope w
  written : ∀ x n, h.Within v (.num x) → freezeNumber x = .ok n → N x n

/-- What can be frozen: finite numbers, host objects with a record, and dictionaries without a tag
whose names are such as `K` says. The root environment counts where it is the scope. -/
def Freezable (h : Heap) (K : List String → Prop) (scope : Option DictId) : Value → Prop
  | .num x => x.isFinite
  | .dict d =>
    (h.cell (h.owner d)).tag = none ∧ K (h.names d) ∨
      (h.cell (h.owner d)).tag = some rootTag ∧ scope = some (h.owner d)
  | .native n => ∃ tag record, h.HostObject n tag record ∧ ¬ K ((tagged tag record).map Prod.fst)
  | _ => True

structure Writable (h : Heap) (N : Float → JsonNumber → Prop) (K : List String → Prop)
    (scope : Option DictId) (v : Value) : Prop where
  bounded : h.Bounded v
  freezable : ∀ w, h.Within v w → h.Freezable K scope w
  written : ∀ x n, h.Within v (.num x) → freezeNumber x = .ok n → N x n
  apart : ∀ n, h.Within v (.native n) → ∀ w ∈ h.inner (.native n), ¬ h.Reaches w (.native n)

theorem Storable.writable (hv : h.Storable N scope v) : h.Writable N Unmarked scope v where
  bounded := hv.bounded
  freezable w hw := by
    have hplain := hv.plain w hw
    cases w with
    | native n => exact hplain.elim
    | _ => exact hplain
  written := hv.written
  apart n hn := (hv.plain _ hn).elim

theorem Writable.inner (hh : h.WellFormed) (hv : h.Writable N K scope v) (hw : w ∈ h.inner v) :
    h.Writable N K scope w :=
  ⟨hv.bounded.inner hh hw, fun _ hx => hv.freezable _ (hx.step hw),
    fun x n hx => hv.written x n (hx.step hw), fun n hn => hv.apart n (hn.step hw)⟩

def Avoids (h : Heap) (B : List Ref) (v : Value) : Prop := ∀ r ∈ B, ¬ h.Reaches v r

theorem Avoids.inner (hv : h.Avoids B v) (hw : w ∈ h.inner v) : h.Avoids B w :=
  fun r hr hreach => hv r hr (hreach.step hw)

theorem Avoids.not_mem (hv : h.Avoids B v) (hr : h.object? v = some r) : r ∉ B :=
  fun hmem => hv r hmem ⟨v, .refl, hr⟩

structure Stage (h : Heap) (m : Nat) (s : Freezer) (o : Numbering) : Prop where
  opened : s.opened = o.length
  ids : ∀ r j, s.ids.lookup r = some j ↔ o[j]? = some (some r)
  distinct : o.Distinct
  allocated : ∀ r, some r ∈ o → h.Allocated r
  room : h.size < m + o.reduceOption.length

theorem Stage.emit (hs : h.Stage m s o) (t : Token) : h.Stage m (s.emit t) o :=
  ⟨hs.opened, hs.ids, hs.distinct, hs.allocated, hs.room⟩

theorem Stage.widen (hs : h.Stage m s o) : h.Stage (m + 1) s o :=
  { hs with room := by have := hs.room; omega }

theorem Stage.skip (hs : h.Stage m s o) (t : Mark) : h.Stage m (s.openMark t) (o ++ [none]) where
  opened := by simp [Freezer.openMark, Freezer.emit, hs.opened]
  ids r j := by
    rw [Numbering.getElem?_snoc]
    simpa [Freezer.openMark, Freezer.emit] using hs.ids r j
  distinct := hs.distinct.skip
  allocated r hr := hs.allocated r (by simpa using hr)
  room := by simpa [List.reduceOption_append] using hs.room

theorem Stage.opening (hs : h.Stage (m + 1) s o) (hnew : some r ∉ o)
    (hr : h.Allocated r) (t : Mark) :
    h.Stage m (Freezer.openMark { s with ids := (r, s.opened) :: s.ids } t) (o ++ [some r]) where
  opened := by simp [Freezer.openMark, Freezer.emit, hs.opened]
  ids q j := by
    rw [Numbering.getElem?_snoc, Freezer.openMark, Freezer.emit]
    show List.lookup q ((r, s.opened) :: s.ids) = some j ↔ _
    rw [lookup_ref_cons]
    by_cases hq : q = r
    · subst hq
      have hnone : ¬ o[j]? = some (some q) := fun hj => hnew (List.mem_of_getElem? hj)
      simp [hnone, hs.opened, eq_comm]
    · have hne : ¬ r = q := fun h => hq h.symm
      simp [hq, hne, hs.ids]
  distinct := hs.distinct.snoc hnew
  allocated q hq := by
    cases List.mem_append.mp hq with
    | inl hq => exact hs.allocated q hq
    | inr hq => simp at hq; exact hq ▸ hr
  room := by
    have := hs.room
    simp [List.reduceOption_append]
    omega

theorem Stage.not_mem (hs : h.Stage m s o) (hl : s.ids.lookup r = none) : some r ∉ o := by
  intro hmem
  obtain ⟨j, hj⟩ := List.getElem?_of_mem hmem
  rw [(hs.ids r j).mpr hj] at hl
  cases hl

/-! An object is numbered within the size of the heap, so there are not more of them. -/

theorem Stage.count_le (hs : h.Stage m s o) : o.reduceOption.length ≤ h.size := by
  have hnodup : (o.reduceOption.map h.number).Nodup := by
    refine List.Nodup.map_on ?_ ?_
    · intro r hr q hq
      rw [List.reduceOption_mem_iff] at hr hq
      exact number_inj (hs.allocated r hr) (hs.allocated q hq)
    · rw [List.reduceOption, List.Nodup, List.pairwise_filterMap, List.pairwise_iff_getElem]
      intro i j hi hj hij r hr q hq heq
      simp only [id] at hr hq
      subst heq
      have := hs.distinct i j r (List.getElem?_eq_some_iff.mpr ⟨hi, hr⟩)
        (List.getElem?_eq_some_iff.mpr ⟨hj, hq⟩)
      omega
  have hsub : o.reduceOption.map h.number ⊆ List.range h.size := by
    intro i hi
    obtain ⟨r, hr, rfl⟩ := List.mem_map.mp hi
    rw [List.reduceOption_mem_iff] at hr
    exact List.mem_range.mpr (number_lt (hs.allocated r hr))
  simpa using (hnodup.subperm hsub).length_le

/-! From here on, every operation that freezes a part writes tokens that show it. The host objects
whose records are being written are numbered already, but the stream does not have them yet. -/

def Writes (h : Heap) (N : Float → JsonNumber → Prop) (K : List String → Prop)
    (scope : Option DictId) (m : Nat) (B : List Ref) (f : Freeze) (P : Part) : Prop :=
  ∀ s o, h.Stage m s o → ∃ ts s' o', f s = .ok s' ∧ s'.out = ts.reverse ++ s.out ∧
    h.Stage m s' o' ∧ o <+: o' ∧ h.Shows N K scope (o.hide B) P ts (o'.hide B)

def WritesObjects (h : Heap) (N : Float → JsonNumber → Prop) (K : List String → Prop)
    (scope : Option DictId) (m : Nat) (object : Ref → Freeze) : Prop :=
  ∀ B v, (h.object? v).isSome → h.Writable N K scope v → h.Avoids B v →
    h.Writes N K scope m B (v.freeze object) (.one v)

variable {object : Ref → Freeze} {vs : List Value} {xs : List (String × Value)}

theorem writes_leaf {t : Token} (hf : v.freeze object = fun s => .ok (s.emit t))
    (ht : ∀ o, h.Shows N K scope o (.one v) [t] o) :
    h.Writes N K scope m B (v.freeze object) (.one v) :=
  fun s o hs => ⟨[t], s.emit t, o, by rw [hf], rfl, hs.emit t, List.prefix_rfl, ht _⟩

theorem writes_all (hvs : ∀ v ∈ vs, h.Writes N K scope m B (v.freeze object) (.one v)) :
    h.Writes N K scope m B (freezeAll object vs) (.all vs) := by
  induction vs with
  | nil => exact fun s o hs => ⟨[], s, o, rfl, rfl, hs, List.prefix_rfl, .noItem⟩
  | cons v vs ih =>
    intro s o hs
    obtain ⟨ts, s₁, o₁, hr, hout, hs₁, ho₁, hshow⟩ := hvs v List.mem_cons_self s o hs
    obtain ⟨us, s₂, o₂, hr', hout', hs₂, ho₂, hshow'⟩ :=
      ih (fun w hw => hvs w (List.mem_cons_of_mem _ hw)) s₁ o₁ hs₁
    refine ⟨ts ++ us, s₂, o₂, ?_, ?_, hs₂, ho₁.trans ho₂, .item hshow hshow'⟩
    · simp [freezeAll, hr, hr']
    · simp [hout', hout]

theorem writes_slots (hxs : ∀ x ∈ xs, h.Writes N K scope m B (x.2.freeze object) (.one x.2)) :
    h.Writes N K scope m B (freezeSlots object xs) (.slots xs) := by
  induction xs with
  | nil => exact fun s o hs => ⟨[], s, o, rfl, rfl, hs, List.prefix_rfl, .noSlot⟩
  | cons x xs ih =>
    intro s o hs
    obtain ⟨n, v⟩ := x
    obtain ⟨ts, s₁, o₁, hr, hout, hs₁, ho₁, hshow⟩ :=
      hxs _ List.mem_cons_self (s.emit (.str n)) o (hs.emit _)
    obtain ⟨us, s₂, o₂, hr', hout', hs₂, ho₂, hshow'⟩ :=
      ih (fun x hx => hxs x (List.mem_cons_of_mem _ hx)) s₁ o₁ hs₁
    refine ⟨.str n :: (ts ++ us), s₂, o₂, ?_, ?_, hs₂, ho₁.trans ho₂, .slot hshow hshow'⟩
    · simp [freezeSlots, hr, hr']
    · simp [hout', hout]

theorem emitParams_spec (params : List String) (s : Freezer) (o : Numbering) (hs : h.Stage m s o) :
    (params.foldl (fun s p => s.emit (.sym p)) s).out = (params.map Token.sym).reverse ++ s.out ∧
    h.Stage m (params.foldl (fun s p => s.emit (.sym p)) s) o ∧
    h.Shows N K scope (o.hide B) (.all (params.map .sym)) (params.map Token.sym) (o.hide B) := by
  induction params generalizing s with
  | nil => exact ⟨rfl, hs, .noItem⟩
  | cons p params ih =>
    obtain ⟨hout, hs', hshow⟩ := ih (s.emit (.sym p)) (hs.emit _)
    refine ⟨?_, hs', (Shows.sym p).item hshow⟩
    simpa using hout

theorem writes_block (hobject : h.WritesObjects N K scope m object) (hh : h.WellFormed) {b : Block}
    (hb : h.Writable N K scope (.block b)) (havoid : h.Avoids B (.block b))
    (hbody : h.Writes N K scope m B (freezeAll object b.body) (.all b.body)) :
    h.Writes N K scope m B ((Value.block b).freeze object) (.one (.block b)) := by
  intro s o hs
  obtain ⟨id, name, params, body, env, receiver⟩ := b
  have henv : h.Writable N K scope (.dict env) := hb.inner hh List.mem_cons_self
  obtain ⟨hout, hs₁, hshow⟩ := emitParams_spec (B := B) params _ _
    (((hs.emit (.mark .blockOpen)).emit (blockNameToken name)).skip .listOpen)
  obtain ⟨es, s₂, o₂, hr₂, hout₂, hs₂, ho₂, hshow₂⟩ :=
    hobject B _ rfl henv (havoid.inner List.mem_cons_self) _ _ (hs₁.emit (.mark .listClose))
  obtain ⟨bs, s₃, o₃, hr₃, hout₃, hs₃, ho₃, hshow₃⟩ := hbody _ _ (hs₂.skip .listOpen)
  rw [Numbering.hide_skip] at hshow hshow₃
  refine ⟨_, (s₃.emit (.mark .listClose)).emit (.mark .blockClose), o₃, ?_, ?_,
    (hs₃.emit _).emit _, ?_, .block hshow (Numbering.hide_skip ▸ hshow₂) hshow₃⟩
  · simp only [Value.freeze] at hr₂
    simp only [Value.freeze, freezeBlock]
    rw [blockNameToken] at hr₂
    rw [hr₂]
    simp only [hr₃]
  · simp [hout₃, hout₂, hout]
  · exact (List.prefix_append _ _).trans (ho₂.trans ((List.prefix_append _ _).trans ho₃))

theorem writes_value (hobject : h.WritesObjects N K scope m object) (hh : h.WellFormed)
    (hv : h.Writable N K scope v) (havoid : h.Avoids B v) :
    h.Writes N K scope m B (v.freeze object) (.one v) := by
  induction v using Value.ind with
  | nil => exact writes_leaf rfl fun _ => .nil
  | num x =>
    obtain ⟨n, hn⟩ := exists_freezeNumber (hv.freezable _ .refl)
    refine writes_leaf (t := .num n) ?_ fun _ => .num (hv.written x n .refl hn)
    funext s
    simp [Value.freeze, hn, Except.map]
  | bool b => exact writes_leaf rfl fun _ => .bool b
  | str s => exact writes_leaf rfl fun _ => .str s
  | sym n => exact writes_leaf rfl fun _ => .sym n
  | quote v ih =>
    intro s o hs
    have hw : v ∈ h.inner (.quote v) := List.mem_singleton_self _
    obtain ⟨ts, s', o', hr, hout, hs', ho, hshow⟩ :=
      ih (hv.inner hh hw) (havoid.inner hw) _ _ (hs.emit (.mark .quote))
    exact ⟨_, s', o', hr, by simp [hout], hs', ho, .quote hshow⟩
  | fullQuote v ih =>
    intro s o hs
    have hw : v ∈ h.inner (.fullQuote v) := List.mem_singleton_self _
    obtain ⟨ts, s', o', hr, hout, hs', ho, hshow⟩ :=
      ih (hv.inner hh hw) (havoid.inner hw) _ _ (hs.emit (.mark .fullQuote))
    exact ⟨_, s', o', hr, by simp [hout], hs', ho, .fullQuote hshow⟩
  | list l => exact hobject B _ rfl hv havoid
  | dict d => exact hobject B _ rfl hv havoid
  | block b ih =>
    refine writes_block hobject hh hv havoid (writes_all fun w hw => ?_)
    have hw' : w ∈ h.inner (.block b) := List.mem_cons_of_mem _ hw
    exact ih w hw (hv.inner hh hw') (havoid.inner hw')
  | native n => exact hobject B _ rfl hv havoid

theorem HostObject.record_eq {n : NativeId} {tag : String} {record : List (String × Value)}
    (hn : h.HostObject n tag record) :
    ((h.native? n).map Native.record).getD (.ok []) = .ok (tagged tag record) := by
  have hnone : ¬ (record.lookup tagKey).isSome := fun hsome =>
    hn.untagged (lookup_isSome_iff.mp hsome)
  rw [hn.native, Option.map_some, Option.getD_some, Native.record, if_neg hnone, tagged]

/-- The record of a host object is written while the object has no place in the stream. -/
theorem writes_native (hh : h.WellFormed)
    (hobject : h.WritesObjects N K scope m (h.freezeObject m)) {n : NativeId}
    (hv : h.Writable N K scope (.native n)) (havoid : h.Avoids B (.native n)) {s : Freezer}
    {o : Numbering} (hs : h.Stage (m + 1) s o) (hnew : some (.native n) ∉ o) :
    ∃ ts s' o', h.freezeContent (h.freezeObject m) (.native n)
        { s with ids := (.native n, s.opened) :: s.ids } = .ok s' ∧
      s'.out = ts.reverse ++ s.out ∧ h.Stage (m + 1) s' o' ∧ o <+: o' ∧
      h.Shows N K scope (o.hide B) (.one (.native n)) ts (o'.hide B) := by
  obtain ⟨tag, record, hn, hnames⟩ := hv.freezable _ .refl
  have hinner : h.inner (.native n) = record.map Prod.snd := by rw [Heap.inner, hn.bindings]
  have hxs : ∀ x ∈ tagged tag record,
      h.Writes N K scope m (.native n :: B) (x.2.freeze (h.freezeObject m)) (.one x.2) := by
    intro x hx
    cases List.mem_append.mp hx with
    | inl hx =>
      have hw : x.2 ∈ h.inner (.native n) := hinner ▸ List.mem_map.mpr ⟨x, hx, rfl⟩
      refine writes_value hobject hh (hv.inner hh hw) fun r hr => ?_
      obtain rfl | hr := List.mem_cons.mp hr
      · exact hv.apart n .refl _ hw
      · exact havoid.inner hw r hr
    | inr hx =>
      obtain rfl := List.mem_singleton.mp hx
      exact writes_leaf rfl fun _ => .str tag
  have hopen := hs.opening hnew (hv.bounded (.native n) (by simp [Value.refs])) .dictOpen
  obtain ⟨ts, s', o', hr, hout, hs', ho, hshow⟩ := writes_slots hxs _ _ hopen
  obtain ⟨q, rfl⟩ := ho
  rw [List.append_assoc, List.singleton_append] at hs' hshow
  have hstart := Numbering.hide_open (B := B) (q := []) (by simpa using hnew)
  have hgap := hs'.distinct.not_mem
  rw [hstart, Numbering.hide_open hgap] at hshow
  refine ⟨.mark .dictOpen :: (ts ++ [.mark .dictClose]), s'.emit (.mark .dictClose), _, ?_, ?_,
    (hs'.emit _).widen, List.prefix_append _ _, ?_⟩
  · rw [freezeContent]
    simp only [hn.record_eq, freezeEntries]
    rw [show freezeSlots (h.freezeObject m) (tagged tag record) _ = .ok s' from hr]
    rfl
  · simp [hout]
  · rw [Numbering.hide_close (havoid.not_mem rfl)]
    refine .native hn hnames (fun hmem => hgap ?_) hshow
    simp only [List.mem_append, List.mem_cons, Numbering.mem_hide, reduceCtorEq, false_or] at hmem ⊢
    exact hmem.imp And.left And.left

/-- An object that has no number yet takes the next one, and its content is written after it. -/
theorem writes_freezeObject (hh : h.WellFormed)
    (hobject : h.WritesObjects N K scope m (h.freezeObject m)) :
    h.WritesObjects N K scope (m + 1) (h.freezeObject (m + 1)) := by
  intro B v hobj hv havoid s o hs
  have hmet : ∀ r j, h.object? v = some r → s.ids.lookup r = some j →
      ∃ ts s' o', Except.ok (ε := RuntimeError) (s.emit (.ref (toString j))) = .ok s' ∧
        s'.out = ts.reverse ++ s.out ∧ h.Stage (m + 1) s' o' ∧ o <+: o' ∧
        h.Shows N K scope (o.hide B) (.one v) ts (o'.hide B) :=
    fun r j hr hj => ⟨[.ref (toString j)], _, o, rfl, rfl, hs.emit _, List.prefix_rfl,
      .met hr (Numbering.getElem?_hide.mpr ⟨(hs.ids r j).mp hj, havoid.not_mem hr⟩)⟩
  have hnew : ∀ r, s.ids.lookup r = none → some r ∉ o.hide B :=
    fun r hl hmem => hs.not_mem hl (Numbering.mem_hide.mp hmem).1
  have hsnoc : ∀ r, h.object? v = some r → Numbering.hide B (o ++ [some r]) =
      o.hide B ++ [some r] := fun r hr => Numbering.hide_snoc (havoid.not_mem hr)
  have hvalues : ∀ w, w ∈ h.inner v →
      h.Writes N K scope m B (w.freeze (h.freezeObject m)) (.one w) :=
    fun w hw => writes_value hobject hh (hv.inner hh hw) (havoid.inner hw)
  cases v with
  | list l =>
    rw [Value.freeze, freezeObject]
    cases hl : s.ids.lookup (h.freezable (.list l)) with
    | some j => exact hmet _ j rfl hl
    | none =>
      have hopen := hs.opening (hs.not_mem hl) (hv.bounded (.list l) (by simp [Value.refs])) .listOpen
      obtain ⟨ts, s', o', hr, hout, hs', ho, hshow⟩ := writes_all hvalues _ _ hopen
      rw [hsnoc (h.freezable (.list l)) rfl] at hshow
      refine ⟨_, s'.emit (.mark .listClose), o', ?_, ?_, (hs'.emit _).widen,
        (List.prefix_append _ _).trans ho, .list (hnew _ hl) hshow⟩
      · show (freezeAll (h.freezeObject m) (h.items l) _).map _ = _
        rw [show freezeAll (h.freezeObject m) (h.items l) _ = .ok s' from hr]
        rfl
      · simp [hout]
  | dict d =>
    rw [Value.freeze, freezeObject]
    cases hl : s.ids.lookup (h.freezable (.dict d)) with
    | some j => exact hmet _ j rfl hl
    | none =>
      have hd := allocated_owner hh (hv.bounded (.dict d) (by simp [Value.refs]))
      have hopen := hs.opening (hs.not_mem hl) hd .dictOpen
      have hslots : h.slots (h.owner d) = h.slots d := by rw [slots, slots, hh.views d]
      have hsnoc := hsnoc (h.freezable (.dict d)) rfl
      cases hv.freezable _ .refl with
      | inl hplain =>
        obtain ⟨htag, hname⟩ := hplain
        have hentries : h.entries (h.owner d) = h.slots d := by simp [entries, htag, slots]
        have hxs : ∀ x ∈ h.slots d,
            h.Writes N K scope m B (x.2.freeze (h.freezeObject m)) (.one x.2) :=
          fun x hx => hvalues x.2 (List.mem_map.mpr ⟨x, hentries ▸ hx, rfl⟩)
        obtain ⟨ts, s', o', hr, hout, hs', ho, hshow⟩ := writes_slots hxs _ _ hopen
        rw [hsnoc] at hshow
        refine ⟨_, s'.emit (.mark .dictClose), o', ?_, ?_, (hs'.emit _).widen,
          (List.prefix_append _ _).trans ho,
          .dict (hnew _ hl) htag (hentries ▸ hname) (hentries ▸ hshow)⟩
        · simp only [freezable, freezeContent, htag, hslots, freezeEntries] at hr ⊢
          rw [hr]
          rfl
        · simp [hout]
      | inr hroot =>
        obtain ⟨htag, hscope⟩ := hroot
        refine ⟨_, _, _, ?_, ?_, (((hopen.emit (.str tagKey)).emit (.str rootTag)).emit
          (.mark .dictClose)).widen, List.prefix_append _ _,
          hsnoc.symm ▸ Shows.root (hnew _ hl) htag hscope⟩
        · simp only [freezable, freezeContent, htag]
          rfl
        · simp
  | native n =>
    rw [Value.freeze, freezeObject]
    cases hl : s.ids.lookup (h.freezable (.native n)) with
    | some j => exact hmet _ j rfl hl
    | none => exact writes_native hh hobject hv havoid hs (hs.not_mem hl)
  | _ => cases hobj

theorem writes_objects (hh : h.WellFormed) : h.WritesObjects N K scope m (h.freezeObject m) := by
  induction m with
  | zero =>
    -- no object is left without a number
    intro B v _ _ _ s o hs
    have hroom := hs.room
    have hcount := hs.count_le
    omega
  | succ m ih => exact writes_freezeObject hh ih

/-- What can be frozen is, and the stream shows it. -/
theorem Writable.exists_freeze (hh : h.WellFormed) (hv : h.Writable N K scope v) :
    ∃ tokens o, h.freeze v = .ok tokens ∧ h.Shows N K scope [] (.one v) tokens o := by
  have hstart : h.Stage (h.size + 1) {} [] :=
    ⟨rfl, fun r j => by simp, fun i j r hi => by simp at hi, fun r hr => by simp at hr, by simp⟩
  have havoid : h.Avoids [] v := fun r hr => (List.not_mem_nil hr).elim
  obtain ⟨ts, s, o, hr, hout, -, -, hshow⟩ :=
    writes_value (writes_objects hh) hh hv havoid _ _ hstart
  rw [Numbering.hide_nil, Numbering.hide_nil] at hshow
  refine ⟨ts, o, ?_, hshow⟩
  rw [freeze, hr]
  simp [Except.map, hout]

end Heap
end DictScript
