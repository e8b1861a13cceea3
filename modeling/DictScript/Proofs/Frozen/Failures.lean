import DictScript.Proofs.Frozen.Freeze

/-!
When freezing fails. It visits every object that is reached from the value once, and fails just
where it comes to a number that is not finite or to a host object without a record.
-/
namespace DictScript

/-! Values apart from what their blocks are bound to. -/

mutual
/-- The value with no block in it bound to a receiver. -/
def Value.released : Value → Value
  | .quote v => .quote v.released
  | .fullQuote v => .fullQuote v.released
  | .block b => .block (releaseBlock b)
  | v => v

def releaseBlock : BlockOf Value → BlockOf Value
  | ⟨id, name, params, body, env, _⟩ => ⟨id, name, params, releaseAll body, env, none⟩

def releaseAll : List Value → List Value
  | [] => []
  | v :: vs => v.released :: releaseAll vs
end

def releaseSlots (xs : List (String × Value)) : List (String × Value) :=
  xs.map fun x => (x.1, x.2.released)

def Native.released : Native → Native
  | .function name code => .function name code
  | .object tag record => .object tag (record.map releaseSlots)

theorem lookup_releaseSlots (name : String) (xs : List (String × Value)) :
    (releaseSlots xs).lookup name = (xs.lookup name).map Value.released := by
  induction xs with
  | nil => rfl
  | cons x xs ih =>
    rw [releaseSlots, List.map_cons, List.lookup_cons, List.lookup_cons, ← releaseSlots, ih]
    cases name == x.1 <;> rfl

theorem record_released (x : Native) : x.released.record = x.record.map releaseSlots := by
  cases x with
  | function name code => rfl
  | object tag record =>
    cases record with
    | none => rfl
    | some record =>
      simp only [Native.released, Option.map_some, Native.record, lookup_releaseSlots,
        Option.isSome_map, Except.map]
      split
      · rfl
      · simp [releaseSlots, Value.released]

theorem releaseBlock_def (b : Block) :
    releaseBlock b = { b with body := releaseAll b.body, receiver := none } := by
  cases b
  rfl

section
variable {object : Ref → Freeze}

theorem freeze_releaseAll {vs : List Value}
    (hvs : ∀ v ∈ vs, v.released.freeze object = v.freeze object) :
    freezeAll object (releaseAll vs) = freezeAll object vs := by
  induction vs with
  | nil => rfl
  | cons v vs ih =>
    obtain ⟨hv, hvs⟩ := List.forall_mem_cons.mp hvs
    funext s
    rw [releaseAll, freezeAll, freezeAll, hv, ih hvs]

/-- What a block is bound to is not written. -/
theorem freeze_released (v : Value) : v.released.freeze object = v.freeze object := by
  induction v using Value.ind with
  | quote v ih | fullQuote v ih =>
    funext s
    rw [Value.released, Value.freeze, Value.freeze, ih]
  | block b ih =>
    funext s
    rw [Value.released, releaseBlock_def, Value.freeze, Value.freeze, freezeBlock, freezeBlock,
      freeze_releaseAll ih]
  | _ => rfl

theorem freeze_releaseSlots (xs : List (String × Value)) :
    freezeSlots object (releaseSlots xs) = freezeSlots object xs := by
  induction xs with
  | nil => rfl
  | cons x xs ih =>
    funext s
    rw [releaseSlots, List.map_cons, freezeSlots, freezeSlots, freeze_released, ← releaseSlots, ih]

end

namespace Heap
variable {h k : Heap} {m : Nat} {s : Freezer} {o o' : Numbering} {r : Ref} {v w : Value}
variable {vs ws : List Value} {xs : List (String × Value)} {G G' : (Ref → Freeze) → Freeze}
variable {T : Freezer → Freezer}

/-- The heaps differ at most in the links of dictionaries, in what tagged dictionaries hold, and in
what blocks are bound to. -/
structure SameContents (h k : Heap) : Prop where
  size : k.size = h.size
  items : ∀ l, releaseAll (k.items l) = releaseAll (h.items l)
  target : ∀ d, (k.cell d).target = (h.cell d).target
  tag : ∀ d, (k.cell d).tag = (h.cell d).tag
  entries : ∀ d, releaseSlots (k.entries d) = releaseSlots (h.entries d)
  natives : ∀ n, (k.native? n).map Native.released = (h.native? n).map Native.released

def Unfreezable (h : Heap) : Value → Prop
  | .num x => x.isFinite = false
  | .native n => ∃ tag, h.native? n = some (.object tag none)
  | _ => False

/-! What has been visited. -/

inductive Visited (h : Heap) (o : Numbering) : Value → Prop where
  | object {v : Value} {r : Ref} : h.object? v = some r → some r ∈ o → Visited h o v
  | other {v : Value} : h.object? v = none → ¬ h.Unfreezable v →
      (∀ w ∈ h.inner v, Visited h o w) → Visited h o v

def Explored (h : Heap) (o : Numbering) (r : Ref) : Prop :=
  ¬ h.Unfreezable r.toValue ∧ ∀ w ∈ (h.content r).values, h.Visited o w

theorem Visited.mono (hv : h.Visited o v) (ho : o <+: o') : h.Visited o' v := by
  induction hv with
  | object hr hmem => exact .object hr (ho.subset hmem)
  | other hnone hfine _ ih => exact .other hnone hfine ih

theorem Explored.mono (hr : h.Explored o r) (ho : o <+: o') : h.Explored o' r :=
  ⟨hr.1, fun w hw => (hr.2 w hw).mono ho⟩

/-- If all that is numbered is explored, then nothing that is reached cannot be frozen. -/
theorem Visited.not_unfreezable (ho : ∀ r, some r ∈ o → h.Explored o r) (hv : h.Visited o v)
    (hw : h.Within v w) : ¬ h.Unfreezable w := by
  have hvisited : h.Visited o w := by
    induction hw with
    | refl => exact hv
    | tail _ hx ih =>
      cases ih with
      | object hr hmem => exact (ho _ hmem).2 _ (values_content hr ▸ hx)
      | other _ _ hinner => exact hinner _ hx
  cases hvisited with
  | other _ hfine _ => exact hfine
  | @object _ r hr hmem =>
    intro hbad
    refine (ho r hmem).1 ?_
    cases w with
    | native n =>
      obtain rfl : r = .native n := (Option.some.inj hr).symm
      exact hbad
    | num x => cases hr
    | _ => exact hbad.elim

/-! One pass over values. -/

/-- The operation does not depend on how much deeper than `m` it could go. If it fails, something
that cannot be frozen is reached from the values; if it does not, they have been visited, and all
that it has numbered is explored. -/
structure Explores (h : Heap) (m : Nat) (G : (Ref → Freeze) → Freeze) (vs : List Value) : Prop where
  steady : ∀ s o, h.Stage m s o → ∀ n, m ≤ n → G (h.freezeObject n) s = G (h.freezeObject m) s
  fails : ∀ s e, G (h.freezeObject m) s = .error e →
    e.cause.kind = .typeMismatch ∧ ∃ v ∈ vs, ∃ w, h.Within v w ∧ h.Unfreezable w
  visits : ∀ s o s', h.Stage m s o → G (h.freezeObject m) s = .ok s' →
    ∃ o', h.Stage m s' o' ∧ o <+: o' ∧ (∀ r, some r ∈ o' → some r ∈ o ∨ h.Explored o' r) ∧
      ∀ v ∈ vs, h.Visited o' v

def Marks (h : Heap) (m : Nat) (T : Freezer → Freezer) : Prop :=
  ∀ s o, h.Stage m s o →
    ∃ o', h.Stage m (T s) o' ∧ o <+: o' ∧ ∀ r, some r ∈ o' → some r ∈ o

theorem marks_emit (t : Token) : h.Marks m (·.emit t) :=
  fun _ o hs => ⟨o, hs.emit t, List.prefix_rfl, fun _ => id⟩

theorem marks_skip (t : Mark) : h.Marks m (·.openMark t) :=
  fun _ o hs => ⟨o ++ [none], hs.skip t, List.prefix_append _ _, fun r hr => by simpa using hr⟩

theorem Marks.comp {T' : Freezer → Freezer} (hT : h.Marks m T) (hT' : h.Marks m T') :
    h.Marks m fun s => T' (T s) := by
  intro s o hs
  obtain ⟨o₁, hs₁, ho₁, hold₁⟩ := hT s o hs
  obtain ⟨o₂, hs₂, ho₂, hold₂⟩ := hT' _ o₁ hs₁
  exact ⟨o₂, hs₂, ho₁.trans ho₂, fun r hr => hold₁ r (hold₂ r hr)⟩

theorem marks_params (params : List String) :
    h.Marks m fun s => params.foldl (fun s p => s.emit (.sym p)) s := by
  induction params with
  | nil => exact fun s o hs => ⟨o, hs, List.prefix_rfl, fun _ => id⟩
  | cons p params ih => exact (marks_emit (.sym p)).comp ih

namespace Explores

theorem done : h.Explores m (fun _ s => .ok s) [] := by
  refine ⟨fun _ _ _ _ _ => rfl, nofun, fun s o s' hs hok => ?_⟩
  obtain rfl := Except.ok.inj hok
  exact ⟨o, hs, List.prefix_rfl, fun r hr => .inl hr, nofun⟩

theorem after (hG : h.Explores m G vs) (hT : h.Marks m T) :
    h.Explores m (fun object s => G object (T s)) vs := by
  refine ⟨fun s o hs => ?_, fun s => hG.fails (T s), fun s o s' hs hok => ?_⟩
  · obtain ⟨o₁, hs₁, -, -⟩ := hT s o hs
    exact hG.steady _ o₁ hs₁
  · obtain ⟨o₁, hs₁, ho₁, hold⟩ := hT s o hs
    obtain ⟨o', hs', ho', hnew, hvs⟩ := hG.visits _ o₁ s' hs₁ hok
    exact ⟨o', hs', ho₁.trans ho', fun r hr => (hnew r hr).imp_left (hold r), hvs⟩

theorem andThen (hG : h.Explores m G vs) (hT : h.Marks m T) :
    h.Explores m (fun object s => (G object s).map T) vs := by
  refine ⟨fun s o hs n hn => ?_, fun s e he => ?_, fun s o s' hs hok => ?_⟩
  · rw [hG.steady s o hs n hn]
  · cases hres : G (h.freezeObject m) s with
    | error e' =>
      rw [hres] at he
      obtain rfl := Except.error.inj he
      exact hG.fails s _ hres
    | ok s₁ =>
      rw [hres] at he
      cases he
  · cases hres : G (h.freezeObject m) s with
    | error e' =>
      rw [hres] at hok
      cases hok
    | ok s₁ =>
      rw [hres] at hok
      obtain rfl := Except.ok.inj hok
      obtain ⟨o₁, hs₁, ho₁, hnew, hvs⟩ := hG.visits s o s₁ hs hres
      obtain ⟨o', hs', ho', hold⟩ := hT s₁ o₁ hs₁
      exact ⟨o', hs', ho₁.trans ho', fun r hr => (hnew r (hold r hr)).imp_right (·.mono ho'),
        fun v hv => (hvs v hv).mono ho'⟩

theorem seq (hG : h.Explores m G vs) (hG' : h.Explores m G' ws) :
    h.Explores m (fun object s => (G object s).bind (G' object)) (vs ++ ws) := by
  refine ⟨fun s o hs n hn => ?_, fun s e he => ?_, fun s o s' hs hok => ?_⟩
  · rw [hG.steady s o hs n hn]
    cases hres : G (h.freezeObject m) s with
    | error e => rfl
    | ok s₁ =>
      obtain ⟨o₁, hs₁, -, -, -⟩ := hG.visits s o s₁ hs hres
      exact hG'.steady s₁ o₁ hs₁ n hn
  · cases hres : G (h.freezeObject m) s with
    | error e' =>
      rw [hres] at he
      obtain rfl := Except.error.inj he
      obtain ⟨hkind, v, hv, hbad⟩ := hG.fails s _ hres
      exact ⟨hkind, v, List.mem_append_left _ hv, hbad⟩
    | ok s₁ =>
      rw [hres] at he
      obtain ⟨hkind, v, hv, hbad⟩ := hG'.fails s₁ _ he
      exact ⟨hkind, v, List.mem_append_right _ hv, hbad⟩
  · cases hres : G (h.freezeObject m) s with
    | error e' =>
      rw [hres] at hok
      cases hok
    | ok s₁ =>
      rw [hres] at hok
      obtain ⟨o₁, hs₁, ho₁, hnew₁, hvs⟩ := hG.visits s o s₁ hs hres
      obtain ⟨o', hs', ho', hnew', hws⟩ := hG'.visits s₁ o₁ s' hs₁ hok
      refine ⟨o', hs', ho₁.trans ho', fun r hr => ?_, fun v hv => ?_⟩
      · obtain hold | hexplored := hnew' r hr
        · exact (hnew₁ r hold).imp_right (·.mono ho')
        · exact .inr hexplored
      · exact (List.mem_append.mp hv).elim (fun hv => (hvs v hv).mono ho') (hws v)

/-- A value that is no object is visited when what is inside of it is. -/
theorem outer (hG : h.Explores m G (h.inner v)) (hnone : h.object? v = none)
    (hfine : ¬ h.Unfreezable v) : h.Explores m G [v] := by
  refine ⟨hG.steady, fun s e he => ?_, fun s o s' hs hok => ?_⟩
  · obtain ⟨hkind, w, hw, x, hx, hbad⟩ := hG.fails s e he
    exact ⟨hkind, v, List.mem_singleton_self v, x, hx.step hw, hbad⟩
  · obtain ⟨o', hs', ho', hnew, hvs⟩ := hG.visits s o s' hs hok
    refine ⟨o', hs', ho', hnew, fun w hw => ?_⟩
    obtain rfl := List.mem_singleton.mp hw
    exact .other hnone hfine hvs

/-- Text that is written beside the values counts for nothing. -/
theorem textless (hG : h.Explores m G (vs ++ ws)) (hws : ∀ w ∈ ws, ∃ t, w = .str t) :
    h.Explores m G vs := by
  refine ⟨hG.steady, fun s e he => ?_, fun s o s' hs hok => ?_⟩
  · obtain ⟨hkind, v, hv, w, hw, hbad⟩ := hG.fails s e he
    cases List.mem_append.mp hv with
    | inl hv => exact ⟨hkind, v, hv, w, hw, hbad⟩
    | inr hv =>
      obtain ⟨t, rfl⟩ := hws v hv
      obtain rfl | ⟨x, hx, -⟩ := Relation.ReflTransGen.cases_head hw
      · exact hbad.elim
      · cases hx
  · obtain ⟨o', hs', ho', hnew, hvs⟩ := hG.visits s o s' hs hok
    exact ⟨o', hs', ho', hnew, fun v hv => hvs v (List.mem_append_left _ hv)⟩

end Explores

/-! Values. -/

def ExploresObjects (h : Heap) (m : Nat) : Prop :=
  ∀ v, (h.object? v).isSome → h.Bounded v → h.Explores m (fun object => v.freeze object) [v]

theorem explores_leaf {t : Token} (hf : ∀ object, v.freeze object = fun s => .ok (s.emit t))
    (hnone : h.object? v = none) (hfine : ¬ h.Unfreezable v) (hinner : h.inner v = []) :
    h.Explores m (fun object => v.freeze object) [v] := by
  simp only [hf]
  refine Explores.outer ?_ hnone hfine
  rw [hinner]
  exact Explores.done.after (marks_emit t)

theorem explores_all (hvs : ∀ v ∈ vs, h.Explores m (fun object => v.freeze object) [v]) :
    h.Explores m (fun object => freezeAll object vs) vs := by
  induction vs with
  | nil => exact .done
  | cons v vs ih =>
    obtain ⟨hv, hvs⟩ := List.forall_mem_cons.mp hvs
    have hboth := hv.seq (ih hvs)
    have hcons : (fun object => freezeAll object (v :: vs)) =
        fun object s => (v.freeze object s).bind (freezeAll object vs) := by
      funext object s
      rw [freezeAll]
      cases v.freeze object s <;> rfl
    rwa [hcons]

theorem explores_slots (hxs : ∀ x ∈ xs, h.Explores m (fun object => x.2.freeze object) [x.2]) :
    h.Explores m (fun object => freezeSlots object xs) (xs.map Prod.snd) := by
  induction xs with
  | nil => exact .done
  | cons x xs ih =>
    obtain ⟨hx, hxs⟩ := List.forall_mem_cons.mp hxs
    have hboth := (hx.after (marks_emit (.str x.1))).seq (ih hxs)
    have hcons : (fun object => freezeSlots object (x :: xs)) = fun object s =>
        (x.2.freeze object (s.emit (.str x.1))).bind (freezeSlots object xs) := by
      funext object s
      rw [freezeSlots]
      cases x.2.freeze object (s.emit (.str x.1)) <;> rfl
    rwa [hcons]

theorem explores_block {b : Block}
    (henv : h.Explores m (fun object => (Value.dict b.env).freeze object) [.dict b.env])
    (hbody : h.Explores m (fun object => freezeAll object b.body) b.body) :
    h.Explores m (fun object => (Value.block b).freeze object) [.block b] := by
  obtain ⟨number, name, params, body, env, receiver⟩ := b
  refine Explores.outer ?_ rfl id
  have hstart : h.Marks m fun s => (params.foldl (fun s p => s.emit (.sym p))
      (((s.emit (.mark .blockOpen)).emit ((name.map Token.str).getD .null)).openMark
        .listOpen)).emit (.mark .listClose) :=
    ((((marks_emit _).comp (marks_emit _)).comp (marks_skip _)).comp (marks_params params)).comp
      (marks_emit _)
  have hend : h.Marks m fun s => (s.emit (.mark .listClose)).emit (.mark .blockClose) :=
    (marks_emit _).comp (marks_emit _)
  have hparts := (henv.after hstart).seq ((hbody.after (marks_skip .listOpen)).andThen hend)
  have hblock : (fun object =>
      (Value.block ⟨number, name, params, body, env, receiver⟩).freeze object) = fun object s =>
      ((Value.dict env).freeze object ((params.foldl (fun s p => s.emit (.sym p))
        (((s.emit (.mark .blockOpen)).emit ((name.map Token.str).getD .null)).openMark
          .listOpen)).emit (.mark .listClose))).bind fun s =>
      (freezeAll object body (s.openMark .listOpen)).map fun s =>
        (s.emit (.mark .listClose)).emit (.mark .blockClose) := by
    funext object s
    simp only [Value.freeze, freezeBlock]
    cases object (.dict env) _ with
    | error e => rfl
    | ok s =>
      simp only [Except.bind]
      cases freezeAll object body (s.openMark .listOpen) <;> rfl
  rwa [hblock]

theorem explores_value (hobjects : h.ExploresObjects m) (hh : h.WellFormed) (hv : h.Bounded v) :
    h.Explores m (fun object => v.freeze object) [v] := by
  induction v using Value.ind with
  | nil => exact explores_leaf (fun _ => rfl) rfl id rfl
  | bool b => exact explores_leaf (fun _ => rfl) rfl id rfl
  | str t => exact explores_leaf (fun _ => rfl) rfl id rfl
  | sym n => exact explores_leaf (fun _ => rfl) rfl id rfl
  | num x =>
    cases hx : x.isFinite with
    | true =>
      obtain ⟨n, hn⟩ := exists_freezeNumber hx
      refine explores_leaf (t := .num n) (fun object => ?_) rfl (fun hbad => ?_) rfl
      · funext s
        rw [Value.freeze, hn]
        rfl
      · have hfinite : x.isFinite = false := hbad
        rw [hx] at hfinite
        cases hfinite
    | false =>
      have hnum : (fun object => (Value.num x).freeze object) =
          fun _ _ => .error (.of (.nonFinite (printFloat x))) := by
        funext object s
        rw [Value.freeze, freezeNumber, hx]
        rfl
      rw [hnum]
      refine ⟨fun _ _ _ _ _ => rfl, fun s e he => ?_, fun s o s' hs hok => ?_⟩
      · obtain rfl := Except.error.inj he
        exact ⟨rfl, _, List.mem_singleton_self _, _, .refl, hx⟩
      · cases hok
  | quote v ih =>
    have hw := ih (hv.inner hh (List.mem_singleton_self v))
    exact Explores.outer (hw.after (marks_emit (.mark .quote))) rfl id
  | fullQuote v ih =>
    have hw := ih (hv.inner hh (List.mem_singleton_self v))
    exact Explores.outer (hw.after (marks_emit (.mark .fullQuote))) rfl id
  | list l => exact hobjects _ rfl hv
  | dict d => exact hobjects _ rfl hv
  | block b ih =>
    refine explores_block (hobjects _ rfl (hv.inner hh List.mem_cons_self)) (explores_all ?_)
    exact fun w hw => ih w hw (hv.inner hh (List.mem_cons_of_mem _ hw))
  | native n => exact hobjects _ rfl hv

/-! What objects hold. -/

def ExploresContent (h : Heap) (m : Nat) (r : Ref) : Prop :=
  ∃ t u G, h.Explores m G (h.content r).values ∧ ∀ object s,
    h.freezeContent object r s = (G object (s.openMark t)).map (·.emit (.mark u))

theorem explores_text (t : String) :
    h.Explores m (fun object => (Value.str t).freeze object) [.str t] :=
  explores_leaf (fun _ => rfl) rfl id rfl

theorem explores_dict {d : DictId} (hd : h.owner d = d)
    (hvalues : ∀ w ∈ (h.content (.dict d)).values,
      h.Explores m (fun object => w.freeze object) [w]) :
    h.ExploresContent m (.dict d) := by
  refine ⟨.dictOpen, .dictClose, ?_⟩
  cases htag : (h.cell d).tag with
  | some tag =>
    have hempty : (h.content (.dict d)).values = [] := by
      simp [content, Heap.entries, htag, Part.values]
    have htagged : h.Explores m (freezeSlots · [(tagKey, .str tag)]) ([] ++ [.str tag]) :=
      explores_slots fun x hx => List.mem_singleton.mp hx ▸ explores_text tag
    refine ⟨fun object => freezeSlots object [(tagKey, .str tag)], ?_, fun object s => ?_⟩
    · rw [hempty]
      exact htagged.textless (by simp)
    · rw [freezeContent, htag]
      rfl
  | none =>
    have hslots : h.slots d = h.entries d := by simp [slots, Heap.entries, hd, htag]
    refine ⟨fun object => freezeSlots object (h.entries d), explores_slots fun x hx => ?_,
      fun object s => ?_⟩
    · exact hvalues x.2 (List.mem_map.mpr ⟨x, hx, rfl⟩)
    · rw [freezeContent, htag, hslots]
      rfl

/-- The record of a native is what the native holds and the texts `ts`. -/
theorem explores_record {n : NativeId} (record : List (String × Value)) (ts : List Value)
    (hvalues : ∀ w ∈ (h.content (.native n)).values,
      h.Explores m (fun object => w.freeze object) [w])
    (hts : ∀ w ∈ ts, ∃ t, w = .str t)
    (hsplit : (h.content (.native n)).values ++ ts = record.map Prod.snd)
    (hrecord : ((h.native? n).map Native.record).getD (.ok []) = .ok record) :
    h.ExploresContent m (.native n) := by
  have hwhole : h.Explores m (freezeSlots · record) ((h.content (.native n)).values ++ ts) := by
    rw [hsplit]
    refine explores_slots fun x hx => ?_
    have hmem : x.2 ∈ (h.content (.native n)).values ++ ts :=
      hsplit ▸ List.mem_map.mpr ⟨x, hx, rfl⟩
    cases List.mem_append.mp hmem with
    | inl hw => exact hvalues _ hw
    | inr hw =>
      obtain ⟨t, ht⟩ := hts _ hw
      rw [ht]
      exact explores_text t
  refine ⟨.dictOpen, .dictClose, _, hwhole.textless hts, fun object s => ?_⟩
  rw [freezeContent, hrecord]
  rfl

theorem explores_native {n : NativeId} (hfine : ¬ h.Unfreezable (.native n))
    (hvalues : ∀ w ∈ (h.content (.native n)).values,
      h.Explores m (fun object => w.freeze object) [w]) :
    h.ExploresContent m (.native n) := by
  cases hn : h.native? n with
  | none =>
    refine explores_record [] [] hvalues (List.forall_mem_nil _) ?_ (by rw [hn]; rfl)
    simp [content, hn, Part.values]
  | some x =>
    cases x with
    | function name code =>
      refine explores_record _ [.str functionTag, .str name] hvalues (by simp) ?_ (by rw [hn]; rfl)
      simp [content, hn, Part.values, Native.bindings]
    | object tag record =>
      cases record with
      | none => exact (hfine ⟨tag, hn⟩).elim
      | some record =>
        by_cases htagged : (record.lookup tagKey).isSome
        · refine explores_record record [] hvalues (List.forall_mem_nil _) ?_ ?_
          · simp [content, hn, Part.values, Native.bindings]
          · rw [hn, Option.map_some, Option.getD_some, Native.record, if_pos htagged]
        · refine explores_record (record ++ [(tagKey, .str tag)]) [.str tag] hvalues (by simp) ?_ ?_
          · simp [content, hn, Part.values, Native.bindings]
          · rw [hn, Option.map_some, Option.getD_some, Native.record, if_neg htagged]

/-- What is written for an object: an error, if it cannot be frozen, and else what it holds. -/
theorem content_cases (hh : h.WellFormed) (hobjects : h.ExploresObjects m)
    (hinner : ∀ w ∈ (h.content r).values, h.Bounded w) (hr : h.freezable r = r) :
    (h.Unfreezable r.toValue ∧ ∃ tag, ∀ object s,
      h.freezeContent object r s = .error (.of (.unfreezable tag))) ∨
    (¬ h.Unfreezable r.toValue ∧ h.ExploresContent m r) := by
  have hvalues : ∀ w ∈ (h.content r).values, h.Explores m (fun object => w.freeze object) [w] :=
    fun w hw => explores_value hobjects hh (hinner w hw)
  cases r with
  | list l => exact .inr ⟨id, _, _, _, explores_all hvalues, fun _ _ => rfl⟩
  | dict d => exact .inr ⟨id, explores_dict (Ref.dict.inj hr) hvalues⟩
  | native n =>
    by_cases hbad : h.Unfreezable (.native n)
    · obtain ⟨tag, hn⟩ := hbad
      refine .inl ⟨⟨tag, hn⟩, tag, fun object s => ?_⟩
      rw [freezeContent, hn]
      rfl
    · exact .inr ⟨hbad, explores_native hbad hvalues⟩

/-! Objects. -/

/-- A view shows a dictionary that is no view. -/
theorem freezable_freezable (hh : h.WellFormed) (r : Ref) :
    h.freezable (h.freezable r) = h.freezable r := by
  cases r with
  | dict d => exact congrArg Ref.dict (hh.views d)
  | _ => rfl

theorem freezable_object (hh : h.WellFormed) (hr : h.object? v = some r) : h.freezable r = r := by
  cases v with
  | dict d => cases hr; exact freezable_freezable hh (.dict d)
  | list | native => cases hr; rfl
  | _ => cases hr

theorem allocated_object (hh : h.WellFormed) (hv : h.Bounded v) (hr : h.object? v = some r) :
    h.Allocated r := by
  cases v with
  | dict d =>
    cases hr
    exact allocated_owner hh (hv _ (List.mem_singleton_self _))
  | list | native => cases hr; exact hv _ (List.mem_singleton_self _)
  | _ => cases hr

theorem unfreezable_object (hr : h.object? v = some r) (hbad : h.Unfreezable r.toValue) :
    h.Unfreezable v := by
  cases v with
  | list | dict | native => cases hr; exact hbad
  | _ => cases hr

/-- A view is written as what it shows. -/
theorem freeze_object (hh : h.WellFormed) (hr : h.object? v = some r) (n : Nat) (s : Freezer) :
    v.freeze (h.freezeObject (n + 1)) s = h.freezeObject (n + 1) r s := by
  cases v with
  | dict d =>
    cases hr
    have hviews : h.freezable (.dict (h.owner d)) = h.freezable (.dict d) :=
      freezable_freezable hh (.dict d)
    rw [Value.freeze, freezeObject, freezeObject, hviews]
  | list | native => cases hr; rfl
  | _ => cases hr

theorem freeze_object_met (hh : h.WellFormed) (hr : h.object? v = some r) {j : Nat}
    (hl : s.ids.lookup r = some j) (n : Nat) :
    v.freeze (h.freezeObject (n + 1)) s = .ok (s.emit (.ref (toString j))) := by
  rw [freeze_object hh hr, freezeObject, freezable_object hh hr]
  simp only [hl]

theorem freeze_object_new (hh : h.WellFormed) (hr : h.object? v = some r)
    (hl : s.ids.lookup r = none) (n : Nat) :
    v.freeze (h.freezeObject (n + 1)) s =
      h.freezeContent (h.freezeObject n) r { s with ids := (r, s.opened) :: s.ids } := by
  rw [freeze_object hh hr, freezeObject, freezable_object hh hr]
  simp only [hl]

/-- An object that has no number yet takes the next one, and with it what it holds is visited. -/
theorem explores_object (hh : h.WellFormed) (hobjects : h.ExploresObjects m) :
    h.ExploresObjects (m + 1) := by
  intro v hobj hv
  obtain ⟨r, hr⟩ := Option.isSome_iff_exists.mp hobj
  have hinner : ∀ w ∈ (h.content r).values, h.Bounded w :=
    fun w hw => hv.inner hh (values_content hr ▸ hw)
  have hcontent := content_cases hh hobjects hinner (freezable_object hh hr)
  have hmade := allocated_object hh hv hr
  refine ⟨fun s o hs n hn => ?_, fun s e he => ?_, fun s o s' hs hok => ?_⟩
  · obtain ⟨n, rfl⟩ : ∃ i, n = i + 1 := ⟨n - 1, by omega⟩
    cases hl : s.ids.lookup r with
    | some j => rw [freeze_object_met hh hr hl, freeze_object_met hh hr hl]
    | none =>
      rw [freeze_object_new hh hr hl, freeze_object_new hh hr hl]
      obtain ⟨-, tag, herror⟩ | ⟨-, t, u, G, hG, hwrite⟩ := hcontent
      · simp only [herror]
      · simp only [hwrite]
        rw [hG.steady _ _ (hs.opening (hs.not_mem hl) hmade t) n (by omega)]
  · cases hl : s.ids.lookup r with
    | some j =>
      rw [freeze_object_met hh hr hl] at he
      cases he
    | none =>
      rw [freeze_object_new hh hr hl] at he
      obtain ⟨hbad, tag, herror⟩ | ⟨-, t, u, G, hG, hwrite⟩ := hcontent
      · rw [herror] at he
        obtain rfl := Except.error.inj he
        exact ⟨rfl, v, List.mem_singleton_self v, v, .refl, unfreezable_object hr hbad⟩
      · rw [hwrite] at he
        obtain ⟨hkind, w, hw, x, hx, hbad⟩ := (hG.andThen (marks_emit (.mark u))).fails _ e he
        exact ⟨hkind, v, List.mem_singleton_self v, x, hx.step (values_content hr ▸ hw), hbad⟩
  · cases hl : s.ids.lookup r with
    | some j =>
      rw [freeze_object_met hh hr hl] at hok
      obtain rfl := Except.ok.inj hok
      refine ⟨o, hs.emit _, List.prefix_rfl, fun _ hr => .inl hr, fun w hw => ?_⟩
      obtain rfl := List.mem_singleton.mp hw
      exact .object hr (List.mem_of_getElem? ((hs.ids r j).mp hl))
    | none =>
      rw [freeze_object_new hh hr hl] at hok
      obtain ⟨-, tag, herror⟩ | ⟨hfine, t, u, G, hG, hwrite⟩ := hcontent
      · rw [herror] at hok
        cases hok
      · rw [hwrite] at hok
        obtain ⟨o', hs', ho', hexplored, hvs⟩ := (hG.andThen (marks_emit (.mark u))).visits _ _ s'
          (hs.opening (hs.not_mem hl) hmade t) hok
        have hmem : some r ∈ o' := ho'.subset (List.mem_append_right _ (List.mem_singleton_self _))
        refine ⟨o', hs'.widen, (List.prefix_append _ _).trans ho', fun q hq => ?_, fun w hw => ?_⟩
        · obtain hold | hq := hexplored q hq
          · obtain hold | heq := List.mem_append.mp hold
            · exact .inl hold
            · obtain rfl : q = r := Option.some.inj (List.mem_singleton.mp heq)
              exact .inr ⟨hfine, hvs⟩
          · exact .inr hq
        · obtain rfl := List.mem_singleton.mp hw
          exact .object hr hmem

theorem explores_objects (hh : h.WellFormed) : h.ExploresObjects m := by
  induction m with
  | succ m ih => exact explores_object hh ih
  | zero =>
    -- no object is left without a number
    have hnone : ∀ s o, ¬ h.Stage 0 s o := by
      intro s o hs
      have hroom := hs.room
      have hcount := hs.count_le
      omega
    intro v hobj _
    refine ⟨fun s o hs => (hnone s o hs).elim, fun s e he => ?_,
      fun s o _ hs => (hnone s o hs).elim⟩
    cases v with
    | list | dict | native => cases he
    | _ => cases hobj

/-! What freezing does not look at. -/

namespace SameContents
variable (hk : h.SameContents k)
include hk

theorem owner_eq (d : DictId) : k.owner d = h.owner d := by
  rw [owner, owner, hk.target]

theorem freezeContent_eq {object : Ref → Freeze} (hr : h.freezable r = r) :
    k.freezeContent object r = h.freezeContent object r := by
  cases r with
  | list l =>
    funext s
    rw [freezeContent, freezeContent, ← freeze_releaseAll fun v _ => freeze_released v, hk.items,
      freeze_releaseAll fun v _ => freeze_released v]
  | dict d =>
    have howner : h.owner d = d := Ref.dict.inj hr
    rw [freezeContent, freezeContent, hk.tag]
    cases htag : (h.cell d).tag with
    | some tag => rfl
    | none =>
      have htag' : (k.cell d).tag = none := (hk.tag d).trans htag
      have hslots : h.slots d = h.entries d := by simp [slots, Heap.entries, howner, htag]
      have hslots' : k.slots d = k.entries d := by
        simp [slots, Heap.entries, hk.owner_eq, howner, htag']
      funext s
      simp only [freezeEntries]
      rw [hslots, hslots', ← freeze_releaseSlots, hk.entries, freeze_releaseSlots]
  | native n =>
    have hrelease : ∀ x : Option Native, ((x.map Native.released).map Native.record).getD (.ok []) =
        ((x.map Native.record).getD (.ok [])).map releaseSlots := by
      intro x
      cases x with
      | none => rfl
      | some x => exact record_released x
    have hrecords := hrelease (k.native? n)
    rw [hk.natives, hrelease] at hrecords
    funext s
    rw [freezeContent, freezeContent]
    generalize ((k.native? n).map Native.record).getD (.ok []) = x at hrecords
    generalize ((h.native? n).map Native.record).getD (.ok []) = y at hrecords
    cases x with
    | error e =>
      cases y with
      | error e' => rw [Except.error.inj hrecords]
      | ok record => cases hrecords
    | ok record =>
      cases y with
      | error e => cases hrecords
      | ok record' =>
        simp only [freezeEntries]
        rw [← freeze_releaseSlots record, ← Except.ok.inj hrecords, freeze_releaseSlots]

theorem freezeObject_eq (hh : h.WellFormed) (n : Nat) (r : Ref) :
    k.freezeObject n r = h.freezeObject n r := by
  induction n generalizing r with
  | zero => rfl
  | succ n ih =>
    have hsame : k.freezable r = h.freezable r := by
      cases r with
      | dict d => exact congrArg Ref.dict (hk.owner_eq d)
      | _ => rfl
    funext s
    simp only [freezeObject, hsame, funext ih, hk.freezeContent_eq (freezable_freezable hh r)]

/-- Links of dictionaries, what is behind a tag and what blocks are bound to make no difference. -/
theorem freeze_eq (hh : h.WellFormed) (hvw : w.released = v.released) :
    k.freeze w = h.freeze v := by
  rw [freeze, freeze, hk.size, funext (hk.freezeObject_eq hh _), ← freeze_released w, hvw,
    freeze_released v]

end SameContents

/-- Freezing goes no deeper than there are objects, and it fails, with a mismatch of types, just
when something is reached that cannot be frozen. The links of dictionaries, what a tagged dictionary
holds and what blocks are bound to make no difference to it. -/
theorem freeze_error_iff (hh : h.WellFormed) (hv : h.Bounded v) :
    (∀ n, h.size < n → (v.freeze (h.freezeObject n) {}).map (·.out.reverse) = h.freeze v) ∧
      ((∃ e, h.freeze v = .error e) ↔ ∃ w, h.Within v w ∧ h.Unfreezable w) ∧
      (∀ e, h.freeze v = .error e → e.cause.kind = .typeMismatch) ∧
      ∀ k w, h.SameContents k → w.released = v.released → k.freeze w = h.freeze v := by
  have hexplores := explores_value (m := h.size + 1) (explores_objects hh) hh hv
  have hstart : h.Stage (h.size + 1) {} [] :=
    ⟨rfl, fun r j => by simp, fun i j r hi => by simp at hi, fun r hr => by simp at hr, by simp⟩
  have hfails : ∀ e, h.freeze v = .error e →
      e.cause.kind = .typeMismatch ∧ ∃ w, h.Within v w ∧ h.Unfreezable w := by
    intro e he
    rw [freeze] at he
    cases hres : v.freeze (h.freezeObject (h.size + 1)) {} with
    | ok s =>
      rw [hres] at he
      cases he
    | error e' =>
      rw [hres] at he
      obtain rfl := Except.error.inj he
      obtain ⟨hkind, w, hw, hbad⟩ := hexplores.fails _ _ hres
      exact ⟨hkind, List.mem_singleton.mp hw ▸ hbad⟩
  refine ⟨fun n hn => ?_, ⟨?_, ?_⟩, fun e he => (hfails e he).1, fun k w hk => hk.freeze_eq hh⟩
  · rw [hexplores.steady _ _ hstart n hn, freeze]
  · rintro ⟨e, he⟩
    exact (hfails e he).2
  · rintro ⟨w, hw, hbad⟩
    cases hres : v.freeze (h.freezeObject (h.size + 1)) {} with
    | error e =>
      refine ⟨e, ?_⟩
      rw [freeze, hres]
      rfl
    | ok s =>
      obtain ⟨o, -, -, hnew, hvs⟩ := hexplores.visits _ _ _ hstart hres
      have hexplored : ∀ r, some r ∈ o → h.Explored o r :=
        fun r hr => (hnew r hr).resolve_left List.not_mem_nil
      exact ((hvs v (List.mem_singleton_self v)).not_unfreezable hexplored hw hbad).elim

/-- A list that holds itself and the view of a dictionary. The dictionary has a box, and in the box
is an object without a record. -/
def sealedBox : Heap where
  lists := #[#[.list ⟨0⟩, .dict ⟨1⟩]]
  dicts := #[{ slots := Slots.empty.put "box" (.native ⟨0⟩) }, { target := some ⟨0⟩ }]
  natives := #[.object "box" (some [("inner", .native ⟨1⟩)]), .object "seal" none]

theorem wellFormed_sealedBox : sealedBox.WellFormed := by
  refine ⟨fun r hr => ?_, fun d => ?_, fun d => ?_⟩
  · match r with
    | .list ⟨0⟩ | .dict ⟨0⟩ | .dict ⟨1⟩ | .native ⟨0⟩ | .native ⟨1⟩ => decide
    | .list ⟨n + 1⟩ => exact absurd hr (Nat.not_lt.mpr (Nat.le_add_left 1 n))
    | .dict ⟨n + 2⟩ | .native ⟨n + 2⟩ => exact absurd hr (Nat.not_lt.mpr (Nat.le_add_left 2 n))
  · match d with
    | ⟨0⟩ | ⟨1⟩ | ⟨_ + 2⟩ => rfl
  · match d with
    | ⟨0⟩ | ⟨1⟩ => decide
    | ⟨_ + 2⟩ => exact nofun

/-- What is sealed is found in the box. -/
theorem freeze_error_sealed :
    ∃ e, sealedBox.freeze (.list ⟨0⟩) = .error e ∧ e.cause.kind = .typeMismatch := by
  have hbounded : sealedBox.Bounded (.list ⟨0⟩) := by
    intro r hr
    obtain rfl := List.mem_singleton.mp hr
    decide
  obtain ⟨-, hiff, hkind, -⟩ := freeze_error_iff wellFormed_sealedBox hbounded
  have hview : sealedBox.Within (.list ⟨0⟩) (.dict ⟨1⟩) :=
    .single (List.mem_cons_of_mem _ List.mem_cons_self)
  have hbox : sealedBox.Within (.dict ⟨1⟩) (.native ⟨0⟩) := .single List.mem_cons_self
  have hseal : sealedBox.Within (.native ⟨0⟩) (.native ⟨1⟩) := .single List.mem_cons_self
  obtain ⟨e, he⟩ := hiff.mpr ⟨_, (hview.trans hbox).trans hseal, "seal", rfl⟩
  exact ⟨e, he, hkind e he⟩

end Heap
end DictScript
