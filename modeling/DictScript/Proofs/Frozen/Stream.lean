import DictScript.Frozen.Thaw
import DictScript.Proofs.Graph

/-!
What a stream says about a graph. The objects are numbered as they are opened, and a stream
determines the graph it was written for up to the choice of the objects.
-/
namespace DictScript

/-! References to numbers. -/

theorem readNat?_toDigits (n : Nat) : Decimal.readNat? (Nat.toDigits 10 n) = some n := by
  have hdigit : (Nat.toDigits 10 n).all Char.isDigit = true :=
    List.all_eq_true.mpr fun c hc => Nat.isDigit_of_mem_toDigits (by decide) (by decide) hc
  have hvalue : Decimal.ofDigits (Nat.toDigits 10 n) = n := by
    have := Nat.ofDigitChars_ten_toDigits (n := n)
    rwa [Nat.ofDigitChars_eq_foldl] at this
  rw [Decimal.readNat?, if_pos ⟨Nat.toDigits_ne_nil, hdigit⟩, hvalue]

/-- References are read back. -/
theorem readIndex?_toString (n : Nat) : readIndex? (toString n) = some n := by
  have hlist : (toString n).toList = Nat.toDigits 10 n := by
    rw [Nat.toString_eq_repr, Nat.toList_repr]
  rw [readIndex?, hlist]
  split
  · rename_i cs heq
    have : ('+' : Char).isDigit := Nat.isDigit_of_mem_toDigits (b := 10) (n := n) (by decide)
      (by decide) (by simp [heq])
    simp at this
  · exact readNat?_toDigits n

theorem toString_inj {i j : Nat} (hij : toString i = toString j) : i = j :=
  Option.some.inj ((readIndex?_toString i).symm.trans (hij ▸ readIndex?_toString j))

/-- The objects by number. Lists that only hold the parameters or the body of a block take a number
as well. -/
abbrev Numbering := List (Option Ref)

namespace Numbering
variable {o o' p p' q q' : Numbering} {x y : Option Ref} {r s : Ref} {j : Nat}

def Distinct (o : Numbering) : Prop :=
  ∀ (i j : Nat) (r : Ref), o[i]? = some (some r) → o[j]? = some (some r) → i = j

def Paired (o p : Numbering) (r s : Ref) : Prop :=
  ∃ j : Nat, o[j]? = some (some r) ∧ p[j]? = some (some s)

theorem getElem?_snoc :
    (o ++ [x])[j]? = some (some r) ↔ o[j]? = some (some r) ∨ j = o.length ∧ x = some r := by
  rw [List.getElem?_append]
  by_cases hj : j < o.length
  · simp [hj, Nat.ne_of_lt hj]
  · have hnone : o[j]? = none := List.getElem?_eq_none (Nat.le_of_not_lt hj)
    rw [if_neg hj, List.getElem?_singleton, hnone]
    by_cases hj' : j = o.length
    · simp [hj']
    · have hlt : j - o.length ≠ 0 := by omega
      simp [hj', hlt]

theorem Distinct.skip (ho : Distinct o) : Distinct (o ++ [none]) := by
  intro i j r hi hj
  have hi : o[i]? = some (some r) := by simpa using getElem?_snoc.mp hi
  have hj : o[j]? = some (some r) := by simpa using getElem?_snoc.mp hj
  exact ho i j r hi hj

/-! A place that was left empty may be filled later. -/

theorem getElem?_gap : (o ++ none :: q)[o.length]? ≠ some (some r) := by
  simp

theorem getElem?_fill : (o ++ some s :: q)[j]? = some (some r) ↔
    (o ++ none :: q)[j]? = some (some r) ∨ j = o.length ∧ s = r := by
  obtain hj | rfl | hj := Nat.lt_trichotomy j o.length
  · simp [List.getElem?_append_left hj, Nat.ne_of_lt hj]
  · simp
  · obtain ⟨i, hi⟩ : ∃ i, j - o.length = i + 1 := ⟨j - o.length - 1, by omega⟩
    simp [List.getElem?_append_right hj.le, hi, Nat.ne_of_gt hj]

theorem Distinct.fill (ho : Distinct (o ++ none :: q)) (hr : some r ∉ o ++ none :: q) :
    Distinct (o ++ some r :: q) := by
  have hold : ∀ {i : Nat}, (o ++ none :: q)[i]? = some (some r) → False :=
    fun hi => hr (List.mem_of_getElem? hi)
  intro i j s hi hj
  cases getElem?_fill.mp hi with
  | inl hi =>
    cases getElem?_fill.mp hj with
    | inl hj => exact ho i j s hi hj
    | inr hj =>
      obtain ⟨-, heq⟩ := hj
      exact (hold (heq ▸ hi)).elim
  | inr hi =>
    obtain ⟨hi, heq⟩ := hi
    cases getElem?_fill.mp hj with
    | inl hj => exact (hold (heq ▸ hj)).elim
    | inr hj => rw [hi, hj.1]

theorem Distinct.snoc (ho : Distinct o) (hr : some r ∉ o) : Distinct (o ++ [some r]) :=
  ho.skip.fill (by simpa using hr)

theorem Paired.mono (ho : o <+: o') (hp : p <+: p') (hrs : Paired o p r s) : Paired o' p' r s := by
  obtain ⟨j, hr, hs⟩ := hrs
  obtain ⟨a, rfl⟩ := ho
  obtain ⟨b, rfl⟩ := hp
  rw [Paired]
  refine ⟨j, ?_, ?_⟩
  · rw [List.getElem?_append_left (List.getElem?_eq_some_iff.mp hr).1, hr]
  · rw [List.getElem?_append_left (List.getElem?_eq_some_iff.mp hs).1, hs]

theorem paired_fill {a b : Ref} (hlen : o.length = p.length) :
    Paired (o ++ some a :: q) (p ++ some b :: q') r s ↔
      Paired (o ++ none :: q) (p ++ none :: q') r s ∨ a = r ∧ b = s := by
  simp only [Paired, getElem?_fill, ← hlen]
  constructor
  · rintro ⟨j, hr | ⟨rfl, hr⟩, hs | ⟨hj, hs⟩⟩
    · exact .inl ⟨j, hr, hs⟩
    · exact (getElem?_gap (hj ▸ hr)).elim
    · exact (getElem?_gap (hlen ▸ hs)).elim
    · exact .inr ⟨hr, hs⟩
  · rintro (⟨j, hr, hs⟩ | ⟨hr, hs⟩)
    · exact ⟨j, .inl hr, .inl hs⟩
    · exact ⟨o.length, .inr ⟨rfl, hr⟩, .inr ⟨rfl, hs⟩⟩

theorem paired_skip : Paired (o ++ [none]) (p ++ [none]) r s ↔ Paired o p r s := by
  simp [Paired, getElem?_snoc]

theorem paired_snoc {a b : Ref} (hlen : o.length = p.length) :
    Paired (o ++ [some a]) (p ++ [some b]) r s ↔ Paired o p r s ∨ a = r ∧ b = s :=
  (paired_fill hlen).trans (or_congr_left paired_skip)

theorem Paired.functional (ho : Distinct o) {t : Ref} (hrs : Paired o p r s)
    (hrt : Paired o p r t) : s = t := by
  obtain ⟨i, hi, hs⟩ := hrs
  obtain ⟨j, hj, ht⟩ := hrt
  obtain rfl := ho i j r hi hj
  simpa [hs] using ht

theorem Paired.flip (hrs : Paired o p r s) : Paired p o s r := by
  obtain ⟨j, hr, hs⟩ := hrs
  exact ⟨j, hs, hr⟩

end Numbering

namespace Part

def Fits : Part → Part → Prop
  | one _, one _ => True
  | all _, all _ => True
  | slots _, slots _ => True
  | _, _ => False

def EndsBefore : Part → List Token → Prop
  | one _, _ => True
  | all _, xs => xs.head? = some (.mark .listClose)
  | slots _, xs => xs.head? = some (.mark .dictClose)

theorem endsBefore_all {vs : List Value} {xs : List Token} :
    (all vs).EndsBefore (.mark .listClose :: xs) := rfl

theorem endsBefore_slots {zs : List (String × Value)} {xs : List Token} :
    (slots zs).EndsBefore (.mark .dictClose :: xs) := rfl

end Part

def blockNameToken (name : Option String) : Token := (name.map Token.str).getD .null

theorem blockNameToken_inj {a b : Option String} (h : blockNameToken a = blockNameToken b) :
    a = b := by
  cases a <;> cases b <;> simp_all [blockNameToken]

def tagged (tag : String) (record : List (String × Value)) : List (String × Value) :=
  record ++ [(tagKey, .str tag)]

namespace Heap
def Unmarked (ns : List String) : Prop := tagKey ∉ ns

/-- The native is an object of the host that freezes to the record, which is read back as it is:
it has no name twice and none that stands for a link, and its tag is its own. -/
structure HostObject (h : Heap) (n : NativeId) (tag : String)
    (record : List (String × Value)) : Prop where
  native : h.native? n = some (.object tag (some record))
  ordinary : ∀ m ∈ record.map Prod.fst, Key.of m = .slot m
  nodup : (record.map Prod.fst).Nodup
  untagged : tagKey ∉ record.map Prod.fst
  ne_root : tag ≠ rootTag

inductive SameKind (h k : Heap) : Ref → Ref → Prop where
  | list (l m : ListId) : SameKind h k (.list l) (.list m)
  | dict (d e : DictId) : SameKind h k (.dict d) (.dict e)
  | native {n m tag a b} : h.native? n = some (.object tag a) → k.native? m = some (.object tag b) →
      SameKind h k (.native n) (.native m)

/-- The tokens are those of the part, when the objects of `o` are open already; `o'` are open
afterwards. Numbers are written as `N` says, and the names in a dictionary are such as `K` says. The
root environment is written by its tag, in a stream that is thawed in it. Host objects are written
as their records, and nothing in a record refers to its own object. -/
inductive Shows (h : Heap) (N : Float → JsonNumber → Prop) (K : List String → Prop)
    (scope : Option DictId) :
    Numbering → Part → List Token → Numbering → Prop where
  | nil {o} : Shows h N K scope o (.one .nil) [.null] o
  | bool {o} (b : Bool) : Shows h N K scope o (.one (.bool b)) [.bool b] o
  | num {o x n} : N x n → Shows h N K scope o (.one (.num x)) [.num n] o
  | str {o} (t : String) : Shows h N K scope o (.one (.str t)) [.str t] o
  | sym {o} (n : String) : Shows h N K scope o (.one (.sym n)) [.sym n] o
  | quote {o o' v ts} : Shows h N K scope o (.one v) ts o' →
      Shows h N K scope o (.one (.quote v)) (.mark .quote :: ts) o'
  | fullQuote {o o' v ts} : Shows h N K scope o (.one v) ts o' →
      Shows h N K scope o (.one (.fullQuote v)) (.mark .fullQuote :: ts) o'
  | met {o v r} {j : Nat} : h.object? v = some r → o[j]? = some (some r) →
      Shows h N K scope o (.one v) [.ref (toString j)] o
  | list {o o' l ts} : some (.list l) ∉ o →
      Shows h N K scope (o ++ [some (.list l)]) (.all (h.items l)) ts o' →
      Shows h N K scope o (.one (.list l)) (.mark .listOpen :: (ts ++ [.mark .listClose])) o'
  | dict {o o' d ts} : some (.dict (h.owner d)) ∉ o → (h.cell (h.owner d)).tag = none →
      K ((h.entries (h.owner d)).map Prod.fst) →
      Shows h N K scope (o ++ [some (.dict (h.owner d))]) (.slots (h.entries (h.owner d))) ts o' →
      Shows h N K scope o (.one (.dict d)) (.mark .dictOpen :: (ts ++ [.mark .dictClose])) o'
  | root {o d} : some (.dict (h.owner d)) ∉ o → (h.cell (h.owner d)).tag = some rootTag →
      scope = some (h.owner d) →
      Shows h N K scope o (.one (.dict d))
        [.mark .dictOpen, .str tagKey, .str rootTag, .mark .dictClose]
        (o ++ [some (.dict (h.owner d))])
  | native {o q n tag record ts} : h.HostObject n tag record →
      ¬ K ((tagged tag record).map Prod.fst) → some (.native n) ∉ o ++ none :: q →
      Shows h N K scope (o ++ [none]) (.slots (tagged tag record)) ts (o ++ none :: q) →
      Shows h N K scope o (.one (.native n)) (.mark .dictOpen :: (ts ++ [.mark .dictClose]))
        (o ++ some (.native n) :: q)
  | block {o o₁ o₂ o₃ ps es bs} {b : Block} :
      Shows h N K scope (o ++ [none]) (.all (b.params.map .sym)) ps o₁ →
      Shows h N K scope o₁ (.one (.dict b.env)) es o₂ →
      Shows h N K scope (o₂ ++ [none]) (.all b.body) bs o₃ →
      Shows h N K scope o (.one (.block b))
        (.mark .blockOpen :: blockNameToken b.name :: .mark .listOpen :: (ps ++ .mark .listClose ::
          (es ++ .mark .listOpen :: (bs ++ [.mark .listClose, .mark .blockClose])))) o₃
  | noItem {o} : Shows h N K scope o (.all []) [] o
  | item {o o₁ o₂ v vs ts us} : Shows h N K scope o (.one v) ts o₁ →
      Shows h N K scope o₁ (.all vs) us o₂ → Shows h N K scope o (.all (v :: vs)) (ts ++ us) o₂
  | noSlot {o} : Shows h N K scope o (.slots []) [] o
  | slot {o o₁ o₂ n v xs ts us} : Shows h N K scope o (.one v) ts o₁ →
      Shows h N K scope o₁ (.slots xs) us o₂ →
      Shows h N K scope o (.slots ((n, v) :: xs)) (.str n :: (ts ++ us)) o₂

variable {h k : Heap} {N M : Float → JsonNumber → Prop} {K : List String → Prop}
variable {scope : Option DictId} {o o' p p' : Numbering} {P Q : Part}
variable {ts us xs ys : List Token} {r s : Ref}

theorem Shows.grows (hs : Shows h N K scope o P ts o') : o <+: o' := by
  induction hs with
  | quote _ ih => exact ih
  | fullQuote _ ih => exact ih
  | list _ _ ih => exact (List.prefix_append _ _).trans ih
  | dict _ _ _ _ ih => exact (List.prefix_append _ _).trans ih
  | root _ _ _ => exact List.prefix_append _ _
  | native _ _ _ _ _ => exact List.prefix_append _ _
  | block _ _ _ hp he hb =>
    exact (List.prefix_append _ _).trans (hp.trans (he.trans ((List.prefix_append _ _).trans hb)))
  | item _ _ hv hvs => exact hv.trans hvs
  | slot _ _ hv hxs => exact hv.trans hxs
  | _ => exact List.prefix_rfl

theorem Shows.distinct (hs : Shows h N K scope o P ts o') (ho : o.Distinct) : o'.Distinct := by
  induction hs with
  | quote _ ih => exact ih ho
  | fullQuote _ ih => exact ih ho
  | list hnew _ ih => exact ih (ho.snoc hnew)
  | dict hnew _ _ _ ih => exact ih (ho.snoc hnew)
  | root hnew _ _ => exact ho.snoc hnew
  | native _ _ hnew _ ih => exact (ih ho.skip).fill hnew
  | block _ _ _ hp he hb => exact hb ((he (hp ho.skip)).skip)
  | item _ _ hv hvs => exact hvs (hv ho)
  | slot _ _ hv hxs => exact hxs (hv ho)
  | _ => exact ho

theorem Reaches.step {v w : Value} (hw : w ∈ h.inner v) (hr : h.Reaches w r) : h.Reaches v r := by
  obtain ⟨x, hx, hr⟩ := hr
  exact ⟨x, hx.step hw, hr⟩

theorem Reaches.cases {v : Value} (hr : h.Reaches v r) :
    h.object? v = some r ∨ ∃ w ∈ h.inner v, h.Reaches w r := by
  obtain ⟨x, hx, hr⟩ := hr
  cases Relation.ReflTransGen.cases_head hx with
  | inl heq => exact .inl (heq ▸ hr)
  | inr hstep =>
    obtain ⟨w, hw, hx⟩ := hstep
    exact .inr ⟨w, hw, x, hx, hr⟩

theorem not_reaches_sym {n : String} : ¬ h.Reaches (.sym n) r := fun hr => by
  obtain hr | ⟨w, hw, -⟩ := hr.cases
  · cases hr
  · cases hw

theorem not_reaches_str {t : String} : ¬ h.Reaches (.str t) r := fun hr => by
  obtain hr | ⟨w, hw, -⟩ := hr.cases
  · cases hr
  · cases hw

theorem HostObject.bindings {n : NativeId} {tag : String} {record : List (String × Value)}
    (hn : h.HostObject n tag record) : ((h.native? n).map Native.bindings).getD [] = record := by
  rw [hn.native]
  rfl

/-- Only what the part reaches is opened. -/
theorem Shows.reached (hs : Shows h N K scope o P ts o') (hr : some r ∈ o') :
    some r ∈ o ∨ ∃ v ∈ P.values, h.Reaches v r := by
  have hsnoc : ∀ {o : Numbering} {v : Value} {q : Ref}, h.object? v = some q →
      some r ∈ o ++ [some q] → some r ∈ o ∨ ∃ w ∈ (Part.one v).values, h.Reaches w r := by
    intro o v q hv hr
    cases List.mem_append.mp hr with
    | inl hr => exact .inl hr
    | inr hr =>
      obtain rfl : r = q := by simpa using hr
      exact .inr ⟨v, List.mem_singleton_self v, v, .refl, hv⟩
  induction hs with
  | quote _ ih =>
    refine (ih hr).imp_right ?_
    rintro ⟨w, hw, hr⟩
    exact ⟨_, List.mem_singleton_self _, hr.step hw⟩
  | fullQuote _ ih =>
    refine (ih hr).imp_right ?_
    rintro ⟨w, hw, hr⟩
    exact ⟨_, List.mem_singleton_self _, hr.step hw⟩
  | list _ _ ih =>
    cases ih hr with
    | inl hr => exact hsnoc rfl hr
    | inr hr =>
      obtain ⟨w, hw, hr⟩ := hr
      exact .inr ⟨_, List.mem_singleton_self _, hr.step hw⟩
  | dict _ _ _ _ ih =>
    cases ih hr with
    | inl hr => exact hsnoc rfl hr
    | inr hr =>
      obtain ⟨w, hw, hr⟩ := hr
      exact .inr ⟨_, List.mem_singleton_self _, hr.step hw⟩
  | root _ _ _ => exact hsnoc rfl hr
  | native hn _ _ _ ih =>
    obtain ⟨j, hj⟩ := List.getElem?_of_mem hr
    cases Numbering.getElem?_fill.mp hj with
    | inr hj =>
      obtain ⟨-, rfl⟩ := hj
      exact .inr ⟨_, List.mem_singleton_self _, _, .refl, rfl⟩
    | inl hj =>
      refine (ih (List.mem_of_getElem? hj)).imp (by simp) ?_
      rintro ⟨w, hw, hr⟩
      refine ⟨_, List.mem_singleton_self _, hr.step (w := w) ?_⟩
      rw [Heap.inner, hn.bindings]
      simp only [Part.values, tagged, List.map_append, List.mem_append] at hw
      refine hw.resolve_right fun hw => ?_
      obtain rfl := List.mem_singleton.mp hw
      exact not_reaches_str hr
  | block _ _ _ hp he hb =>
    cases hb hr with
    | inr hr =>
      obtain ⟨w, hw, hr⟩ := hr
      exact .inr ⟨_, List.mem_singleton_self _, hr.step (List.mem_cons_of_mem _ hw)⟩
    | inl hr =>
      cases he (by simpa using hr) with
      | inr hr =>
        obtain ⟨w, hw, hr⟩ := hr
        obtain rfl := List.mem_singleton.mp hw
        exact .inr ⟨_, List.mem_singleton_self _, hr.step List.mem_cons_self⟩
      | inl hr =>
        cases hp hr with
        | inl hr => exact .inl (by simpa using hr)
        | inr hr =>
          obtain ⟨w, hw, hr⟩ := hr
          obtain ⟨n, -, rfl⟩ := List.mem_map.mp hw
          exact (not_reaches_sym hr).elim
  | item _ _ hv hvs =>
    cases hvs hr with
    | inr hr =>
      obtain ⟨w, hw, hr⟩ := hr
      exact .inr ⟨w, List.mem_cons_of_mem _ hw, hr⟩
    | inl hr =>
      refine (hv hr).imp_right ?_
      rintro ⟨w, hw, hr⟩
      exact ⟨w, List.mem_singleton.mp hw ▸ List.mem_cons_self, hr⟩
  | slot _ _ hv hxs =>
    cases hxs hr with
    | inr hr =>
      obtain ⟨w, hw, hr⟩ := hr
      exact .inr ⟨w, List.mem_cons_of_mem _ hw, hr⟩
    | inl hr =>
      refine (hv hr).imp_right ?_
      rintro ⟨w, hw, hr⟩
      exact ⟨w, List.mem_singleton.mp hw ▸ List.mem_cons_self, hr⟩
  | _ => exact .inl hr

/-! Two graphs of one stream. -/

structure Agree (ρ : Ref → Ref → Prop) (h k : Heap) (r s : Ref) : Prop where
  content : Alike ρ h k (h.content r) (k.content s)
  tags : ∀ d e, r = .dict d → s = .dict e →
    (k.cell e).tag = (h.cell d).tag ∧ ((h.cell d).tag.isSome → e = d)
  kind : SameKind h k r s

theorem Agree.mono {ρ σ : Ref → Ref → Prop} (hρ : ∀ r s, ρ r s → σ r s) (ha : Agree ρ h k r s) :
    Agree σ h k r s :=
  ⟨ha.content.mono hρ, ha.tags, ha.kind⟩

structure Mirrored (h k : Heap) (o p o' p' : Numbering) (P Q : Part) : Prop where
  length : o'.length = p'.length
  alike : Alike (Numbering.Paired o' p') h k P Q
  agree : ∀ r s, Numbering.Paired o' p' r s →
    Numbering.Paired o p r s ∨ Agree (Numbering.Paired o' p') h k r s

theorem Mirrored.leaf (hlen : o.length = p.length)
    (ha : Alike (Numbering.Paired o p) h k P Q) : Mirrored h k o p o p P Q :=
  ⟨hlen, ha, fun _ _ => .inl⟩

theorem Mirrored.opened {v w : Value} (hlen : o.length = p.length)
    (hv : h.object? v = some r) (hw : k.object? w = some s)
    (htag : ∀ d e, r = .dict d → s = .dict e →
      (k.cell e).tag = (h.cell d).tag ∧ ((h.cell d).tag.isSome → e = d))
    (hkind : SameKind h k r s) (ho : o ++ [some r] <+: o') (hp : p ++ [some s] <+: p')
    (hm : Mirrored h k (o ++ [some r]) (p ++ [some s]) o' p' (h.content r) (k.content s)) :
    Mirrored h k o p o' p' (.one v) (.one w) := by
  have hrs : Numbering.Paired o' p' r s :=
    ((Numbering.paired_snoc hlen).mpr (.inr ⟨rfl, rfl⟩)).mono ho hp
  refine ⟨hm.length, .object hv hw hrs, fun a b hab => ?_⟩
  cases hm.agree a b hab with
  | inr hagree => exact .inr hagree
  | inl hold =>
    refine ((Numbering.paired_snoc hlen).mp hold).imp_right ?_
    rintro ⟨hr, hs⟩
    cases hr
    cases hs
    exact ⟨hm.alike, htag, hkind⟩

theorem Mirrored.skip (hm : Mirrored h k (o ++ [none]) (p ++ [none]) o' p' P Q) :
    Mirrored h k o p o' p' P Q :=
  ⟨hm.length, hm.alike, fun a b hab => (hm.agree a b hab).imp_left Numbering.paired_skip.mp⟩

/-- What was alike stays so while more is read. -/
theorem Mirrored.later {o'' p'' : Numbering} {P' Q' : Part} (ho : o' <+: o'') (hp : p' <+: p'')
    (hm : Mirrored h k o p o' p' P Q) (hm' : Mirrored h k o' p' o'' p'' P' Q') :
    Mirrored h k o p o'' p'' P Q := by
  have hmono : ∀ a b, Numbering.Paired o' p' a b → Numbering.Paired o'' p'' a b :=
    fun a b hab => hab.mono ho hp
  refine ⟨hm'.length, hm.alike.mono hmono, fun a b hab => ?_⟩
  cases hm'.agree a b hab with
  | inr hagree => exact .inr hagree
  | inl hold => exact (hm.agree a b hold).imp_right (Agree.mono hmono)

/-! Alike parts, one by one. -/

theorem Alike.names_eq {ρ : Ref → Ref → Prop} {zs ws : List (String × Value)}
    (ha : Alike ρ h k (.slots zs) (.slots ws)) : zs.map Prod.fst = ws.map Prod.fst := by
  induction zs generalizing ws with
  | nil => cases ha; rfl
  | cons x zs ih =>
    cases ha with
    | slot _ hxs => rw [List.map_cons, List.map_cons, ih hxs]

/-- What is alike to a record under its tag is a record under the same tag. -/
theorem Alike.of_tagged {ρ : Ref → Ref → Prop} {tag : String} {record ws : List (String × Value)}
    (ha : Alike ρ h k (.slots (tagged tag record)) (.slots ws)) :
    ∃ record', ws = tagged tag record' ∧ Alike ρ h k (.slots record) (.slots record') := by
  induction record generalizing ws with
  | nil =>
    cases ha with
    | slot hvw hrest =>
      cases hrest
      cases hvw with
      | str => exact ⟨[], rfl, .noSlot⟩
      | object hv _ _ => cases hv
  | cons x record ih =>
    cases ha with
    | slot hvw hrest =>
      obtain ⟨record', rfl, ha⟩ := ih hrest
      exact ⟨_ :: record', rfl, .slot hvw ha⟩

theorem Alike.params_eq {ρ : Ref → Ref → Prop} {a b : List String}
    (hab : Alike ρ h k (.all (a.map .sym)) (.all (b.map .sym))) : a = b := by
  induction a generalizing b with
  | nil =>
    cases b with
    | nil => rfl
    | cons m b => cases hab
  | cons n a ih =>
    cases b with
    | nil => cases hab
    | cons m b =>
      cases hab with
      | item hnm hrest =>
        rw [ih hrest]
        cases hnm with
        | sym => rfl
        | object hv _ _ => cases hv

theorem Shows.ne_close {v : Value} (hs : Shows h N K scope o (.one v) ts o') :
    ∃ t rest, ts = t :: rest ∧ t ≠ .mark .listClose := by
  cases hs <;> exact ⟨_, _, rfl, by simp⟩

/-- Symbols are written by their names. -/
theorem Shows.tokens_of_syms {ns : List String}
    (hs : Shows h N K scope o (.all (ns.map .sym)) ts o') : ts = ns.map .sym := by
  induction ns generalizing o ts with
  | nil => cases hs; rfl
  | cons n ns ih =>
    cases hs with
    | item hn hns =>
      rw [ih hns]
      cases hn with
      | sym => rfl
      | met hv _ => cases hv

theorem Shows.syms_of_tokens {vs : List Value} {ns : List String}
    (hs : Shows h N K scope o (.all vs) (ns.map .sym) o') : vs = ns.map .sym := by
  induction vs generalizing o ns with
  | nil =>
    cases ns with
    | nil => rfl
    | cons n ns => cases hs
  | cons v vs ih =>
    generalize hts : ns.map Token.sym = ts at hs
    cases hs with
    | item hv hvs =>
      cases ns with
      | nil => cases hv <;> simp at hts
      | cons n ns =>
        rw [List.map_cons] at hts
        cases hv with
        | sym m =>
          simp only [List.cons_append, List.nil_append, List.cons.injEq, Token.sym.injEq] at hts
          obtain ⟨rfl, rfl⟩ := hts
          rw [List.map_cons, ih hvs]
        | _ => cases hts

theorem Shows.first_name {zs : List (String × Value)} {n : String}
    (hs : Shows h N K scope o (.slots zs) ts o')
    (heq : ts ++ .mark .dictClose :: xs = .str n :: ys) : n ∈ zs.map Prod.fst := by
  cases hs with
  | noSlot => simp at heq
  | slot _ _ =>
    injection heq with hn _
    cases hn
    exact List.mem_cons_self

/-- The record of a host object is not that of the root environment. -/
theorem Shows.ne_root {n : NativeId} {tag : String} {record : List (String × Value)}
    (hn : h.HostObject n tag record) (hs : Shows h N K scope o (.slots (tagged tag record)) ts o') :
    ts ++ xs ≠ .str tagKey :: .str rootTag :: ys := by
  intro heq
  cases record with
  | nil =>
    cases hs with
    | slot hv _ =>
      cases hv with
      | str =>
        injection heq with _ heq
        injection heq with heq _
        exact hn.ne_root (Token.str.inj heq)
      | met hv _ => cases hv
  | cons x record =>
    cases hs with
    | slot _ _ =>
      injection heq with hm _
      exact hn.untagged (Token.str.inj hm ▸ List.mem_cons_self)

theorem Mirrored.native {n m : NativeId} {tag tag' : String}
    {record record' : List (String × Value)} {q q' : Numbering} (hlen : o.length = p.length) (hn : h.HostObject n tag record)
    (hn' : k.HostObject m tag' record')
    (hm : Mirrored h k (o ++ [none]) (p ++ [none]) (o ++ none :: q) (p ++ none :: q')
      (.slots (tagged tag record)) (.slots (tagged tag' record'))) :
    Mirrored h k o p (o ++ some (.native n) :: q) (p ++ some (.native m) :: q')
      (.one (.native n)) (.one (.native m)) := by
  have hfill : ∀ a b, Numbering.Paired (o ++ none :: q) (p ++ none :: q') a b →
      Numbering.Paired (o ++ some (.native n) :: q) (p ++ some (.native m) :: q') a b :=
    fun a b hab => (Numbering.paired_fill hlen).mpr (.inl hab)
  have hnew : Numbering.Paired (o ++ some (.native n) :: q) (p ++ some (.native m) :: q')
      (.native n) (.native m) := (Numbering.paired_fill hlen).mpr (.inr ⟨rfl, rfl⟩)
  refine ⟨by simpa using hm.length, .object rfl rfl hnew, fun a b hab => ?_⟩
  cases (Numbering.paired_fill hlen).mp hab with
  | inl hab =>
    exact (hm.agree a b hab).imp Numbering.paired_skip.mp (Agree.mono hfill)
  | inr hab =>
    obtain ⟨rfl, rfl⟩ := hab
    obtain ⟨zs, htagged, hrecord⟩ := hm.alike.of_tagged
    obtain ⟨rfl, htag⟩ := List.append_inj' htagged rfl
    obtain rfl : tag' = tag := by simpa using htag
    refine .inr ⟨?_, by simp, .native hn.native hn'.native⟩
    rw [Heap.content, Heap.content, hn.bindings, hn'.bindings]
    exact hrecord.mono hfill

def ReadOneWay (h k : Heap) (M : Float → JsonNumber → Prop) (K : List String → Prop)
    (scope : Option DictId) (o : Numbering) (P : Part) (ts : List Token) (o' : Numbering) : Prop :=
  ∀ p Q us p' xs ys, Shows k M K scope p Q us p' → P.Fits Q → o.length = p.length →
    P.EndsBefore xs → Q.EndsBefore ys → ts ++ xs = us ++ ys → xs = ys ∧ Mirrored h k o p o' p' P Q

namespace ReadOneWay
variable {v w : Value} {vs ws : List Value} {zs zs' : List (String × Value)}

theorem of_value (hone : ∀ p w us p' xs ys, Shows k M K scope p (.one w) us p' →
      o.length = p.length → ts ++ xs = us ++ ys →
      xs = ys ∧ Mirrored h k o p o' p' (.one v) (.one w)) :
    ReadOneWay h k M K scope o (.one v) ts o' := by
  intro p Q us p' xs ys hs hfit hlen _ _ heq
  cases Q with
  | one w => exact hone p w us p' xs ys hs hlen heq
  | all _ => exact hfit.elim
  | slots _ => exact hfit.elim

theorem value (hv : ReadOneWay h k M K scope o (.one v) ts o')
    (hs : Shows k M K scope p (.one w) us p') (hlen : o.length = p.length)
    (heq : ts ++ xs = us ++ ys) : xs = ys ∧ Mirrored h k o p o' p' (.one v) (.one w) :=
  hv p _ us p' xs ys hs trivial hlen trivial trivial heq

theorem items (hvs : ReadOneWay h k M K scope o (.all vs) ts o')
    (hs : Shows k M K scope p (.all ws) us p') (hlen : o.length = p.length)
    (heq : ts ++ .mark .listClose :: xs = us ++ .mark .listClose :: ys) :
    xs = ys ∧ Mirrored h k o p o' p' (.all vs) (.all ws) := by
  obtain ⟨hxy, hm⟩ := hvs p _ us p' _ _ hs trivial hlen Part.endsBefore_all
    Part.endsBefore_all heq
  exact ⟨(List.cons.inj hxy).2, hm⟩

theorem bindings (hzs : ReadOneWay h k M K scope o (.slots zs) ts o')
    (hs : Shows k M K scope p (.slots zs') us p') (hlen : o.length = p.length)
    (heq : ts ++ .mark .dictClose :: xs = us ++ .mark .dictClose :: ys) :
    xs = ys ∧ Mirrored h k o p o' p' (.slots zs) (.slots zs') := by
  obtain ⟨hxy, hm⟩ := hzs p _ us p' _ _ hs trivial hlen Part.endsBefore_slots
    Part.endsBefore_slots heq
  exact ⟨(List.cons.inj hxy).2, hm⟩

theorem list {l : ListId} (hgrow : o ++ [some (.list l)] <+: o')
    (hitems : ReadOneWay h k M K scope (o ++ [some (.list l)]) (.all (h.items l)) ts o') :
    ReadOneWay h k M K scope o (.one (.list l)) (.mark .listOpen :: (ts ++ [.mark .listClose]))
      o' := by
  refine of_value fun p w us p' xs ys hs hlen heq => ?_
  cases hs with
  | list _ hs =>
    simp only [List.cons_append, List.append_assoc, List.cons.injEq, true_and] at heq
    obtain ⟨hxy, hm⟩ := hitems.items hs (by simpa using hlen) heq
    exact ⟨hxy, hm.opened hlen rfl rfl (by simp) (.list _ _) hgrow hs.grows⟩
  | _ => simp at heq

/-- A dictionary is not taken for a native, whose names are not such as `K` says, nor for the root
environment, whose tag would be a name. -/
theorem dict {d : DictId} (hK : scope.isSome → ∀ ns, K ns → tagKey ∉ ns)
    (htag : (h.cell (h.owner d)).tag = none) (hnames : K ((h.entries (h.owner d)).map Prod.fst))
    (hs : Shows h N K scope (o ++ [some (.dict (h.owner d))]) (.slots (h.entries (h.owner d))) ts o')
    (hslots : ReadOneWay h k M K scope (o ++ [some (.dict (h.owner d))])
      (.slots (h.entries (h.owner d))) ts o') :
    ReadOneWay h k M K scope o (.one (.dict d)) (.mark .dictOpen :: (ts ++ [.mark .dictClose]))
      o' := by
  refine of_value fun p w us p' xs ys hs' hlen heq => ?_
  cases hs' with
  | dict _ htag' _ hs' =>
    simp only [List.cons_append, List.append_assoc, List.cons.injEq, true_and] at heq
    obtain ⟨hxy, hm⟩ := hslots.bindings hs' (by simpa using hlen) heq
    refine ⟨hxy, hm.opened hlen rfl rfl ?_ (.dict _ _) hs.grows hs'.grows⟩
    intro d e hd he
    cases hd
    cases he
    simp [htag, htag']
  | native _ hnames' _ hs' =>
    simp only [List.cons_append, List.append_assoc, List.cons.injEq, true_and] at heq
    obtain ⟨-, hm⟩ := hslots.bindings hs' (by simpa using hlen) heq
    exact (hnames' (hm.alike.names_eq ▸ hnames)).elim
  | root _ _ hscope =>
    simp only [List.cons_append, List.append_assoc, List.cons.injEq, true_and] at heq
    exact (hK (hscope ▸ rfl) _ hnames (hs.first_name heq)).elim
  | _ => simp at heq

theorem root {d : DictId} (hK : scope.isSome → ∀ ns, K ns → tagKey ∉ ns)
    (htag : (h.cell (h.owner d)).tag = some rootTag) (hscope : scope = some (h.owner d)) :
    ReadOneWay h k M K scope o (.one (.dict d))
      [.mark .dictOpen, .str tagKey, .str rootTag, .mark .dictClose]
      (o ++ [some (.dict (h.owner d))]) := by
  refine of_value fun p w us p' xs ys hs hlen heq => ?_
  cases hs with
  | dict _ _ hnames hs =>
    simp only [List.cons_append, List.append_assoc, List.cons.injEq, true_and] at heq
    exact (hK (hscope ▸ rfl) _ hnames (hs.first_name heq.symm)).elim
  | root _ htag' hscope' =>
    refine ⟨by simpa using heq, Mirrored.opened hlen rfl rfl ?_ (.dict _ _) List.prefix_rfl
      List.prefix_rfl (.leaf (by simpa using hlen) ?_)⟩
    · intro d e hd he
      cases hd
      cases he
      exact ⟨htag'.trans htag.symm, fun _ => Option.some.inj (hscope'.symm.trans hscope)⟩
    · simp only [content, entries, htag, htag']
      exact .noSlot
  | native hn _ _ hs =>
    simp only [List.cons_append, List.append_assoc, List.cons.injEq, true_and] at heq
    exact (hs.ne_root hn heq.symm).elim
  | _ => simp at heq

theorem native {n : NativeId} {tag : String} {record : List (String × Value)} {q : Numbering}
    (hn : h.HostObject n tag record) (hnames : ¬ K ((tagged tag record).map Prod.fst))
    (hs : Shows h N K scope (o ++ [none]) (.slots (tagged tag record)) ts (o ++ none :: q))
    (hrecord : ReadOneWay h k M K scope (o ++ [none]) (.slots (tagged tag record)) ts
      (o ++ none :: q)) :
    ReadOneWay h k M K scope o (.one (.native n)) (.mark .dictOpen :: (ts ++ [.mark .dictClose]))
      (o ++ some (.native n) :: q) := by
  refine of_value fun p w us p' xs ys hs' hlen heq => ?_
  cases hs' with
  | dict _ _ hnames' hs' =>
    simp only [List.cons_append, List.append_assoc, List.cons.injEq, true_and] at heq
    obtain ⟨-, hm⟩ := hrecord.bindings hs' (by simpa using hlen) heq
    exact (hnames (hm.alike.names_eq ▸ hnames')).elim
  | root _ _ _ =>
    simp only [List.cons_append, List.append_assoc, List.cons.injEq, true_and] at heq
    exact (hs.ne_root hn heq).elim
  | native hn' _ _ hs' =>
    simp only [List.cons_append, List.append_assoc, List.cons.injEq, true_and] at heq
    obtain ⟨hxy, hm⟩ := hrecord.bindings hs' (by simpa using hlen) heq
    exact ⟨hxy, hm.native hlen hn hn'⟩
  | _ => simp at heq

theorem block {b : Block} {ps es bs : List Token} {o₁ o₂ o₃ : Numbering} (henv : o₁ <+: o₂)
    (hbody : o₂ ++ [none] <+: o₃)
    (ihps : ReadOneWay h k M K scope (o ++ [none]) (.all (b.params.map .sym)) ps o₁)
    (ihes : ReadOneWay h k M K scope o₁ (.one (.dict b.env)) es o₂)
    (ihbs : ReadOneWay h k M K scope (o₂ ++ [none]) (.all b.body) bs o₃) :
    ReadOneWay h k M K scope o (.one (.block b))
      (.mark .blockOpen :: blockNameToken b.name :: .mark .listOpen :: (ps ++ .mark .listClose ::
        (es ++ .mark .listOpen :: (bs ++ [.mark .listClose, .mark .blockClose])))) o₃ := by
  refine of_value fun p w us p' xs ys hs hlen heq => ?_
  cases hs with
  | block hp he hb =>
    simp only [List.cons_append, List.append_assoc, List.cons.injEq, true_and] at heq
    obtain ⟨hname, heq⟩ := heq
    obtain ⟨hrest, hmp⟩ := ihps.items hp (by simpa using hlen) heq
    obtain ⟨hrest, hme⟩ := ihes.value he hmp.length hrest
    obtain ⟨hrest, hmb⟩ := ihbs.items hb (by simpa using hme.length) (List.cons.inj hrest).2
    -- what was read first is carried to the numbering at the end
    have hbody' := (List.prefix_append _ _).trans hb.grows
    have hbody := (List.prefix_append _ _).trans hbody
    have hme := hme.later hbody hbody' hmb.skip
    have hmp := hmp.skip.later (henv.trans hbody) (he.grows.trans hbody') hme
    refine ⟨(List.cons.inj hrest).2, hmb.length, ?_, hmp.agree⟩
    exact .block (blockNameToken_inj hname) hmp.alike.params_eq hme.alike hmb.alike
  | _ => simp at heq

theorem noItem : ReadOneWay h k M K scope o (.all []) [] o := by
  intro p Q us p' xs ys hs hfit hlen hx _ heq
  cases hs with
  | noItem => exact ⟨heq, .leaf hlen .noItem⟩
  | item hs _ =>
    obtain ⟨t, rest, rfl, ht⟩ := hs.ne_close
    rw [List.nil_append] at heq
    rw [heq] at hx
    exact (ht (by simpa [Part.EndsBefore] using hx)).elim
  | _ => cases hfit

theorem item {us : List Token} {o'' : Numbering} (hs : Shows h N K scope o (.one v) ts o')
    (hgrow : o' <+: o'') (ihv : ReadOneWay h k M K scope o (.one v) ts o')
    (ihvs : ReadOneWay h k M K scope o' (.all vs) us o'') :
    ReadOneWay h k M K scope o (.all (v :: vs)) (ts ++ us) o'' := by
  intro p Q us' p' xs ys hs' hfit hlen hx hy heq
  cases hs' with
  | noItem =>
    obtain ⟨t, rest, rfl, ht⟩ := hs.ne_close
    rw [List.nil_append] at heq
    rw [← heq] at hy
    exact (ht (by simpa [Part.EndsBefore] using hy)).elim
  | item hw hws =>
    rw [List.append_assoc, List.append_assoc] at heq
    obtain ⟨hxy, hm⟩ := ihv.value hw hlen heq
    obtain ⟨hxy, hm'⟩ := ihvs _ _ _ _ _ _ hws trivial hm.length hx hy hxy
    have hm := hm.later hgrow hws.grows hm'
    exact ⟨hxy, hm.length, .item hm.alike hm'.alike, hm.agree⟩
  | _ => cases hfit

theorem noSlot : ReadOneWay h k M K scope o (.slots []) [] o := by
  intro p Q us p' xs ys hs hfit hlen hx _ heq
  cases hs with
  | noSlot => exact ⟨heq, .leaf hlen .noSlot⟩
  | slot _ _ =>
    rw [List.nil_append] at heq
    rw [heq] at hx
    simp [Part.EndsBefore] at hx
  | _ => cases hfit

theorem slot {n : String} {us : List Token} {o'' : Numbering} (hgrow : o' <+: o'')
    (ihv : ReadOneWay h k M K scope o (.one v) ts o')
    (ihzs : ReadOneWay h k M K scope o' (.slots zs) us o'') :
    ReadOneWay h k M K scope o (.slots ((n, v) :: zs)) (.str n :: (ts ++ us)) o'' := by
  intro p Q us' p' xs ys hs' hfit hlen hx hy heq
  cases hs' with
  | noSlot =>
    rw [List.nil_append] at heq
    rw [← heq] at hy
    simp [Part.EndsBefore] at hy
  | slot hw hys =>
    rw [List.cons_append, List.cons_append, List.append_assoc, List.append_assoc] at heq
    injection heq with hn heq
    cases hn
    obtain ⟨hxy, hm⟩ := ihv.value hw hlen heq
    obtain ⟨hxy, hm'⟩ := ihzs _ _ _ _ _ _ hys trivial hm.length hx hy hxy
    have hm := hm.later hgrow hys.grows hm'
    exact ⟨hxy, hm.length, .slot hm.alike hm'.alike, hm.agree⟩
  | _ => cases hfit

end ReadOneWay

/-- A stream is read in one way only. Where the root environment occurs, no dictionary has the key
of its tag. -/
theorem Shows.readOneWay (hNM : ∀ x y n, N x n → M y n → (x == y) = true)
    (hK : scope.isSome → ∀ ns, K ns → tagKey ∉ ns) (hs : Shows h N K scope o P ts o') :
    ReadOneWay h k M K scope o P ts o' := by
  induction hs with
  | nil =>
    refine .of_value fun p w us p' xs ys hs hlen heq => ?_
    cases hs with
    | nil => exact ⟨by simpa using heq, .leaf hlen .nil⟩
    | _ => simp at heq
  | bool b =>
    refine .of_value fun p w us p' xs ys hs hlen heq => ?_
    cases hs with
    | bool c =>
      obtain ⟨rfl, hxy⟩ : b = c ∧ xs = ys := by simpa using heq
      exact ⟨hxy, .leaf hlen (.bool b)⟩
    | _ => simp at heq
  | num hxn =>
    refine .of_value fun p w us p' xs ys hs hlen heq => ?_
    cases hs with
    | num hyn =>
      injection heq with hn hxy
      cases hn
      exact ⟨hxy, .leaf hlen (.num (hNM _ _ _ hxn hyn))⟩
    | _ => simp at heq
  | str t =>
    refine .of_value fun p w us p' xs ys hs hlen heq => ?_
    cases hs with
    | str t' =>
      obtain ⟨rfl, hxy⟩ : t = t' ∧ xs = ys := by simpa using heq
      exact ⟨hxy, .leaf hlen (.str t)⟩
    | _ => simp at heq
  | sym n =>
    refine .of_value fun p w us p' xs ys hs hlen heq => ?_
    cases hs with
    | sym n' =>
      obtain ⟨rfl, hxy⟩ : n = n' ∧ xs = ys := by simpa using heq
      exact ⟨hxy, .leaf hlen (.sym n)⟩
    | _ => simp at heq
  | quote _ ih =>
    refine .of_value fun p w us p' xs ys hs hlen heq => ?_
    cases hs with
    | quote hs =>
      obtain ⟨hxy, hm⟩ := ih.value hs hlen (List.cons.inj heq).2
      exact ⟨hxy, hm.length, .quote hm.alike, hm.agree⟩
    | _ => simp at heq
  | fullQuote _ ih =>
    refine .of_value fun p w us p' xs ys hs hlen heq => ?_
    cases hs with
    | fullQuote hs =>
      obtain ⟨hxy, hm⟩ := ih.value hs hlen (List.cons.inj heq).2
      exact ⟨hxy, hm.length, .fullQuote hm.alike, hm.agree⟩
    | _ => simp at heq
  | met hv hr =>
    refine .of_value fun p w us p' xs ys hs hlen heq => ?_
    cases hs with
    | met hw hs =>
      injection heq with ht hxy
      obtain rfl := toString_inj (Token.ref.inj ht)
      exact ⟨hxy, .leaf hlen (.object hv hw ⟨_, hr, hs⟩)⟩
    | _ => simp at heq
  | list _ hs ih => exact .list hs.grows ih
  | dict _ htag hnames hs ih => exact .dict hK htag hnames hs ih
  | root _ htag hscope => exact .root hK htag hscope
  | native hn hnames _ hs ih => exact .native hn hnames hs ih
  | block _ he hb ihp ihe ihb => exact .block he.grows hb.grows ihp ihe ihb
  | noItem => exact .noItem
  | item hv hvs ihv ihvs => exact .item hv hvs.grows ihv ihvs
  | noSlot => exact .noSlot
  | slot _ hzs ihv ihzs => exact .slot hzs.grows ihv ihzs

theorem Alike.object_inv {ρ : Ref → Ref → Prop} {v w : Value}
    (ha : Alike ρ h k (.one v) (.one w)) (hr : h.object? v = some r) :
    ∃ s, k.object? w = some s ∧ ρ r s := by
  cases ha with
  | object hv hw hrs =>
    obtain rfl := Option.some.inj (hr.symm.trans hv)
    exact ⟨_, hw, hrs⟩
  | _ => cases hr

section
variable {v w : Value}

/-- Values that are shown by the same stream have objects that agree. -/
theorem Shows.agree (hNM : ∀ x y n, N x n → M y n → (x == y) = true)
    (hK : scope.isSome → ∀ ns, K ns → tagKey ∉ ns)
    (hs : Shows h N K scope [] (.one v) ts o) (hs' : Shows k M K scope [] (.one w) ts p)
    (hrs : Numbering.Paired o p r s) : Agree (Numbering.Paired o p) h k r s := by
  obtain ⟨-, hm⟩ := (hs.readOneWay hNM hK).value hs' rfl (rfl : ts ++ [] = ts ++ [])
  refine (hm.agree r s hrs).resolve_left ?_
  rintro ⟨j, hj, -⟩
  simp at hj

/-- Values that are shown by the same stream have isomorphic graphs. -/
theorem Shows.isomorphism (hNM : ∀ x y n, N x n → M y n → (x == y) = true)
    (hK : scope.isSome → ∀ ns, K ns → tagKey ∉ ns)
    (hs : Shows h N K scope [] (.one v) ts o) (hs' : Shows k M K scope [] (.one w) ts p) :
    Isomorphism h k v w (Numbering.Paired o p) := by
  obtain ⟨-, hm⟩ := (hs.readOneWay hNM hK).value hs' rfl (rfl : ts ++ [] = ts ++ [])
  have hagree : ∀ r s, Numbering.Paired o p r s → Agree (Numbering.Paired o p) h k r s :=
    fun r s => hs.agree hNM hK hs'
  have hempty : Numbering.Distinct [] := fun i j r hi => by simp at hi
  have hreached : ∀ {g : Heap} {L : Float → JsonNumber → Prop} {u : Value} {q : Numbering} {r : Ref}
      {j : Nat}, Shows g L K scope [] (.one u) ts q → q[j]? = some (some r) → g.Reaches u r := by
    intro g L u q r j hs hj
    obtain ⟨x, hx, hr⟩ := (hs.reached (List.mem_of_getElem? hj)).resolve_left List.not_mem_nil
    exact List.mem_singleton.mp hx ▸ hr
  refine ⟨hm.alike, fun r s hrs => (hagree r s hrs).content,
    fun d e hde => (hagree _ _ hde).tags d e rfl rfl, fun r => ⟨?_, ?_⟩, fun s => ⟨?_, ?_⟩, ?_, ?_⟩
  · rintro ⟨x, hx, hr⟩
    obtain ⟨y, -, hxy⟩ := hm.alike.within (fun r s hrs => (hagree r s hrs).content) hx
    obtain ⟨s, -, hrs⟩ := hxy.object_inv hr
    exact ⟨s, hrs⟩
  · rintro ⟨s, j, hj, -⟩
    exact hreached hs hj
  · rintro ⟨y, hy, hr⟩
    obtain ⟨x, -, hyx⟩ := hm.alike.flip.within (fun s r hrs => (hagree r s hrs).content.flip) hy
    obtain ⟨r, -, hrs⟩ := hyx.object_inv hr
    exact ⟨r, hrs⟩
  · rintro ⟨r, j, -, hj⟩
    exact hreached hs' hj
  · exact fun r s t hrs hrt => hrs.functional (hs.distinct hempty) hrt
  · exact fun q r s hqs hrs => hqs.flip.functional (hs'.distinct hempty) hrs.flip

end

end Heap
end DictScript
