import DictScript.Proofs.Frozen.Freeze
import DictScript.Proofs.Frozen.Numbers

/-!
The stream of a graph is a canonical form of it. Graphs that correspond are written alike, because
their objects are numbered in step; and a stream is read in one way only.
-/
namespace DictScript

namespace Numbering
variable {ρ : Ref → Ref → Prop} {o p : Numbering} {r s : Ref}

structure Related (ρ : Ref → Ref → Prop) (o p : Numbering) : Prop where
  length : o.length = p.length
  left : ∀ (j : Nat) (r : Ref), o[j]? = some (some r) → ∃ s, ρ r s ∧ p[j]? = some (some s)
  right : ∀ (j : Nat) (s : Ref), p[j]? = some (some s) → ∃ r, ρ r s ∧ o[j]? = some (some r)

theorem related_nil : Related ρ [] [] := ⟨rfl, by simp, by simp⟩

theorem Related.opened (ho : Related ρ o p) (hrs : ρ r s) :
    Related ρ (o ++ [some r]) (p ++ [some s]) where
  length := by simp [ho.length]
  left j a ha := by
    cases getElem?_snoc.mp ha with
    | inl ha =>
      obtain ⟨b, hab, hb⟩ := ho.left j a ha
      exact ⟨b, hab, getElem?_snoc.mpr (.inl hb)⟩
    | inr ha =>
      obtain ⟨rfl, heq⟩ := ha
      cases heq
      exact ⟨s, hrs, getElem?_snoc.mpr (.inr ⟨ho.length, rfl⟩)⟩
  right j b hb := by
    cases getElem?_snoc.mp hb with
    | inl hb =>
      obtain ⟨a, hab, ha⟩ := ho.right j b hb
      exact ⟨a, hab, getElem?_snoc.mpr (.inl ha)⟩
    | inr hb =>
      obtain ⟨rfl, heq⟩ := hb
      cases heq
      exact ⟨r, hrs, getElem?_snoc.mpr (.inr ⟨ho.length.symm, rfl⟩)⟩

theorem Related.skip (ho : Related ρ o p) : Related ρ (o ++ [none]) (p ++ [none]) where
  length := by simp [ho.length]
  left j a ha := by
    obtain ⟨b, hab, hb⟩ := ho.left j a (by simpa using getElem?_snoc.mp ha)
    exact ⟨b, hab, getElem?_snoc.mpr (.inl hb)⟩
  right j b hb := by
    obtain ⟨a, hab, ha⟩ := ho.right j b (by simpa using getElem?_snoc.mp hb)
    exact ⟨a, hab, getElem?_snoc.mpr (.inl ha)⟩

end Numbering

namespace Heap
variable {h k : Heap} {N M : Float → JsonNumber → Prop} {K : List String → Prop}
variable {ρ : Ref → Ref → Prop} {o o' p p' : Numbering} {P Q : Part} {ts us : List Token}
variable {v w : Value} {r s : Ref}

/-! What is written for an object. -/

def between : Ref → List Token → List Token
  | .list _, ts => .mark .listOpen :: (ts ++ [.mark .listClose])
  | _, ts => .mark .dictOpen :: (ts ++ [.mark .dictClose])

/-- An object that was met is written by its number, and another with its content, where natives are
excluded by the names they would be written with. -/
theorem Shows.object_cases (hK : ∀ ns, K ns) (hs : h.Shows N K none o (.one v) ts o')
    (hv : h.object? v = some r) :
    (∃ j : Nat, o[j]? = some (some r) ∧ ts = [.ref (toString j)] ∧ o' = o) ∨
      some r ∉ o ∧ ∃ us, ts = between r us ∧
        h.Shows N K none (o ++ [some r]) (h.content r) us o' := by
  cases hs with
  | met hv' hj =>
    rw [hv] at hv'
    cases hv'
    exact .inl ⟨_, hj, rfl, rfl⟩
  | list hnew hs =>
    cases hv
    exact .inr ⟨hnew, _, rfl, hs⟩
  | dict hnew _ _ hs =>
    cases hv
    exact .inr ⟨hnew, _, rfl, hs⟩
  | root _ _ hscope => cases hscope
  | native _ hnames _ _ => exact (hnames (hK _)).elim
  | _ => cases hv

structure Corresponds (ρ : Ref → Ref → Prop) (h k : Heap) : Prop where
  content : ∀ r s, ρ r s → Alike ρ h k (h.content r) (k.content s)
  functional : ∀ r s t, ρ r s → ρ r t → s = t
  injective : ∀ q r s, ρ q s → ρ r s → q = r

theorem Alike.fits (ha : Alike ρ h k P Q) : P.Fits Q := by
  cases ha <;> trivial

theorem alike_syms (ns : List String) : Alike ρ h k (.all (ns.map .sym)) (.all (ns.map .sym)) := by
  induction ns with
  | nil => exact .noItem
  | cons n ns ih => exact .item (.sym n) ih

theorem Corresponds.between_eq (hc : Corresponds ρ h k) (hrs : ρ r s) (ts : List Token) :
    between s ts = between r ts := by
  have hfits := (hc.content r s hrs).fits
  cases r <;> cases s <;> first | rfl | exact hfits.elim

/-- An object that corresponds to one with a number has that number. -/
theorem Corresponds.number_eq (hc : Corresponds ρ h k) (hrel : o.Related ρ p) (hp : p.Distinct)
    (hrs : ρ r s) {i j : Nat} (hi : o[i]? = some (some r)) (hj : p[j]? = some (some s)) :
    j = i := by
  obtain ⟨t, hrt, ht⟩ := hrel.left i r hi
  rw [hc.functional r t s hrt hrs] at ht
  exact hp j i s hj ht

def SameTokens (ρ : Ref → Ref → Prop) (h k : Heap) (N : Float → JsonNumber → Prop)
    (K : List String → Prop) (o : Numbering) (P : Part) (ts : List Token) (o' : Numbering) : Prop :=
  ∀ p Q us p', Alike ρ h k P Q → o.Related ρ p → p.Distinct → k.Shows N K none p Q us p' →
    us = ts ∧ o'.Related ρ p'

theorem Corresponds.sameTokens_object (hc : Corresponds ρ h k) (hK : ∀ ns, K ns)
    (hv : h.object? v = some r) (hnew : some r ∉ o)
    (ih : SameTokens ρ h k N K (o ++ [some r]) (h.content r) ts o') :
    SameTokens ρ h k N K o (.one v) (between r ts) o' := by
  intro p Q us p' ha hrel hp hs
  cases ha with
  | object hv' hw hrs =>
    obtain rfl := Option.some.inj (hv.symm.trans hv')
    obtain ⟨j, hj, -⟩ | ⟨hnew', us, rfl, hcontent⟩ := hs.object_cases hK hw
    · -- a counterpart that was met has the number of an object, and only of this one
      obtain ⟨q, hqs, hq⟩ := hrel.right j _ hj
      rw [hc.injective _ _ _ hqs hrs] at hq
      exact (hnew (List.mem_of_getElem? hq)).elim
    · obtain ⟨rfl, hrel'⟩ :=
        ih _ _ _ _ (hc.content _ _ hrs) (hrel.opened hrs) (hp.snoc hnew') hcontent
      exact ⟨hc.between_eq hrs _, hrel'⟩
  | _ => cases hv

theorem Corresponds.sameTokens_met (hc : Corresponds ρ h k) (hK : ∀ ns, K ns)
    (hv : h.object? v = some r) {j : Nat} (hj : o[j]? = some (some r)) :
    SameTokens ρ h k N K o (.one v) [.ref (toString j)] o := by
  intro p Q us p' ha hrel hp hs
  cases ha with
  | object hv' hw hrs =>
    obtain rfl := Option.some.inj (hv.symm.trans hv')
    obtain ⟨i, hi, rfl, rfl⟩ | ⟨hnew, -⟩ := hs.object_cases hK hw
    · rw [hc.number_eq hrel hp hrs hj hi]
      exact ⟨rfl, hrel⟩
    · obtain ⟨t, hrt, ht⟩ := hrel.left j _ hj
      rw [hc.functional _ _ _ hrt hrs] at ht
      exact (hnew (List.mem_of_getElem? ht)).elim
  | _ => cases hv

/-- Parts that are alike are written by the same tokens. -/
theorem Shows.sameTokens (hc : Corresponds ρ h k) (hK : ∀ ns, K ns)
    (hN : ∀ x y m n, (x == y) = true → N x m → N y n → n = m)
    (hs : h.Shows N K none o P ts o') : SameTokens ρ h k N K o P ts o' := by
  induction hs with
  | met hv hj => exact hc.sameTokens_met hK hv hj
  | list hnew _ ih => exact hc.sameTokens_object hK rfl hnew ih
  | dict hnew _ _ _ ih => exact hc.sameTokens_object hK rfl hnew ih
  | native _ hnames _ _ _ => exact (hnames (hK _)).elim
  | root _ _ hscope => cases hscope
  | nil =>
    intro p Q us p' ha hrel hp hs
    cases ha with
    | nil =>
      cases hs with
      | nil => exact ⟨rfl, hrel⟩
      | met hv _ => cases hv
    | object hv _ _ => cases hv
  | bool b =>
    intro p Q us p' ha hrel hp hs
    cases ha with
    | bool =>
      cases hs with
      | bool => exact ⟨rfl, hrel⟩
      | met hv _ => cases hv
    | object hv _ _ => cases hv
  | num hn =>
    intro p Q us p' ha hrel hp hs
    cases ha with
    | num hxy =>
      cases hs with
      | num hm => exact ⟨by rw [hN _ _ _ _ hxy hn hm], hrel⟩
      | met hv _ => cases hv
    | object hv _ _ => cases hv
  | str t =>
    intro p Q us p' ha hrel hp hs
    cases ha with
    | str =>
      cases hs with
      | str => exact ⟨rfl, hrel⟩
      | met hv _ => cases hv
    | object hv _ _ => cases hv
  | sym n =>
    intro p Q us p' ha hrel hp hs
    cases ha with
    | sym =>
      cases hs with
      | sym => exact ⟨rfl, hrel⟩
      | met hv _ => cases hv
    | object hv _ _ => cases hv
  | quote _ ih =>
    intro p Q us p' ha hrel hp hs
    cases ha with
    | quote hvw =>
      cases hs with
      | quote hs =>
        obtain ⟨rfl, hrel⟩ := ih _ _ _ _ hvw hrel hp hs
        exact ⟨rfl, hrel⟩
      | met hv _ => cases hv
    | object hv _ _ => cases hv
  | fullQuote _ ih =>
    intro p Q us p' ha hrel hp hs
    cases ha with
    | fullQuote hvw =>
      cases hs with
      | fullQuote hs =>
        obtain ⟨rfl, hrel⟩ := ih _ _ _ _ hvw hrel hp hs
        exact ⟨rfl, hrel⟩
      | met hv _ => cases hv
    | object hv _ _ => cases hv
  | block hps hes hbs ihps ihes ihbs =>
    intro p Q us p' ha hrel hp hs
    cases ha with
    | block hname hparams henv hbody =>
      cases hs with
      | block hps' hes' hbs' =>
        -- the lists of parameters and of the body take a number on both sides
        rw [← hparams] at hps'
        obtain ⟨rfl, hrel⟩ := ihps _ _ _ _ (alike_syms _) hrel.skip hp.skip hps'
        have hp := hps'.distinct hp.skip
        obtain ⟨rfl, hrel⟩ := ihes _ _ _ _ henv hrel hp hes'
        have hp := hes'.distinct hp
        obtain ⟨rfl, hrel⟩ := ihbs _ _ _ _ hbody hrel.skip hp.skip hbs'
        exact ⟨by rw [hname], hrel⟩
      | met hv _ => cases hv
    | object hv _ _ => cases hv
  | noItem =>
    intro p Q us p' ha hrel hp hs
    cases ha
    cases hs
    exact ⟨rfl, hrel⟩
  | item hv hvs ihv ihvs =>
    intro p Q us p' ha hrel hp hs
    cases ha with
    | item hvw hrest =>
      cases hs with
      | item hw hws =>
        obtain ⟨rfl, hrel⟩ := ihv _ _ _ _ hvw hrel hp hw
        obtain ⟨rfl, hrel⟩ := ihvs _ _ _ _ hrest hrel (hw.distinct hp) hws
        exact ⟨rfl, hrel⟩
  | noSlot =>
    intro p Q us p' ha hrel hp hs
    cases ha
    cases hs
    exact ⟨rfl, hrel⟩
  | slot hv hxs ihv ihxs =>
    intro p Q us p' ha hrel hp hs
    cases ha with
    | slot hvw hrest =>
      cases hs with
      | slot hw hys =>
        obtain ⟨rfl, hrel⟩ := ihv _ _ _ _ hvw hrel hp hw
        obtain ⟨rfl, hrel⟩ := ihxs _ _ _ _ hrest hrel (hw.distinct hp) hys
        exact ⟨rfl, hrel⟩

/-! The two directions together. -/

def Portable (h : Heap) : Value → Prop
  | .num x => x.isFinite
  | .dict d => (h.cell (h.owner d)).tag = none
  | .native _ => False
  | _ => True

/-- Two graphs are frozen to the same stream just if their objects correspond one to one. Where the
objects are, what quotes and blocks are shared, and links and receivers make no difference. -/
theorem freeze_eq_iff (hh : h.WellFormed) (hk : k.WellFormed) (hv : h.Bounded v)
    (hw : k.Bounded w) (hvs : ∀ x, h.Within v x → h.Portable x)
    (hws : ∀ x, k.Within w x → k.Portable x) :
    ∃ ts us, h.freeze v = .ok ts ∧ k.freeze w = .ok us ∧
      (ts = us ↔ ∃ ρ, Isomorphism h k v w ρ) := by
  have hwritable : ∀ {g : Heap} {u : Value}, g.Bounded u → (∀ x, g.Within u x → g.Portable x) →
      g.Writable (fun x n => freezeNumber x = .ok n) (fun _ => True) none u := by
    intro g u hu hus
    refine ⟨hu, fun x hx => ?_, fun x n _ => id, fun n hn => (hus _ hn).elim⟩
    have hportable := hus x hx
    cases x with
    | dict d => exact .inl ⟨hportable, trivial⟩
    | native n => exact hportable.elim
    | _ => exact hportable
  obtain ⟨ts, o, hts, hshow⟩ := (hwritable hv hvs).exists_freeze hh
  obtain ⟨us, p, hus, hshow'⟩ := (hwritable hw hws).exists_freeze hk
  refine ⟨ts, us, hts, hus, fun heq => ?_, ?_⟩
  · -- the root environment cannot be in the stream, so its key is free for other dictionaries
    subst heq
    have hequal : ∀ x y n, freezeNumber x = .ok n → freezeNumber y = .ok n → (x == y) = true :=
      fun _ _ _ => Number.beq_of_freezeNumber_eq
    have hroot : (none : Option DictId).isSome = true → ∀ ns : List String, True → tagKey ∉ ns :=
      fun hsome => by cases hsome
    exact ⟨_, hshow.isomorphism hequal hroot hshow'⟩
  · rintro ⟨ρ, hiso⟩
    have hc : Corresponds ρ h k := ⟨hiso.content, hiso.functional, hiso.injective⟩
    have hnumber : ∀ x y m n, (x == y) = true → freezeNumber x = .ok m → freezeNumber y = .ok n →
        n = m := by
      intro x y m n hxy hm hn
      rw [Number.freezeNumber_congr hxy, hn] at hm
      exact Except.ok.inj hm
    have hempty : Numbering.Distinct [] := fun i j r hi => by simp at hi
    obtain ⟨rfl, -⟩ := hshow.sameTokens hc (fun _ => trivial) hnumber _ _ _ _ hiso.values
      Numbering.related_nil hempty hshow'
    rfl

def twinClosure (id : Nat) (env : DictId) (receiver : Option DictId) : Block :=
  { id := id, name := some "f", params := ["x"], body := [.sym "x"], env := env,
    receiver := receiver }

/-- Two dictionaries that hold themselves, a list that holds itself, and a closure over them. They
have other places, parents and callers. The second one is held and captured as a view, and its
closure is bound to the first. -/
def twins : Heap :=
  let slots (me : DictId) (items : ListId) (f : Block) : Slots :=
    ((Slots.empty.put "native" (.dict me)).put "items" (.quote (.list items))).put "f" (.block f)
  { lists := #[#[.list ⟨0⟩, .num 1], #[.list ⟨1⟩, .num 1]]
    dicts := #[{ slots := slots ⟨0⟩ ⟨1⟩ (twinClosure 0 ⟨0⟩ none) },
      { target := some ⟨2⟩, parent := some ⟨0⟩, scope := some ⟨0⟩ },
      { slots := slots ⟨1⟩ ⟨0⟩ (twinClosure 1 ⟨1⟩ (some ⟨0⟩)), parent := some ⟨0⟩,
        caller := some ⟨1⟩ }]
    blocks := 2 }

theorem wellFormed_twins : twins.WellFormed := by
  refine ⟨fun r hr => ?_, fun d => ?_, fun d => ?_⟩
  · match r with
    | .list ⟨0⟩ | .list ⟨1⟩ => decide
    | .list ⟨n + 2⟩ => exact absurd hr (Nat.not_lt.mpr (Nat.le_add_left 2 n))
    | .dict ⟨0⟩ | .dict ⟨1⟩ | .dict ⟨2⟩ => decide
    | .dict ⟨n + 3⟩ => exact absurd hr (Nat.not_lt.mpr (Nat.le_add_left 3 n))
    | .native n => exact absurd hr (Nat.not_lt_zero _)
  · match d with
    | ⟨0⟩ | ⟨1⟩ | ⟨2⟩ => decide
    | ⟨n + 3⟩ =>
      have howner : twins.owner ⟨n + 3⟩ = ⟨n + 3⟩ := owner_of_size_le (Nat.le_add_left 3 n)
      rw [howner, howner]
  · match d with
    | ⟨0⟩ | ⟨1⟩ | ⟨2⟩ => decide
    | ⟨n + 3⟩ =>
      have hslots : twins.slots ⟨n + 3⟩ = [] := slots_of_size_le (Nat.le_add_left 3 n)
      simp [names, hslots]

/-- Nothing in either graph keeps it from being frozen. -/
theorem portable_twins {d : DictId} {l : ListId} {b : Block} {x : Value}
    (htag : (twins.cell (twins.owner d)).tag = none) (henv : b.env = d)
    (hbody : b.body = [.sym "x"])
    (hdict : twins.inner (.dict d) = [.dict d, .quote (.list l), .block b])
    (hlist : twins.inner (.list l) = [.list l, .num 1]) (hx : twins.Within (.dict d) x) :
    twins.Portable x := by
  have hclosed : x ∈ [.dict d, .quote (.list l), .list l, .num 1, .block b, .sym "x"] := by
    refine hx.mem_closed ?_ List.mem_cons_self
    have hquote : twins.inner (.quote (.list l)) = [.list l] := rfl
    have hblock : twins.inner (.block b) = [.dict d, .sym "x"] := by rw [inner, henv, hbody]
    have hnum : twins.inner (.num 1) = [] := rfl
    have hsym : twins.inner (.sym "x") = [] := rfl
    simp only [List.forall_mem_cons, hdict, hlist, hquote, hblock, hnum, hsym]
    simp
  have hone : Float.isFinite 1 = true := by decide +kernel
  simp only [List.mem_cons, List.not_mem_nil, or_false] at hclosed
  obtain rfl | rfl | rfl | rfl | rfl | rfl := hclosed
  · exact htag
  · trivial
  · trivial
  · exact hone
  · trivial
  · trivial

/-- The two are frozen to one stream, in which the key of a tag is a key like any other. -/
theorem freeze_eq_iff_twins : ∃ ts, twins.freeze (.dict ⟨0⟩) = .ok ts ∧
    twins.freeze (.dict ⟨1⟩) = .ok ts ∧ ∃ ρ, Isomorphism twins twins (.dict ⟨0⟩) (.dict ⟨1⟩) ρ := by
  have hbounded : ∀ d : DictId, d.index < 3 → twins.Bounded (.dict d) :=
    fun d hd r hr => List.mem_singleton.mp hr ▸ hd
  obtain ⟨ts, us, hts, hus, hiff⟩ := freeze_eq_iff wellFormed_twins wellFormed_twins
    (hbounded ⟨0⟩ (by decide)) (hbounded ⟨1⟩ (by decide))
    (fun _ => portable_twins rfl rfl rfl rfl rfl) (fun _ => portable_twins rfl rfl rfl rfl rfl)
  have hsame : twins.freeze (.dict ⟨0⟩) = twins.freeze (.dict ⟨1⟩) := rfl
  rw [hts, hus] at hsame
  have heq : ts = us := Except.ok.inj hsame
  exact ⟨ts, hts, heq ▸ hus, hiff.mp heq⟩

end Heap
end DictScript
