import DictScript.Proofs.Equality.Bisimilarity

/-!
The comparison finds every pair of bisimilar values equal, however deep it has to go, and equality
is symmetric, transitive and, but for the value that is no number, reflexive.
-/
namespace DictScript.Heap
variable {h : Heap} {R : Value → Value → Prop} {s t : Pairs}

/-! Pairs of objects without contents end the comparison at once. -/

theorem compareAll_of_nil {f g : ObjectTest} {vs ws : List Value} (hn : vs = [] ∨ ws = []) :
    compareAll f vs ws s = compareAll g vs ws s := by
  rcases hn with rfl | rfl
  · cases ws <;> rfl
  · cases vs <;> rfl

theorem items_eq_nil_of_not_mem {l m : ListId} (hp : (Ref.list l, Ref.list m) ∉ h.pairs) :
    h.items l = [] ∨ h.items m = [] := by
  rw [mem_pairs_list, Classical.not_and_iff_not_or_not, Nat.not_lt, Nat.not_lt] at hp
  exact hp.imp items_of_size_le items_of_size_le

theorem slots_eq_nil_of_not_mem {d e : DictId} (hp : (Ref.dict d, Ref.dict e) ∉ h.pairs) :
    h.slots d = [] ∨ h.slots e = [] := by
  rw [mem_pairs_dict, Classical.not_and_iff_not_or_not, Nat.not_lt, Nat.not_lt] at hp
  exact hp.imp slots_of_size_le slots_of_size_le

theorem compareContents_of_not_mem (f g : ObjectTest) {a b : Ref} (hp : (a, b) ∉ h.pairs) :
    h.compareContents f a b s = h.compareContents g a b s := by
  cases a with
  | list l =>
    cases b with
    | list m => exact compareAll_of_nil (items_eq_nil_of_not_mem hp)
    | _ => rfl
  | dict d =>
    cases b with
    | dict e =>
      simp only [compareContents]
      split
      · rename_i hlen
        have hd : h.slots d = [] := by
          rcases slots_eq_nil_of_not_mem hp with hd | he
          · exact hd
          · rwa [he, List.length_nil, List.length_eq_zero_iff] at hlen
        rw [hd]
        rfl
      · rfl
    | _ => rfl
  | native n => rfl

/-! More fuel changes nothing. -/

def AgreeFrom (f g : ObjectTest) (s : Pairs) : Prop := ∀ a b t, s ⊆ t → f a b t = g a b t

theorem AgreeFrom.mono {f g : ObjectTest} (hfg : AgreeFrom f g s) (hst : s ⊆ t) :
    AgreeFrom f g t := fun a b u hu => hfg a b u (List.Subset.trans hst hu)

section Congruence
variable {f g : ObjectTest}

mutual
theorem compare_congr (hf : h.TestGrows f) (v w : Value) (s : Pairs) (hfg : AgreeFrom f g s) :
    v.compare f w s = v.compare g w s := by
  cases v with
  | quote v =>
    cases w with
    | quote w => simpa only [Value.compare] using compare_congr hf v w s hfg
    | _ => rfl
  | fullQuote v =>
    cases w with
    | fullQuote w => simpa only [Value.compare] using compare_congr hf v w s hfg
    | _ => rfl
  | list l => cases w with
    | list m => exact hfg _ _ s (List.Subset.refl s)
    | _ => rfl
  | dict d => cases w with
    | dict e => exact hfg _ _ s (List.Subset.refl s)
    | _ => rfl
  | block b =>
    cases w with
    | block c => simpa only [Value.compare] using compareBlocks_congr hf b c s hfg
    | _ => rfl
  | _ => cases w <;> rfl

theorem compareBlocks_congr (hf : h.TestGrows f) (b c : BlockOf Value) (s : Pairs)
    (hfg : AgreeFrom f g s) : compareBlocks f b c s = compareBlocks g b c s := by
  obtain ⟨id, name, params, body, env, receiver⟩ := b
  rw [compareBlocks, compareBlocks, compareAll_congr hf body c.body s hfg]

theorem compareAll_congr (hf : h.TestGrows f) (vs ws : List Value) (s : Pairs)
    (hfg : AgreeFrom f g s) : compareAll f vs ws s = compareAll g vs ws s := by
  cases vs with
  | nil => cases ws <;> rfl
  | cons v vs =>
    cases ws with
    | nil => rfl
    | cons w ws =>
      rw [compareAll, compareAll, ← compare_congr hf v w s hfg]
      refine Option.bind_congr fun t ht => ?_
      exact compareAll_congr hf vs ws t (hfg.mono (compare_grows hf v w s t ht).subset)
end

theorem compareSlots_congr (hf : h.TestGrows f) (ys xs : List (String × Value)) (s : Pairs)
    (hfg : AgreeFrom f g s) :
    compareSlots (Value.compare f) ys xs s = compareSlots (Value.compare g) ys xs s := by
  induction xs generalizing s with
  | nil => rfl
  | cons x xs ih =>
    obtain ⟨name, v⟩ := x
    rw [compareSlots, compareSlots]
    split
    · rfl
    · rename_i w _
      rw [← compare_congr hf v w s hfg]
      refine Option.bind_congr fun t ht => ?_
      exact ih t (hfg.mono (compare_grows hf v w s t ht).subset)

theorem compareContents_congr (hf : h.TestGrows f) (a b : Ref) (s : Pairs)
    (hfg : AgreeFrom f g s) : h.compareContents f a b s = h.compareContents g a b s := by
  cases a with
  | list l => cases b with
    | list m => exact compareAll_congr hf _ _ s hfg
    | _ => rfl
  | dict d => cases b with
    | dict e => simp only [compareContents, compareSlots_congr hf _ _ s hfg]
    | _ => rfl
  | native n => rfl

end Congruence

/-- Levels beyond the number of pairs that are not assumed yet are never reached. -/
theorem compareObjects_stable {m n : Nat} (hm : h.unassumed s < m) (hn : h.unassumed s < n)
    (a b : Ref) : h.compareObjects m a b s = h.compareObjects n a b s := by
  induction m generalizing n s a b with
  | zero => omega
  | succ m ih =>
    obtain ⟨n, rfl⟩ := Nat.exists_eq_succ_of_ne_zero (Nat.ne_zero_of_lt hn)
    rw [compareObjects_succ, compareObjects_succ]
    split
    · rfl
    · rename_i hab
      by_cases hp : (a, b) ∈ h.pairs
      · have hlt : h.unassumed ((a, b) :: s) < h.unassumed s :=
          unassumed_cons_lt hp fun hs => hab (.inr hs)
        refine compareContents_congr (compareObjects_grows m) a b _ fun a' b' t ht => ?_
        have hle : h.unassumed t ≤ h.unassumed ((a, b) :: s) := unassumed_anti ht
        exact ih (by omega) (by omega) a' b'
      · exact compareContents_of_not_mem _ _ hp

theorem compare_stable {n : Nat} (hn : h.pairCount < n) (v w : Value) :
    v.compare (h.compareObjects n) w [] = v.compare (h.compareObjects (h.pairCount + 1)) w [] := by
  refine compare_congr (compareObjects_grows n) v w [] fun a b t _ => ?_
  have ht : h.unassumed t ≤ h.pairCount := unassumed_le t
  exact compareObjects_stable (by omega) (by omega) a b

/-! Related values are found equal. -/

def FindsFrom (R : Value → Value → Prop) (objects : ObjectTest) (s : Pairs) : Prop :=
  ∀ a b t, s ⊆ t → R a.toValue b.toValue → ∃ u, objects a b t = some u

theorem FindsFrom.mono {f : ObjectTest} (hf : FindsFrom R f s) (hst : s ⊆ t) : FindsFrom R f t :=
  fun a b u hu => hf a b u (List.Subset.trans hst hu)

section Completeness
variable {f : ObjectTest}

mutual
theorem exists_compare (hR : h.Bisimulation R) (hg : h.TestGrows f) (v w : Value) (s : Pairs)
    (hf : FindsFrom R f s) (hvw : R v w) : ∃ t, v.compare f w s = some t := by
  cases v with
  | nil => cases hR _ _ hvw with
    | nil => exact ⟨s, rfl⟩
  | num x => cases hR _ _ hvw with
    | num hxy => exact ⟨s, by simp [Value.compare, hxy]⟩
  | bool b => cases hR _ _ hvw with
    | bool => exact ⟨s, by simp [Value.compare]⟩
  | str x => cases hR _ _ hvw with
    | str => exact ⟨s, by simp [Value.compare]⟩
  | sym x => cases hR _ _ hvw with
    | sym => exact ⟨s, by simp [Value.compare]⟩
  | quote v => cases hR _ _ hvw with
    | quote hq => simpa only [Value.compare] using exists_compare hR hg v _ s hf hq
  | fullQuote v => cases hR _ _ hvw with
    | fullQuote hq => simpa only [Value.compare] using exists_compare hR hg v _ s hf hq
  | list l =>
    cases w with
    | list m => exact hf (.list l) (.list m) s (List.Subset.refl s) hvw
    | _ => cases hR _ _ hvw
  | dict d =>
    cases w with
    | dict e => exact hf (.dict d) (.dict e) s (List.Subset.refl s) hvw
    | _ => cases hR _ _ hvw
  | block b =>
    cases w with
    | block c => simpa only [Value.compare] using exists_compareBlocks hR hg b c s hf hvw
    | _ => cases hR _ _ hvw
  | native x => cases hR _ _ hvw with
    | native => exact ⟨s, by simp [Value.compare]⟩

theorem exists_compareBlocks (hR : h.Bisimulation R) (hg : h.TestGrows f) (b c : BlockOf Value)
    (s : Pairs) (hf : FindsFrom R f s) (hbc : R (.block b) (.block c)) :
    ∃ t, compareBlocks f b c s = some t := by
  obtain ⟨id, name, params, body, env, receiver⟩ := b
  rw [compareBlocks]
  cases hR _ _ hbc with
  | sameBlock hid => exact ⟨s, by simpa using fun hne => absurd hid hne⟩
  | block hp he hbody =>
    split
    · exact ⟨s, rfl⟩
    · rw [if_pos ⟨hp, he⟩]
      exact exists_compareAll hR hg body c.body s hf hbody

theorem exists_compareAll (hR : h.Bisimulation R) (hg : h.TestGrows f) (vs ws : List Value)
    (s : Pairs) (hf : FindsFrom R f s) (hvw : List.Forall₂ R vs ws) :
    ∃ t, compareAll f vs ws s = some t := by
  cases vs with
  | nil => cases hvw with
    | nil => exact ⟨s, rfl⟩
  | cons v vs =>
    cases hvw with
    | cons hhead htail =>
      obtain ⟨t, ht⟩ := exists_compare hR hg v _ s hf hhead
      have hst := (compare_grows hg v _ s t ht).subset
      obtain ⟨u, hu⟩ := exists_compareAll hR hg vs _ t (hf.mono hst) htail
      exact ⟨u, by rw [compareAll, ht, Option.bind_some, hu]⟩
end

theorem exists_compareSlots (hR : h.Bisimulation R) (hg : h.TestGrows f)
    (ys xs : List (String × Value)) (s : Pairs) (hf : FindsFrom R f s)
    (hxs : ∀ x ∈ xs, ∃ w, ys.lookup x.1 = some w ∧ R x.2 w) :
    ∃ t, compareSlots (Value.compare f) ys xs s = some t := by
  induction xs generalizing s with
  | nil => exact ⟨s, rfl⟩
  | cons x xs ih =>
    obtain ⟨name, v⟩ := x
    obtain ⟨w, hw, hvw⟩ := hxs _ List.mem_cons_self
    obtain ⟨t, ht⟩ := exists_compare hR hg v w s hf hvw
    have hst := (compare_grows hg v w s t ht).subset
    obtain ⟨u, hu⟩ := ih t (hf.mono hst) fun x hx => hxs x (List.mem_cons_of_mem _ hx)
    exact ⟨u, by simp only [compareSlots, hw, ht, Option.bind_some, hu]⟩

theorem exists_compareContents (hR : h.Bisimulation R) (hg : h.TestGrows f) {a b : Ref}
    (s : Pairs) (hf : FindsFrom R f s) (hne : a ≠ b) (hab : R a.toValue b.toValue) :
    ∃ t, h.compareContents f a b s = some t := by
  have hm := hR _ _ hab
  cases a with
  | list l =>
    cases b with
    | list m => cases hm with
      | sameList => exact absurd rfl hne
      | list hi => exact exists_compareAll hR hg _ _ s hf hi
    | _ => cases hm
  | dict d =>
    cases b with
    | dict e => cases hm with
      | sameDict => exact absurd rfl hne
      | dict hnames hslots =>
        have hlen : (h.slots d).length = (h.slots e).length := by
          have hperm : (h.names d).Perm (h.names e) :=
            (List.perm_ext_iff_of_nodup (h.names_nodup d) (h.names_nodup e)).mpr hnames
          simpa [names] using hperm.length_eq
        rw [compareContents, if_pos hlen]
        refine exists_compareSlots hR hg _ _ s hf fun x hx => ?_
        have hx' : x.1 ∈ h.names e := (hnames x.1).mp (List.mem_map_of_mem hx)
        obtain ⟨y, hy, hxy⟩ := List.mem_map.mp hx'
        rw [← hxy]
        exact ⟨y.2, lookup_slots_iff.mpr hy, hslots x.1 x.2 y.2 hx (hxy ▸ hy)⟩
    | _ => cases hm
  | native n =>
    cases b with
    | native m => cases hm with
      | native => exact absurd rfl hne
    | _ => cases hm

end Completeness

/-- A level is left for every pair that can still be assumed. -/
theorem compareObjects_finds (hR : h.Bisimulation R) {n : Nat} (hn : h.unassumed s < n) :
    FindsFrom R (h.compareObjects n) s := by
  induction n generalizing s with
  | zero => omega
  | succ n ih =>
    intro a b t hst hab
    have ht : h.unassumed t ≤ h.unassumed s := unassumed_anti hst
    rw [compareObjects_succ]
    split
    · exact ⟨t, rfl⟩
    · rename_i hnot
      have hne : a ≠ b := fun heq => hnot (.inl heq)
      by_cases hp : (a, b) ∈ h.pairs
      · have hlt : h.unassumed ((a, b) :: t) < h.unassumed t :=
          unassumed_cons_lt hp fun hs => hnot (.inr hs)
        exact exists_compareContents hR (compareObjects_grows n) _ (ih (by omega)) hne hab
      · -- nothing is behind the pair, so any test does
        rw [compareContents_of_not_mem _ (fun _ _ u => some u) hp]
        exact exists_compareContents hR (fun _ _ u v hr => by cases hr; exact .refl u) _
          (fun _ _ u _ _ => ⟨u, rfl⟩) hne hab

theorem equal_of_similar {v w : Value} (hvw : h.Similar v w) : h.equal v w = true := by
  have hle : h.unassumed [] ≤ h.pairCount := unassumed_le []
  obtain ⟨t, ht⟩ := exists_compare similar_bisimulation (compareObjects_grows (h.pairCount + 1)) v w
    [] (compareObjects_finds similar_bisimulation (by omega)) hvw
  rw [equal, ht]
  rfl

theorem equal_eq_true_iff {v w : Value} : h.equal v w = true ↔ h.Similar v w :=
  ⟨similar_of_equal, equal_of_similar⟩

/-! Symmetry. -/

theorem Match.symm {v w : Value} (hm : h.Match R v w) : h.Match (fun a b => R b a) w v := by
  cases hm with
  | nil => exact .nil
  | num hxy => exact .num (Number.beq_comm _ _ ▸ hxy)
  | bool b => exact .bool b
  | str t => exact .str t
  | sym n => exact .sym n
  | quote hvw => exact .quote hvw
  | fullQuote hvw => exact .fullQuote hvw
  | sameList l => exact .sameList l
  | list hi => exact .list hi.flip
  | sameDict d => exact .sameDict d
  | dict hn hs => exact .dict (fun n => (hn n).symm) fun n v w hv hw => hs n w v hw hv
  | sameBlock hid => exact .sameBlock hid.symm
  | block hp he hb => exact .block hp.symm he.symm hb.flip
  | native n => exact .native n

theorem Similar.symm {v w : Value} (hvw : h.Similar v w) : h.Similar w v := by
  obtain ⟨R, hR, hvw⟩ := hvw
  exact ⟨fun a b => R b a, fun a b hba => (hR b a hba).symm, hvw⟩

/-! Transitivity needs that the number of a block tells it apart. -/

end Heap

mutual
def Value.blocks : Value → List Block
  | .quote v => v.blocks
  | .fullQuote v => v.blocks
  | .block b => b :: bodyBlocks b
  | _ => []

def bodyBlocks : BlockOf Value → List Block
  | ⟨_, _, _, body, _, _⟩ => allBlocks body

def allBlocks : List Value → List Block
  | [] => []
  | v :: vs => v.blocks ++ allBlocks vs
end

theorem mem_allBlocks {b : Block} {vs : List Value} :
    b ∈ allBlocks vs ↔ ∃ v ∈ vs, b ∈ v.blocks := by
  induction vs with
  | nil => simp [allBlocks]
  | cons v vs ih => simp [allBlocks, ih]

theorem bodyBlocks_eq (b : Block) : bodyBlocks b = allBlocks b.body := by
  obtain ⟨id, name, params, body, env, receiver⟩ := b
  rfl

namespace Heap
variable {h : Heap} {R : Value → Value → Prop} {vs : List Value}

inductive Stored (h : Heap) : Value → Prop where
  | item {l : ListId} {v : Value} : v ∈ h.items l → Stored h v
  | slot {d : DictId} {n : String} {v : Value} : (n, v) ∈ h.slots d → Stored h v

def Occurs (h : Heap) (vs : List Value) (b : Block) : Prop :=
  ∃ v, (v ∈ vs ∨ h.Stored v) ∧ b ∈ v.blocks

def BlocksNumbered (h : Heap) (vs : List Value) : Prop :=
  ∀ b c, h.Occurs vs b → h.Occurs vs c → b.id = c.id → b = c

def Known (h : Heap) (vs : List Value) (v : Value) : Prop := ∀ b ∈ v.blocks, h.Occurs vs b

theorem Known.of_mem {v : Value} (hv : v ∈ vs) : h.Known vs v := fun _ hb => ⟨v, .inl hv, hb⟩

theorem Known.of_stored {v : Value} (hv : h.Stored v) : h.Known vs v := fun _ hb => ⟨v, .inr hv, hb⟩

theorem Known.body {b : Block} (hb : h.Known vs (.block b)) {v : Value} (hv : v ∈ b.body) :
    h.Known vs v := fun c hc => by
  refine hb c (List.mem_cons_of_mem _ ?_)
  rw [bodyBlocks_eq]
  exact mem_allBlocks.mpr ⟨v, hv, hc⟩

theorem Known.block {b : Block} (hb : h.Known vs (.block b)) : h.Occurs vs b :=
  hb b List.mem_cons_self

def Among (h : Heap) (vs : List Value) (R : Value → Value → Prop) (v w : Value) : Prop :=
  h.Known vs v ∧ h.Known vs w ∧ R v w

theorem forall₂_among {xs ys : List Value} (hxs : ∀ v ∈ xs, h.Known vs v)
    (hys : ∀ v ∈ ys, h.Known vs v) (hr : List.Forall₂ R xs ys) :
    List.Forall₂ (h.Among vs R) xs ys := by
  induction hr with
  | nil => exact .nil
  | cons hxy _ ih =>
    simp only [List.forall_mem_cons] at hxs hys
    exact .cons ⟨hxs.1, hys.1, hxy⟩ (ih hxs.2 hys.2)

theorem Bisimulation.among (hR : h.Bisimulation R) : h.Bisimulation (h.Among vs R) := by
  rintro v w ⟨hv, hw, hvw⟩
  cases hR v w hvw with
  | nil => exact .nil
  | num hxy => exact .num hxy
  | bool b => exact .bool b
  | str t => exact .str t
  | sym n => exact .sym n
  | quote hq => exact .quote ⟨hv, hw, hq⟩
  | fullQuote hq => exact .fullQuote ⟨hv, hw, hq⟩
  | sameList l => exact .sameList l
  | list hi =>
    exact .list (forall₂_among (fun _ hx => .of_stored (.item hx)) (fun _ hx => .of_stored (.item hx))
      hi)
  | sameDict d => exact .sameDict d
  | dict hn hs =>
    exact .dict hn fun n a b ha hb =>
      ⟨.of_stored (.slot ha), .of_stored (.slot hb), hs n a b ha hb⟩
  | sameBlock hid => exact .sameBlock hid
  | block hp he hb =>
    exact .block hp he (forall₂_among (fun _ hx => hv.body hx) (fun _ hx => hw.body hx) hb)
  | native n => exact .native n

def Twice (R : Value → Value → Prop) (v w : Value) : Prop := R v w ∨ ∃ u, R v u ∧ R u w

theorem forall₂_twice {xs ys zs : List Value} (hxy : List.Forall₂ R xs ys)
    (hyz : List.Forall₂ R ys zs) : List.Forall₂ (Twice R) xs zs := by
  induction hxy generalizing zs with
  | nil => cases hyz; exact .nil
  | cons hx _ ih => cases hyz with
    | cons hy htail => exact .cons (.inr ⟨_, hx, hy⟩) (ih htail)

theorem Match.twice {u v w : Value} (huv : h.Match R u v) (hvw : h.Match R v w)
    (hleft : ∀ b c, u = .block b → v = .block c → b.id = c.id → b = c)
    (hright : ∀ b c, v = .block b → w = .block c → b.id = c.id → b = c) :
    h.Match (Twice R) u w := by
  have once {a b : Value} (hab : h.Match R a b) : h.Match (Twice R) a b :=
    hab.mono fun _ _ hr => .inl hr
  cases huv with
  | nil => exact once hvw
  | num hxy => cases hvw with
    | num hyz => exact .num (Number.beq_trans hxy hyz)
  | bool b => exact once hvw
  | str t => exact once hvw
  | sym n => exact once hvw
  | quote hq => cases hvw with
    | quote hq' => exact .quote (.inr ⟨_, hq, hq'⟩)
  | fullQuote hq => cases hvw with
    | fullQuote hq' => exact .fullQuote (.inr ⟨_, hq, hq'⟩)
  | sameList l => exact once hvw
  | list hi => cases hvw with
    | sameList => exact once (.list hi)
    | list hj => exact .list (forall₂_twice hi hj)
  | sameDict d => exact once hvw
  | dict hn hs => cases hvw with
    | sameDict => exact once (.dict hn hs)
    | dict hn' hs' =>
      refine .dict (fun n => (hn n).trans (hn' n)) fun n a c ha hc => ?_
      obtain ⟨⟨m, b⟩, hb, rfl⟩ := List.mem_map.mp ((hn n).mp (List.mem_map.mpr ⟨_, ha, rfl⟩))
      exact .inr ⟨b, hs m a b ha hb, hs' m b c hb hc⟩
  | sameBlock hid => exact hleft _ _ rfl rfl hid ▸ once hvw
  | block hp he hb => cases hvw with
    | sameBlock hid => exact hright _ _ rfl rfl hid ▸ once (.block hp he hb)
    | block hp' he' hb' => exact .block (hp.trans hp') (he.trans he') (forall₂_twice hb hb')
  | native n => exact once hvw

theorem Similar.trans {u v w : Value} (hnum : h.BlocksNumbered [u, v, w]) (huv : h.Similar u v)
    (hvw : h.Similar v w) : h.Similar u w := by
  let R := h.Among [u, v, w] h.Similar
  have hR : h.Bisimulation R := similar_bisimulation.among
  have hT : h.Bisimulation (Twice R) := by
    rintro a c (hac | ⟨b, hab, hbc⟩)
    · exact (hR a c hac).mono fun _ _ hr => .inl hr
    · refine (hR a b hab).twice (hR b c hbc) ?_ ?_
      · rintro b₁ b₂ rfl rfl hid
        exact hnum b₁ b₂ hab.1.block hab.2.1.block hid
      · rintro b₁ b₂ rfl rfl hid
        exact hnum b₁ b₂ hbc.1.block hbc.2.1.block hid
  have hu : h.Known [u, v, w] u := .of_mem (by simp)
  have hv : h.Known [u, v, w] v := .of_mem (by simp)
  have hw : h.Known [u, v, w] w := .of_mem (by simp)
  exact ⟨Twice R, hT, .inr ⟨v, ⟨hu, hv, huv⟩, ⟨hv, hw, hvw⟩⟩⟩

/-! Reflexivity. -/

end Heap

def Value.unquoted : Value → Value
  | .quote v => v.unquoted
  | .fullQuote v => v.unquoted
  | v => v

def Value.IsNaN (v : Value) : Prop := ∃ x, v.unquoted = .num x ∧ x.isNaN = true

namespace Heap
variable {h : Heap}

theorem similar_self {v : Value} (hv : ¬ v.IsNaN) : h.Similar v v := by
  refine ⟨fun a b => a = b ∧ ¬ a.IsNaN, ?_, rfl, hv⟩
  rintro a _ ⟨rfl, ha⟩
  cases a with
  | nil => exact .nil
  | num x =>
    refine .num (Number.beq_self ?_)
    simpa [Value.IsNaN, Value.unquoted] using ha
  | bool b => exact .bool b
  | str t => exact .str t
  | sym n => exact .sym n
  | quote v => exact .quote ⟨rfl, ha⟩
  | fullQuote v => exact .fullQuote ⟨rfl, ha⟩
  | list l => exact .sameList l
  | dict d => exact .sameDict d
  | block b => exact .sameBlock rfl
  | native n => exact .native n

theorem not_similar_self (v : Value) (hv : v.IsNaN) : ¬ h.Similar v v := by
  intro hs
  cases v with
  | num x => cases similar_bisimulation _ _ hs with
    | num hxx =>
      have hnan : x.isNaN = true := by simpa [Value.IsNaN, Value.unquoted] using hv
      obtain ⟨r, hr, -⟩ := (Number.beq_iff x x).mp hxx
      simp [(Number.rank_eq_none_iff x).mpr hnan] at hr
  | quote v => cases similar_bisimulation _ _ hs with
    | quote hq => exact not_similar_self v hv hq
  | fullQuote v => cases similar_bisimulation _ _ hs with
    | fullQuote hq => exact not_similar_self v hv hq
  | _ => simp [Value.IsNaN, Value.unquoted] at hv

/-- Equality is the largest bisimulation, and it is found at a depth that the number of objects
bounds. It is symmetric, transitive where the number of a block tells it apart, and reflexive but for
the value that is no number and the quotes of it. -/
theorem equal_iff_similar (h : Heap) :
    h.Bisimulation h.Similar ∧
    (∀ R, h.Bisimulation R → ∀ v w, R v w → h.Similar v w) ∧
    (∀ v w, h.equal v w = true ↔ h.Similar v w) ∧
    (∀ n, h.pairCount < n → ∀ v w,
      (v.compare (h.compareObjects n) w []).isSome = h.equal v w) ∧
    (∀ v w, h.equal v w = h.equal w v) ∧
    (∀ u v w, h.BlocksNumbered [u, v, w] →
      h.equal u v = true → h.equal v w = true → h.equal u w = true) ∧
    (∀ v, h.equal v v = true ↔ ¬ v.IsNaN) := by
  refine ⟨similar_bisimulation, fun R hR v w hvw => ⟨R, hR, hvw⟩, fun v w => equal_eq_true_iff,
    fun n hn v w => ?_, fun v w => ?_, fun u v w hnum huv hvw => ?_, fun v => ?_⟩
  · rw [compare_stable hn]
    rfl
  · rw [Bool.eq_iff_iff, equal_eq_true_iff, equal_eq_true_iff]
    exact ⟨Similar.symm, Similar.symm⟩
  · rw [equal_eq_true_iff] at huv hvw ⊢
    exact huv.trans hnum hvw
  · rw [equal_eq_true_iff]
    exact ⟨fun hs hv => not_similar_self v hv hs, similar_self⟩

def loopClosure (id : Nat) : Block :=
  { id := id, name := none, params := ["x"], body := [.sym "x"], env := ⟨0⟩, receiver := none }

/-- Two lists that hold each other and one that holds itself, each with a closure. -/
def loops : Heap :=
  { lists := #[#[.list ⟨1⟩, .block (loopClosure 0)], #[.list ⟨0⟩, .block (loopClosure 1)],
      #[.list ⟨2⟩, .block (loopClosure 0)]]
    dicts := #[{}]
    blocks := 2 }

theorem mem_items_loops {l : ListId} {v : Value} (hv : v ∈ loops.items l) :
    (∃ m, v = .list m) ∨ v = .block (loopClosure 0) ∨ v = .block (loopClosure 1) := by
  obtain ⟨i⟩ := l
  match i with
  | 0 | 1 | 2 => rcases List.mem_cons.mp hv with rfl | hv <;> simp_all
  | n + 3 =>
    have hnil : loops.items ⟨n + 3⟩ = [] := items_of_size_le (Nat.le_add_left 3 n)
    rw [hnil] at hv
    cases hv

theorem slots_loops (d : DictId) : loops.slots d = [] := by
  obtain ⟨i⟩ := d
  match i with
  | 0 => rfl
  | n + 1 => exact slots_of_size_le (Nat.le_add_left 1 n)

theorem blocksNumbered_loops : loops.BlocksNumbered [.list ⟨0⟩, .list ⟨1⟩, .list ⟨2⟩] := by
  have hocc {b : Block} (hb : loops.Occurs [.list ⟨0⟩, .list ⟨1⟩, .list ⟨2⟩] b) :
      b = loopClosure 0 ∨ b = loopClosure 1 := by
    obtain ⟨v, hv | hv, hb⟩ := hb
    · simp only [List.mem_cons, List.not_mem_nil, or_false] at hv
      rcases hv with rfl | rfl | rfl <;> cases hb
    · cases hv with
      | item hv =>
        rcases mem_items_loops hv with ⟨m, rfl⟩ | rfl | rfl
        · cases hb
        · exact .inl (List.mem_singleton.mp hb)
        · exact .inr (List.mem_singleton.mp hb)
      | slot hv => simp [slots_loops] at hv
  intro b c hb hc hid
  rcases hocc hb with rfl | rfl <;> rcases hocc hc with rfl | rfl
  · rfl
  · cases hid
  · cases hid
  · rfl

/-- Three lists that look alike, though no two hold the same. -/
theorem equal_iff_similar_loops :
    loops.BlocksNumbered [.list ⟨0⟩, .list ⟨1⟩, .list ⟨2⟩] ∧
      loops.equal (.list ⟨0⟩) (.list ⟨2⟩) = true :=
  ⟨blocksNumbered_loops,
    (equal_iff_similar loops).2.2.2.2.2.1 _ (.list ⟨1⟩) _ blocksNumbered_loops
      (by decide +kernel) (by decide +kernel)⟩

end Heap
end DictScript
