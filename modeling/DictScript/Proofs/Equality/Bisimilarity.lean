import DictScript.Proofs.Equality.Run
import DictScript.Proofs.Numbers
import DictScript.Proofs.Slots

/-!
Structural equality is bisimilarity: two values are equal when some relation holds between them that
only relates values which agree in all they show, with related parts.
-/
namespace DictScript.Heap
variable {h : Heap} {R : Value → Value → Prop}

/-- What equal values have in common, if `R` relates their parts. -/
inductive Match (h : Heap) (R : Value → Value → Prop) : Value → Value → Prop where
  | nil : Match h R .nil .nil
  | num {x y : Float} : (x == y) = true → Match h R (.num x) (.num y)
  | bool (b : Bool) : Match h R (.bool b) (.bool b)
  | str (t : String) : Match h R (.str t) (.str t)
  | sym (n : String) : Match h R (.sym n) (.sym n)
  | quote {v w : Value} : R v w → Match h R (.quote v) (.quote w)
  | fullQuote {v w : Value} : R v w → Match h R (.fullQuote v) (.fullQuote w)
  | sameList (l : ListId) : Match h R (.list l) (.list l)
  | list {l m : ListId} : List.Forall₂ R (h.items l) (h.items m) → Match h R (.list l) (.list m)
  | sameDict (d : DictId) : Match h R (.dict d) (.dict d)
  | dict {d e : DictId} :
      (∀ n, n ∈ h.names d ↔ n ∈ h.names e) →
      (∀ n v w, (n, v) ∈ h.slots d → (n, w) ∈ h.slots e → R v w) →
      Match h R (.dict d) (.dict e)
  | sameBlock {b c : Block} : b.id = c.id → Match h R (.block b) (.block c)
  | block {b c : Block} : b.params = c.params → b.env = c.env → List.Forall₂ R b.body c.body →
      Match h R (.block b) (.block c)
  | native (n : NativeId) : Match h R (.native n) (.native n)

def Bisimulation (h : Heap) (R : Value → Value → Prop) : Prop := ∀ v w, R v w → h.Match R v w

/-- The largest bisimulation. -/
def Similar (h : Heap) (v w : Value) : Prop := ∃ R, h.Bisimulation R ∧ R v w

theorem Match.mono {S : Value → Value → Prop} (hRS : ∀ v w, R v w → S v w) {v w : Value}
    (hm : h.Match R v w) : h.Match S v w := by
  cases hm with
  | nil => exact .nil
  | num hxy => exact .num hxy
  | bool b => exact .bool b
  | str t => exact .str t
  | sym n => exact .sym n
  | quote hvw => exact .quote (hRS _ _ hvw)
  | fullQuote hvw => exact .fullQuote (hRS _ _ hvw)
  | sameList l => exact .sameList l
  | list hi => exact .list (hi.imp hRS)
  | sameDict d => exact .sameDict d
  | dict hn hs => exact .dict hn fun n v w hv hw => hRS v w (hs n v w hv hw)
  | sameBlock hid => exact .sameBlock hid
  | block hp he hb => exact .block hp he (hb.imp hRS)
  | native n => exact .native n

theorem similar_bisimulation : h.Bisimulation h.Similar := by
  rintro v w ⟨R, hR, hvw⟩
  exact (hR v w hvw).mono fun a b hab => ⟨R, hR, hab⟩

/-! A run that succeeds compares only bisimilar values. -/

def ComparedWithin (h : Heap) (s : Pairs) (v w : Value) : Prop :=
  ∃ n t u, v.compare (h.compareObjects n) w t = some u ∧ u ⊆ s

theorem forall₂_of_compareAll {s : Pairs} {n : Nat} {vs ws : List Value} {t u : Pairs}
    (hr : compareAll (h.compareObjects n) vs ws t = some u) (hu : u ⊆ s) :
    List.Forall₂ (h.ComparedWithin s) vs ws := by
  induction vs generalizing ws t with
  | nil =>
    cases ws with
    | nil => exact .nil
    | cons w ws => simp [compareAll] at hr
  | cons v vs ih =>
    cases ws with
    | nil => simp [compareAll] at hr
    | cons w ws =>
      obtain ⟨u', hu', hr'⟩ : ∃ u', v.compare (h.compareObjects n) w t = some u' ∧
          compareAll (h.compareObjects n) vs ws u' = some u := by
        simpa [compareAll, Option.bind_eq_some_iff] using hr
      have hgrow := compareAll_grows (compareObjects_grows n) vs ws u' u hr'
      exact .cons ⟨n, t, u', hu', List.Subset.trans hgrow.subset hu⟩ (ih hr')

theorem slots_of_compareSlots {s : Pairs} {n : Nat} {ys xs : List (String × Value)} {t u : Pairs}
    (hr : compareSlots (Value.compare (h.compareObjects n)) ys xs t = some u) (hu : u ⊆ s) :
    ∀ x ∈ xs, ∃ w, ys.lookup x.1 = some w ∧ h.ComparedWithin s x.2 w := by
  induction xs generalizing t with
  | nil => simp
  | cons x xs ih =>
    obtain ⟨name, v⟩ := x
    rw [compareSlots] at hr
    split at hr
    · simp at hr
    · rename_i w hw
      obtain ⟨u', hu', hr'⟩ := Option.bind_eq_some_iff.mp hr
      have hgrow := compareSlots_grows (compareObjects_grows n) ys xs u' u hr'
      intro x hx
      rcases List.mem_cons.mp hx with rfl | hx
      · exact ⟨w, hw, n, t, u', hu', List.Subset.trans hgrow.subset hu⟩
      · exact ih hr' x hx

/-- Two dictionaries of the same size, where each name of the one is a name of the other. -/
theorem names_iff_of_subset {d e : DictId} (hlen : (h.slots d).length = (h.slots e).length)
    (hsub : h.names d ⊆ h.names e) (n : String) : n ∈ h.names d ↔ n ∈ h.names e := by
  have hperm : (h.names d).Perm (h.names e) :=
    ((h.names_nodup d).subperm hsub).perm_of_length_le (by simp [names, hlen])
  exact hperm.mem_iff

theorem match_of_compareContents {s : Pairs} {n : Nat} {a b : Ref} {t u : Pairs}
    (hr : h.compareContents (h.compareObjects n) a b t = some u) (hu : u ⊆ s) :
    h.Match (h.ComparedWithin s) a.toValue b.toValue := by
  cases a with
  | list l =>
    cases b with
    | list m => exact .list (forall₂_of_compareAll hr hu)
    | _ => simp [compareContents] at hr
  | dict d =>
    cases b with
    | dict e =>
      simp only [compareContents] at hr
      split at hr
      · rename_i hlen
        have hslots := slots_of_compareSlots hr hu
        refine .dict (names_iff_of_subset hlen fun k hk => ?_) fun k v w hv hw => ?_
        · obtain ⟨⟨_, v⟩, hv, rfl⟩ := List.mem_map.mp hk
          obtain ⟨w, hw, -⟩ := hslots _ hv
          exact List.mem_map.mpr ⟨_, lookup_slots_iff.mp hw, rfl⟩
        · obtain ⟨w', hw', hc⟩ := hslots _ hv
          obtain rfl : w = w' := by simpa [lookup_slots_iff.mpr hw] using hw'
          exact hc
      · simp at hr
    | _ => simp [compareContents] at hr
  | native _ => simp [compareContents] at hr

/-- With every assumed pair compared as well, the assumptions were right. -/
theorem comparedWithin_bisimulation {s : Pairs} (hs : ∀ p ∈ s, h.Entered s p) :
    h.Bisimulation (h.ComparedWithin s) := by
  have hobjects : ∀ (n : Nat) (a b : Ref) (t u : Pairs), h.compareObjects n a b t = some u →
      u ⊆ s → a = b ∨ h.Match (h.ComparedWithin s) a.toValue b.toValue := by
    intro n a b t u hr hu
    cases n with
    | zero => simp [compareObjects] at hr
    | succ n =>
      rw [compareObjects_succ] at hr
      split at hr
      · rename_i hab
        obtain rfl : t = u := by simpa using hr
        rcases hab with rfl | hab
        · exact .inl rfl
        · obtain ⟨m, t', u', hr', hu'⟩ := hs _ (hu hab)
          exact .inr (match_of_compareContents hr' hu')
      · exact .inr (match_of_compareContents hr hu)
  rintro v w ⟨n, t, u, hr, hu⟩
  cases v with
  | nil => cases w <;> simp [Value.compare] at hr; exact .nil
  | num x => cases w <;> simp [Value.compare] at hr; exact .num hr.1
  | bool b => cases w <;> simp [Value.compare] at hr; exact hr.1 ▸ .bool b
  | str x => cases w <;> simp [Value.compare] at hr; exact hr.1 ▸ .str x
  | sym x => cases w <;> simp [Value.compare] at hr; exact hr.1 ▸ .sym x
  | quote v => cases w <;> simp [Value.compare] at hr; exact .quote ⟨n, t, u, hr, hu⟩
  | fullQuote v => cases w <;> simp [Value.compare] at hr; exact .fullQuote ⟨n, t, u, hr, hu⟩
  | list l =>
    cases w <;> simp [Value.compare] at hr
    rename_i m
    rcases hobjects n _ _ t u hr hu with heq | hm
    · injection heq with hlm
      exact hlm ▸ .sameList l
    · exact hm
  | dict d =>
    cases w <;> simp [Value.compare] at hr
    rename_i e
    rcases hobjects n _ _ t u hr hu with heq | hm
    · injection heq with hde
      exact hde ▸ .sameDict d
    · exact hm
  | block b =>
    cases w <;> simp [Value.compare] at hr
    rename_i c
    obtain ⟨id, name, params, body, env, receiver⟩ := b
    rw [compareBlocks] at hr
    split at hr
    · rename_i hid
      exact .sameBlock hid
    · split at hr
      · rename_i hpe
        exact .block hpe.1 hpe.2 (forall₂_of_compareAll hr hu)
      · simp at hr
  | native x => cases w <;> simp [Value.compare] at hr; exact hr.1 ▸ .native x

theorem similar_of_equal {v w : Value} (he : h.equal v w = true) : h.Similar v w := by
  obtain ⟨s, hs⟩ := Option.isSome_iff_exists.mp he
  have hgrow := compare_grows (compareObjects_grows _) v w [] s hs
  refine ⟨h.ComparedWithin s, comparedWithin_bisimulation fun p hp => ?_,
    _, [], s, hs, List.Subset.refl s⟩
  simpa using hgrow.entered p hp

end DictScript.Heap
