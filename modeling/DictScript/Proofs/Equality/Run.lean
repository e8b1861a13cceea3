import DictScript.Equality
import DictScript.Proofs.Graph

/-!
Runs of the comparison. A run that succeeds only adds pairs of objects to the assumed ones, and
compares the contents of every pair it adds. Its depth is bounded by the pairs not assumed yet.
-/
namespace DictScript

abbrev ObjectTest := Ref → Ref → Pairs → Option Pairs

namespace Heap
variable {h : Heap} {s t u : Pairs}

def Entered (h : Heap) (s : Pairs) (p : Ref × Ref) : Prop :=
  ∃ n t u, h.compareContents (h.compareObjects n) p.1 p.2 t = some u ∧ u ⊆ s

structure Grows (h : Heap) (s t : Pairs) : Prop where
  subset : s ⊆ t
  entered : ∀ p ∈ t, p ∈ s ∨ h.Entered t p

theorem Grows.refl (s : Pairs) : h.Grows s s :=
  ⟨List.Subset.refl s, fun _ hp => .inl hp⟩

theorem Entered.mono {p : Ref × Ref} (hp : h.Entered s p) (hst : s ⊆ t) : h.Entered t p := by
  obtain ⟨n, t', u, hu, hus⟩ := hp
  exact ⟨n, t', u, hu, List.Subset.trans hus hst⟩

theorem Grows.trans (hst : h.Grows s t) (htu : h.Grows t u) : h.Grows s u := by
  refine ⟨List.Subset.trans hst.subset htu.subset, fun p hp => ?_⟩
  rcases htu.entered p hp with hpt | hpe
  · exact (hst.entered p hpt).imp_right fun he => he.mono htu.subset
  · exact .inr hpe

def TestGrows (h : Heap) (objects : ObjectTest) : Prop :=
  ∀ a b s t, objects a b s = some t → h.Grows s t

section Growth
variable {objects : ObjectTest}

mutual
theorem compare_grows (hg : h.TestGrows objects) (v w : Value) (s t : Pairs)
    (hr : v.compare objects w s = some t) :
    h.Grows s t := by
  cases v with
  | quote v =>
    cases w with
    | quote w => exact compare_grows hg v w s t (by simpa [Value.compare] using hr)
    | _ => simp [Value.compare] at hr
  | fullQuote v =>
    cases w with
    | fullQuote w => exact compare_grows hg v w s t (by simpa [Value.compare] using hr)
    | _ => simp [Value.compare] at hr
  | list l =>
    cases w with
    | list m => exact hg _ _ s t (by simpa [Value.compare] using hr)
    | _ => simp [Value.compare] at hr
  | dict d =>
    cases w with
    | dict e => exact hg _ _ s t (by simpa [Value.compare] using hr)
    | _ => simp [Value.compare] at hr
  | block b =>
    cases w with
    | block c => exact compareBlocks_grows hg b c s t (by simpa [Value.compare] using hr)
    | _ => simp [Value.compare] at hr
  | _ =>
    -- values without parts assume nothing
    cases w <;> simp [Value.compare] at hr
    all_goals first | (subst hr; exact .refl s) | (obtain ⟨-, rfl⟩ := hr; exact .refl s)

theorem compareBlocks_grows (hg : h.TestGrows objects) (b c : BlockOf Value) (s t : Pairs)
    (hr : compareBlocks objects b c s = some t) : h.Grows s t := by
  obtain ⟨id, name, params, body, env, receiver⟩ := b
  rw [compareBlocks] at hr
  split at hr
  · obtain rfl : s = t := by simpa using hr
    exact .refl s
  · split at hr
    · exact compareAll_grows hg body c.body s t hr
    · simp at hr

theorem compareAll_grows (hg : h.TestGrows objects) (vs ws : List Value) (s t : Pairs)
    (hr : compareAll objects vs ws s = some t) : h.Grows s t := by
  cases vs with
  | nil =>
    cases ws with
    | nil =>
      obtain rfl : s = t := by simpa [compareAll] using hr
      exact .refl s
    | cons w ws => simp [compareAll] at hr
  | cons v vs =>
    cases ws with
    | nil => simp [compareAll] at hr
    | cons w ws =>
      obtain ⟨u, hu, ht⟩ : ∃ u, v.compare objects w s = some u ∧
          compareAll objects vs ws u = some t := by
        simpa [compareAll, Option.bind_eq_some_iff] using hr
      exact (compare_grows hg v w s u hu).trans (compareAll_grows hg vs ws u t ht)
end

theorem compareSlots_grows (hg : h.TestGrows objects) (ys xs : List (String × Value)) (s t : Pairs)
    (hr : compareSlots (Value.compare objects) ys xs s = some t) : h.Grows s t := by
  induction xs generalizing s with
  | nil =>
    obtain rfl : s = t := by simpa [compareSlots] using hr
    exact .refl s
  | cons x xs ih =>
    obtain ⟨name, v⟩ := x
    rw [compareSlots] at hr
    split at hr
    · simp at hr
    · obtain ⟨u, hu, ht⟩ := Option.bind_eq_some_iff.mp hr
      exact (compare_grows hg v _ s u hu).trans (ih u ht)

theorem compareContents_grows (hg : h.TestGrows objects) (a b : Ref) (s t : Pairs)
    (hr : h.compareContents objects a b s = some t) : h.Grows s t := by
  cases a with
  | list l =>
    cases b with
    | list m => exact compareAll_grows hg _ _ s t hr
    | _ => simp [compareContents] at hr
  | dict d =>
    cases b with
    | dict e =>
      simp only [compareContents] at hr
      split at hr
      · exact compareSlots_grows hg _ _ s t hr
      · simp at hr
    | _ => simp [compareContents] at hr
  | native n => simp [compareContents] at hr

end Growth

theorem compareObjects_succ (n : Nat) (a b : Ref) (s : Pairs) :
    h.compareObjects (n + 1) a b s =
      if a = b ∨ (a, b) ∈ s then some s
      else h.compareContents (h.compareObjects n) a b ((a, b) :: s) := by
  simp [compareObjects]

theorem compareObjects_grows (n : Nat) : h.TestGrows (h.compareObjects n) := by
  induction n with
  | zero => intro a b s t hr; simp [compareObjects] at hr
  | succ n ih =>
    intro a b s t hr
    rw [compareObjects_succ] at hr
    split at hr
    · obtain rfl : s = t := by simpa using hr
      exact .refl s
    · have hgr := compareContents_grows ih a b _ t hr
      refine ⟨List.Subset.trans (List.subset_cons_self _ s) hgr.subset, fun p hp => ?_⟩
      rcases hgr.entered p hp with hin | he
      · rcases List.mem_cons.mp hin with rfl | hs
        · exact .inr ⟨n, _, t, hr, List.Subset.refl t⟩
        · exact .inl hs
      · exact .inr he

/-! The depth. -/

def pairs (h : Heap) : List (Ref × Ref) :=
  ((List.range h.lists.size).flatMap fun i => (List.range h.lists.size).map fun j =>
    (Ref.list ⟨i⟩, Ref.list ⟨j⟩)) ++
  ((List.range h.dicts.size).flatMap fun i => (List.range h.dicts.size).map fun j =>
    (Ref.dict ⟨i⟩, Ref.dict ⟨j⟩))

theorem length_pairs : h.pairs.length = h.pairCount := by
  simp [pairs, pairCount, List.length_flatMap, List.map_const']

def unassumed (h : Heap) (s : Pairs) : Nat := (h.pairs.filter fun p => p ∉ s).length

theorem unassumed_le (s : Pairs) : h.unassumed s ≤ h.pairCount := by
  rw [← length_pairs]
  exact List.length_filter_le _ _

theorem unassumed_anti (hst : s ⊆ t) : h.unassumed t ≤ h.unassumed s := by
  refine (List.monotone_filter_right h.pairs fun p hp => ?_).length_le
  simp only [decide_eq_true_eq] at hp ⊢
  exact fun hs => hp (hst hs)

theorem unassumed_cons_lt {p : Ref × Ref} (hp : p ∈ h.pairs) (hs : p ∉ s) :
    h.unassumed (p :: s) < h.unassumed s := by
  have hsplit : h.pairs.filter (fun q => q ∉ p :: s) =
      (h.pairs.filter fun q => q ∉ s).filter fun q => q ≠ p := by
    rw [List.filter_filter]
    exact List.filter_congr fun q _ => by simp [not_or]
  rw [unassumed, unassumed, hsplit, List.length_filter_lt_length_iff_exists]
  exact ⟨p, by simp [hp, hs], by simp⟩

theorem mem_pairs_list {l m : ListId} :
    (Ref.list l, Ref.list m) ∈ h.pairs ↔ l.index < h.lists.size ∧ m.index < h.lists.size := by
  obtain ⟨i⟩ := l
  obtain ⟨j⟩ := m
  simp [pairs]

theorem mem_pairs_dict {d e : DictId} :
    (Ref.dict d, Ref.dict e) ∈ h.pairs ↔ d.index < h.dicts.size ∧ e.index < h.dicts.size := by
  obtain ⟨i⟩ := d
  obtain ⟨j⟩ := e
  simp [pairs]

end Heap
end DictScript
