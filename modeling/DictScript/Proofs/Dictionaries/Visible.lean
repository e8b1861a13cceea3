import DictScript.Proofs.Dictionaries.Updates
import DictScript.Proofs.Ownership.Rewritten

/-!
The names that are visible from a dictionary. The walk that lists them and the walk that looks one
up agree: listed are the names that are found, each where it is found first.
-/
namespace DictScript
open Heap
variable {h : Heap} {d e p : DictId} {cs : List DictId} {m n : String} {fuel : Nat}

/-! Lists without repetitions. -/

section
variable {α : Type} [BEq α] [LawfulBEq α] {xs ys : List α} {x : α}

theorem eraseDups_concat (xs : List α) (x : α) :
    (xs ++ [x]).eraseDups = if x ∈ xs then xs.eraseDups else xs.eraseDups ++ [x] := by
  rw [List.eraseDups_append]
  by_cases hx : x ∈ xs
  · simp [hx, List.removeAll]
  · simp [hx, List.removeAll, List.eraseDups_cons]

theorem nodup_eraseDups (xs : List α) : xs.eraseDups.Nodup := by
  induction xs using List.reverseRecOn with
  | nil => exact List.nodup_nil
  | append_singleton xs x ih =>
    rw [eraseDups_concat]
    split
    · exact ih
    · rename_i hx
      exact List.concat_eq_append ▸ ih.concat fun hmem => hx (List.mem_eraseDups.mp hmem)

theorem eraseDups_of_nodup (hxs : xs.Nodup) : xs.eraseDups = xs := by
  induction xs using List.reverseRecOn with
  | nil => rfl
  | append_singleton xs x ih =>
    obtain ⟨hxs, -, hapart⟩ := List.nodup_append.mp hxs
    rw [eraseDups_concat, if_neg fun hx => hapart x hx x (List.mem_singleton_self x) rfl, ih hxs]

theorem eraseDups_filter (xs : List α) (keep : α → Bool) :
    (xs.filter keep).eraseDups = xs.eraseDups.filter keep := by
  induction xs using List.reverseRecOn with
  | nil => rfl
  | append_singleton xs x ih =>
    rw [List.filter_append, eraseDups_concat]
    cases hkeep : keep x with
    | false =>
      rw [List.filter_singleton, hkeep, cond_false, List.append_nil, ih]
      split
      · rfl
      · rw [List.filter_append, List.filter_singleton, hkeep, cond_false, List.append_nil]
    | true =>
      rw [List.filter_singleton, hkeep, cond_true, eraseDups_concat, ih]
      simp only [List.mem_filter, hkeep, and_true]
      split
      · rfl
      · rw [List.filter_append, List.filter_singleton, hkeep, cond_true]

/-- What is in front keeps its place, and what comes behind is listed unless it is in front. -/
theorem eraseDups_append_of_nodup (hxs : xs.Nodup) (ys : List α) :
    (xs ++ ys).eraseDups = xs ++ ys.eraseDups.filter fun y => !xs.contains y := by
  rw [List.eraseDups_append, eraseDups_of_nodup hxs, List.removeAll, eraseDups_filter]

end

namespace Heap

/-! The whole chain. -/

inductive Lineage (h : Heap) : DictId → List DictId → Prop where
  | last {d : DictId} : h.parent d = none → Lineage h d [d]
  | step {d p : DictId} {cs : List DictId} : h.parent d = some p → Lineage h p cs →
      Lineage h d (d :: cs)

def AcyclicFrom (h : Heap) (d : DictId) : Prop :=
  ∀ e, Relation.ReflTransGen h.Inherits d e → ¬ Relation.TransGen h.Inherits e e

theorem AcyclicFrom.parent (hd : h.AcyclicFrom d) (hp : h.Inherits d p) : h.AcyclicFrom p :=
  fun e he => hd e (.head hp he)

/-- A cycle that is met on the way up from `d` is met on the way up from its parent. -/
theorem acyclicFrom_of_parent (hup : ∀ p, h.Inherits d p → h.AcyclicFrom p) : h.AcyclicFrom d := by
  intro e he hcycle
  cases he.cases_head with
  | inl heq =>
    subst heq
    obtain ⟨p, hp, hback⟩ := Relation.TransGen.head'_iff.mp hcycle
    exact hup p hp d hback hcycle
  | inr hstep =>
    obtain ⟨p, hp, hrest⟩ := hstep
    exact hup p hp e hrest hcycle

theorem Lineage.acyclicFrom (hcs : h.Lineage d cs) : h.AcyclicFrom d := by
  induction hcs with
  | last hnone => exact acyclicFrom_of_parent fun p hp => nomatch hnone.symm.trans hp
  | @step d p cs hp _ ih =>
    refine acyclicFrom_of_parent fun q hq => ?_
    obtain rfl : p = q := Option.some.inj (hp.symm.trans hq)
    exact ih

theorem lineage_chainOf (hS : h.Region h.everything) (hd : h.AcyclicFrom d)
    (hfuel : h.height d < fuel) : h.Lineage d (h.chainOf fuel d) := by
  induction fuel generalizing d with
  | zero => omega
  | succ fuel ih =>
    rw [chainOf]
    cases hp : h.parent d with
    | none => exact .last hp
    | some p =>
      have hmade : h.Allocated (.dict p) := hS.inherits (allocated_of_inherits hp) hp
      have hlt := height_lt_of_inherits hp hmade (hd p (.single hp))
      exact .step hp (ih (hd.parent hp) (by omega))

theorem lineage_chain (hS : h.Region h.everything) (hd : h.AcyclicFrom d) :
    h.Lineage d (h.chain d) :=
  lineage_chainOf hS hd (Nat.lt_succ_of_le (h.height_le d))

/-! Names along a chain. -/

def Visible (h : Heap) (d : DictId) (n : String) : Prop :=
  Key.of n = .slot n ∧ (h.find d n).isSome

def placeOn (h : Heap) (cs : List DictId) (n : String) : Nat ×ₗ Nat :=
  toLex (cs.findIdx (h.holds · n), (cs.find? (h.holds · n)).elim 0 fun e => (h.names e).idxOf n)

/-- Where a name is found from `d`: how far along the chain, and then how far among the names of the
dictionary that is found. -/
def place (h : Heap) (d : DictId) (n : String) : Nat ×ₗ Nat :=
  toLex ((h.chain d).findIdx (h.holds · n), (h.find d n).elim 0 fun e => (h.names e).idxOf n)

theorem place_eq_placeOn (h : Heap) (d : DictId) (n : String) :
    h.place d n = h.placeOn (h.chain d) n := by
  rw [place, placeOn, find_eq_find?]

theorem placeOn_of_holds (he : h.holds e n = true) :
    h.placeOn (e :: cs) n = toLex (0, (h.names e).idxOf n) := by
  simp [placeOn, List.findIdx_cons, he]

theorem placeOn_of_not_holds (he : h.holds e n = false) : h.placeOn (e :: cs) n =
    toLex ((ofLex (h.placeOn cs n)).1 + 1, (ofLex (h.placeOn cs n)).2) := by
  simp [placeOn, List.findIdx_cons, he]

/-- Names that are held further up keep their order. -/
theorem placeOn_lt_of_not_holds (hm : h.holds e m = false) (hn : h.holds e n = false)
    (hlt : h.placeOn cs m < h.placeOn cs n) : h.placeOn (e :: cs) m < h.placeOn (e :: cs) n := by
  rw [placeOn_of_not_holds hm, placeOn_of_not_holds hn, Prod.Lex.toLex_lt_toLex]
  rw [Prod.Lex.lt_iff] at hlt
  simpa using hlt

theorem pairwise_idxOf {xs : List String} (hxs : xs.Nodup) :
    xs.Pairwise fun m n => xs.idxOf m < xs.idxOf n := by
  rw [List.pairwise_iff_getElem]
  intro i j hi hj hij
  rwa [hxs.idxOf_getElem, hxs.idxOf_getElem]

section
variable (hordinary : ∀ e, ∀ n ∈ h.names e, Key.of n = .slot n)
include hordinary

/-- Along the chain, every dictionary adds the names that are not held before it. -/
theorem pairwise_placeOn (cs : List DictId) :
    (cs.flatMap h.names).eraseDups.Pairwise fun m n => h.placeOn cs m < h.placeOn cs n := by
  induction cs with
  | nil => exact List.Pairwise.nil
  | cons e cs ih =>
    have hholds : ∀ n ∈ h.names e, h.holds e n = true :=
      fun n hn => (mem_names_iff (hordinary e n hn)).mp hn
    have hlacks : ∀ n ∈ (cs.flatMap h.names).eraseDups.filter fun n => !(h.names e).contains n,
        h.holds e n = false := by
      intro n hn
      obtain ⟨hn, hnot⟩ := List.mem_filter.mp hn
      obtain ⟨c, -, hc⟩ := List.mem_flatMap.mp (List.mem_eraseDups.mp hn)
      refine Bool.eq_false_of_not_eq_true fun he => ?_
      simp [(mem_names_iff (hordinary c n hc)).mpr he] at hnot
    rw [List.flatMap_cons, eraseDups_append_of_nodup (h.names_nodup e), List.pairwise_append]
    refine ⟨?_, ?_, fun m hm n hn => ?_⟩
    · refine (pairwise_idxOf (h.names_nodup e)).imp_of_mem fun hm hn hlt => ?_
      rw [placeOn_of_holds (hholds _ hm), placeOn_of_holds (hholds _ hn), Prod.Lex.toLex_lt_toLex]
      exact .inr ⟨rfl, hlt⟩
    · exact (ih.filter _).imp_of_mem fun hm hn hlt =>
        placeOn_lt_of_not_holds (hlacks _ hm) (hlacks _ hn) hlt
    · rw [placeOn_of_holds (hholds m hm), placeOn_of_not_holds (hlacks n hn),
        Prod.Lex.toLex_lt_toLex]
      exact .inl (Nat.succ_pos _)

theorem pairwise_place (d : DictId) :
    (h.visibleNames d).Pairwise fun m n => h.place d m < h.place d n := by
  simp only [place_eq_placeOn]
  exact pairwise_placeOn hordinary (h.chain d)

theorem mem_visibleNames (d : DictId) (n : String) : n ∈ h.visibleNames d ↔ h.Visible d n := by
  rw [visibleNames, List.mem_eraseDups, List.mem_flatMap, Visible, find_eq_find?,
    List.find?_isSome]
  constructor
  · rintro ⟨e, he, hn⟩
    have hkey := hordinary e n hn
    exact ⟨hkey, e, he, (mem_names_iff hkey).mp hn⟩
  · rintro ⟨hkey, e, he, hn⟩
    exact ⟨e, he, (mem_names_iff hkey).mpr hn⟩

end

theorem visible_iff : h.Visible d n ↔ canonical n = n ∧ ¬ IsReserved n ∧ (h.find d n).isSome := by
  constructor
  · rintro ⟨hkey, hfind⟩
    have hn : ¬ IsReserved n := fun hn => hn n hkey
    exact ⟨Key.slot.inj ((Key.of_not_reserved hn).symm.trans hkey), hn, hfind⟩
  · rintro ⟨hfull, hn, hfind⟩
    exact ⟨(Key.of_not_reserved hn).trans (congrArg Key.slot hfull), hfind⟩

/-- From a dictionary whose chain ends, exactly the names are visible that are found from there, in
full and apart from the links, each once. They come in the order of the chain, each with the first
dictionary that holds it, and those of one dictionary in the order of its names. -/
theorem Reached.visibleNames_found (hh : h.Reached) (hd : h.AcyclicFrom d) :
    h.Lineage d (h.chain d) ∧ (h.visibleNames d).Nodup ∧
      (∀ n, n ∈ h.visibleNames d ↔
        canonical n = n ∧ ¬ IsReserved n ∧ (h.find d n).isSome) ∧
      (h.visibleNames d).Pairwise fun m n => h.place d m < h.place d n := by
  have hordinary : ∀ e, ∀ n ∈ h.names e, Key.of n = .slot n := fun e n => hh.region.tidy.names
  exact ⟨lineage_chain hh.region hd, nodup_eraseDups _,
    fun n => (mem_visibleNames hordinary d n).trans visible_iff, pairwise_place hordinary d⟩

/-- A view of the root environment is listed in front of the root environment, whose names it
shows. -/
theorem Reached.visibleNames_found_withView : ∃ (h : Heap) (d : DictId), h.Reached ∧
    h.AcyclicFrom d ∧ h.Lineage d [d, ⟨0⟩] ∧ h.names d = h.names ⟨0⟩ ∧
    (h.visibleNames d).Nodup ∧ "+" ∈ h.visibleNames d ∧ "parent" ∉ h.visibleNames d ∧
    h.place d "+" < h.place d "thaw" := by
  have hview : Interpreter.withView.parent ⟨20⟩ = some ⟨0⟩ := by decide +kernel
  have hroot : Interpreter.withView.parent ⟨0⟩ = none := by decide +kernel
  have hlineage : Interpreter.withView.Lineage ⟨20⟩ [⟨20⟩, ⟨0⟩] := .step hview (.last hroot)
  obtain ⟨-, hnodup, hvisible, hsorted⟩ := reached_withView.visibleNames_found hlineage.acyclicFrom
  have hplus : (Interpreter.withView.find ⟨20⟩ "+").isSome := by decide +kernel
  have hfirst : ["+", "thaw"].Sublist (Interpreter.withView.visibleNames ⟨20⟩) := by decide +kernel
  refine ⟨_, ⟨20⟩, reached_withView, hlineage.acyclicFrom, hlineage, by decide +kernel, hnodup,
    (hvisible "+").mpr ⟨by decide, fun hn => hn "+" (by decide), hplus⟩, fun hmem => ?_, ?_⟩
  · exact ((hvisible "parent").mp hmem).2.1 fun n => by simp [Key.of, canonical]
  · exact (List.pairwise_cons.mp (hsorted.sublist hfirst)).1 "thaw" (List.mem_singleton_self _)

end Heap
end DictScript
