import DictScript.Proofs.Equality.Laws
import DictScript.Proofs.Printing.Style
import DictScript.Proofs.Renaming.Walks

/-!
What scripts and hosts get to see of values does not depend on the numbers of dictionaries: whether
values are equal, how they are printed, and which frames an error shows.
-/
namespace DictScript
open Heap
variable {ws : List (List Value)} {h h' : Heap} {d e p : DictId} {l : ListId} {v w a b : Value}
variable {n n' : Nat} {ρ : Renaming} {f : DictId → DictId} {R R' : Value → Value → Prop}
variable {B : List Ref} {r : Ref} {style style' : PrintStyle}

/-! Equality, which is bisimilarity. -/

theorem forall₂_renameAll {vs us : List Value} :
    List.Forall₂ R' (renameAll f vs) (renameAll f us) ↔
      List.Forall₂ (fun v w => R' (v.rename f) (w.rename f)) vs us := by
  rw [renameAll_eq, renameAll_eq, List.forall₂_map_left_iff, List.forall₂_map_right_iff]

theorem mem_renameSlots {n : String} {xs : List (String × Value)} :
    (n, w) ∈ renameSlots f xs ↔ ∃ v, (n, v) ∈ xs ∧ w = v.rename f := by
  rw [renameSlots, List.mem_map]
  constructor
  · rintro ⟨⟨m, v⟩, hv, heq⟩
    cases heq
    exact ⟨v, hv, rfl⟩
  · rintro ⟨v, hv, rfl⟩
    exact ⟨(n, v), hv, rfl⟩

namespace Renaming
namespace Objects
variable (ho : ρ.Objects h h')
include ho

theorem match_rename (hR : ∀ v w, R v w → R' (v.rename ρ.map) (w.rename ρ.map))
    (hm : h.Match R v w) : h'.Match R' (v.rename ρ.map) (w.rename ρ.map) := by
  cases hm with
  | nil => exact .nil
  | num hxy => exact .num hxy
  | bool b => exact .bool b
  | str t => exact .str t
  | sym n => exact .sym n
  | quote hvw => exact .quote (hR _ _ hvw)
  | fullQuote hvw => exact .fullQuote (hR _ _ hvw)
  | sameList l => exact .sameList l
  | list hi =>
    refine .list ?_
    rw [ho.items, ho.items]
    exact forall₂_renameAll.mpr (hi.imp hR)
  | sameDict d => exact .sameDict _
  | dict hn hs =>
    refine .dict (fun n => ?_) fun n x y hx hy => ?_
    · rw [ho.names, ho.names]
      exact hn n
    · rw [ho.slots] at hx hy
      obtain ⟨v, hv, rfl⟩ := mem_renameSlots.mp hx
      obtain ⟨w, hw, rfl⟩ := mem_renameSlots.mp hy
      exact hR v w (hs n v w hv hw)
  | @sameBlock b c hid =>
    cases b
    cases c
    exact .sameBlock hid
  | @block b c hp he hb =>
    cases b
    cases c
    exact .block hp (congrArg ρ.map he) (forall₂_renameAll.mpr (hb.imp hR))
  | native n => exact .native n

theorem match_of_rename (hR : ∀ v w, R' (v.rename ρ.map) (w.rename ρ.map) → R v w)
    (hm : h'.Match R' (v.rename ρ.map) (w.rename ρ.map)) : h.Match R v w := by
  generalize hx : v.rename ρ.map = x at hm
  generalize hy : w.rename ρ.map = y at hm
  cases hm with
  | nil =>
    cases v <;> cases hx
    cases w <;> cases hy
    exact .nil
  | num hxy =>
    cases v <;> cases hx
    cases w <;> cases hy
    exact .num hxy
  | bool b =>
    cases v <;> cases hx
    cases w <;> cases hy
    exact .bool b
  | str t =>
    cases v <;> cases hx
    cases w <;> cases hy
    exact .str t
  | sym n =>
    cases v <;> cases hx
    cases w <;> cases hy
    exact .sym n
  | quote hvw =>
    cases v <;> cases hx
    cases w <;> cases hy
    exact .quote (hR _ _ hvw)
  | fullQuote hvw =>
    cases v <;> cases hx
    cases w <;> cases hy
    exact .fullQuote (hR _ _ hvw)
  | sameList l =>
    cases v <;> cases hx
    cases w <;> cases hy
    exact .sameList l
  | list hi =>
    cases v <;> cases hx
    cases w <;> cases hy
    rw [ho.items, ho.items] at hi
    exact .list ((forall₂_renameAll.mp hi).imp hR)
  | sameDict d =>
    cases v <;> cases hx
    cases w <;> simp only [Value.rename, Value.dict.injEq, reduceCtorEq] at hy
    rw [ρ.injective hy]
    exact .sameDict _
  | dict hn hs =>
    cases v <;> cases hx
    cases w <;> cases hy
    refine .dict (fun n => ?_) fun n x y hx hy => hR x y (hs n _ _ ?_ ?_)
    · rw [← ho.names, hn, ho.names]
    · rw [ho.slots]
      exact mem_renameSlots.mpr ⟨x, hx, rfl⟩
    · rw [ho.slots]
      exact mem_renameSlots.mpr ⟨y, hy, rfl⟩
  | sameBlock hid =>
    cases v <;> cases hx
    rename_i b
    cases w <;> cases hy
    rename_i c
    cases b
    cases c
    exact .sameBlock hid
  | block hp he hb =>
    cases v <;> cases hx
    rename_i b
    cases w <;> cases hy
    rename_i c
    cases b
    cases c
    exact .block hp (ρ.injective he) ((forall₂_renameAll.mp hb).imp hR)
  | native n =>
    cases v <;> cases hx
    cases w <;> cases hy
    exact .native n

theorem equal (v w : Value) : h'.equal (v.rename ρ.map) (w.rename ρ.map) = h.equal v w := by
  rw [Bool.eq_iff_iff, equal_eq_true_iff, equal_eq_true_iff]
  constructor
  · rintro ⟨R', hR', hvw⟩
    exact ⟨fun v w => R' (v.rename ρ.map) (w.rename ρ.map),
      fun v w hvw => ho.match_of_rename (fun _ _ => id) (hR' _ _ hvw), hvw⟩
  · rintro ⟨R, hR, hvw⟩
    refine ⟨fun x y => ∃ v w, x = v.rename ρ.map ∧ y = w.rename ρ.map ∧ R v w, ?_,
      v, w, rfl, rfl, hvw⟩
    rintro _ _ ⟨v, w, rfl, rfl, hvw⟩
    exact ho.match_rename (fun v w hvw => ⟨v, w, rfl, rfl, hvw⟩) (hR v w hvw)

end Objects
end Renaming

/-! Printing. -/

structure PrintStyle.Agree (f : DictId → DictId) (P : Ref → Prop) (style style' : PrintStyle) :
    Prop where
  list : ∀ l, P (.list l) → style'.list l = style.list l
  dict : ∀ d, P (.dict d) → style'.dict (f d) = style.dict d
  native : ∀ n, style'.native n = style.native n
  elideBody : style'.elideBody = style.elideBody

theorem printAll_rename {vs : List Value}
    (hvs : ∀ v ∈ vs, (v.rename f).print style' = v.print style) :
    printAll style' (renameAll f vs) = printAll style vs := by
  induction vs with
  | nil => rfl
  | cons v vs ih =>
    obtain ⟨hv, hvs⟩ := List.forall_mem_cons.mp hvs
    simp only [renameAll, printAll, hv, ih hvs]

theorem Value.print_rename {P : Ref → Prop} (hs : PrintStyle.Agree f P style style') (v : Value)
    (hv : ∀ r ∈ v.refs, P r) : (v.rename f).print style' = v.print style := by
  induction v using Value.ind with
  | nil | num | bool | str | sym => rfl
  | quote v ih | fullQuote v ih => simp only [rename, print, ih hv]
  | list l => exact hs.list l (hv _ (List.mem_singleton_self _))
  | dict d => exact hs.dict d (hv _ (List.mem_singleton_self _))
  | native n => exact hs.native n
  | block b ih =>
    obtain ⟨id, name, params, body, env, receiver⟩ := b
    have hbody : printAll style' (renameAll f body) = printAll style body := by
      refine printAll_rename fun w hw => ih w hw fun r hr => hv r ?_
      simp only [refs, blockRefs, List.mem_cons, List.mem_append]
      exact .inr (.inr (mem_allRefs.mpr ⟨w, hw, hr⟩))
    simp only [rename, renameBlock, print, printBlock, hbody, hs.elideBody]

namespace Renaming

theorem mem_map_rename : r.rename ρ.map ∈ B.map (Ref.rename ρ.map) ↔ r ∈ B :=
  List.mem_map_of_injective (Ref.rename_injective ρ.injective)

namespace Heaps
variable (hh : ρ.Heaps ws h h')
include hh

theorem printNative (n : NativeId) : h'.printNative n = h.printNative n := by
  rw [Heap.printNative, Heap.printNative, hh.native]
  cases h.native? n with
  | none => rfl
  | some x => cases x <;> rfl

/-- With fuel for all that is not around, the fuel makes no difference either. -/
theorem styleWithin (B : List Ref) (hn : h.outside B ≤ n) (hn' : h.outside B ≤ n') :
    PrintStyle.Agree ρ.map h.Allocated (h.styleWithin n B)
      (h'.styleWithin n' (B.map (Ref.rename ρ.map))) := by
  induction hcount : h.outside B using Nat.strong_induction_on generalizing n n' B with
  | h count ih =>
  subst hcount
  have hinner : ∀ r ∈ h.nested, r ∉ B → ∃ m m', n = m + 1 ∧ n' = m' + 1 ∧
      PrintStyle.Agree ρ.map h.Allocated (h.styleWithin m (r :: B))
        (h'.styleWithin m' (r.rename ρ.map :: B.map (Ref.rename ρ.map))) := by
    intro r hr hB
    have hlt := outside_cons_lt hr hB
    exact ⟨n - 1, n' - 1, by omega, by omega,
      ih _ hlt (r :: B) (Nat.le_sub_one_of_lt (hlt.trans_le hn))
        (Nat.le_sub_one_of_lt (hlt.trans_le hn')) rfl⟩
  refine ⟨fun l hl => ?_, fun d hd => ?_, fun x => ?_, ?_⟩
  · by_cases hB : Ref.list l ∈ B
    · rw [styleWithin_list hB, styleWithin_list (mem_map_rename.mpr hB)]
    · obtain ⟨m, m', rfl, rfl, hstyle⟩ := hinner _ (mem_nested_list.mpr hl) hB
      rw [styleWithin_list_succ hB, styleWithin_list_succ (mem_map_rename.not.mpr hB), hh.items]
      congr 3
      exact printAll_rename fun v hv =>
        Value.print_rename hstyle v (hh.region.has_item (S := h.everything) hl hv)
  · have howner := hh.complete.owner hd
    have hB' : Ref.dict (h'.owner (ρ.map d)) ∈ B.map (Ref.rename ρ.map) ↔
        Ref.dict (h.owner d) ∈ B := by
      rw [hh.owner]
      exact mem_map_rename (r := .dict (h.owner d))
    by_cases hB : Ref.dict (h.owner d) ∈ B
    · rw [styleWithin_dict hB, styleWithin_dict (hB'.mpr hB)]
    · obtain ⟨m, m', rfl, rfl, hstyle⟩ := hinner _ (mem_nested_dict.mpr howner) hB
      rw [styleWithin_dict_succ hB, styleWithin_dict_succ (hB'.not.mpr hB), hh.owner, hh.slots,
        renameSlots, List.map_map]
      congr 3
      refine List.map_congr_left fun x hx => congrArg (x.1 ++ " = " ++ ·) ?_
      exact Value.print_rename hstyle x.2 (hh.region.has_slot (S := h.everything) howner hx)
  · rw [styleWithin_native, styleWithin_native, hh.printNative]
  · rw [styleWithin_elideBody, styleWithin_elideBody]

theorem print (hv : Has h.everything v) : h'.print (v.rename ρ.map) = h.print v := by
  exact Value.print_rename (hh.styleWithin [] outside_le
    (outside_le.trans (hh.lists ▸ Nat.add_le_add_left hh.size_le _))) v hv

theorem printShort (v : Value) : h'.printShort (v.rename ρ.map) = h.printShort v := by
  rw [Heap.printShort, Heap.printShort]
  refine Value.print_rename (P := fun _ => True) ?_ v fun _ _ => trivial
  exact ⟨fun _ _ => rfl, fun _ _ => rfl, hh.printNative, rfl⟩

/-! Dumps. -/

theorem dumpLine (d : DictId) : h'.dumpLine (ρ.map d) = h.dumpLine d := by
  have hentries : ((h'.slots (ρ.map d)).map fun s => " " ++ s.1 ++ ": " ++ h'.printShort s.2) =
      (h.slots d).map fun s => " " ++ s.1 ++ ": " ++ h.printShort s.2 := by
    rw [hh.slots, renameSlots, List.map_map]
    exact List.map_congr_left fun x _ => congrArg (" " ++ x.1 ++ ": " ++ ·) (hh.printShort x.2)
  have hempty : (h'.slots (ρ.map d)).isEmpty = (h.slots d).isEmpty := by
    rw [hh.slots, renameSlots, List.isEmpty_map]
  simp only [Heap.dumpLine, hentries, hempty, hh.displayName, hh.cell]
  rfl

theorem dumpFrom (n : Nat) (d : DictId) : h'.dumpFrom n (ρ.map d) = h.dumpFrom n d := by
  induction n generalizing d with
  | zero => rfl
  | succ n ih =>
    have hnext : (h'.caller (ρ.map d)).or (h'.parent (ρ.map d)) =
        ((h.caller d).or (h.parent d)).map ρ.map := by
      rw [hh.caller, hh.parent]
      cases h.caller d <;> rfl
    rw [Heap.dumpFrom, Heap.dumpFrom, hh.dumpLine, hnext]
    cases (h.caller d).or (h.parent d) with
    | none => rfl
    | some next => exact congrArg (h.dumpLine d :: ·) (ih next)

theorem raisedIn (d : DictId) (error : RuntimeError) :
    error.raisedIn h' (ρ.map d) = error.raisedIn h d := by
  rw [RuntimeError.raisedIn, RuntimeError.raisedIn, frameDump, frameDump, hh.dumpFrom]

end Heaps
end Renaming
end DictScript
