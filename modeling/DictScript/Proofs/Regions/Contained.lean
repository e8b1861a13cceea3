import DictScript.Proofs.Regions.Edits

/-!
What edits in a region leave alone: everything outside of it, and what a view shows. The operations
on dictionaries are edits wherever their dictionaries are in the region.
-/
namespace DictScript.Heap
variable {h k : Heap} {S : Set Ref} {r : Ref} {d e p args : DictId} {v : Value} {name : String}
variable {s s' s'' : Scene}

structure Contained (s s' : Scene) : Prop where
  sub : s.2 ⊆ s'.2
  fresh : ∀ r ∈ s'.2, r ∈ s.2 ∨ ¬ s.1.Allocated r
  grow : ∀ r, s.1.Allocated r → s'.1.Allocated r
  made : ∀ r, s'.1.Allocated r → s.1.Allocated r ∨ r ∈ s'.2
  cell : ∀ d, s.1.Allocated (.dict d) → .dict d ∉ s.2 → s'.1.cell d = s.1.cell d
  items : ∀ l, s.1.Allocated (.list l) → .list l ∉ s.2 → s'.1.items l = s.1.items l
  target : ∀ d, s.1.Allocated (.dict d) → (s'.1.cell d).target = (s.1.cell d).target

namespace Contained

theorem refl (s : Scene) : Contained s s :=
  ⟨subset_rfl, fun _ => .inl, fun _ => id, fun _ => .inl, fun _ _ _ => rfl, fun _ _ _ => rfl,
    fun _ _ => rfl⟩

theorem outside (hs : Contained s s') (hmade : s.1.Allocated r) (hr : r ∉ s.2) : r ∉ s'.2 :=
  fun hin => (hs.fresh r hin).elim hr fun hnew => hnew hmade

theorem trans (hst : Contained s s') (htu : Contained s' s'') : Contained s s'' where
  sub := hst.sub.trans htu.sub
  fresh r hr := by
    cases htu.fresh r hr with
    | inl hr => exact hst.fresh r hr
    | inr hnew => exact .inr fun hmade => hnew (hst.grow r hmade)
  grow r hr := htu.grow r (hst.grow r hr)
  made r hr := by
    cases htu.made r hr with
    | inl hr => exact (hst.made r hr).imp_right fun hr => htu.sub hr
    | inr hr => exact .inr hr
  cell d hmade hd :=
    (htu.cell d (hst.grow _ hmade) (hst.outside hmade hd)).trans (hst.cell d hmade hd)
  items l hmade hl :=
    (htu.items l (hst.grow _ hmade) (hst.outside hmade hl)).trans (hst.items l hmade hl)
  target d hmade := (htu.target d (hst.grow _ hmade)).trans (hst.target d hmade)

theorem same_objects (hlists : k.lists = h.lists) (hdicts : k.dicts = h.dicts)
    (hnatives : k.natives = h.natives) : Contained (h, S) (k, S) where
  sub := subset_rfl
  fresh _ := .inl
  grow r hr := by cases r <;> simpa only [Allocated, hlists, hdicts, hnatives] using hr
  made r hr := .inl (by cases r <;> simpa only [Allocated, hlists, hdicts, hnatives] using hr)
  cell _ _ _ := cell_congr hdicts
  items _ _ _ := items_congr hlists
  target _ _ := congrArg DictCell.target (cell_congr hdicts)

theorem modifyCell (hmade : h.Allocated (.dict d)) (hd : .dict d ∈ S) {f : DictCell → DictCell}
    (htarget : (f (h.cell d)).target = (h.cell d).target) :
    Contained (h, S) (h.modifyCell d f, S) where
  sub := subset_rfl
  fresh _ := .inl
  grow _ := (allocated_modifyCell d f).mpr
  made _ hr := .inl ((allocated_modifyCell d f).mp hr)
  cell e _ he := by
    rw [cell_modifyCell hmade, if_neg]
    rintro rfl
    exact he hd
  items _ _ _ := rfl
  target e _ := by
    rw [cell_modifyCell hmade]
    split
    · rename_i heq
      rw [htarget, heq]
    · rfl

/-- One object is new. -/
theorem of_new {o : Ref} (ho : ¬ h.Allocated o)
    (hmade : ∀ r, k.Allocated r ↔ r = o ∨ h.Allocated r)
    (hcell : ∀ d, h.Allocated (.dict d) → k.cell d = h.cell d)
    (hitems : ∀ l, h.Allocated (.list l) → k.items l = h.items l) :
    Contained (h, S) (k, insert o S) where
  sub := Set.subset_insert _ _
  fresh r hr := by
    cases hr with
    | inl heq => exact .inr (heq ▸ ho)
    | inr hr => exact .inl hr
  grow r hr := (hmade r).mpr (.inr hr)
  made r hr := ((hmade r).mp hr).symm.imp_right .inl
  cell d hd _ := hcell d hd
  items l hl _ := hitems l hl
  target d hd := congrArg DictCell.target (hcell d hd)

theorem newDict (c : DictCell) :
    Contained (h, S) ((h.newDict c).1, insert (.dict (h.newDict c).2) S) :=
  .of_new (Nat.lt_irrefl _) (fun _ => allocated_newDict c)
    (fun _ hd => cell_newDict_of_allocated c hd) fun _ _ => rfl

theorem newList (vs : List Value) :
    Contained (h, S) ((h.newList vs).1, insert (.list (h.newList vs).2) S) :=
  .of_new (Nat.lt_irrefl _) (fun _ => allocated_newList vs) (fun _ _ => rfl)
    fun _ hl => items_newList_of_allocated vs hl

theorem newNative (x : Native) :
    Contained (h, S) ((h.newNative x).1, insert (.native (h.newNative x).2) S) :=
  .of_new (Nat.lt_irrefl _) (fun _ => allocated_newNative x) (fun _ _ => rfl) fun _ _ => rfl

theorem pushItem {l : ListId} (hmade : h.Allocated (.list l)) (hl : .list l ∈ S) (v : Value) :
    Contained (h, S) (h.pushItem l v, S) where
  sub := subset_rfl
  fresh _ := .inl
  grow _ := (allocated_pushItem l v).mpr
  made _ hr := .inl ((allocated_pushItem l v).mp hr)
  cell _ _ _ := rfl
  items m _ hm := by
    rw [items_pushItem hmade, if_neg]
    rintro rfl
    exact hm hl
  target _ _ := rfl

end Contained

theorem Edit.contained (he : Edit s s') (hS : s.1.Region s.2) : Contained s s' := by
  cases he with
  | newDict c => exact .newDict c
  | newList vs => exact .newList vs
  | newNative x => exact .newNative x
  | newBlock b => exact .same_objects rfl rfl rfl
  | pushItem l v hl => exact .pushItem (hS.allocated _ hl) hl v
  | put d n v hd => exact .modifyCell (hS.allocated _ (hS.owner hd)) (hS.owner hd) rfl
  | erase d n hd => exact .modifyCell (hS.allocated _ (hS.owner hd)) (hS.owner hd) rfl
  | link d p declared hd => exact .modifyCell (hS.allocated _ hd) hd rfl
  | setCaller d c hd => exact .modifyCell (hS.allocated _ hd) hd rfl
  | setName d n hd => exact .modifyCell (hS.allocated _ hd) hd rfl
  | setTag d t hd => exact .modifyCell (hS.allocated _ hd) hd rfl
  | hold roots pins => exact .same_objects rfl rfl rfl

theorem Edits.contained (he : Edits s s') (hS : s.1.Region s.2) : Contained s s' := by
  induction he with
  | refl => exact .refl _
  | tail hedits hstep ih => exact ih.trans (hstep.contained (Edits.region hedits hS))

/-! Operations as edits. -/

theorem edits_frame (hd : .dict d ∈ S) (he : .dict e ∈ S) (name : Option String) :
    Edits (h, S) ((h.frame d e name).1, insert (.dict (h.frame d e name).2) S) := by
  refine .single (.newDict _ rfl ?_ ?_ ?_ ?_)
  · rintro p ⟨⟩
    exact hd
  · rintro p ⟨⟩
    exact hd
  · rintro p ⟨⟩
    exact he
  · rintro t ⟨⟩

theorem edits_putAll (hd : .dict d ∈ S) {xs : List (String × Value)}
    (hxs : ∀ x ∈ xs, Key.of x.1 = .slot x.1 ∧ Has S x.2) : Edits (h, S) (h.putAll d xs, S) := by
  induction xs generalizing h with
  | nil => exact .refl
  | cons x xs ih =>
    obtain ⟨hn, hv⟩ := hxs x List.mem_cons_self
    exact .head (.put d x.1 x.2 hd hv hn) (ih fun y hy => hxs y (List.mem_cons_of_mem _ hy))

theorem edits_setParent (hd : .dict d ∈ S) {parent : Option DictId}
    (hp : ∀ p, parent = some p → .dict p ∈ S) : Edits (h, S) ((h.setParent d parent).2, S) := by
  unfold setParent
  split
  · exact .single (.link d none false hd (by simp))
  · rename_i p
    split
    · exact .refl
    · exact .single (.link d (some p) true hd hp)

theorem edits_define (name : String) (hd : .dict d ∈ S) (hv : Has S v) :
    Edits (h, S) ((h.define d name v).2, S) := by
  unfold define
  split
  · rename_i n hn
    exact .single (.put d n _ hd hv (Key.of_eq_slot hn))
  · refine edits_setParent hd ?_
    rintro p ⟨⟩
    exact has_dict.mp hv
  · exact edits_setParent hd (by simp)
  · refine .single (.setCaller d _ hd ?_)
    rintro c ⟨⟩
    exact has_dict.mp hv
  · exact .single (.setCaller d none hd (by simp))
  · exact .refl

theorem edits_defineAll (hd : .dict d ∈ S) {xs : List (String × Value)}
    (hxs : ∀ x ∈ xs, Has S x.2) : Edits (h, S) ((h.defineAll d xs).2, S) := by
  induction xs generalizing h with
  | nil => exact .refl
  | cons x xs ih =>
    obtain ⟨name, v⟩ := x
    have hone := edits_define (h := h) name hd (hxs _ List.mem_cons_self)
    rw [defineAll]
    split
    · rename_i hdefine
      rwa [hdefine] at hone
    · rename_i hdefine
      rw [hdefine] at hone
      exact hone.trans (ih fun y hy => hxs y (List.mem_cons_of_mem _ hy))

theorem edits_remove (name : String) (hd : .dict d ∈ S) :
    Edits (h, S) ((h.remove d name).1, S) := by
  unfold remove
  simp only
  split
  · exact .single (.link d none false hd (by simp))
  · exact .single (.setCaller d none hd (by simp))
  · exact .single (.erase d _ hd)

namespace Region
variable (hS : h.Region S)
include hS

theorem edits_view (hd : .dict d ∈ S) (hp : .dict p ∈ S) :
    Edits (h, S) ((h.view d p).1, insert (.dict (h.view d p).2) S) := by
  refine .single (.newDict _ rfl ?_ ?_ ?_ ?_)
  · rintro q ⟨⟩
    exact hp
  · rintro q ⟨⟩
    exact hp
  · rintro q ⟨⟩
  · rintro t ⟨⟩
    exact ⟨hS.owner hd, hS.tidy.target_owner d⟩

/-- The slots of a dictionary can be copied to another. -/
theorem edits_copy (hd : .dict d ∈ S) (ha : .dict args ∈ S) (keep : String × Value → Bool) :
    Edits (h, S) (h.putAll d ((h.slots args).filter keep), S) := by
  refine edits_putAll hd fun x hx => ?_
  have hmem := List.mem_of_mem_filter hx
  exact ⟨hS.tidy.ordinary _ x hmem, hS.has_slot ha hmem⟩

/-- What has nothing to do with a region leaves it a region. -/
theorem congr (htidy : k.Tidy) (hmade : ∀ r ∈ S, k.Allocated r)
    (hcell : ∀ d, .dict d ∈ S → k.cell d = h.cell d)
    (hitems : ∀ l, .list l ∈ S → k.items l = h.items l)
    (hnative : ∀ n, .native n ∈ S → k.native? n = h.native? n) : k.Region S where
  tidy := htidy
  allocated := hmade
  owned r hr o ho := by
    refine hS.owned r hr o ?_
    cases r with
    | dict d =>
      rw [Heap.owned, hcell d hr] at ho
      exact ho
    | list l =>
      rw [Heap.owned, hitems l hr] at ho
      exact ho
    | native n =>
      rw [Heap.owned, hnative n hr] at ho
      exact ho
  parent d p hd hp := hS.parent d p hd (hcell d hd ▸ hp)
  caller d c hd hc := hS.caller d c hd (hcell d hd ▸ hc)

end Region
end DictScript.Heap
