import DictScript.Proofs.Graph

/-!
Heaps that grow: what was there stays as it is, but for one object that is being filled.
-/
namespace DictScript.Heap
variable {a b c h : Heap} {x : Option Ref} {l m : ListId} {d e : DictId} {v : Value}

@[simp] theorem lists_hold (h : Heap) (v : Value) : (h.hold v).lists = h.lists := by
  unfold hold; split <;> rfl

@[simp] theorem dicts_hold (h : Heap) (v : Value) : (h.hold v).dicts = h.dicts := by
  unfold hold; split <;> rfl

@[simp] theorem lists_letGo (h : Heap) (d : DictId) : (h.letGo d).lists = h.lists := by
  unfold letGo; split <;> rfl

@[simp] theorem dicts_letGo (h : Heap) (d : DictId) : (h.letGo d).dicts = h.dicts := by
  unfold letGo; split <;> rfl

@[simp] theorem natives_hold (h : Heap) (v : Value) : (h.hold v).natives = h.natives := by
  unfold hold; split <;> rfl

@[simp] theorem natives_letGo (h : Heap) (d : DictId) : (h.letGo d).natives = h.natives := by
  unfold letGo; split <;> rfl

theorem items_congr (hl : b.lists = a.lists) : b.items l = a.items l := by rw [items, items, hl]

theorem cell_congr (hd : b.dicts = a.dicts) : b.cell d = a.cell d := by rw [cell, cell, hd]

theorem items_newList (h : Heap) (vs : List Value) :
    (h.newList vs).1.items l = if l.index = h.lists.size then vs else h.items l := by
  simp only [items, newList, Array.getD_eq_getD_getElem?, Array.getElem?_push]
  split <;> simp_all

theorem items_newList_self (h : Heap) (vs : List Value) :
    (h.newList vs).1.items (h.newList vs).2 = vs := by
  rw [items_newList]
  exact if_pos rfl

theorem items_newList_of_allocated (vs : List Value) (hl : h.Allocated (.list l)) :
    (h.newList vs).1.items l = h.items l := by
  rw [items_newList, if_neg (Nat.ne_of_lt hl)]

theorem cell_newDict (h : Heap) (c : DictCell) :
    (h.newDict c).1.cell d = if d.index = h.dicts.size then c else h.cell d := by
  simp only [cell, newDict, Array.getD_eq_getD_getElem?, Array.getElem?_push]
  split <;> simp_all

theorem cell_newDict_of_allocated (c : DictCell) (hd : h.Allocated (.dict d)) :
    (h.newDict c).1.cell d = h.cell d := by
  rw [cell_newDict, if_neg (Nat.ne_of_lt hd)]

theorem items_pushItem (hl : l.index < h.lists.size) :
    (h.pushItem l v).items m = if m = l then h.items l ++ [v] else h.items m := by
  simp only [items, pushItem, Array.getD_eq_getD_getElem?, Array.getElem?_modify]
  by_cases hm : m = l
  · subst hm
    simp [hl]
  · have : ¬ l.index = m.index := fun heq => hm (by cases l; cases m; simp_all)
    simp [hm, this]

theorem cell_modifyCell {f : DictCell → DictCell} (hd : d.index < h.dicts.size) :
    (h.modifyCell d f).cell e = if e = d then f (h.cell d) else h.cell e := by
  simp only [cell, modifyCell, Array.getD_eq_getD_getElem?, Array.getElem?_modify]
  by_cases he : e = d
  · subst he
    simp [hd]
  · have : ¬ d.index = e.index := fun heq => he (by cases d; cases e; simp_all)
    simp [he, this]

structure GrownBut (x : Option Ref) (a b : Heap) : Prop where
  lists : a.lists.size ≤ b.lists.size
  dicts : a.dicts.size ≤ b.dicts.size
  items : ∀ l : ListId, l.index < a.lists.size → x ≠ some (.list l) → b.items l = a.items l
  cell : ∀ d : DictId, d.index < a.dicts.size → x ≠ some (.dict d) → b.cell d = a.cell d

abbrev Grown : Heap → Heap → Prop := GrownBut none

theorem GrownBut.of_same (hl : b.lists = a.lists) (hd : b.dicts = a.dicts) : GrownBut x a b :=
  ⟨by rw [hl], by rw [hd], fun _ _ _ => items_congr hl, fun _ _ _ => cell_congr hd⟩

theorem GrownBut.trans (hab : GrownBut x a b) (hbc : GrownBut x b c) : GrownBut x a c where
  lists := hab.lists.trans hbc.lists
  dicts := hab.dicts.trans hbc.dicts
  items l hl hx := (hbc.items l (hl.trans_le hab.lists) hx).trans (hab.items l hl hx)
  cell d hd hx := (hbc.cell d (hd.trans_le hab.dicts) hx).trans (hab.cell d hd hx)

theorem GrownBut.but (hab : Grown a b) : GrownBut x a b :=
  ⟨hab.lists, hab.dicts, fun l hl _ => hab.items l hl (by simp),
    fun d hd _ => hab.cell d hd (by simp)⟩

/-- An object that was not there yet makes no exception. -/
theorem GrownBut.of_newer {r : Ref} (hr : ¬ a.Allocated r) (hab : Grown a b)
    (hbc : GrownBut (some r) b c) : Grown a c where
  lists := hab.lists.trans hbc.lists
  dicts := hab.dicts.trans hbc.dicts
  items l hl _ := by
    have hne : some r ≠ some (.list l) := by rintro heq; cases heq; exact hr hl
    rw [hbc.items l (hl.trans_le hab.lists) hne, hab.items l hl (by simp)]
  cell d hd _ := by
    have hne : some r ≠ some (.dict d) := by rintro heq; cases heq; exact hr hd
    rw [hbc.cell d (hd.trans_le hab.dicts) hne, hab.cell d hd (by simp)]

theorem grown_newList (h : Heap) (vs : List Value) : Grown h (h.newList vs).1 where
  lists := by simp [newList]
  dicts := le_refl _
  items _ hl _ := items_newList_of_allocated vs hl
  cell _ _ _ := rfl

theorem grown_newDict (h : Heap) (c : DictCell) : Grown h (h.newDict c).1 where
  lists := le_refl _
  dicts := by simp [newDict]
  items _ _ _ := rfl
  cell _ hd _ := cell_newDict_of_allocated c hd

theorem grownBut_pushItem (hl : l.index < h.lists.size) :
    GrownBut (some (.list l)) h (h.pushItem l v) where
  lists := by simp [pushItem]
  dicts := le_refl _
  items m hm hne := by
    rw [items_pushItem hl, if_neg]
    rintro rfl
    exact hne rfl
  cell _ _ _ := rfl

theorem grownBut_modifyCell {f : DictCell → DictCell} (hd : d.index < h.dicts.size) :
    GrownBut (some (.dict d)) h (h.modifyCell d f) where
  lists := le_refl _
  dicts := by simp [modifyCell]
  items _ _ _ := rfl
  cell e he hne := by
    rw [cell_modifyCell hd, if_neg]
    rintro rfl
    exact hne rfl

structure WidenedBut (x : Option Ref) (a b : Heap) : Prop extends GrownBut x a b where
  natives : a.natives.toList <+: b.natives.toList

abbrev Widened : Heap → Heap → Prop := WidenedBut none

theorem GrownBut.widened (hab : GrownBut x a b) (hn : b.natives = a.natives) : WidenedBut x a b :=
  ⟨hab, hn ▸ List.prefix_rfl⟩

theorem WidenedBut.of_same (hl : b.lists = a.lists) (hd : b.dicts = a.dicts)
    (hn : a.natives.toList <+: b.natives.toList) : WidenedBut x a b :=
  ⟨.of_same hl hd, hn⟩

theorem WidenedBut.trans (hab : WidenedBut x a b) (hbc : WidenedBut x b c) : WidenedBut x a c :=
  ⟨hab.toGrownBut.trans hbc.toGrownBut, hab.natives.trans hbc.natives⟩

theorem WidenedBut.but (hab : Widened a b) : WidenedBut x a b :=
  ⟨hab.toGrownBut.but, hab.natives⟩

theorem WidenedBut.of_newer {r : Ref} (hr : ¬ a.Allocated r) (hab : Widened a b)
    (hbc : WidenedBut (some r) b c) : Widened a c :=
  ⟨.of_newer hr hab.toGrownBut hbc.toGrownBut, hab.natives.trans hbc.natives⟩

theorem WidenedBut.natives_size (hab : WidenedBut x a b) : a.natives.size ≤ b.natives.size := by
  simpa using hab.natives.length_le

theorem native?_mono {n : NativeId} {o : Native}
    (hab : a.natives.toList <+: b.natives.toList) (ho : a.native? n = some o) :
    b.native? n = some o := by
  rw [native?, ← Array.getElem?_toList] at ho ⊢
  obtain ⟨more, hmore⟩ := hab
  rw [← hmore, List.getElem?_append_left (List.getElem?_eq_some_iff.mp ho).1, ho]

structure Settled (a b h : Heap) : Prop where
  items : ∀ l : ListId, a.lists.size ≤ l.index → l.index < b.lists.size → h.items l = b.items l
  cell : ∀ d : DictId, a.dicts.size ≤ d.index → d.index < b.dicts.size → h.cell d = b.cell d
  natives : b.natives.toList <+: h.natives.toList

theorem Settled.self (a b : Heap) : Settled a b b :=
  ⟨fun _ _ _ => rfl, fun _ _ _ => rfl, List.prefix_rfl⟩

theorem Settled.first (hx : ∀ r, x = some r → a.Allocated r ∨ ¬ b.Allocated r)
    (hbc : WidenedBut x b c) (hs : Settled a c h) : Settled a b h where
  items l hl hl' := by
    have hne : x ≠ some (.list l) := fun heq =>
      (hx _ heq).elim (fun ha => absurd ha (Nat.not_lt.mpr hl)) fun hb => hb hl'
    rw [hs.items l hl (hl'.trans_le hbc.lists), hbc.items l hl' hne]
  cell d hd hd' := by
    have hne : x ≠ some (.dict d) := fun heq =>
      (hx _ heq).elim (fun ha => absurd ha (Nat.not_lt.mpr hd)) fun hb => hb hd'
    rw [hs.cell d hd (hd'.trans_le hbc.dicts), hbc.cell d hd' hne]
  natives := hbc.natives.trans hs.natives

theorem Settled.before (hbc : Widened b c) (hs : Settled a c h) : Settled a b h :=
  hs.first (fun _ hr => by cases hr) hbc

theorem Settled.last (hab : WidenedBut x a b) (hs : Settled a c h) : Settled b c h :=
  ⟨fun l hb hc => hs.items l (hab.lists.trans hb) hc,
    fun d hb hc => hs.cell d (hab.dicts.trans hb) hc, hs.natives⟩

end DictScript.Heap
