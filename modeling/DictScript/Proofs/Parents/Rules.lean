import DictScript.Proofs.Parents.Lawful

/-!
The rules of the machine, one by one: each works by operations on the heap and decides about living
objects.
-/
namespace DictScript
open Heap
variable {rt : Runtime} {root env d args frame literal dict scope : DictId} {depth : Nat}
variable {below : List (List Value)} {h k : Heap} {K L : Set Ref} {b : Block} {e v : Value}
variable {name param : String} {params names : List String} {kept es : List Value} {l : ListId}

/-! Application. -/

theorem sound_evalSymbol (hg : h.Good K) (henv : .dict env ∈ K) :
    Sound root below (h, K) (evalSymbol name env h) := by
  rw [evalSymbol]
  split
  · exact .ret (knows_dict (living_of_mem henv))
  · split
    · rename_i d hd
      exact .ret (hg.knows_get (hg.living_find (living_of_mem henv) hd) name)
    · exact .failIn env _

theorem knows_block_bound (hb : h.Knows K (.block b)) (hd : .dict d ∈ K) (n : Option String)
    (id : Nat) :
    h.Knows K (.block { b with id := id, name := n, receiver := some d }) := by
  cases b
  intro r hr
  simp only [Value.refs, blockRefs, Option.toList_some, List.map_cons, List.map_nil,
    List.mem_cons, List.mem_append, List.not_mem_nil, or_false] at hr
  obtain rfl | rfl | hr := hr
  · exact hb _ (by simp [Value.refs, blockRefs])
  · exact living_of_mem hd
  · exact hb _ (by simp [Value.refs, blockRefs, hr])

theorem sound_field (hg : h.Good K) (hdict : .dict dict ∈ K) :
    Sound root below (h, K) (field dict name env h) := by
  rw [field]
  split
  · exact .failIn env _
  · rename_i owner howner
    have hknows := hg.knows_get (hg.living_find (living_of_mem hdict) howner) name
    split
    · rename_i b hb
      rw [hb] at hknows
      have hnew := knows_block_bound hknows hdict (some name) h.blocks
      refine .after (leads_newBlock root { b with name := some name, receiver := some dict })
        subset_rfl ?_
      exact .ret hnew
    · exact .ret hknows

theorem Heap.Good.leads_lexicalScope (hg : h.Good K) (root : DictId) (henv : .dict env ∈ K)
    (hargs : .dict args ∈ K) (hb : Has K (.block b)) :
    ∃ L, K ⊆ L ∧ Leads root (h, K) ((lexicalScope env args b h).1, L) ∧
      .dict (lexicalScope env args b h).2 ∈ L := by
  have hknows := hg.knows_get (living_of_mem hargs) envName
  rw [lexicalScope]
  split
  · rename_i d hd
    rw [hd] at hknows
    have htake := hg.takeValue root hknows
    have hmem : Ref.dict d ∈ K ∪ {r | r ∈ (Value.dict d).refs} := .inr (List.mem_singleton_self _)
    split
    · exact ⟨_, Set.subset_union_left, htake, hmem⟩
    · refine ⟨_, ?_, htake.trans ((htake.good hg).leads_view root hmem (.inl henv)), .inl rfl⟩
      exact Set.subset_union_left.trans (Set.subset_insert _ _)
  · exact ⟨K, subset_rfl, .refl _, has_env hb⟩

theorem sound_body (hes : ∀ e ∈ es, h.Knows K e) (henv : .dict env ∈ K) {fs : List Frame}
    (hfs : ∀ f ∈ fs, ∀ v ∈ f.held, h.Knows K v) (hstacked : Stacked root below fs) :
    Sound root below (h, K) (.body es env fs, h) := by
  cases es with
  | nil =>
    exact ⟨K, subset_rfl, .refl _, by simp [Move.body, Control.refs, Value.refs], hfs, hstacked,
      trivial⟩
  | cons e es =>
    refine ⟨K, subset_rfl, .refl _, hes e List.mem_cons_self, ?_, ⟨trivial, hstacked⟩, ?_⟩
    · intro f hf v hv
      cases List.mem_cons.mp hf with
      | inr hf => exact hfs f hf v hv
      | inl heq =>
        rw [heq] at hv
        simp only [Frame.held, List.mem_cons] at hv
        obtain rfl | rfl | hv := hv
        · exact knows_nil
        · exact knows_dict (living_of_mem henv)
        · exact hes v (List.mem_cons_of_mem _ hv)
    · exact mem_heldRefs.mpr (.inr ⟨_, List.mem_cons_self, .dict env, by simp [Frame.held],
        List.mem_singleton_self _⟩)

theorem sound_invoke (hg : h.Good K) (henv : .dict env ∈ K) (hargs : .dict args ∈ K)
    (hb : Has K (.block b)) (hkept : ∀ v ∈ kept, Has K v) :
    Sound root below (h, K) (invoke rt depth env args b kept h) := by
  obtain ⟨L₁, hL₁, hlex, hscope⟩ := hg.leads_lexicalScope root henv hargs hb
  unfold invoke
  generalize lexicalScope env args b h = x at hlex hscope ⊢
  obtain ⟨h₁, lexical⟩ := x
  simp only at hlex hscope ⊢
  have hframe := leads_frame (h := h₁) root hscope (hL₁ henv) b.name
  generalize h₁.frame lexical env b.name = x at hframe ⊢
  obtain ⟨h₂, frame⟩ := x
  simp only at hframe ⊢
  have hleads := hlex.trans hframe
  obtain ⟨L₂, hL₂, hcopy⟩ := (hleads.good hg).leads_copy root (Set.mem_insert _ _)
    (.inr (hL₁ hargs)) fun s => s.1 ≠ envName
  generalize h₂.putAll frame _ = h₃ at hcopy ⊢
  have hL : K ⊆ L₂ := fun r hr => hL₂ (.inr (hL₁ hr))
  have hmem : Ref.dict frame ∈ L₂ := hL₂ (Set.mem_insert _ _)
  have hrun : ∀ h₄, Leads root (h₃, L₂) (h₄, L₂) → Sound root below (h, K)
      (if rt.maxDepth ≤ depth then (.failIn h₄ frame (.exhausted rt.maxDepth), h₄)
      else (.body b.body frame [.application frame
        (.block b :: .dict args :: .dict lexical :: .dict frame :: kept)], h₄)) := by
    intro h₄ hself
    refine .after (hleads.trans (hcopy.trans hself)) hL ?_
    split
    · exact .failIn frame _
    · have hbody : ∀ e ∈ b.body, h₄.Knows L₂ e := fun e he => (has_body (hb.mono hL) he).knows
      refine sound_body hbody hmem ?_ (And.intro trivial trivial)
      intro f hf v hv
      obtain rfl := List.mem_singleton.mp hf
      simp only [Frame.held, List.mem_cons] at hv
      obtain rfl | rfl | rfl | rfl | rfl | hv := hv
      · exact knows_dict (living_of_mem hmem)
      · exact (hb.mono hL).knows
      · exact knows_dict (living_of_mem (hL hargs))
      · exact knows_dict (living_of_mem (hL₂ (.inr hscope)))
      · exact knows_dict (living_of_mem hmem)
      · exact ((hkept v hv).mono hL).knows
  cases hd : b.receiver with
  | none => exact hrun h₃ (.refl _)
  | some d =>
    exact hrun _ (leads_put root hmem (has_dict.mpr (hL (has_receiver hb hd))) (by decide))

theorem sound_collectRest {collected : ListId} (hg : h.Good K) (henv : .dict env ∈ K)
    (hb : Has K (.block b)) (hframe : .dict frame ∈ K) (hlist : .list collected ∈ K)
    (hes : ∀ e ∈ es, Has K e) :
    Sound root below (h, K) (collectRest rt depth env b frame param collected es h) := by
  cases es with
  | nil =>
    have hdef := leads_define (h := h) root param hframe (has_list.mpr hlist) (by simp)
    rw [collectRest]
    generalize h.define frame param (.list collected) = x at hdef ⊢
    obtain ⟨result, h₁⟩ := x
    refine .after hdef subset_rfl ?_
    cases result with
    | error e => exact .raise e
    | ok _ => exact sound_invoke (hdef.good hg) henv hframe hb (by simp)
  | cons e es =>
    refine .eval (hes e List.mem_cons_self).knows ?_ List.mem_cons_self trivial
    intro v hv
    simp only [Frame.held, List.mem_cons] at hv
    obtain rfl | rfl | rfl | rfl | hv := hv
    · exact has_dict.mpr henv
    · exact hb
    · exact has_dict.mpr hframe
    · exact has_list.mpr hlist
    · exact hes v (List.mem_cons_of_mem _ hv)

theorem sound_bindArgs (hg : h.Good K) (henv : .dict env ∈ K) (hb : Has K (.block b))
    (hframe : .dict frame ∈ K) (hes : ∀ e ∈ es, Has K e) :
    Sound root below (h, K) (bindArgs rt depth env b frame params es h) := by
  cases params with
  | nil => exact sound_invoke hg henv hframe hb (by simp)
  | cons p params =>
    unfold bindArgs
    simp only
    split
    · have hnew := leads_newList (h := h) (K := K) root [] (by simp)
      refine .after hnew (Set.subset_insert _ _) ?_
      exact sound_collectRest (hnew.good hg) (.inr henv) (hb.mono (Set.subset_insert _ _))
        (.inr hframe) (.inl rfl) fun e he => (hes e he).mono (Set.subset_insert _ _)
    · cases es with
      | nil => exact sound_invoke hg henv hframe hb (by simp)
      | cons e es =>
        refine .eval (hes e List.mem_cons_self).knows ?_ List.mem_cons_self trivial
        intro v hv
        simp only [Frame.held, List.mem_cons] at hv
        obtain rfl | rfl | rfl | hv := hv
        · exact has_dict.mpr henv
        · exact hb
        · exact has_dict.mpr hframe
        · exact hes v (List.mem_cons_of_mem _ hv)

theorem sound_callBlock (hg : h.Good K) (henv : .dict env ∈ K) (hb : Has K (.block b))
    (hes : ∀ e ∈ es, Has K e) :
    Sound root below (h, K) (callBlock rt depth env b es h) := by
  rw [callBlock]
  split
  · exact .failIn env _
  · have hnew := leads_frame (h := h) root henv henv b.name
    refine .after hnew (Set.subset_insert _ _) ?_
    exact sound_bindArgs (hnew.good hg) (.inr henv) (hb.mono (Set.subset_insert _ _)) (.inl rfl)
      fun e he => (hes e he).mono (Set.subset_insert _ _)

theorem sound_applyWithin (hg : h.Good K) (henv : .dict env ∈ K) (hdict : .dict dict ∈ K)
    (he : Has K e) : Sound root below (h, K) (applyWithin env dict e h) := by
  have hrun : ∀ h₁ L scope, Leads root (h, K) (h₁, L) → K ⊆ L → .dict scope ∈ L →
      Sound root below (h, K) (.eval e scope [.within env dict scope], h₁) := by
    intro h₁ L scope hleads hL hscope
    refine .after hleads hL (.eval (he.mono hL).knows ?_ (by simp [Frame.held]) trivial)
    intro v hv
    simp only [Frame.held, List.mem_cons, List.not_mem_nil, or_false] at hv
    obtain rfl | rfl | rfl := hv
    · exact has_dict.mpr (hL henv)
    · exact has_dict.mpr (hL hdict)
    · exact has_dict.mpr hscope
  rw [applyWithin]
  by_cases hparent : (h.parent dict).isSome
  · rw [if_pos hparent]
    exact hrun h K dict (.refl _) subset_rfl hdict
  · rw [if_neg hparent]
    exact hrun _ _ _ (hg.leads_view root hdict henv) (Set.subset_insert _ _) (.inl rfl)

theorem sound_finishWithin (hg : h.Good K) (henv : .dict env ∈ K) (hdict : .dict dict ∈ K)
    (hscope : .dict scope ∈ K) (hv : Has K v) :
    Sound root below (h, K) (finishWithin rt depth env dict scope v h) := by
  unfold finishWithin
  split
  · exact sound_field hg hdict
  · refine sound_invoke hg henv hdict hv fun w hw => ?_
    rw [List.mem_singleton.mp hw]
    exact has_dict.mpr hscope
  · exact .ret hv.knows

theorem knows_itemAt (hl : .list l ∈ K) (x : Float) : h.Knows K (itemAt h l x) := by
  rw [itemAt]
  split
  · split
    · rename_i i _
      cases hi : (h.items l)[i]? with
      | none => exact knows_nil
      | some v => exact knows_items (living_of_mem hl) (List.mem_of_getElem? hi)
    · exact knows_nil
  · exact knows_nil

theorem sound_indexList (hl : .list l ∈ K) :
    Sound root below (h, K) (indexList l v env h) := by
  unfold indexList
  split
  · exact .ret (knows_itemAt hl _)
  · split
    · exact .ret (knows_itemAt hl _)
    · exact .failIn env _
  · exact .failIn env _

theorem sound_applyValue (hg : h.Good K) (henv : .dict env ∈ K) (hv : Has K v)
    (hes : ∀ e ∈ es, Has K e) :
    Sound root below (h, K) (applyValue rt depth v es env h) := by
  unfold applyValue
  split
  · exact sound_callBlock hg henv hv hes
  · exact sound_applyWithin hg henv (has_dict.mp hv) (hes _ List.mem_cons_self)
  · refine .eval (hes _ List.mem_cons_self).knows ?_ (by simp [Frame.held]) trivial
    intro w hw
    simp only [Frame.held, List.mem_cons, List.not_mem_nil, or_false] at hw
    obtain rfl | rfl := hw
    · exact hv
    · exact has_dict.mpr henv
  · exact .ret hv.knows
  · exact .failIn env _

/-! Special forms. -/

theorem sound_assignAll {xs : List (String × Value)} (hg : h.Good K) (henv : .dict env ∈ K)
    (hxs : ∀ x ∈ xs, Key.of x.1 = .slot x.1 ∧ Has K x.2) :
    Sound root below (h, K) (assignAll env xs h) := by
  induction xs generalizing h K with
  | nil => exact .ret knows_nil
  | cons x xs ih =>
    obtain ⟨name, v⟩ := x
    obtain ⟨hn, hv⟩ := hxs _ List.mem_cons_self
    rw [assignAll]
    split
    · exact .failIn env _
    · rename_i d hd
      have htake := hg.takeValue root (knows_dict (hg.living_find (living_of_mem henv) hd))
      have hmem : Ref.dict d ∈ K ∪ {r | r ∈ (Value.dict d).refs} :=
        .inr (List.mem_singleton_self _)
      have hput := leads_put (h := h) root hmem (hv.mono Set.subset_union_left) hn
      refine .after (htake.trans hput) Set.subset_union_left
        (ih ((htake.trans hput).good hg) (.inl henv) fun y hy => ?_)
      have hy := hxs y (List.mem_cons_of_mem _ hy)
      exact ⟨hy.1, hy.2.mono Set.subset_union_left⟩

theorem sound_finish {op : Operation} {vs : List Value} (hg : h.Good K) (henv : .dict env ∈ K)
    (hvs : ∀ v ∈ vs, Has K v) (htight : vs ≠ [] → ∀ r ∈ K, h.Living h.heldRefs r) :
    Sound root below (h, K) (op.finish env vs h) := by
  have hfilter : ∀ d bindings, h.putAll d (h.slots bindings) =
      h.putAll d ((h.slots bindings).filter fun _ => true) := by simp
  unfold Operation.finish
  split
  · rename_i bindings
    rw [hfilter]
    obtain ⟨L, hL, hcopy⟩ := hg.leads_copy root henv (has_dict.mp (hvs _ List.mem_cons_self))
      fun _ => true
    exact .after hcopy hL (.ret knows_nil)
  · rename_i target bindings
    rw [hfilter]
    obtain ⟨L, hL, hcopy⟩ := hg.leads_copy root (has_dict.mp (hvs (.dict target) (by simp)))
      (has_dict.mp (hvs (.dict bindings) (by simp))) fun _ => true
    exact .after hcopy hL (.ret knows_nil)
  · rename_i target name v
    have hv := hvs v (by simp)
    have hdef := leads_define (h := h) root name
      (has_dict.mp (hvs (.dict target) (by simp))) hv fun _ _ => htight (by simp)
    generalize h.define target name v = x at hdef ⊢
    obtain ⟨result, h₁⟩ := x
    refine .after hdef subset_rfl ?_
    cases result with
    | error e => exact .raise e
    | ok _ => exact .ret hv.knows
  · rename_i bindings
    have htake : Leads root (h, K) (h, K ∪ {r | ∃ x ∈ h.slots bindings, r ∈ x.2.refs}) := by
      refine hg.take ?_
      rintro r ⟨x, hx, hr⟩
      exact knows_of_mem_slots (living_of_mem (has_dict.mp (hvs _ List.mem_cons_self))) hx r hr
    refine .after htake Set.subset_union_left
      (sound_assignAll (htake.good hg) (.inl henv) fun x hx => ?_)
    exact ⟨hg.wellFormed.ordinary bindings x.1 (List.mem_map.mpr ⟨x, hx, rfl⟩),
      fun r hr => .inr ⟨x, hx, hr⟩⟩
  · exact .ret fun r hr => by simp [Value.refs] at hr
  · exact .ret fun r hr => by simp [Value.refs] at hr
  · exact .ret fun r hr => by simp [Value.refs] at hr
  · exact .ret knows_nil

theorem sound_evalOperands {op : Operation} {todo : List (Operand × Value)} {vs : List Value}
    (hg : h.Good K) (henv : .dict env ∈ K) (htodo : ∀ x ∈ todo, Has K x.2)
    (hvs : ∀ v ∈ vs, Has K v) (htight : vs ≠ [] → ∀ r ∈ K, h.Living h.heldRefs r) :
    Sound root below (h, K) (evalOperands op env todo vs h) := by
  cases todo with
  | nil => exact sound_finish hg henv hvs htight
  | cons x todo =>
    refine .eval (htodo x List.mem_cons_self).knows ?_ List.mem_cons_self trivial
    intro v hv
    simp only [Frame.held, List.mem_cons, List.mem_append, List.mem_map] at hv
    obtain rfl | hv | ⟨y, hy, rfl⟩ := hv
    · exact has_dict.mpr henv
    · exact hvs v hv
    · exact htodo y (List.mem_cons_of_mem _ hy)

theorem sound_evalOperation {op : Operation} (hg : h.Good K) (henv : .dict env ∈ K)
    (hes : ∀ e ∈ es, Has K e) :
    Sound root below (h, K) (evalOperation op es env h) := by
  rw [evalOperation]
  split
  · exact sound_evalOperands hg henv (fun x hx => hes _ (List.of_mem_zip hx).2) (by simp) (by simp)
  · exact .failIn env _

theorem sound_evalForm (form : Form) (hg : h.Good K) (henv : .dict env ∈ K)
    (hes : ∀ e ∈ es, Has K e) :
    Sound root below (h, K) (evalForm form es env h) := by
  cases form with
  | sequence => exact sound_body (fun e he => (hes e he).knows) henv (by simp) trivial
  | _ => exact sound_evalOperation hg henv hes

theorem mem_of_blockLiteral {items body : List Value}
    (hlit : blockLiteral? items = some (params, body)) (hv : v ∈ body) : v ∈ items := by
  rw [blockLiteral?] at hlit
  split at hlit
  · cases hlit
  · rename_i w rest hdrop
    obtain ⟨ps, -, heq⟩ := Option.map_eq_some_iff.mp hlit
    cases heq
    have hsub := (List.dropWhile_sublist fun v : Value => !decide (v.sym? = some blockBar)).mem
      (hdrop ▸ List.mem_cons_of_mem w hv)
    exact hsub

theorem sound_evalList (hg : h.Good K) (henv : .dict env ∈ K) (hl : h.Living K (.list l)) :
    Sound root below (h, K) (evalList l env h) := by
  have htake : Leads root (h, K) (h, K ∪ {r | r ∈ allRefs (h.items l)}) :=
    hg.take fun r hr => hl.owned hr
  refine .after htake Set.subset_union_left ?_
  have hg' := htake.good hg
  have hitems : ∀ v ∈ h.items l, Has (K ∪ {r | r ∈ allRefs (h.items l)}) v :=
    fun v hv r hr => .inr (mem_allRefs.mpr ⟨v, hv, hr⟩)
  have henv' : Ref.dict env ∈ K ∪ {r | r ∈ allRefs (h.items l)} := .inl henv
  generalize K ∪ {r | r ∈ allRefs (h.items l)} = L at hg' hitems henv'
  rw [evalList]
  split
  · exact .ret knows_nil
  · rename_i head args hl
    rw [hl] at hitems
    split
    · rename_i params body hlit
      let b : Block := ⟨0, none, params, body, env, none⟩
      refine .after (leads_newBlock root b) subset_rfl (.ret fun r hr => ?_)
      simp only [Value.refs, blockRefs, Option.toList_none, List.map_nil, List.nil_append,
        List.mem_cons] at hr
      cases hr with
      | inl heq => exact heq ▸ living_of_mem henv'
      | inr hr =>
        obtain ⟨v, hv, hr⟩ := mem_allRefs.mp hr
        exact living_of_mem (hitems v (mem_of_blockLiteral hlit hv) r hr)
    · split
      · exact sound_evalForm _ hg' henv' fun e he => hitems e (List.mem_cons_of_mem _ he)
      · refine .eval (hitems head List.mem_cons_self).knows ?_ List.mem_cons_self trivial
        intro v hv
        cases List.mem_cons.mp hv with
        | inl heq => exact heq ▸ has_dict.mpr henv'
        | inr hv => exact hitems v (List.mem_cons_of_mem _ hv)

/-! Dictionary literals. -/

theorem sound_evalEntries (hg : h.Good K) (hlit : .dict literal ∈ K) (hdict : .dict dict ∈ K)
    (hscope : .dict scope ∈ K) (hnames : ∀ n ∈ names, Key.of n = .slot n) :
    Sound root below (h, K) (evalEntries literal dict scope names h) := by
  cases names with
  | nil => exact .ret (knows_dict (living_of_mem hdict))
  | cons name names =>
    have hknows := hg.knows_get (living_of_mem hlit) name
    have htake := hg.takeValue root hknows
    refine .after htake Set.subset_union_left (.eval ?_ ?_ (by simp [Frame.held]) hnames)
    · exact fun r hr => living_of_mem (.inr hr)
    · intro v hv
      simp only [Frame.held, List.mem_cons, List.not_mem_nil, or_false] at hv
      obtain rfl | rfl | rfl | rfl := hv
      · exact has_dict.mpr (.inl hlit)
      · exact has_dict.mpr (.inl hdict)
      · exact has_dict.mpr (.inl hscope)
      · exact fun r hr => .inr hr

theorem leads_nameBlock (root : DictId) (name : String) (hv : Has K v) :
    Leads root (h, K) ((nameBlock name v h).1, K) ∧ Has K (nameBlock name v h).2 := by
  unfold nameBlock
  split
  · rename_i b
    split
    · refine ⟨leads_newBlock root { b with name := some name }, ?_⟩
      cases b
      exact hv
    · exact ⟨.refl _, hv⟩
  · exact ⟨.refl _, hv⟩

/-- Beside a new dictionary without links, parents are what they were. -/
theorem Heap.Good.allocated_inherited (hg : h.Good K) {a e : DictId}
    (hae : (h.newDict {}).1.Inherits a e) : h.Allocated (.dict e) := by
  have hraw := (Option.filter_eq_some_iff.mp hae).1
  rw [cell_newDict] at hraw
  split at hraw
  · cases hraw
  · exact hg.parents a e hraw

theorem Heap.Good.allocated_anchor (hg : h.Good K) (hd : h.Allocated (.dict d)) :
    h.Allocated (.dict ((h.newDict {}).1.anchor d)) := by
  obtain ⟨e, hpath, he⟩ := (h.newDict {}).1.anchorFrom_eq_or ((h.newDict {}).1.dicts.size + 1) d
  have hmade : h.Allocated (.dict e) := by
    cases Relation.ReflTransGen.cases_tail hpath with
    | inl heq => exact heq ▸ hd
    | inr hlast =>
      obtain ⟨a, -, hae⟩ := hlast
      exact hg.allocated_inherited hae
  have howner : (h.newDict {}).1.owner e = h.owner e := by
    rw [owner, owner, cell_newDict_of_allocated _ hmade]
  rw [anchor]
  cases he with
  | inl he => exact he ▸ hmade
  | inr he => exact he ▸ howner ▸ allocated_owner hg.wellFormed hmade

/-- The new dictionary is linked, and its entries are evaluated one by one. -/
theorem sound_linked {p : DictId} (declared : Bool) (hg : h.Good K) (henv : .dict env ∈ K)
    (hlit : .dict literal ∈ K)
    (hlive : (h.newDict {}).1.Living (insert (.dict (h.newDict {}).2) K) (.dict p))
    (hmade : h.Allocated (.dict p)) {h₁ : Heap}
    (hlinked : h₁ = (h.newDict {}).1.link (h.newDict {}).2 (some p) declared) :
    Sound root below (h, K) (evalEntries literal (h.newDict {}).2 (h₁.view (h.newDict {}).2 env).2
      ((h₁.view (h.newDict {}).2 env).1.names literal) (h₁.view (h.newDict {}).2 env).1) := by
  have hnew := leads_newDict (h := h) (K := K) (c := {}) root rfl (by simp) (by simp) (by simp)
    (by simp)
  have hnone : ∀ e, ((h.newDict {}).1.cell e).parent ≠ some (h.newDict {}).2 := by
    intro e heq
    rw [cell_newDict] at heq
    split at heq
    · cases heq
    · exact Nat.lt_irrefl _ (hg.parents e _ heq)
  have hne : (h.newDict {}).2 ≠ p := by
    rintro rfl
    exact Nat.lt_irrefl _ hmade
  generalize h.newDict {} = x at hnew hlive hnone hne hlinked ⊢
  obtain ⟨h₀, dict⟩ := x
  simp only at hnew hlive hnone hne hlinked ⊢
  have hmem : Ref.dict dict ∈ insert (.dict dict) K := Set.mem_insert _ _
  have hattach : Leads root (h₀, insert (.dict dict) K) (h₁, insert (.dict dict) K) :=
    .of_op (hlinked ▸ .attach dict p declared (living_of_mem hmem) hlive hne hnone)
      (hlinked ▸ rfl) (hlinked ▸ rfl)
  have hleads := hnew.trans hattach
  have hview := (hleads.good hg).leads_view root hmem (.inr henv)
  have hg' := (hleads.trans hview).good hg
  refine .after (hleads.trans hview) (fun r hr => .inr (.inr hr))
    (sound_evalEntries hg' ?_ ?_ ?_ ?_)
  · exact .inr (.inr hlit)
  · exact .inr hmem
  · exact .inl rfl
  · exact hg'.wellFormed.ordinary literal

theorem sound_evalLiteral (hg : h.Good K) (henv : .dict env ∈ K) (hlit : .dict literal ∈ K) :
    Sound root below (h, K) (evalLiteral literal env h) := by
  have hg₁ := hg.newDict (c := {}) rfl (by simp) (by simp) (by simp) (by simp)
  cases hdecl : (h.newDict {}).1.declaredParent literal with
  | some p =>
    have hp : (h.newDict {}).1.Inherits literal p := by
      rw [declaredParent] at hdecl
      split at hdecl
      · exact hdecl
      · cases hdecl
    refine sound_linked true hg henv hlit ?_ (hg.allocated_inherited hp) ?_
    · exact hg₁.living_parent (living_of_mem (.inr hlit)) hp
    · simp only [newDict] at hdecl ⊢
      rw [hdecl]
  | none =>
    refine sound_linked false hg henv hlit ?_ (hg.allocated_anchor (hg.known _ henv)) ?_
    · exact hg₁.living_anchor (living_of_mem (.inr henv))
    · simp only [newDict] at hdecl ⊢
      rw [hdecl]
      rfl

/-! What a host asks for. -/

theorem sound_begin (rt : Runtime) (below : List (List Value)) (depth : Nat) (request : Request)
    (hg : h.Good K) (hroot : .dict rt.root ∈ allRefs h.roots)
    (hheld : ∀ v ∈ request.held, Has K v) :
    Sound rt.root (request.held :: below) (h, K) (request.begin rt depth h) := by
  cases request with
  | evaluate expr env =>
    refine ⟨K, subset_rfl, .refl _, (hheld expr List.mem_cons_self).knows, List.forall_mem_nil _,
      trivial, ?_⟩
    show Ref.dict _ ∈ heldRefs _
    rw [mem_heldRefs]
    cases env with
    | none =>
      obtain ⟨v, hv, hr⟩ := mem_allRefs.mp hroot
      exact .inl ⟨v, hv, hr⟩
    | some env =>
      exact .inr ⟨_, List.mem_cons_self, .dict env, by simp [Request.held],
        List.mem_singleton_self _⟩
  | body exprs env =>
    have henv := has_dict.mp (hheld (.dict env) List.mem_cons_self)
    exact sound_body (fun e he => (hheld e (List.mem_cons_of_mem _ he)).knows) henv (by simp) trivial
  | apply env dict target =>
    refine sound_applyWithin hg (has_dict.mp (hheld (.dict env) ?_))
      (has_dict.mp (hheld (.dict dict) ?_)) (hheld target ?_) <;> simp [Request.held]
  | call env block args =>
    refine sound_callBlock hg (has_dict.mp (hheld (.dict env) ?_)) (hheld (.block block) ?_) ?_
    · simp [Request.held]
    · simp [Request.held]
    · intro e he
      obtain ⟨v, hv, rfl⟩ := List.mem_map.mp he
      exact fun r hr => hheld v (by simp [Request.held, hv]) r (by simpa [Value.refs] using hr)

theorem stacked_append {fs gs : List Frame} {base : List (List Value)}
    (hfs : Stacked root (gs.map Frame.held ++ base) fs) (hgs : Stacked root base gs) :
    Stacked root base (fs ++ gs) := by
  induction fs with
  | nil => exact hgs
  | cons f fs ih =>
    have hsame : (fs ++ gs).map Frame.held ++ base =
        fs.map Frame.held ++ (gs.map Frame.held ++ base) := by
      rw [List.map_append, List.append_assoc]
    exact ⟨hsame ▸ hfs.1, ih hfs.2⟩

/-- A lawful reply is carried out safely. -/
theorem safe_reply {reply : Reply} (hg : h.Good h.heldRefs)
    (hroot : .dict rt.root ∈ allRefs h.roots) (hlawful : reply.Lawful rt.root below h) :
    Safe rt.root below (h, h.heldRefs) (reply.move rt depth) := by
  cases hlawful with
  | @done _ k L result hlead hv =>
    cases result with
    | error e => exact .after hlead (Sound.raise e).safe
    | ok v => exact .after hlead (Sound.ret (hv v rfl)).safe
  | @log _ k L text hlead =>
    exact .after hlead ⟨L, .refl _, knows_nil (h := k), List.forall_mem_nil _, trivial, trivial⟩
  | @ask _ k L request resume hlead hheld hresume =>
    have hbegin := sound_begin rt below depth request (hlead.good hg)
      (hlead.root hroot) hheld
    obtain ⟨L', hL, hlead', hknown⟩ := hbegin
    refine .after hlead ⟨L', hlead', hknown.control, ?_, ?_, ?_⟩
    · intro f hf v hv
      cases List.mem_append.mp hf with
      | inl hf => exact hknown.frames f hf v hv
      | inr hf =>
        obtain rfl := List.mem_singleton.mp hf
        exact ((hheld v hv).mono hL).knows
    · exact stacked_append hknown.stacked ⟨hresume, trivial⟩
    · have hpins : (request.begin rt depth k).1.frames.map Frame.held ++ request.held :: below =
          ((request.begin rt depth k).1.frames ++ [Frame.host resume request.held]).map Frame.held ++
            below := by
        rw [List.map_append, List.append_assoc]
        rfl
      exact hpins ▸ hknown.inScope

end DictScript
