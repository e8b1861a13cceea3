import DictScript.Proofs.Parents.Rules
import DictScript.Proofs.Regions.Tame

/-!
The rules of the machine, one by one: each stays in the region that holds what it is about.
-/
namespace DictScript
open Heap
variable {rt : Runtime} {env d args frame literal dict scope : DictId} {depth : Nat}
variable {h k : Heap} {S T : Set Ref} {b : Block} {e v : Value} {l : ListId}
variable {name param : String} {params names : List String} {kept es : List Value}

/-! Application. -/

theorem stays_evalSymbol (hS : h.Region S) (henv : .dict env ∈ S) :
    Stays (h, S) (evalSymbol name env h) := by
  rw [evalSymbol]
  split
  · exact .ret (has_dict.mpr henv)
  · split
    · rename_i d hd
      exact .ret (hS.has_get (hS.find henv hd) name)
    · exact .failIn env _

theorem has_bound_block (hb : Has S (.block b)) (hd : .dict d ∈ S) (n : Option String) (id : Nat) :
    Has S (.block { b with id := id, name := n, receiver := some d }) := by
  cases b
  intro r hr
  simp only [Value.refs, blockRefs, Option.toList_some, List.map_cons, List.map_nil,
    List.mem_cons, List.mem_append, List.not_mem_nil, or_false] at hr
  obtain rfl | rfl | hr := hr
  · exact hb _ (by simp [Value.refs, blockRefs])
  · exact hd
  · exact hb _ (by simp [Value.refs, blockRefs, hr])

theorem stays_field (hS : h.Region S) (hdict : .dict dict ∈ S) :
    Stays (h, S) (field dict name env h) := by
  rw [field]
  split
  · exact .failIn env _
  · rename_i owner howner
    have hget := hS.has_get (hS.find hdict howner) name
    split
    · rename_i b hb
      rw [hb] at hget
      refine .after (.single (.newBlock { b with name := some name, receiver := some dict })) ?_
      exact .ret (has_bound_block hget hdict (some name) h.blocks)
    · exact .ret hget

theorem edits_lexicalScope (hS : h.Region S) (henv : .dict env ∈ S) (hargs : .dict args ∈ S)
    (hb : Has S (.block b)) :
    ∃ T, Edits (h, S) ((lexicalScope env args b h).1, T) ∧
      .dict (lexicalScope env args b h).2 ∈ T := by
  have hget := hS.has_get hargs envName
  rw [lexicalScope]
  split
  · rename_i d hd
    rw [hd] at hget
    split
    · exact ⟨S, .refl, has_dict.mp hget⟩
    · exact ⟨_, hS.edits_view (has_dict.mp hget) henv, .inl rfl⟩
  · exact ⟨S, .refl, has_env hb⟩

theorem stays_invoke (hS : h.Region S) (henv : .dict env ∈ S) (hargs : .dict args ∈ S)
    (hb : Has S (.block b)) (hkept : ∀ v ∈ kept, Has S v) :
    Stays (h, S) (invoke rt depth env args b kept h) := by
  obtain ⟨T, hlex, hscope⟩ := edits_lexicalScope hS henv hargs hb
  unfold invoke
  generalize lexicalScope env args b h = x at hlex hscope ⊢
  obtain ⟨h₁, lexical⟩ := x
  simp only at hlex hscope ⊢
  have hframe := edits_frame (h := h₁) hscope (hlex.sub henv) b.name
  generalize h₁.frame lexical env b.name = x at hframe ⊢
  obtain ⟨h₂, frame⟩ := x
  simp only at hframe ⊢
  have hedits := hlex.trans hframe
  have hmem : Ref.dict frame ∈ insert (Ref.dict frame) T := Set.mem_insert _ _
  have hcopy := (hedits.region hS).edits_copy hmem (hedits.sub hargs) fun s => s.1 ≠ envName
  generalize h₂.putAll frame _ = h₃ at hcopy ⊢
  have hrun : ∀ h₄, Edits (h₃, insert (.dict frame) T) (h₄, insert (.dict frame) T) → Stays (h, S)
      (if rt.maxDepth ≤ depth then (.failIn h₄ frame (.exhausted rt.maxDepth), h₄)
      else (.body b.body frame [.application frame
        (.block b :: .dict args :: .dict lexical :: .dict frame :: kept)], h₄)) := by
    intro h₄ hself
    refine .after (hedits.trans (hcopy.trans hself)) ?_
    split
    · exact .failIn frame _
    · refine .body (fun e he => (has_body hb he).mono hedits.sub) hmem ?_
      refine List.forall_mem_singleton.mpr ⟨fun v hv => ?_, trivial⟩
      simp only [Frame.held, List.mem_cons] at hv
      obtain rfl | rfl | rfl | rfl | rfl | hv := hv
      · exact has_dict.mpr hmem
      · exact hb.mono hedits.sub
      · exact has_dict.mpr (hedits.sub hargs)
      · exact has_dict.mpr (.inr hscope)
      · exact has_dict.mpr hmem
      · exact (hkept v hv).mono hedits.sub
  cases hd : b.receiver with
  | none => exact hrun h₃ .refl
  | some d =>
    have hreceiver : Has (insert (.dict frame) T) (.dict d) :=
      has_dict.mpr (hedits.sub (has_receiver hb hd))
    exact hrun _ (.single (.put frame "self" (.dict d) hmem hreceiver (by decide)))

theorem stays_collectRest {collected : ListId} (hS : h.Region S) (henv : .dict env ∈ S)
    (hb : Has S (.block b)) (hframe : .dict frame ∈ S) (hlist : .list collected ∈ S)
    (hes : ∀ e ∈ es, Has S e) :
    Stays (h, S) (collectRest rt depth env b frame param collected es h) := by
  cases es with
  | nil =>
    have hdefine := edits_define (h := h) param hframe (has_list.mpr hlist)
    rw [collectRest]
    generalize h.define frame param (.list collected) = x at hdefine ⊢
    obtain ⟨result, h₁⟩ := x
    refine .after hdefine ?_
    cases result with
    | error e => exact .raise e
    | ok _ => exact stays_invoke (hdefine.region hS) henv hframe hb (List.forall_mem_nil _)
  | cons e es =>
    refine .eval (hes e List.mem_cons_self) henv ⟨fun v hv => ?_, trivial⟩
    simp only [Frame.held, List.mem_cons] at hv
    obtain rfl | rfl | rfl | rfl | hv := hv
    · exact has_dict.mpr henv
    · exact hb
    · exact has_dict.mpr hframe
    · exact has_list.mpr hlist
    · exact hes v (List.mem_cons_of_mem _ hv)

theorem stays_bindArgs (hS : h.Region S) (henv : .dict env ∈ S) (hb : Has S (.block b))
    (hframe : .dict frame ∈ S) (hes : ∀ e ∈ es, Has S e) :
    Stays (h, S) (bindArgs rt depth env b frame params es h) := by
  cases params with
  | nil => exact stays_invoke hS henv hframe hb (List.forall_mem_nil _)
  | cons p params =>
    unfold bindArgs
    simp only
    split
    · have hnew : Edits (h, S) ((h.newList []).1, insert (.list (h.newList []).2) S) :=
        .single (.newList [] (List.forall_mem_nil _))
      exact .after hnew (stays_collectRest (hnew.region hS) (hnew.sub henv) (hb.mono hnew.sub)
        (hnew.sub hframe) (.inl rfl) fun e he => (hes e he).mono hnew.sub)
    · cases es with
      | nil => exact stays_invoke hS henv hframe hb (List.forall_mem_nil _)
      | cons e es =>
        refine .eval (hes e List.mem_cons_self) henv ⟨fun v hv => ?_, trivial⟩
        simp only [Frame.held, List.mem_cons] at hv
        obtain rfl | rfl | rfl | hv := hv
        · exact has_dict.mpr henv
        · exact hb
        · exact has_dict.mpr hframe
        · exact hes v (List.mem_cons_of_mem _ hv)

theorem stays_callBlock (hS : h.Region S) (henv : .dict env ∈ S) (hb : Has S (.block b))
    (hes : ∀ e ∈ es, Has S e) : Stays (h, S) (callBlock rt depth env b es h) := by
  rw [callBlock]
  split
  · exact .failIn env _
  · have hnew := edits_frame (h := h) henv henv b.name
    exact .after hnew (stays_bindArgs (hnew.region hS) (hnew.sub henv) (hb.mono hnew.sub)
      (.inl rfl) fun e he => (hes e he).mono hnew.sub)

theorem stays_applyWithin (hS : h.Region S) (henv : .dict env ∈ S) (hdict : .dict dict ∈ S)
    (he : Has S e) : Stays (h, S) (applyWithin env dict e h) := by
  have hrun : ∀ h₁ T scope, Edits (h, S) (h₁, T) → .dict scope ∈ T →
      Stays (h, S) (.eval e scope [.within env dict scope], h₁) := by
    intro h₁ T scope hedits hscope
    refine .after hedits (.eval (he.mono hedits.sub) hscope ⟨fun v hv => ?_, trivial⟩)
    simp only [Frame.held, List.mem_cons, List.not_mem_nil, or_false] at hv
    obtain rfl | rfl | rfl := hv
    · exact has_dict.mpr (hedits.sub henv)
    · exact has_dict.mpr (hedits.sub hdict)
    · exact has_dict.mpr hscope
  rw [applyWithin]
  by_cases hparent : (h.parent dict).isSome
  · rw [if_pos hparent]
    exact hrun h S dict .refl hdict
  · rw [if_neg hparent]
    exact hrun _ _ _ (hS.edits_view hdict henv) (.inl rfl)

theorem stays_finishWithin (hS : h.Region S) (henv : .dict env ∈ S) (hdict : .dict dict ∈ S)
    (hscope : .dict scope ∈ S) (hv : Has S v) :
    Stays (h, S) (finishWithin rt depth env dict scope v h) := by
  unfold finishWithin
  split
  · exact stays_field hS hdict
  · exact stays_invoke hS henv hdict hv (List.forall_mem_singleton.mpr (has_dict.mpr hscope))
  · exact .ret hv

theorem has_itemAt (hS : h.Region S) (hl : .list l ∈ S) (x : Float) : Has S (itemAt h l x) := by
  rw [itemAt]
  split
  · split
    · rename_i i _
      cases hi : (h.items l)[i]? with
      | none => exact has_of_refs rfl
      | some v => exact hS.has_item hl (List.mem_of_getElem? hi)
    · exact has_of_refs rfl
  · exact has_of_refs rfl

theorem stays_indexList (hS : h.Region S) (hl : .list l ∈ S) :
    Stays (h, S) (indexList l v env h) := by
  unfold indexList
  split
  · exact .ret (has_itemAt hS hl _)
  · split
    · exact .ret (has_itemAt hS hl _)
    · exact .failIn env _
  · exact .failIn env _

theorem stays_applyValue (hS : h.Region S) (henv : .dict env ∈ S) (hv : Has S v)
    (hes : ∀ e ∈ es, Has S e) : Stays (h, S) (applyValue rt depth v es env h) := by
  unfold applyValue
  split
  · exact stays_callBlock hS henv hv hes
  · exact stays_applyWithin hS henv (has_dict.mp hv) (hes _ List.mem_cons_self)
  · refine .eval (hes _ List.mem_cons_self) henv ⟨fun w hw => ?_, trivial⟩
    simp only [Frame.held, List.mem_cons, List.not_mem_nil, or_false] at hw
    obtain rfl | rfl := hw
    · exact hv
    · exact has_dict.mpr henv
  · exact .ret hv
  · exact .failIn env _

/-! Special forms. -/

theorem stays_assignAll {xs : List (String × Value)} (hS : h.Region S) (henv : .dict env ∈ S)
    (hxs : ∀ x ∈ xs, Key.of x.1 = .slot x.1 ∧ Has S x.2) :
    Stays (h, S) (assignAll env xs h) := by
  induction xs generalizing h with
  | nil => exact .ret (has_of_refs rfl)
  | cons x xs ih =>
    obtain ⟨name, v⟩ := x
    obtain ⟨hn, hv⟩ := hxs _ List.mem_cons_self
    rw [assignAll]
    split
    · exact .failIn env _
    · rename_i d hd
      have hput : Edits (h, S) (h.put d name v, S) :=
        .single (.put d name v (hS.find henv hd) hv hn)
      exact .after hput (ih (hput.region hS) fun y hy => hxs y (List.mem_cons_of_mem _ hy))

theorem Heap.Region.slots (hS : h.Region S) (hd : .dict d ∈ S) :
    ∀ x ∈ h.slots d, Key.of x.1 = .slot x.1 ∧ Has S x.2 :=
  fun x hx => ⟨hS.tidy.ordinary _ x hx, hS.has_slot hd hx⟩

theorem stays_finish {op : Operation} {vs : List Value} (hS : h.Region S) (henv : .dict env ∈ S)
    (hvs : ∀ v ∈ vs, Has S v) : Stays (h, S) (op.finish env vs h) := by
  unfold Operation.finish
  split
  · have hbindings := hS.slots (has_dict.mp (hvs _ List.mem_cons_self))
    exact .after (edits_putAll henv hbindings) (.ret (has_of_refs rfl))
  · rename_i target bindings
    have htarget := has_dict.mp (hvs (.dict target) (by simp))
    have hbindings := hS.slots (has_dict.mp (hvs (.dict bindings) (by simp)))
    exact .after (edits_putAll htarget hbindings) (.ret (has_of_refs rfl))
  · rename_i target name v
    have hv := hvs v (by simp)
    have hdefine := edits_define (h := h) name (has_dict.mp (hvs (.dict target) (by simp))) hv
    generalize h.define target name v = x at hdefine ⊢
    obtain ⟨result, h₁⟩ := x
    refine .after hdefine ?_
    cases result with
    | error e => exact .raise e
    | ok _ => exact .ret hv
  · exact stays_assignAll hS henv (hS.slots (has_dict.mp (hvs _ List.mem_cons_self)))
  · exact .ret (has_of_refs rfl)
  · exact .ret (has_of_refs rfl)
  · exact .ret (has_of_refs rfl)
  · exact .ret (has_of_refs rfl)

theorem stays_evalOperands {op : Operation} {todo : List (Operand × Value)} {vs : List Value}
    (hS : h.Region S) (henv : .dict env ∈ S) (htodo : ∀ x ∈ todo, Has S x.2)
    (hvs : ∀ v ∈ vs, Has S v) : Stays (h, S) (evalOperands op env todo vs h) := by
  cases todo with
  | nil => exact stays_finish hS henv hvs
  | cons x todo =>
    refine .eval (htodo x List.mem_cons_self) henv ⟨fun v hv => ?_, trivial⟩
    simp only [Frame.held, List.mem_cons, List.mem_append, List.mem_map] at hv
    obtain rfl | hv | ⟨y, hy, rfl⟩ := hv
    · exact has_dict.mpr henv
    · exact hvs v hv
    · exact htodo y (List.mem_cons_of_mem _ hy)

theorem stays_evalOperation {op : Operation} (hS : h.Region S) (henv : .dict env ∈ S)
    (hes : ∀ e ∈ es, Has S e) : Stays (h, S) (evalOperation op es env h) := by
  rw [evalOperation]
  split
  · exact stays_evalOperands hS henv (fun x hx => hes _ (List.of_mem_zip hx).2)
      (List.forall_mem_nil _)
  · exact .failIn env _

theorem stays_evalForm (form : Form) (hS : h.Region S) (henv : .dict env ∈ S)
    (hes : ∀ e ∈ es, Has S e) : Stays (h, S) (evalForm form es env h) := by
  cases form with
  | sequence => exact .body hes henv (List.forall_mem_nil _)
  | _ => exact stays_evalOperation hS henv hes

theorem stays_evalList (hS : h.Region S) (henv : .dict env ∈ S) (hl : .list l ∈ S) :
    Stays (h, S) (evalList l env h) := by
  have hitems : ∀ v ∈ h.items l, Has S v := fun v hv => hS.has_item hl hv
  rw [evalList]
  split
  · exact .ret (has_of_refs rfl)
  · rename_i head args heq
    rw [heq] at hitems
    split
    · rename_i params body hlit
      refine .after (.single (.newBlock ⟨0, none, params, body, env, none⟩)) (.ret fun r hr => ?_)
      simp only [Value.refs, blockRefs, Option.toList_none, List.map_nil, List.nil_append,
        List.mem_cons] at hr
      cases hr with
      | inl heq => exact heq ▸ henv
      | inr hr =>
        obtain ⟨v, hv, hr⟩ := mem_allRefs.mp hr
        exact hitems v (mem_of_blockLiteral hlit hv) r hr
    · split
      · exact stays_evalForm _ hS henv fun e he => hitems e (List.mem_cons_of_mem _ he)
      · refine .eval (hitems head List.mem_cons_self) henv ⟨fun v hv => ?_, trivial⟩
        cases List.mem_cons.mp hv with
        | inl heq => exact heq ▸ has_dict.mpr henv
        | inr hv => exact hitems v (List.mem_cons_of_mem _ hv)

/-! Dictionary literals. -/

theorem stays_evalEntries (hS : h.Region S) (hlit : .dict literal ∈ S) (hdict : .dict dict ∈ S)
    (hscope : .dict scope ∈ S) (hnames : ∀ n ∈ names, Key.of n = .slot n) :
    Stays (h, S) (evalEntries literal dict scope names h) := by
  cases names with
  | nil => exact .ret (has_dict.mpr hdict)
  | cons name names =>
    have hentry := hS.has_get hlit name
    refine .eval hentry hscope ⟨fun v hv => ?_, hnames⟩
    simp only [Frame.held, List.mem_cons, List.not_mem_nil, or_false] at hv
    obtain rfl | rfl | rfl | rfl := hv
    · exact has_dict.mpr hlit
    · exact has_dict.mpr hdict
    · exact has_dict.mpr hscope
    · exact hentry

theorem edits_nameBlock (name : String) (hv : Has S v) :
    Edits (h, S) ((nameBlock name v h).1, S) ∧ Has S (nameBlock name v h).2 := by
  unfold nameBlock
  split
  · rename_i b
    split
    · refine ⟨.single (.newBlock { b with name := some name }), ?_⟩
      cases b
      exact hv
    · exact ⟨.refl, hv⟩
  · exact ⟨.refl, hv⟩

/-- The new dictionary is linked, and its entries are evaluated one by one. -/
theorem stays_linked {p : DictId} (declared : Bool) (hS : h.Region S) (henv : .dict env ∈ S)
    (hlit : .dict literal ∈ S) (hdict : .dict dict ∈ S) (hp : .dict p ∈ S) {k : Heap}
    (hlinked : k = h.link dict (some p) declared) :
    Stays (h, S) (evalEntries literal dict (k.view dict env).2
      ((k.view dict env).1.names literal) (k.view dict env).1) := by
  have hlink : Edits (h, S) (k, S) := by
    rw [hlinked]
    refine .single (.link dict (some p) declared hdict ?_)
    rintro q ⟨⟩
    exact hp
  have hview := (hlink.region hS).edits_view hdict henv
  have hT := (hlink.trans hview).region hS
  exact .after (hlink.trans hview) (stays_evalEntries hT (hview.sub hlit) (hview.sub hdict)
    (.inl rfl) fun n hn => hT.tidy.names hn)

theorem stays_evalLiteral (hS : h.Region S) (henv : .dict env ∈ S) (hlit : .dict literal ∈ S) :
    Stays (h, S) (evalLiteral literal env h) := by
  have hnew : Edits (h, S) ((h.newDict {}).1, insert (.dict (h.newDict {}).2) S) :=
    .single (.newDict {} rfl (by simp) (by simp) (by simp) (by simp))
  refine .after hnew ?_
  have hT := hnew.region hS
  unfold evalLiteral
  generalize h.newDict {} = x at hnew hT ⊢
  obtain ⟨h₁, dict⟩ := x
  simp only at hnew hT ⊢
  have hdict : Ref.dict dict ∈ insert (Ref.dict dict) S := Set.mem_insert _ _
  cases hdecl : h₁.declaredParent literal with
  | some p =>
    have hp : h₁.Inherits literal p := by
      rw [declaredParent] at hdecl
      split at hdecl
      · exact hdecl
      · cases hdecl
    exact stays_linked true hT (hnew.sub henv) (hnew.sub hlit) hdict
      (hT.inherits (hnew.sub hlit) hp) rfl
  | none =>
    exact stays_linked false hT (hnew.sub henv) (hnew.sub hlit) hdict
      (hT.anchor (hnew.sub henv)) rfl

/-! What a host asks for. -/

theorem stays_begin (request : Request) (depth : Nat) (hS : h.Region S)
    (hroot : .dict rt.root ∈ S) (hheld : ∀ v ∈ request.held, Has S v) :
    Stays (h, S) (request.begin rt depth h) := by
  cases request with
  | evaluate expr env =>
    refine ⟨S, .refl, ⟨hheld expr List.mem_cons_self, ?_⟩, List.forall_mem_nil _⟩
    cases env with
    | none => exact hroot
    | some env => exact has_dict.mp (hheld (.dict env) (by simp [Request.held]))
  | body exprs env =>
    have henv := has_dict.mp (hheld (.dict env) List.mem_cons_self)
    exact .body (fun e he => hheld e (List.mem_cons_of_mem _ he)) henv (List.forall_mem_nil _)
  | apply env dict target =>
    refine stays_applyWithin hS (has_dict.mp (hheld (.dict env) ?_))
      (has_dict.mp (hheld (.dict dict) ?_)) (hheld target ?_) <;> simp [Request.held]
  | call env block args =>
    refine stays_callBlock hS (has_dict.mp (hheld (.dict env) ?_)) (hheld (.block block) ?_) ?_
    · simp [Request.held]
    · simp [Request.held]
    · intro e he
      obtain ⟨v, hv, rfl⟩ := List.mem_map.mp he
      exact fun r hr => hheld v (by simp [Request.held, hv]) r (by simpa [Value.refs] using hr)

/-- A tame reply is carried out in the region. -/
theorem stays_reply {reply : Reply} (depth : Nat) (hS : h.Region S) (hroot : .dict rt.root ∈ S)
    (htame : reply.Tame (h, S)) : Stays (h, S) (reply.move rt depth) := by
  cases htame with
  | @done _ k T result hedits hresult =>
    refine .after hedits ?_
    cases result with
    | error e => exact .raise e
    | ok v => exact .ret (hresult v (List.mem_singleton_self v))
  | log hedits => exact .after hedits ⟨_, .refl, has_of_refs rfl, List.forall_mem_nil _⟩
  | @ask _ k T request resume hedits hheld hresume =>
    obtain ⟨T', hbegin, hmove⟩ :=
      stays_begin request depth (hedits.region hS) (hedits.sub hroot) hheld
    refine .after hedits ⟨T', hbegin, hmove.control, fun f hf => ?_⟩
    cases List.mem_append.mp hf with
    | inl hf => exact hmove.frames f hf
    | inr hf =>
      obtain rfl := List.mem_singleton.mp hf
      exact ⟨fun v hv => (hheld v hv).mono hbegin.sub,
        fun s' result hlater => hresume s' result (hbegin.trans hlater)⟩

/-! Whole rules, but for the primitives. -/

theorem stays_resume {f : Frame} (depth : Nat) (hS : h.Region S) (hroot : .dict rt.root ∈ S)
    (hf : f.Tame (h, S)) (hv : Has S v) : Stays (h, S) (f.resume rt depth v h) := by
  obtain ⟨hheld, hresumes⟩ := hf
  cases f with
  | body rest env last =>
    cases rest with
    | nil => exact .ret hv
    | cons e es =>
      simp only [Frame.held, List.mem_cons] at hheld
      have henv := has_dict.mp (hheld (.dict env) (by simp))
      refine .eval (f := .body es env v) (hheld e (by simp)) henv ⟨fun w hw => ?_, trivial⟩
      simp only [Frame.held, List.mem_cons] at hw
      obtain rfl | rfl | hw := hw
      · exact hv
      · exact has_dict.mpr henv
      · exact hheld w (.inr (.inr (.inr hw)))
  | application frame kept => exact .ret hv
  | operator args env =>
    exact stays_applyValue hS (has_dict.mp (hheld _ List.mem_cons_self)) hv
      fun e he => hheld e (List.mem_cons_of_mem _ he)
  | argument env b frame param params args =>
    simp only [Frame.held, List.mem_cons] at hheld
    have hframe := has_dict.mp (hheld (.dict frame) (by simp))
    have hdefine := edits_define (h := h) param hframe hv
    unfold Frame.resume
    simp only
    generalize h.define frame param v = x at hdefine ⊢
    obtain ⟨result, h₁⟩ := x
    refine .after hdefine ?_
    cases result with
    | error e => exact .raise e
    | ok _ =>
      exact stays_bindArgs (hdefine.region hS) (has_dict.mp (hheld (.dict env) (by simp)))
        (hheld (.block b) (by simp)) hframe fun e he => hheld e (by simp [he])
  | remaining env b frame param collected args =>
    simp only [Frame.held, List.mem_cons] at hheld
    have hlist := has_list.mp (hheld (.list collected) (by simp))
    have hpush : Edits (h, S) (h.pushItem collected v, S) :=
      .single (.pushItem collected v hlist hv)
    exact .after hpush (stays_collectRest (hpush.region hS)
      (has_dict.mp (hheld (.dict env) (by simp))) (hheld (.block b) (by simp))
      (has_dict.mp (hheld (.dict frame) (by simp))) hlist fun e he => hheld e (by simp [he]))
  | within env dict scope =>
    simp only [Frame.held, List.mem_cons] at hheld
    exact stays_finishWithin hS (has_dict.mp (hheld (.dict env) (by simp)))
      (has_dict.mp (hheld (.dict dict) (by simp))) (has_dict.mp (hheld (.dict scope) (by simp))) hv
  | entry literal dict scope expr name names =>
    simp only [Frame.held, List.mem_cons] at hheld
    have hdict := has_dict.mp (hheld (.dict dict) (by simp))
    obtain ⟨hnamed, hv'⟩ := edits_nameBlock (h := h) name hv
    have hput := hnamed.tail (.put dict name _ hdict hv' (hresumes name List.mem_cons_self))
    exact .after hput (stays_evalEntries (Edits.region hput hS)
      (has_dict.mp (hheld (.dict literal) (by simp))) hdict
      (has_dict.mp (hheld (.dict scope) (by simp)))
      fun n hn => hresumes n (List.mem_cons_of_mem _ hn))
  | index l env => exact stays_indexList hS (has_list.mp (hheld _ List.mem_cons_self))
  | operand op env want todo done =>
    simp only [Frame.held, List.mem_cons, List.mem_append, List.mem_map] at hheld
    unfold Frame.resume
    simp only
    split
    · exact .failIn env _
    · refine stays_evalOperands hS (has_dict.mp (hheld _ (.inl rfl))) ?_ ?_
      · exact fun x hx => hheld x.2 (.inr (.inr ⟨x, hx, rfl⟩))
      · intro w hw
        cases List.mem_append.mp hw with
        | inl hw => exact hheld w (.inr (.inl hw))
        | inr hw => exact List.mem_singleton.mp hw ▸ hv
  | host resume kept =>
    refine stays_reply depth hS hroot (hresumes (h, S) (.ok v) .refl ?_)
    exact List.forall_mem_singleton.mpr hv

theorem stays_unwind {f : Frame} (depth : Nat) (e : RuntimeError) (hS : h.Region S)
    (hroot : .dict rt.root ∈ S) (hf : f.Tame (h, S)) :
    Stays (h, S) (f.unwind rt depth e h) := by
  unfold Frame.unwind
  split
  · exact .raise _
  · exact stays_reply depth hS hroot (hf.resumes (h, S) (.error e) .refl (List.forall_mem_nil _))
  · exact .raise _

end DictScript
