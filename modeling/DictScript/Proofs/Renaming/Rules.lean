import DictScript.Proofs.Renaming.Copies

/-!
The rules of the machine, one by one: under other numbers each decides the same.
-/
namespace DictScript
open Heap
variable {ws : List (List Value)} {h h' k k' : Heap} {env d e args frame literal dict scope : DictId}
variable {b : Block} {v : Value} {vs es : List Value} {l : ListId} {ρ : Renaming} {depth : Nat}
variable {name param : String} {params names : List String} {kept : List Value} {rt : Runtime}
variable {xs : List (String × Value)}

namespace Renaming.Heaps
variable (hh : ρ.Heaps ws h h')
include hh

/-! Application. -/

theorem evalSymbol (name : String) (env : DictId) :
    Move.Copies ρ ws (evalSymbol name env h) (evalSymbol name (ρ.map env) h') := by
  rw [DictScript.evalSymbol, DictScript.evalSymbol, hh.find]
  split
  · exact hh.ret (.dict env)
  · cases h.find env name with
    | some d =>
      simp only [Option.map_some, hh.get]
      exact hh.ret _
    | none =>
      simp only [Option.map_none, hh.unboundFrom]
      exact hh.failIn env _

theorem field (dict : DictId) (name : String) (env : DictId) :
    Move.Copies ρ ws (field dict name env h) (field (ρ.map dict) name (ρ.map env) h') := by
  rw [DictScript.field, DictScript.field, hh.find]
  cases h.find dict name with
  | none =>
    simp only [Option.map_none, hh.unboundFrom]
    exact hh.failIn env _
  | some owner =>
    simp only [Option.map_some, hh.get]
    cases h.get owner name with
    | block b =>
      let bound : Block := { b with name := some name, receiver := some dict }
      have hbound : bound.rename ρ.map =
          { b.rename ρ.map with name := some name, receiver := some (ρ.map dict) } := by
        cases b
        rfl
      have hvalue := hh.newBlock_value bound
      rw [hbound] at hvalue
      have hcopies := (hh.newBlock bound (bound.rename ρ.map)).heaps.ret (h.newBlock bound).2
      rw [← hvalue, hbound] at hcopies
      exact hcopies
    | _ => exact hh.ret _

theorem lexicalScope (henv : h.Allocated (.dict env)) (hargs : h.Allocated (.dict args))
    (hb : Has h.everything (.block b)) :
    (lexicalScope (ρ.map env) (ρ.map args) (b.rename ρ.map) h').2 =
        ρ.map (lexicalScope env args b h).2 ∧
      ρ.After ws h (lexicalScope env args b h).1
        (lexicalScope (ρ.map env) (ρ.map args) (b.rename ρ.map) h').1 ∧
      (lexicalScope env args b h).1.Allocated (.dict (lexicalScope env args b h).2) := by
  have hmade : (DictScript.lexicalScope env args b h).1.Allocated
      (.dict (DictScript.lexicalScope env args b h).2) := by
    obtain ⟨T, hedits, hmem⟩ := edits_lexicalScope hh.region henv hargs hb
    rw [everything_of_edits hedits hh.region] at hmem
    exact hmem
  refine and_assoc.mp ⟨?_, hmade⟩
  have hget := hh.region.has_get hargs envName
  have hsame := hh.get args envName
  rw [DictScript.lexicalScope, DictScript.lexicalScope]
  cases hv : h.get args envName with
  | dict d =>
    rw [hv] at hsame hget
    have hparent : (h'.parent (ρ.map d)).isSome = (h.parent d).isSome := by
      rw [hh.parent, Option.isSome_map]
    simp only [hsame, Value.rename, hparent]
    split
    · exact ⟨rfl, hh.here⟩
    · exact hh.view (has_dict.mp hget) henv
  | _ =>
    rw [hv] at hsame
    simp only [hsame, Value.rename]
    exact ⟨env_rename ρ.map b, hh.here⟩

theorem invoke (rt : Runtime) (depth : Nat) (henv : h.Allocated (.dict env))
    (hargs : h.Allocated (.dict args)) (hb : Has h.everything (.block b)) (kept : List Value) :
    Move.Copies ρ ws (invoke rt depth env args b kept h)
      (invoke rt depth (ρ.map env) (ρ.map args) (b.rename ρ.map) (renameAll ρ.map kept) h') := by
  obtain ⟨hlexical, hafter, hscope⟩ := hh.lexicalScope henv hargs hb
  unfold DictScript.invoke
  generalize DictScript.lexicalScope env args b h = x at hlexical hafter hscope ⊢
  generalize DictScript.lexicalScope (ρ.map env) (ρ.map args) (b.rename ρ.map) h' = x'
    at hlexical hafter ⊢
  obtain ⟨h₁, lexical⟩ := x
  obtain ⟨h₁', lexical'⟩ := x'
  simp only at hlexical hafter hscope ⊢
  subst hlexical
  obtain ⟨hh₁, hbecomes₁⟩ := hafter
  have hframe := hh₁.frame hscope (hbecomes₁.allocated henv) b.name
  have hnew : (h₁.frame lexical env b.name).1.Allocated
      (.dict (h₁.frame lexical env b.name).2) := (allocated_newDict _).mpr (.inl rfl)
  simp only [name_rename]
  generalize h₁.frame lexical env b.name = x at hframe hnew ⊢
  generalize h₁'.frame (ρ.map lexical) (ρ.map env) b.name = x' at hframe ⊢
  obtain ⟨h₂, frame⟩ := x
  obtain ⟨h₂', frame'⟩ := x'
  simp only at hframe hnew ⊢
  obtain ⟨rfl, hh₂, hbecomes₂⟩ := hframe
  have hbecomes := hbecomes₁.trans hbecomes₂
  have hslots : (h₂'.slots (ρ.map args)).filter (fun s => s.1 ≠ envName) =
      renameSlots ρ.map ((h₂.slots args).filter fun s => s.1 ≠ envName) := by
    rw [hh₂.slots]
    exact filter_renameSlots ρ.map (fun n => decide (n ≠ envName)) _
  have hput := hh₂.putAll hnew fun s (hs : s ∈ (h₂.slots args).filter fun s => s.1 ≠ envName) =>
    hh₂.slots_fit (hbecomes.allocated hargs) s (List.mem_of_mem_filter hs)
  rw [hslots]
  generalize h₂.putAll frame _ = h₃ at hput ⊢
  generalize h₂'.putAll (ρ.map frame) _ = h₃' at hput ⊢
  obtain ⟨hh₃, hbecomes₃⟩ := hput
  have hrun : ∀ h₄ h₄', ρ.Heaps ws h₄ h₄' → Move.Copies ρ ws
      (if rt.maxDepth ≤ depth then (Move.failIn h₄ frame (.exhausted rt.maxDepth), h₄)
      else (Move.body b.body frame [.application frame
        (.block b :: .dict args :: .dict lexical :: .dict frame :: kept)], h₄))
      (if rt.maxDepth ≤ depth then (Move.failIn h₄' (ρ.map frame) (.exhausted rt.maxDepth), h₄')
      else (Move.body (b.rename ρ.map).body (ρ.map frame) [.application (ρ.map frame)
        (.block (b.rename ρ.map) :: .dict (ρ.map args) :: .dict (ρ.map lexical) ::
          .dict (ρ.map frame) :: renameAll ρ.map kept)], h₄')) := by
    intro h₄ h₄' hh₄
    split
    · exact hh₄.failIn frame _
    · rw [body_rename]
      exact hh₄.body b.body frame (.cons rfl .nil)
  cases hreceiver : b.receiver with
  | none =>
    simp only [receiver_rename, hreceiver, Option.map_none]
    exact hrun h₃ h₃' hh₃
  | some d =>
    simp only [receiver_rename, hreceiver, Option.map_some]
    have hd : Has h₃.everything (.dict d) :=
      has_dict.mpr ((hbecomes.trans hbecomes₃).sub (has_receiver hb hreceiver))
    exact hrun _ _ (hh₃.put (hbecomes₃.allocated hnew) hd (by decide)).heaps

theorem collectRest (rt : Runtime) (depth : Nat) {collected : ListId} (henv : h.Allocated (.dict env))
    (hb : Has h.everything (.block b)) (hframe : h.Allocated (.dict frame))
    (hlist : h.Allocated (.list collected)) (param : String) (es : List Value) :
    Move.Copies ρ ws (collectRest rt depth env b frame param collected es h)
      (collectRest rt depth (ρ.map env) (b.rename ρ.map) (ρ.map frame) param collected
        (renameAll ρ.map es) h') := by
  cases es with
  | nil =>
    obtain ⟨hresult, hafter⟩ := hh.define param hframe (v := .list collected) (has_list.mpr hlist)
    simp only [DictScript.collectRest, renameAll]
    simp only [Value.rename] at hresult hafter
    generalize h.define frame param (.list collected) = x at hresult hafter ⊢
    generalize h'.define (ρ.map frame) param (.list collected) = x' at hresult hafter ⊢
    obtain ⟨result, h₁⟩ := x
    obtain ⟨result', h₁'⟩ := x'
    simp only at hresult hafter ⊢
    subst hresult
    obtain ⟨hh₁, hbecomes⟩ := hafter
    cases result' with
    | error e => exact hh₁.raise e
    | ok _ =>
      exact hh₁.invoke rt depth (hbecomes.allocated henv) (hbecomes.allocated hframe)
        (hbecomes.has hb) []
  | cons e es => exact hh.eval e env (.cons rfl .nil)

theorem bindArgs (rt : Runtime) (depth : Nat) (henv : h.Allocated (.dict env))
    (hb : Has h.everything (.block b)) (hframe : h.Allocated (.dict frame)) (params : List String)
    (es : List Value) :
    Move.Copies ρ ws (bindArgs rt depth env b frame params es h)
      (bindArgs rt depth (ρ.map env) (b.rename ρ.map) (ρ.map frame) params (renameAll ρ.map es)
        h') := by
  cases params with
  | nil => exact hh.invoke rt depth henv hframe hb []
  | cons p params =>
    cases hrest : restName? p with
    | some name =>
      obtain ⟨hh₁, hbecomes⟩ := hh.newList (List.forall_mem_nil (Has h.everything))
      rw [bindArgs_rest hrest, bindArgs_rest hrest, hh.lists]
      exact hh₁.collectRest rt depth (hbecomes.allocated henv) (hbecomes.has hb)
        (hbecomes.allocated hframe) ((allocated_newList []).mpr (.inl rfl)) name es
    | none =>
      cases es with
      | nil =>
        rw [bindArgs_nil hrest, renameAll, bindArgs_nil hrest]
        exact hh.invoke rt depth henv hframe hb []
      | cons e es =>
        rw [bindArgs_cons hrest, renameAll, bindArgs_cons hrest]
        exact hh.eval e env (.cons rfl .nil)

theorem callBlock (rt : Runtime) (depth : Nat) (henv : h.Allocated (.dict env))
    (hb : Has h.everything (.block b)) (es : List Value) :
    Move.Copies ρ ws (callBlock rt depth env b es h)
      (callBlock rt depth (ρ.map env) (b.rename ρ.map) (renameAll ρ.map es) h') := by
  rw [DictScript.callBlock, DictScript.callBlock, length_renameAll, fixedArity_rename,
    hasRest_rename, displayName_rename]
  split
  · exact hh.failIn env _
  · obtain ⟨hframe, hh₁, hbecomes⟩ := hh.frame henv henv b.name
    simp only [name_rename, params_rename, hframe]
    exact hh₁.bindArgs rt depth (hbecomes.allocated henv) (hbecomes.has hb)
      ((allocated_newDict _).mpr (.inl rfl)) b.params es

theorem applyWithin (henv : h.Allocated (.dict env)) (hdict : h.Allocated (.dict dict)) (e : Value) :
    Move.Copies ρ ws (applyWithin env dict e h)
      (applyWithin (ρ.map env) (ρ.map dict) (e.rename ρ.map) h') := by
  have hparent : (h'.parent (ρ.map dict)).isSome = (h.parent dict).isSome := by
    rw [hh.parent, Option.isSome_map]
  rw [DictScript.applyWithin, DictScript.applyWithin]
  by_cases hp : (h.parent dict).isSome
  · rw [if_pos hp, if_pos (hparent.trans hp)]
    exact hh.eval e dict (.cons rfl .nil)
  · rw [if_neg hp, if_neg (hparent.symm ▸ hp)]
    obtain ⟨hview, hh₁, -⟩ := hh.view hdict henv
    have hwithin : Frame.Copies ρ (h.view dict env).1 (.within env dict (h.view dict env).2)
        (.within (ρ.map env) (ρ.map dict) (ρ.map (h.view dict env).2)) := rfl
    have hcopies := hh₁.eval e (h.view dict env).2 (.cons hwithin .nil)
    rw [← hview] at hcopies
    exact hcopies

theorem finishWithin (rt : Runtime) (depth : Nat) (henv : h.Allocated (.dict env))
    (hdict : h.Allocated (.dict dict)) (scope : DictId) (hv : Has h.everything v) :
    Move.Copies ρ ws (finishWithin rt depth env dict scope v h)
      (finishWithin rt depth (ρ.map env) (ρ.map dict) (ρ.map scope) (v.rename ρ.map) h') := by
  cases v with
  | sym name => exact hh.field dict name env
  | block b => exact hh.invoke rt depth henv hdict hv [.dict scope]
  | _ => exact hh.ret _

theorem itemAt (l : ListId) (x : Float) : itemAt h' l x = (itemAt h l x).rename ρ.map := by
  rw [DictScript.itemAt, DictScript.itemAt]
  split
  · split
    · rename_i i _
      rw [hh.items, renameAll_eq, List.getElem?_map]
      cases (h.items l)[i]? <;> rfl
    · rfl
  · rfl

theorem indexList (l : ListId) (v : Value) (env : DictId) :
    Move.Copies ρ ws (indexList l v env h) (indexList l (v.rename ρ.map) (ρ.map env) h') := by
  cases v with
  | num x =>
    simp only [DictScript.indexList, Value.rename, hh.itemAt]
    exact hh.ret _
  | sym name =>
    simp only [DictScript.indexList, Value.rename]
    cases readFloat? name with
    | some x =>
      simp only [hh.itemAt]
      exact hh.ret _
    | none => exact hh.failIn env _
  | _ => exact hh.failIn env _

theorem applyValue (rt : Runtime) (depth : Nat) (henv : h.Allocated (.dict env))
    (hv : Has h.everything v) (es : List Value) :
    Move.Copies ρ ws (applyValue rt depth v es env h)
      (applyValue rt depth (v.rename ρ.map) (renameAll ρ.map es) (ρ.map env) h') := by
  have hrefused : ∀ cause : Cause, Move.Copies ρ ws (.failIn h env cause, h)
      (.failIn h' (ρ.map env) cause, h') := hh.failIn env
  cases v with
  | block b => exact hh.callBlock rt depth henv hv es
  | dict d =>
    match es with
    | [] => exact hh.ret _
    | [a] => exact hh.applyWithin henv (has_dict.mp hv) a
    | _ :: _ :: _ => exact hh.failIn env _
  | list l =>
    match es with
    | [] => exact hh.ret _
    | [a] => exact hh.eval a env (.cons rfl .nil)
    | _ :: _ :: _ => exact hh.failIn env _
  | _ =>
    match es with
    | [] => exact hh.ret _
    | _ :: _ => exact hh.failIn env _

/-! Special forms. -/

theorem assignAll (henv : h.Allocated (.dict env))
    (hxs : ∀ x ∈ xs, Key.of x.1 = .slot x.1 ∧ Has h.everything x.2) :
    Move.Copies ρ ws (assignAll env xs h) (assignAll (ρ.map env) (renameSlots ρ.map xs) h') := by
  induction xs generalizing h h' with
  | nil => exact hh.ret .nil
  | cons x xs ih =>
    obtain ⟨name, v⟩ := x
    obtain ⟨hn, hv⟩ := hxs _ List.mem_cons_self
    have hcons : renameSlots ρ.map ((name, v) :: xs) =
        (name, v.rename ρ.map) :: renameSlots ρ.map xs := rfl
    rw [hcons, DictScript.assignAll, DictScript.assignAll, hh.find]
    cases hd : h.find env name with
    | none =>
      simp only [Option.map_none, hh.unboundFrom]
      exact hh.failIn env _
    | some d =>
      obtain ⟨hh₁, hbecomes⟩ := hh.put (hh.complete.find henv hd) hv hn
      refine ih hh₁ (hbecomes.allocated henv) fun y hy => ?_
      obtain ⟨hm, hw⟩ := hxs y (List.mem_cons_of_mem _ hy)
      exact ⟨hm, hbecomes.has hw⟩

theorem putSlots (henv : h.Allocated (.dict env)) (hd : h.Allocated (.dict d)) :
    Move.Copies ρ ws (.ret .nil, h.putAll env (h.slots d))
      (.ret .nil, h'.putAll (ρ.map env) (h'.slots (ρ.map d))) := by
  rw [hh.slots]
  exact (hh.putAll henv (hh.slots_fit hd)).heaps.ret .nil

theorem finish (op : Operation) (henv : h.Allocated (.dict env)) (hvs : ∀ v ∈ vs, Has h.everything v) :
    Move.Copies ρ ws (op.finish env vs h) (op.finish (ρ.map env) (renameAll ρ.map vs) h') := by
  have hnil := hh.ret .nil
  cases op with
  | define =>
    obtain _ | ⟨a, _ | ⟨b, _ | ⟨v, _ | ⟨_, _⟩⟩⟩⟩ := vs
    · exact hnil
    · cases a with
      | dict bindings => exact hh.putSlots henv (has_dict.mp (hvs _ List.mem_cons_self))
      | _ => exact hnil
    · cases a with
      | dict target =>
        cases b with
        | dict bindings =>
          exact hh.putSlots (has_dict.mp (hvs (.dict target) (by simp)))
            (has_dict.mp (hvs (.dict bindings) (by simp)))
        | _ => exact hnil
      | _ => exact hnil
    · cases a with
      | dict target =>
        cases b with
        | sym name =>
          obtain ⟨hresult, hafter⟩ := hh.define name (has_dict.mp (hvs (.dict target) (by simp)))
            (hvs v (by simp))
          simp only [Operation.finish, renameAll, Value.rename]
          generalize h.define target name v = x at hresult hafter ⊢
          generalize h'.define (ρ.map target) name (v.rename ρ.map) = x' at hresult hafter ⊢
          obtain ⟨result, h₁⟩ := x
          obtain ⟨result', h₁'⟩ := x'
          simp only at hresult hafter ⊢
          subst hresult
          cases result' with
          | error e => exact hafter.heaps.raise e
          | ok _ => exact hafter.heaps.ret v
        | _ => exact hnil
      | _ => exact hnil
    · cases a <;> cases b <;> exact hnil
  | assign =>
    obtain _ | ⟨a, _ | ⟨_, _⟩⟩ := vs
    · exact hnil
    · cases a with
      | dict bindings =>
        have hbindings := has_dict.mp (hvs _ List.mem_cons_self)
        simp only [Operation.finish, renameAll, Value.rename, hh.slots]
        exact hh.assignAll henv (hh.slots_fit hbindings)
      | _ => exact hnil
    · cases a <;> exact hnil
  | bound expected =>
    obtain _ | ⟨a, _ | ⟨b, _ | ⟨_, _⟩⟩⟩ := vs
    · exact hnil
    · cases a with
      | sym name =>
        simp only [Operation.finish, renameAll, Value.rename, hh.find, Option.isSome_map]
        exact hh.ret (.bool _)
      | _ => exact hnil
    · cases b with
      | sym name =>
        cases a with
        | dict d =>
          simp only [Operation.finish, renameAll, Value.rename, hh.find, Option.isSome_map]
          exact hh.ret (.bool _)
        | _ => exact hh.ret (.bool _)
      | _ => cases a <;> exact hnil
    · cases a <;> cases b <;> exact hnil

theorem evalOperands (op : Operation) (henv : h.Allocated (.dict env)) (todo : List (Operand × Value))
    (hvs : ∀ v ∈ vs, Has h.everything v) :
    Move.Copies ρ ws (evalOperands op env todo vs h)
      (evalOperands op (ρ.map env) (todo.map fun x => (x.1, x.2.rename ρ.map))
        (renameAll ρ.map vs) h') := by
  cases todo with
  | nil => exact hh.finish op henv hvs
  | cons x todo => exact hh.eval x.2 env (.cons rfl .nil)

theorem evalOperation (op : Operation) (henv : h.Allocated (.dict env)) (es : List Value) :
    Move.Copies ρ ws (evalOperation op es env h)
      (evalOperation op (renameAll ρ.map es) (ρ.map env) h') := by
  rw [DictScript.evalOperation, DictScript.evalOperation, length_renameAll]
  cases op.operands? es.length with
  | none => exact hh.failIn env _
  | some wants =>
    have hzip : wants.zip (renameAll ρ.map es) =
        (wants.zip es).map fun x => (x.1, x.2.rename ρ.map) := by
      rw [renameAll_eq, List.zip_map_right]
      rfl
    simp only [hzip]
    exact hh.evalOperands op henv _ (List.forall_mem_nil _)

theorem evalForm (form : Form) (henv : h.Allocated (.dict env)) (es : List Value) :
    Move.Copies ρ ws (evalForm form es env h) (evalForm form (renameAll ρ.map es) (ρ.map env) h') := by
  cases form with
  | sequence => exact hh.body es env .nil
  | assign =>
    simp only [DictScript.evalForm, length_renameAll]
    exact hh.evalOperation _ henv es
  | _ => exact hh.evalOperation _ henv es

theorem evalList (l : ListId) (henv : h.Allocated (.dict env)) :
    Move.Copies ρ ws (evalList l env h) (evalList l (ρ.map env) h') := by
  have hliteral := blockLiteral?_renameAll ρ.map (h.items l)
  rw [DictScript.evalList, DictScript.evalList, hh.items]
  cases hitems : h.items l with
  | nil => exact hh.ret .nil
  | cons head args =>
    rw [hitems, renameAll] at hliteral
    simp only [renameAll, hliteral, Value.sym?_rename]
    cases blockLiteral? (head :: args) with
    | some literal =>
      obtain ⟨params, body⟩ := literal
      let b : Block := ⟨0, none, params, body, env, none⟩
      have hcopies := (hh.newBlock b (b.rename ρ.map)).heaps.ret (h.newBlock b).2
      rw [← hh.newBlock_value b] at hcopies
      exact hcopies
    | none =>
      cases head.sym?.bind Form.ofName? with
      | some form => exact hh.evalForm form henv args
      | none => exact hh.eval head env (.cons rfl .nil)

/-! Dictionary literals. -/

theorem evalEntries (literal dict scope : DictId) (names : List String) :
    Move.Copies ρ ws (evalEntries literal dict scope names h)
      (evalEntries (ρ.map literal) (ρ.map dict) (ρ.map scope) names h') := by
  cases names with
  | nil => exact hh.ret (.dict dict)
  | cons name names =>
    simp only [DictScript.evalEntries, hh.get]
    exact hh.eval _ scope (.cons rfl .nil)

theorem nameBlock (name : String) (v : Value) :
    (nameBlock name (v.rename ρ.map) h').2 = (nameBlock name v h).2.rename ρ.map ∧
      ρ.After ws h (nameBlock name v h).1 (nameBlock name (v.rename ρ.map) h').1 := by
  cases v with
  | block b =>
    let named : Block := { b with name := some name }
    have hnamed : named.rename ρ.map = { b.rename ρ.map with name := some name } := by
      cases b
      rfl
    have hvalue := hh.newBlock_value named
    have hafter := hh.newBlock named (named.rename ρ.map)
    rw [hnamed] at hvalue hafter
    simp only [DictScript.nameBlock, Value.rename, name_rename]
    split
    · exact ⟨hvalue, hafter⟩
    · exact ⟨rfl, hh.here⟩
  | _ => exact ⟨rfl, hh.here⟩

/-- The new dictionary is linked, and its entries are evaluated one by one. -/
theorem linked (literal : DictId) (declared : Bool) (henv : h.Allocated (.dict env))
    (hdict : h.Allocated (.dict dict)) (hp : h.Allocated (.dict e)) (hk : k = h.link dict (some e) declared)
    (hk' : k' = h'.link (ρ.map dict) (some (ρ.map e)) declared) :
    Move.Copies ρ ws
      (DictScript.evalEntries literal dict (k.view dict env).2 ((k.view dict env).1.names literal)
        (k.view dict env).1)
      (DictScript.evalEntries (ρ.map literal) (ρ.map dict) (k'.view (ρ.map dict) (ρ.map env)).2
        ((k'.view (ρ.map dict) (ρ.map env)).1.names (ρ.map literal))
        (k'.view (ρ.map dict) (ρ.map env)).1) := by
  have hlink : ∀ p, some e = some p → h.Allocated (.dict p) := by
    rintro p ⟨⟩
    exact hp
  obtain ⟨hh₁, hbecomes⟩ := hh.link (o := some e) hdict declared hlink
  rw [Option.map_some, ← hk, ← hk'] at hh₁
  rw [← hk] at hbecomes
  obtain ⟨hview, hh₂, -⟩ := hh₁.view (hbecomes.allocated hdict) (hbecomes.allocated henv)
  rw [hview, hh₂.names]
  exact hh₂.evalEntries literal dict _ _

theorem evalLiteral (literal : DictId) (henv : h.Allocated (.dict env))
    (horderly : (h.newDict {}).1.Orderly) :
    Move.Copies ρ ws (evalLiteral literal env h) (evalLiteral (ρ.map literal) (ρ.map env) h') := by
  obtain ⟨hh₁, hbecomes⟩ := hh.newBare
  have hnew := hh.newDict_id {} {}
  have hdict : (h.newDict {}).1.Allocated (.dict (h.newDict {}).2) :=
    (allocated_newDict {}).mpr (.inl rfl)
  unfold DictScript.evalLiteral
  generalize h.newDict {} = x at hh₁ hbecomes hnew hdict horderly ⊢
  generalize h'.newDict {} = x' at hh₁ hnew ⊢
  obtain ⟨h₁, dict⟩ := x
  obtain ⟨h₁', dict'⟩ := x'
  simp only at hh₁ hbecomes hnew hdict horderly ⊢
  subst hnew
  have henv₁ := hbecomes.allocated henv
  rw [hh₁.declaredParent]
  cases hdecl : h₁.declaredParent literal with
  | some p =>
    have hp : h₁.Inherits literal p := by
      rw [Heap.declaredParent] at hdecl
      split at hdecl
      · exact hdecl
      · cases hdecl
    exact hh₁.linked literal true henv₁ hdict (hh₁.complete.inherits hp) rfl rfl
  | none =>
    have hanchor : h₁.Allocated (.dict (h₁.anchor env)) :=
      hh₁.region.anchor (S := h₁.everything) henv₁
    simp only [Option.map_none, hh₁.anchor horderly]
    exact hh₁.linked literal false henv₁ hdict hanchor rfl rfl

/-! What a host asks for. -/

theorem begins (depth : Nat) (request : Request) (hroot : ρ.map rt.root = rt.root)
    (hheld : ∀ v ∈ request.held, Has h.everything v) :
    Move.Copies ρ ws (request.begin rt depth h) ((request.rename ρ.map).begin rt depth h') := by
  cases request with
  | evaluate expr env =>
    cases env with
    | none =>
      have hcopies := hh.eval expr rt.root (.nil : List.Forall₂ (Frame.Copies ρ h) [] [])
      rw [hroot] at hcopies
      exact hcopies
    | some env => exact hh.eval expr env .nil
  | body exprs env => exact hh.body exprs env .nil
  | apply env dict target =>
    exact hh.applyWithin (has_dict.mp (hheld (.dict env) (by simp [Request.held])))
      (has_dict.mp (hheld (.dict dict) (by simp [Request.held]))) target
  | call env block args =>
    have hcopies := hh.callBlock rt depth
      (has_dict.mp (hheld (.dict env) (by simp [Request.held])))
      (hheld (.block block) (by simp [Request.held])) (args.map Value.quote)
    rw [renameAll_quotes] at hcopies
    exact hcopies

end Renaming.Heaps
end DictScript
