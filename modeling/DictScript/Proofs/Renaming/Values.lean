import DictScript.Eval.Step
import DictScript.Proofs.Graph

/-!
Dictionaries under other numbers: what becomes of values, cells, natives and pending work.
-/
namespace DictScript
variable {f : DictId → DictId} {v w : Value} {vs : List Value} {xs : List (String × Value)}
variable {name : String} {d : DictId} {c : DictCell} {r : Ref}

mutual
def Value.rename (f : DictId → DictId) : Value → Value
  | .nil => .nil
  | .num x => .num x
  | .bool b => .bool b
  | .str s => .str s
  | .sym name => .sym name
  | .quote v => .quote (v.rename f)
  | .fullQuote v => .fullQuote (v.rename f)
  | .list l => .list l
  | .dict d => .dict (f d)
  | .block b => .block (renameBlock f b)
  | .native n => .native n

def renameBlock (f : DictId → DictId) : BlockOf Value → BlockOf Value
  | ⟨id, name, params, body, env, receiver⟩ =>
    ⟨id, name, params, renameAll f body, f env, receiver.map f⟩

def renameAll (f : DictId → DictId) : List Value → List Value
  | [] => []
  | v :: vs => v.rename f :: renameAll f vs
end

abbrev BlockOf.rename (f : DictId → DictId) (b : Block) : Block := renameBlock f b

def Ref.rename (f : DictId → DictId) : Ref → Ref
  | .list l => .list l
  | .dict d => .dict (f d)
  | .native n => .native n

def renameSlots (f : DictId → DictId) (xs : List (String × Value)) : List (String × Value) :=
  xs.map fun x => (x.1, x.2.rename f)

theorem names_renameSlots (f : DictId → DictId) (xs : List (String × Value)) :
    (renameSlots f xs).map Prod.fst = xs.map Prod.fst := by
  rw [renameSlots, List.map_map]
  rfl

def Slots.rename (f : DictId → DictId) (s : Slots) : Slots :=
  ⟨renameSlots f s.toList, (names_renameSlots f s.toList).symm ▸ s.nodup⟩

def DictCell.rename (f : DictId → DictId) (c : DictCell) : DictCell where
  slots := c.slots.rename f
  parent := c.parent.map f
  declared := c.declared
  caller := c.caller.map f
  scope := c.scope.map f
  target := c.target.map f
  name := c.name
  tag := c.tag

def Native.rename (f : DictId → DictId) : Native → Native
  | .function name code => .function name code
  | .object tag record => .object tag (record.map (renameSlots f))

def Request.rename (f : DictId → DictId) : Request → Request
  | .evaluate expr env => .evaluate (expr.rename f) (env.map f)
  | .body exprs env => .body (renameAll f exprs) (f env)
  | .apply env dict target => .apply (f env) (f dict) (target.rename f)
  | .call env block args => .call (f env) (block.rename f) (renameAll f args)

/-- What a host function goes on with is its own affair. -/
def Frame.rename (f : DictId → DictId) : Frame → Frame
  | .body rest env last => .body (renameAll f rest) (f env) (last.rename f)
  | .application frame kept => .application (f frame) (renameAll f kept)
  | .operator args env => .operator (renameAll f args) (f env)
  | .argument env block frame param params args =>
    .argument (f env) (block.rename f) (f frame) param params (renameAll f args)
  | .remaining env block frame param collected args =>
    .remaining (f env) (block.rename f) (f frame) param collected (renameAll f args)
  | .within env dict scope => .within (f env) (f dict) (f scope)
  | .entry literal dict scope expr name names =>
    .entry (f literal) (f dict) (f scope) (expr.rename f) name names
  | .index l env => .index l (f env)
  | .operand op env want todo done =>
    .operand op (f env) want (todo.map fun x => (x.1, x.2.rename f)) (renameAll f done)
  | .host resume kept => .host resume (renameAll f kept)

def Control.rename (f : DictId → DictId) : Control → Control
  | .eval expr env => .eval (expr.rename f) (f env)
  | .ret v => .ret (v.rename f)
  | .raise e => .raise e

/-! Values. -/

theorem renameAll_eq (f : DictId → DictId) (vs : List Value) :
    renameAll f vs = vs.map (Value.rename f) := by
  induction vs with
  | nil => rfl
  | cons v vs ih => rw [renameAll, ih, List.map_cons]

theorem renameAll_append (f : DictId → DictId) (vs ws : List Value) :
    renameAll f (vs ++ ws) = renameAll f vs ++ renameAll f ws := by
  simp only [renameAll_eq, List.map_append]

theorem length_renameAll (f : DictId → DictId) (vs : List Value) :
    (renameAll f vs).length = vs.length := by
  rw [renameAll_eq, List.length_map]

theorem renameAll_quotes (f : DictId → DictId) (vs : List Value) :
    renameAll f (vs.map Value.quote) = (renameAll f vs).map Value.quote := by
  simp only [renameAll_eq, List.map_map]
  rfl

namespace Value

theorem sym?_rename (f : DictId → DictId) (v : Value) : (v.rename f).sym? = v.sym? := by
  cases v <;> rfl

theorem isDict_rename (hf : Function.Injective f) (v : Value) (d : DictId) :
    (v.rename f).isDict (f d) = v.isDict d := by
  cases v with
  | dict e => simp only [rename, isDict, hf.eq_iff]
  | _ => rfl

theorem refs_rename (f : DictId → DictId) (v : Value) :
    (v.rename f).refs = v.refs.map (Ref.rename f) := by
  induction v using Value.ind with
  | nil | num | bool | str | sym => rfl
  | list | dict | native => rfl
  | quote v ih | fullQuote v ih => rw [rename, refs, refs, ih]
  | block b ih =>
    obtain ⟨id, name, params, body, env, receiver⟩ := b
    have hbody : allRefs (renameAll f body) = (allRefs body).map (Ref.rename f) := by
      induction body with
      | nil => rfl
      | cons v vs ihs =>
        rw [renameAll, allRefs, allRefs, ih v List.mem_cons_self, List.map_append,
          ihs fun w hw => ih w (List.mem_cons_of_mem _ hw)]
    simp only [rename, renameBlock, refs, blockRefs, hbody, List.map_cons, List.map_append]
    cases receiver <;> rfl

/-- Where the numbers of its dictionaries stay, the value stays. -/
theorem rename_eq_self (hv : ∀ d, .dict d ∈ v.refs → f d = d) : v.rename f = v := by
  induction v using Value.ind with
  | nil | num | bool | str | sym => rfl
  | list | native => rfl
  | dict d => rw [rename, hv d (List.mem_singleton_self _)]
  | quote v ih | fullQuote v ih => rw [rename, ih hv]
  | block b ih =>
    obtain ⟨id, name, params, body, env, receiver⟩ := b
    have henv : f env = env := hv env (by simp [refs, blockRefs])
    have hreceiver : receiver.map f = receiver := by
      cases receiver with
      | none => rfl
      | some d => exact congrArg some (hv d (by simp [refs, blockRefs]))
    have hbody : renameAll f body = body := by
      rw [renameAll_eq]
      refine (List.map_congr_left fun v hv' => ih v hv' fun d hd => hv d ?_).trans (List.map_id _)
      simp only [refs, blockRefs, List.mem_cons, List.mem_append]
      exact .inr (.inr (mem_allRefs.mpr ⟨v, hv', hd⟩))
    rw [rename, renameBlock, henv, hreceiver, hbody]

end Value

theorem allRefs_renameAll (f : DictId → DictId) (vs : List Value) :
    allRefs (renameAll f vs) = (allRefs vs).map (Ref.rename f) := by
  induction vs with
  | nil => rfl
  | cons v vs ih => rw [renameAll, allRefs, allRefs, ih, Value.refs_rename, List.map_append]

theorem mapM_sym?_renameAll (f : DictId → DictId) (vs : List Value) :
    (renameAll f vs).mapM Value.sym? = vs.mapM Value.sym? := by
  induction vs with
  | nil => rfl
  | cons v vs ih => simp only [renameAll, List.mapM_cons, Value.sym?_rename, ih]

theorem Ref.rename_injective (hf : Function.Injective f) : Function.Injective (Ref.rename f) := by
  intro r s heq
  cases r <;> cases s <;> simp_all [Ref.rename, hf.eq_iff]

theorem blockLiteral?_renameAll (f : DictId → DictId) (vs : List Value) :
    blockLiteral? (renameAll f vs) =
      (blockLiteral? vs).map fun x => (x.1, renameAll f x.2) := by
  have hsym : ∀ v : Value, (!decide ((v.rename f).sym? = some blockBar)) =
      !decide (v.sym? = some blockBar) := by
    intro v
    rw [Value.sym?_rename]
  have hdrop : (renameAll f vs).dropWhile (fun v => !decide (v.sym? = some blockBar)) =
      renameAll f (vs.dropWhile fun v => !decide (v.sym? = some blockBar)) := by
    induction vs with
    | nil => rfl
    | cons v vs ih =>
      simp only [renameAll, List.dropWhile_cons, hsym, ih]
      split <;> rfl
  have htake : (renameAll f vs).takeWhile (fun v => !decide (v.sym? = some blockBar)) =
      renameAll f (vs.takeWhile fun v => !decide (v.sym? = some blockBar)) := by
    clear hdrop
    induction vs with
    | nil => rfl
    | cons v vs ih =>
      simp only [renameAll, List.takeWhile_cons, hsym, ih]
      split <;> rfl
  simp only [blockLiteral?, hdrop, htake, mapM_sym?_renameAll]
  cases vs.dropWhile fun v => !decide (v.sym? = some blockBar) with
  | nil => rfl
  | cons v body =>
    simp only [renameAll]
    cases (vs.takeWhile fun v => !decide (v.sym? = some blockBar)).mapM Value.sym? <;> rfl

/-! Blocks. -/

section
variable (f : DictId → DictId) (b : Block)

theorem params_rename : (b.rename f).params = b.params := by cases b; rfl

theorem name_rename : (b.rename f).name = b.name := by cases b; rfl

theorem body_rename : (b.rename f).body = renameAll f b.body := by cases b; rfl

theorem env_rename : (b.rename f).env = f b.env := by cases b; rfl

theorem receiver_rename : (b.rename f).receiver = b.receiver.map f := by cases b; rfl

theorem fixedArity_rename : (b.rename f).fixedArity = b.fixedArity := by
  rw [BlockOf.fixedArity, BlockOf.fixedArity, params_rename]

theorem hasRest_rename : (b.rename f).hasRest = b.hasRest := by
  rw [BlockOf.hasRest, BlockOf.hasRest, params_rename]

theorem displayName_rename : (b.rename f).displayName = b.displayName := by
  rw [BlockOf.displayName, BlockOf.displayName, name_rename]

end

/-! Slots. -/

theorem lookup_renameSlots (f : DictId → DictId) (xs : List (String × Value)) (name : String) :
    (renameSlots f xs).lookup name = (xs.lookup name).map (Value.rename f) := by
  induction xs with
  | nil => rfl
  | cons x xs ih =>
    obtain ⟨n, v⟩ := x
    simp only [renameSlots, List.map_cons, List.lookup_cons] at ih ⊢
    split
    · rfl
    · exact ih

theorem putSlot_renameSlots (f : DictId → DictId) (name : String) (v : Value)
    (xs : List (String × Value)) :
    putSlot name (v.rename f) (renameSlots f xs) = renameSlots f (putSlot name v xs) := by
  induction xs with
  | nil => rfl
  | cons x xs ih =>
    obtain ⟨n, w⟩ := x
    simp only [renameSlots, List.map_cons, putSlot] at ih ⊢
    split
    · rfl
    · rw [ih, List.map_cons]

theorem filter_renameSlots (f : DictId → DictId) (keep : String → Bool)
    (xs : List (String × Value)) :
    (renameSlots f xs).filter (fun x => keep x.1) =
      renameSlots f (xs.filter fun x => keep x.1) := by
  rw [renameSlots, List.filter_map]
  rfl

namespace Slots

theorem ext {s t : Slots} (h : s.toList = t.toList) : s = t := by
  cases s
  cases t
  cases h
  rfl

theorem rename_put (f : DictId → DictId) (s : Slots) (name : String) (v : Value) :
    (s.put name v).rename f = (s.rename f).put name (v.rename f) :=
  ext (putSlot_renameSlots f name v s.toList).symm

end Slots

theorem refs_renameSlots (f : DictId → DictId) (xs : List (String × Value)) :
    ((renameSlots f xs).flatMap fun x => x.2.refs) =
      (xs.flatMap fun x => x.2.refs).map (Ref.rename f) := by
  rw [renameSlots, List.flatMap_map, List.map_flatMap]
  exact List.flatMap_congr fun x _ => x.2.refs_rename f

/-! Objects. -/

theorem DictCell.refs_rename (f : DictId → DictId) (c : DictCell) :
    (c.rename f).refs = c.refs.map (Ref.rename f) := by
  have hlink : ∀ link : Option DictId, (link.map f).toList.map Ref.dict =
      (link.toList.map Ref.dict).map (Ref.rename f) := by
    intro link
    cases link <;> rfl
  simp only [refs, rename, Slots.rename, refs_renameSlots, hlink, List.map_append]

theorem Native.refs_rename (f : DictId → DictId) (n : Native) :
    (n.rename f).refs = n.refs.map (Ref.rename f) := by
  cases n with
  | function name code => rfl
  | object tag record =>
    cases record with
    | none => rfl
    | some record => exact refs_renameSlots f record

/-! Work. -/

theorem Request.held_rename (f : DictId → DictId) (request : Request) :
    (request.rename f).held = renameAll f request.held := by
  cases request with
  | evaluate expr env => cases env <;> rfl
  | body exprs env => rfl
  | apply env dict target => rfl
  | call env block args => rfl

theorem Frame.held_rename (f : DictId → DictId) (work : Frame) :
    (work.rename f).held = renameAll f work.held := by
  cases work with
  | operand op env want todo done =>
    simp only [rename, held, renameAll, renameAll_append, Value.rename]
    rw [List.map_map, renameAll_eq f (todo.map Prod.snd), List.map_map]
    rfl
  | _ => rfl

theorem Frame.isApplication_rename (f : DictId → DictId) (work : Frame) :
    (work.rename f).isApplication = work.isApplication := by
  cases work <;> rfl

/-! One renaming after another. -/

section
variable (f g : DictId → DictId)

theorem Value.rename_rename (v : Value) : (v.rename f).rename g = v.rename (g ∘ f) := by
  induction v using Value.ind with
  | nil | num | bool | str | sym => rfl
  | list | dict | native => rfl
  | quote v ih | fullQuote v ih => rw [rename, rename, rename, ih]
  | block b ih =>
    obtain ⟨id, name, params, body, env, receiver⟩ := b
    have hbody : renameAll g (renameAll f body) = renameAll (g ∘ f) body := by
      rw [renameAll_eq, renameAll_eq, renameAll_eq, List.map_map]
      exact List.map_congr_left ih
    simp only [rename, renameBlock, hbody, Option.map_map, Function.comp_apply]

theorem renameAll_renameAll (vs : List Value) :
    renameAll g (renameAll f vs) = renameAll (g ∘ f) vs := by
  rw [renameAll_eq, renameAll_eq, renameAll_eq, List.map_map]
  exact List.map_congr_left fun v _ => v.rename_rename f g

theorem renameSlots_renameSlots (xs : List (String × Value)) :
    renameSlots g (renameSlots f xs) = renameSlots (g ∘ f) xs := by
  rw [renameSlots, renameSlots, List.map_map]
  exact List.map_congr_left fun x _ => Prod.ext rfl (x.2.rename_rename f g)

theorem DictCell.rename_rename (c : DictCell) : (c.rename f).rename g = c.rename (g ∘ f) := by
  have hslots : (c.slots.rename f).rename g = c.slots.rename (g ∘ f) :=
    Slots.ext (renameSlots_renameSlots f g c.slots.toList)
  simp only [rename, hslots, Option.map_map]

theorem Native.rename_rename (x : Native) : (x.rename f).rename g = x.rename (g ∘ f) := by
  cases x with
  | function name code => rfl
  | object tag record =>
    cases record with
    | none => rfl
    | some record =>
      simp only [rename, Option.map_some, renameSlots_renameSlots]

theorem Control.rename_rename (c : Control) : (c.rename f).rename g = c.rename (g ∘ f) := by
  cases c with
  | eval e env => simp only [rename, Value.rename_rename, Function.comp_apply]
  | ret v => simp only [rename, Value.rename_rename]
  | raise e => rfl

end

end DictScript
