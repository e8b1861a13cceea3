import DictScript.Eval.Step
import DictScript.Proofs.Slots

/-!
How a call binds its arguments. They are collected in one frame, which sees the names of the call
site, and copied from there to the frame of the body, which sees those of the block.
-/
namespace DictScript
open Heap
variable {rt : Runtime} {h g : Heap} {e d : DictId} {b : Block} {v : Value} {depth : Nat}
variable {name : String} {params : List String} {vs xs : List Value} {stack : List Frame}
variable {log : List String} {pins : List (List Value)} {s : Slots}

/-- A name of a slot, other than the one that stands for the active environment. -/
def Ordinary (name : String) : Prop :=
  Key.of name = .slot (canonical name) ∧ canonical name ≠ envName

def paramName (param : String) : String := (restName? param).getD param

/-- What the parameters bind, in order. Those without an argument stay unbound, and the first rest
parameter ends it. -/
def bindings (rest : ListId) : List String → List Value → List (String × Value)
  | [], _ => []
  | p :: params, vs =>
    match restName? p with
    | some name => [(canonical name, .list rest)]
    | none =>
      match vs with
      | [] => []
      | v :: vs => (canonical p, v) :: bindings rest params vs

def remaining? : List String → List Value → Option (List Value)
  | [], _ => none
  | p :: params, vs =>
    match restName? p with
    | some _ => some vs
    | none =>
      match vs with
      | [] => none
      | _ :: vs => remaining? params vs

namespace Slots

def putAll (s : Slots) (xs : List (String × Value)) : Slots :=
  xs.foldl (fun s x => s.put x.1 x.2) s

/-- The last binding counts. -/
theorem lookup_putAll (s : Slots) (xs : List (String × Value)) :
    (s.putAll xs).toList.lookup name = (xs.reverse.lookup name).or (s.toList.lookup name) := by
  induction xs generalizing s with
  | nil => rfl
  | cons x xs ih =>
    rw [putAll, List.foldl_cons]
    refine (ih (s.put x.1 x.2)).trans ?_
    rw [List.reverse_cons, List.lookup_append, Option.or_assoc]
    congr 1
    rw [put, lookup_putSlot, lookup_cons_eq]
    by_cases hname : name = x.1 <;> simp [hname]

end Slots

/-! Writing to an object that was made last. -/

theorem modify_push {α : Type} (xs : Array α) (x : α) (f : α → α) :
    (xs.push x).modify xs.size f = xs.push (f x) := by
  ext i hi hi'
  · simp
  · simp only [Array.size_modify, Array.size_push] at hi
    rw [Array.getElem_modify, Array.getElem_push, Array.getElem_push]
    by_cases hlast : i < xs.size
    · simp [hlast, Nat.ne_of_gt hlast]
    · simp [show xs.size = i by omega]

namespace Heap

theorem put_newDict {c : DictCell} (hc : c.target = none) (n : String) (v : Value) :
    (h.newDict c).1.put ⟨h.dicts.size⟩ n v =
      (h.newDict { c with slots := c.slots.put n v }).1 := by
  have howner : (h.newDict c).1.owner ⟨h.dicts.size⟩ = ⟨h.dicts.size⟩ := by
    simp [owner, cell, newDict, Array.getD, hc]
  rw [put, howner]
  simp only [newDict, modifyCell, modify_push]

theorem putAll_newDict {c : DictCell} (hc : c.target = none) (xs : List (String × Value)) :
    (h.newDict c).1.putAll ⟨h.dicts.size⟩ xs =
      (h.newDict { c with slots := c.slots.putAll xs }).1 := by
  induction xs generalizing c with
  | nil => rfl
  | cons x xs ih =>
    rw [putAll, List.foldl_cons, put_newDict hc]
    exact ih (c := { c with slots := c.slots.put x.1 x.2 }) hc

theorem pushItem_newList (v : Value) :
    (h.newList xs).1.pushItem (h.newList xs).2 v = (h.newList (xs ++ [v])).1 := by
  simp [newList, pushItem, modify_push]

/-! The heaps of a call. -/

def withArgs (h : Heap) (e : DictId) (b : Block) (s : Slots) : Heap :=
  (h.newDict { parent := some e, scope := some e, caller := some e, name := b.name, slots := s }).1

def argsFrame (h : Heap) : DictId := ⟨h.dicts.size⟩

/-- What the frame of the body gets from the arguments: all but `env`, and the receiver. -/
def bodySlots (b : Block) (s : Slots) : Slots :=
  let copied := Slots.empty.putAll (s.toList.filter fun x => x.1 ≠ envName)
  match b.receiver with
  | some d => copied.put "self" (.dict d)
  | none => copied

def withBody (h : Heap) (e : DictId) (b : Block) (s : Slots) : Heap :=
  ((h.withArgs e b s).newDict
    { parent := some b.env, scope := some b.env, caller := some e, name := b.name,
      slots := bodySlots b s }).1

def bodyFrame (h : Heap) : DictId := ⟨h.dicts.size + 1⟩

theorem slots_argsFrame (h : Heap) (e : DictId) (b : Block) (s : Slots) :
    (h.withArgs e b s).slots h.argsFrame = s.toList := by
  simp [slots, owner, cell, withArgs, argsFrame, newDict, Array.getD]

theorem slots_argsFrame_newDict (c : DictCell) :
    ((h.withArgs e b s).newDict c).1.slots h.argsFrame = s.toList := by
  simp [slots, owner, cell, withArgs, argsFrame, newDict, Array.getD, Array.getElem_push]

theorem define_argsFrame (hname : Ordinary name) (v : Value) :
    (h.withArgs e b s).define h.argsFrame name v =
      (.ok (), h.withArgs e b (s.put (canonical name) v)) := by
  simp only [define, hname.1]
  exact congrArg _ (put_newDict rfl _ _)

end Heap

def startBody (h : Heap) (b : Block) : Move :=
  .body b.body h.bodyFrame [.application h.bodyFrame
    [.block b, .dict h.argsFrame, .dict b.env, .dict h.bodyFrame]]

/-- When the arguments do not bring an environment, the body runs in a frame that sees the block's
own. -/
theorem invoke_withArgs (hdepth : depth < rt.maxDepth) (henv : s.toList.lookup envName = none) :
    invoke rt depth e h.argsFrame b [] (h.withArgs e b s) = (startBody h b, h.withBody e b s) := by
  have hkey : Key.of envName = .slot envName := by decide
  have hget : (h.withArgs e b s).get h.argsFrame envName = .nil := by
    simp only [Heap.get, hkey, slots_argsFrame, henv, Option.getD_none]
  have hlexical : lexicalScope e h.argsFrame b (h.withArgs e b s) = (h.withArgs e b s, b.env) := by
    rw [lexicalScope, hget]
  have hframe : (⟨(h.withArgs e b s).dicts.size⟩ : DictId) = h.bodyFrame := by
    simp [withArgs, newDict, bodyFrame]
  have hmade : ((h.withArgs e b s).frame b.env e b.name).2 = h.bodyFrame := hframe
  unfold invoke
  rw [hlexical]
  simp only [hmade, Nat.not_le.mpr hdepth, if_false]
  rw [frame, slots_argsFrame_newDict, ← hframe, putAll_newDict rfl]
  cases hreceiver : b.receiver with
  | none => simp only [startBody, ← hframe, withBody, bodySlots, hreceiver]
  | some d => simp only [put_newDict, startBody, ← hframe, withBody, bodySlots, hreceiver]

/-! The steps of a call. -/

namespace Machine

def after (stack : List Frame) (depth : Nat) (log : List String) (pins : List (List Value))
    (x : Move × Heap) : Machine :=
  proceed stack depth log x.1 { x.2 with pins := pins }

/-- An expression that is its own value is there in one step. -/
theorem step_value {f : Frame} {x : Value} (hf : f.isApplication = false)
    (hx : ∀ k, evalExpr rt depth x e k = (.ret v, k)) :
    (after stack depth log pins (.eval x e [f], h)).step rt =
      ⟨.ret v, f :: stack, depth, { h with pins := f.held :: pins }, log⟩ := by
  have hstart : after stack depth log pins (.eval x e [f], h) =
      ⟨.eval x e, f :: stack, depth, { h with pins := f.held :: pins }, log⟩ := by
    simp [after, proceed, Move.eval, hf]
  rw [hstart]
  simp only [step, hx]
  rfl

/-- In a second step it is taken note of. -/
theorem step_resume {f : Frame} (hf : f.isApplication = false)
    (hpins : (f.resume rt depth v { h with pins := (v :: f.held) :: pins }).2.pins =
      (v :: f.held) :: pins) :
    step rt ⟨.ret v, f :: stack, depth, { h with pins := f.held :: pins }, log⟩ =
      after stack depth log pins
        (f.resume rt depth v { h with pins := (v :: f.held) :: pins }) := by
  simp only [step, depthBelow, hf, hold, after, leave, Bool.false_eq_true, if_false]
  rw [hpins, List.tail_cons]

/-- A quoted argument is there after two steps. -/
theorem run_quote (n : Nat) {f : Frame} (hf : f.isApplication = false)
    (hpins : (f.resume rt depth v { h with pins := (v :: f.held) :: pins }).2.pins =
      (v :: f.held) :: pins) :
    (after stack depth log pins (.eval (.quote v) e [f], h)).run rt (n + 2) =
      (after stack depth log pins
        (f.resume rt depth v { h with pins := (v :: f.held) :: pins })).run rt n := by
  have hvalue : (after stack depth log pins (.eval (.quote v) e [f], h)).step rt =
      ⟨.ret v, f :: stack, depth, { h with pins := f.held :: pins }, log⟩ :=
    step_value hf fun _ => rfl
  rw [run, run, hvalue, step_resume hf hpins]
  rfl

end Machine

theorem lookup_env_put (henv : s.toList.lookup envName = none) (hname : Ordinary name) (v : Value) :
    (s.put (canonical name) v).toList.lookup envName = none := by
  rw [Slots.put, lookup_putSlot, if_neg (Ne.symm hname.2), henv]

section
variable (hdepth : depth < rt.maxDepth) (henv : s.toList.lookup envName = none)
include hdepth henv

theorem collectRest_nil (hname : Ordinary name) :
    collectRest rt depth e b h.argsFrame name ⟨h.lists.size⟩ [] ((h.newList xs).1.withArgs e b s) =
      (startBody h b,
        (h.newList xs).1.withBody e b (s.put (canonical name) (.list ⟨h.lists.size⟩))) := by
  have hdefine := define_argsFrame (h := (h.newList xs).1) (e := e) (b := b) (s := s) hname
    (.list ⟨h.lists.size⟩)
  have hinvoke := invoke_withArgs (h := (h.newList xs).1) (e := e) (b := b) hdepth
    (lookup_env_put henv hname (.list ⟨h.lists.size⟩))
  have hframe : (h.newList xs).1.argsFrame = h.argsFrame := rfl
  rw [hframe] at hdefine hinvoke
  rw [collectRest, hdefine]
  exact hinvoke

/-- What is held makes no difference. -/
theorem collectRest_pins (hname : Ordinary name) (xs vs : List Value) (pins : List (List Value)) :
    collectRest rt depth e b h.argsFrame name ⟨h.lists.size⟩ (vs.map Value.quote)
        ((({ h with pins := pins } : Heap).newList xs).1.withArgs e b s) =
      let x := collectRest rt depth e b h.argsFrame name ⟨h.lists.size⟩ (vs.map Value.quote)
        ((h.newList xs).1.withArgs e b s)
      (x.1, { x.2 with pins := pins }) := by
  cases vs with
  | nil =>
    rw [List.map_nil, collectRest_nil hdepth henv hname]
    exact collectRest_nil (h := { h with pins := pins }) hdepth henv hname
  | cons v vs => rfl

/-- The arguments that are left are collected one by one. -/
theorem run_collectRest (hname : Ordinary name) (xs vs : List Value) :
    ∃ n, (Machine.after stack depth log pins
      (collectRest rt depth e b h.argsFrame name ⟨h.lists.size⟩ (vs.map Value.quote)
        ((h.newList xs).1.withArgs e b s))).run rt n =
      Machine.after stack depth log pins (startBody h b,
        (h.newList (xs ++ vs)).1.withBody e b (s.put (canonical name) (.list ⟨h.lists.size⟩))) := by
  induction vs generalizing h xs with
  | nil =>
    refine ⟨0, ?_⟩
    rw [List.append_nil, List.map_nil, collectRest_nil hdepth henv hname]
    rfl
  | cons v vs ih =>
    let f := Frame.remaining e b h.argsFrame name ⟨h.lists.size⟩ (vs.map Value.quote)
    let h' : Heap := { h with pins := (v :: f.held) :: pins }
    have hpush : ((h'.newList xs).1.withArgs e b s).pushItem ⟨h.lists.size⟩ v =
        (h'.newList (xs ++ [v])).1.withArgs e b s :=
      congrArg (fun g : Heap => g.withArgs e b s) (pushItem_newList (h := h') v)
    have hresume : f.resume rt depth v ((h'.newList xs).1.withArgs e b s) =
        collectRest rt depth e b h'.argsFrame name ⟨h'.lists.size⟩ (vs.map Value.quote)
          ((h'.newList (xs ++ [v])).1.withArgs e b s) := by
      rw [← hpush]
      rfl
    obtain ⟨n, hn⟩ := ih (h := h') (xs ++ [v])
    refine ⟨n + 2, ?_⟩
    refine (Machine.run_quote n (f := f) rfl ?_).trans ?_
    · refine (congrArg (fun x => x.2.pins) hresume).trans ?_
      exact congrArg (fun x => x.2.pins) (collectRest_pins (h := h) hdepth henv hname _ vs h'.pins)
    · rw [List.append_assoc] at hn
      exact (congrArg (fun x => (Machine.after stack depth log pins x).run rt n) hresume).trans hn

end

def Heap.withRest (h : Heap) (params : List String) (vs : List Value) : Heap :=
  match remaining? params vs with
  | some xs => (h.newList xs).1
  | none => h

theorem bindArgs_rest {p : String} {args : List Value} (hrest : restName? p = some name) :
    bindArgs rt depth e b d (p :: params) args h =
      collectRest rt depth e b d name ⟨h.lists.size⟩ args (h.newList []).1 := by
  simp only [bindArgs, hrest]
  rfl

theorem bindArgs_nil {p : String} (hrest : restName? p = none) :
    bindArgs rt depth e b d (p :: params) [] h = invoke rt depth e d b [] h := by
  simp only [bindArgs, hrest]

theorem bindArgs_cons {p : String} {a : Value} {args : List Value} (hrest : restName? p = none) :
    bindArgs rt depth e b d (p :: params) (a :: args) h =
      (.eval a e [.argument e b d p params args], h) := by
  simp only [bindArgs, hrest]

theorem resume_argument {p : String} {args : List Value} (hname : Ordinary p) :
    (Frame.argument e b h.argsFrame p params args).resume rt depth v (h.withArgs e b s) =
      bindArgs rt depth e b h.argsFrame params args (h.withArgs e b (s.put (canonical p) v)) := by
  unfold Frame.resume
  simp only [define_argsFrame hname]

theorem paramName_of_none {p : String} (hrest : restName? p = none) : paramName p = p := by
  rw [paramName, hrest, Option.getD_none]

theorem paramName_of_some {p : String} (hrest : restName? p = some name) : paramName p = name := by
  rw [paramName, hrest, Option.getD_some]

theorem bindArgs_pins (hdepth : depth < rt.maxDepth) (henv : s.toList.lookup envName = none)
    (hparams : ∀ p ∈ params, Ordinary (paramName p)) (vs : List Value) (pins : List (List Value)) :
    bindArgs rt depth e b h.argsFrame params (vs.map Value.quote)
        (({ h with pins := pins } : Heap).withArgs e b s) =
      let x := bindArgs rt depth e b h.argsFrame params (vs.map Value.quote) (h.withArgs e b s)
      (x.1, { x.2 with pins := pins }) := by
  have hinvoke := invoke_withArgs (h := h) (e := e) (b := b) hdepth henv
  have hinvoke' := invoke_withArgs (h := { h with pins := pins }) (e := e) (b := b) hdepth henv
  cases params with
  | nil =>
    rw [bindArgs, bindArgs, hinvoke]
    exact hinvoke'
  | cons p params =>
    cases hrest : restName? p with
    | some name =>
      rw [bindArgs_rest hrest, bindArgs_rest hrest]
      exact collectRest_pins hdepth henv
        (paramName_of_some hrest ▸ hparams p List.mem_cons_self) [] vs pins
    | none =>
      cases vs with
      | nil =>
        rw [List.map_nil, bindArgs_nil hrest, bindArgs_nil hrest, hinvoke]
        exact hinvoke'
      | cons v vs =>
        rw [List.map_cons, bindArgs_cons hrest, bindArgs_cons hrest]
        rfl

/-- All arguments are bound, and the body is next. -/
theorem run_bindArgs (hdepth : depth < rt.maxDepth) (henv : s.toList.lookup envName = none)
    (hparams : ∀ p ∈ params, Ordinary (paramName p)) (vs : List Value) :
    ∃ n, (Machine.after stack depth log pins
      (bindArgs rt depth e b h.argsFrame params (vs.map Value.quote) (h.withArgs e b s))).run rt n =
      Machine.after stack depth log pins (startBody h b,
        (h.withRest params vs).withBody e b (s.putAll (bindings ⟨h.lists.size⟩ params vs))) := by
  induction params generalizing h s vs with
  | nil => exact ⟨0, by rw [bindArgs, invoke_withArgs hdepth henv]; rfl⟩
  | cons p params ih =>
    have hname := hparams p List.mem_cons_self
    cases hrest : restName? p with
    | some name =>
      rw [paramName_of_some hrest] at hname
      obtain ⟨n, hn⟩ := run_collectRest (h := h) (e := e) (b := b) hdepth henv hname [] vs
      refine ⟨n, ?_⟩
      rw [bindArgs_rest hrest]
      refine Eq.trans hn ?_
      simp only [bindings, Heap.withRest, remaining?, hrest, List.nil_append]
      rfl
    | none =>
      rw [paramName_of_none hrest] at hname
      cases vs with
      | nil =>
        refine ⟨0, ?_⟩
        rw [List.map_nil, bindArgs_nil hrest, invoke_withArgs hdepth henv]
        simp only [bindings, Heap.withRest, remaining?, hrest]
        rfl
      | cons v vs =>
        let f := Frame.argument e b h.argsFrame p params (vs.map Value.quote)
        let h' : Heap := { h with pins := (v :: f.held) :: pins }
        have hresume : f.resume rt depth v (h'.withArgs e b s) = bindArgs rt depth e b h'.argsFrame
            params (vs.map Value.quote) (h'.withArgs e b (s.put (canonical p) v)) :=
          resume_argument hname
        have henv' := lookup_env_put henv hname v
        have hparams' : ∀ p ∈ params, Ordinary (paramName p) :=
          fun q hq => hparams q (List.mem_cons_of_mem _ hq)
        obtain ⟨n, hn⟩ := ih (h := h') henv' hparams' vs
        refine ⟨n + 2, ?_⟩
        rw [List.map_cons, bindArgs_cons hrest]
        refine (Machine.run_quote n (f := f) rfl ?_).trans ?_
        · refine (congrArg (fun x => x.2.pins) hresume).trans ?_
          exact congrArg (fun x => x.2.pins)
            (bindArgs_pins (h := h) hdepth henv' hparams' vs h'.pins)
        · refine (congrArg (fun x => (Machine.after stack depth log pins x).run rt n) hresume).trans
            (hn.trans ?_)
          simp only [bindings, Heap.withRest, remaining?, hrest]
          cases remaining? params vs <;> rfl

end DictScript
