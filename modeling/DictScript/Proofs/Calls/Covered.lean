import DictScript.Proofs.Calls.Evaluation

/-!
Expressions that are still to be evaluated. A piece of work holds only what it needs itself, and yet
none of its expressions can be lost: each is part of a list or a block that is held further down.
-/
namespace DictScript
open Heap
variable {rt : Runtime} {h k : Heap} {K S T : Set Ref} {r s : Ref} {env d frame : DictId} {l : ListId}
variable {b : Block} {v x e : Value} {es kept : List Value} {depth dep : Nat} {f : Frame}
variable {fs gs base : List Frame} {below : List (List Value)} {m : Machine} {name param : String}
variable {params : List String} {y : Move × Heap}

namespace Heap

def ItemOf (h : Heap) (s r : Ref) : Prop := ∃ l, s = .list l ∧ r ∈ h.owned s

/-- All that the value refers to is got to from the values in `below`, through lists alone. -/
def Covers (h : Heap) (below : List (List Value)) (v : Value) : Prop :=
  ∀ r ∈ v.refs, ∃ vs ∈ below, ∃ w ∈ vs, ∃ s ∈ w.refs, Relation.ReflTransGen h.ItemOf s r

def KeepsItems (h k : Heap) : Prop := ∀ l v, v ∈ h.items l → v ∈ k.items l

theorem KeepsItems.of_same (hl : k.lists = h.lists) : KeepsItems h k :=
  fun _ _ hv => items_congr hl ▸ hv

theorem Covers.mono (hv : h.Covers below v) (hk : KeepsItems h k) : k.Covers below v := by
  intro r hr
  obtain ⟨vs, hvs, w, hw, s, hs, hpath⟩ := hv r hr
  refine ⟨vs, hvs, w, hw, s, hs, hpath.lift id ?_⟩
  rintro _ q ⟨l, rfl, hq⟩
  obtain ⟨u, hu, hq⟩ := mem_allRefs.mp hq
  exact ⟨l, rfl, mem_allRefs.mpr ⟨u, hk l u hu, hq⟩⟩

theorem Covers.cons (hv : h.Covers below v) (vs : List Value) : h.Covers (vs :: below) v := by
  intro r hr
  obtain ⟨ws, hws, hpath⟩ := hv r hr
  exact ⟨ws, List.mem_cons_of_mem _ hws, hpath⟩

/-- What a value on top refers to is covered. -/
theorem covers_of_refs {vs : List Value} {w : Value} (hw : w ∈ vs) (hv : ∀ r ∈ v.refs, r ∈ w.refs) :
    h.Covers (vs :: below) v :=
  fun r hr => ⟨vs, List.mem_cons_self, w, hw, r, hv r hr, .refl⟩

theorem covers_of_mem {vs : List Value} (hv : v ∈ vs) : h.Covers (vs :: below) v :=
  covers_of_refs hv fun _ => id

theorem Covers.item (hl : h.Covers below (.list l)) (hv : v ∈ h.items l) : h.Covers below v := by
  intro r hr
  obtain ⟨vs, hvs, w, hw, s, hs, hpath⟩ := hl (.list l) (List.mem_singleton_self _)
  exact ⟨vs, hvs, w, hw, s, hs, hpath.tail ⟨l, rfl, mem_allRefs.mpr ⟨v, hv, hr⟩⟩⟩

/-- What is covered by values that are held lives. -/
theorem Covers.living (hv : h.Covers below v) (hheld : ∀ vs ∈ below, vs ∈ h.pins) (hr : r ∈ v.refs) :
    h.Living h.heldRefs r := by
  obtain ⟨vs, hvs, w, hw, s, hs, hpath⟩ := hv r hr
  clear hr
  induction hpath with
  | refl => exact living_of_mem (mem_heldRefs.mpr (.inr ⟨vs, hheld vs hvs, w, hw, hs⟩))
  | tail _ hitem ih =>
    obtain ⟨l, rfl, hq⟩ := hitem
    exact ih.owned hq

theorem keepsItems_newList (h : Heap) (vs : List Value) : KeepsItems h (h.newList vs).1 := by
  intro l v hv
  rw [items_newList]
  split
  · rename_i hnew
    rw [items_of_size_le (Nat.le_of_eq hnew.symm)] at hv
    cases hv
  · exact hv

theorem keepsItems_pushItem (h : Heap) (l : ListId) (w : Value) :
    KeepsItems h (h.pushItem l w) := by
  intro m v hv
  by_cases hl : h.Allocated (.list l)
  · rw [items_pushItem hl]
    split
    · rename_i heq
      exact List.mem_append_left _ (heq ▸ hv)
    · exact hv
  · have hne : l.index ≠ m.index := by
      intro heq
      rw [items_of_size_le (heq ▸ Nat.le_of_not_lt hl)] at hv
      cases hv
    simpa [Heap.items, Heap.pushItem, Array.getD_eq_getD_getElem?, Array.getElem?_modify, hne]
      using hv

theorem lists_define (h : Heap) (d : DictId) (name : String) (v : Value) :
    (h.define d name v).2.lists = h.lists := by
  unfold define setParent
  split
  · rfl
  · dsimp only
    split <;> rfl
  all_goals rfl

theorem Edits.keepsItems {s s' : Scene} (hedits : Edits s s') : KeepsItems s.1 s'.1 := by
  induction hedits with
  | refl => exact fun _ _ hv => hv
  | tail _ hstep ih =>
    intro l v hv
    have hv := ih l v hv
    cases hstep with
    | newList vs _ => exact keepsItems_newList _ vs l v hv
    | pushItem l' w _ _ => exact keepsItems_pushItem _ l' w l v hv
    | _ => exact hv

end Heap

def Frame.pending : Frame → List Value
  | body rest _ _ => rest
  | operator args _ => args
  | argument _ _ _ _ _ args => args
  | remaining _ _ _ _ _ args => args
  | operand _ _ _ todo _ => todo.map Prod.snd
  | _ => []

def Stacks (h : Heap) (below : List (List Value)) : List Frame → Prop
  | [] => True
  | f :: fs => (∀ x ∈ f.pending, h.Covers (fs.map Frame.held ++ below) x) ∧ Stacks h below fs

theorem Stacks.mono (hfs : Stacks h below fs) (hk : KeepsItems h k) : Stacks k below fs := by
  induction fs with
  | nil => trivial
  | cons f fs ih => exact ⟨fun x hx => (hfs.1 x hx).mono hk, ih hfs.2⟩

theorem Stacks.append (hfs : Stacks h (gs.map Frame.held ++ below) fs) (hgs : Stacks h below gs) :
    Stacks h below (fs ++ gs) := by
  induction fs with
  | nil => exact hgs
  | cons f fs ih =>
    refine ⟨fun x hx => ?_, ih hfs.2⟩
    have hx := hfs.1 x hx
    rwa [← List.append_assoc, ← List.map_append] at hx

theorem stacks_nil : Stacks h below [] := trivial

theorem stacks_singleton (hf : ∀ x ∈ f.pending, h.Covers below x) : Stacks h below [f] :=
  ⟨hf, trivial⟩

structure Expects (below : List (List Value)) (y : Move × Heap) : Prop where
  control : ∀ x env, y.1.control = .eval x env → y.2.Covers (y.1.frames.map Frame.held ++ below) x
  stack : Stacks y.2 below y.1.frames

namespace Expects

theorem answer (hcontrol : ∀ x env, y.1.control ≠ .eval x env) (hframes : y.1.frames = []) :
    Expects below y :=
  ⟨fun x env hx => (hcontrol x env hx).elim, by rw [hframes]; trivial⟩

theorem ret (v : Value) (h : Heap) : Expects below (.ret v, h) := .answer nofun rfl

theorem raise (error : RuntimeError) (h : Heap) : Expects below (.raise error, h) :=
  .answer nofun rfl

theorem failIn (env : DictId) (cause : Cause) : Expects below (.failIn h env cause, k) :=
  raise _ _

theorem eval (he : h.Covers (f.held :: below) e) (hf : ∀ x ∈ f.pending, h.Covers below x)
    (env : DictId) : Expects below (.eval e env [f], h) where
  control := by
    rintro _ _ ⟨⟩
    exact he
  stack := ⟨hf, trivial⟩

/-- The next expression, and the others that wait in `f`, are covered from below. -/
theorem next (hes : ∀ x ∈ e :: es, h.Covers below x) (hf : f.pending = es) (env : DictId) :
    Expects below (.eval e env [f], h) :=
  eval ((hes e List.mem_cons_self).cons _)
    (fun x hx => hes x (List.mem_cons_of_mem _ (hf ▸ hx))) env

theorem body (hes : ∀ x ∈ es, h.Covers (fs.map Frame.held ++ below) x) (hfs : Stacks h below fs)
    (env : DictId) : Expects below (.body es env fs, h) := by
  cases es with
  | nil => exact ⟨nofun, hfs⟩
  | cons e es =>
    refine ⟨?_, fun x hx => hes x (List.mem_cons_of_mem _ hx), hfs⟩
    rintro _ _ ⟨⟩
    exact (hes e List.mem_cons_self).cons _

end Expects

/-! The rules, one by one. -/

theorem expects_evalSymbol (name : String) (env : DictId) (h : Heap) :
    Expects below (evalSymbol name env h) := by
  unfold evalSymbol
  split
  · exact .ret _ _
  · split
    · exact .ret _ _
    · exact .failIn _ _

theorem expects_field (name : String) (d env : DictId) (h : Heap) :
    Expects below (field d name env h) := by
  unfold field
  split
  · exact .failIn _ _
  · split <;> exact .ret _ _

/-- The body of a block is covered by the block, which the application holds. -/
theorem expects_invoke (depth : Nat) (env d : DictId) (b : Block) (kept : List Value) (h : Heap) :
    Expects below (invoke rt depth env d b kept h) := by
  unfold invoke
  simp only
  split
  · exact .failIn _ _
  · refine .body (fun x hx => ?_) (stacks_singleton (List.forall_mem_nil _)) _
    refine covers_of_refs (w := .block b) (by simp [Frame.held]) fun r hr => ?_
    cases b
    simp only [Value.refs, blockRefs, List.mem_cons, List.mem_append]
    exact .inr (.inr (mem_allRefs.mpr ⟨x, hx, hr⟩))

theorem expects_collectRest (hes : ∀ x ∈ es, h.Covers below x) :
    Expects below (collectRest rt depth env b frame param l es h) := by
  cases es with
  | nil =>
    rw [collectRest]
    split
    · exact .raise _ _
    · exact expects_invoke _ _ _ _ _ _
  | cons e es => exact .next hes rfl env

theorem expects_bindArgs (hes : ∀ x ∈ es, h.Covers below x) :
    Expects below (bindArgs rt depth env b frame params es h) := by
  cases params with
  | nil => exact expects_invoke _ _ _ _ _ _
  | cons p params =>
    unfold bindArgs
    simp only
    split
    · exact expects_collectRest fun x hx => (hes x hx).mono (keepsItems_newList h [])
    · cases es with
      | nil => exact expects_invoke _ _ _ _ _ _
      | cons e es => exact .next hes rfl env

theorem expects_callBlock (hes : ∀ x ∈ es, h.Covers below x) :
    Expects below (callBlock rt depth env b es h) := by
  rw [callBlock]
  split
  · exact .failIn _ _
  · exact expects_bindArgs fun x hx => (hes x hx).mono (.of_same rfl)

theorem expects_applyWithin (he : h.Covers below e) : Expects below (applyWithin env d e h) := by
  have hscope : ∀ scope k, KeepsItems h k →
      Expects below (.eval e scope [.within env d scope], k) :=
    fun scope k hk => .eval ((he.mono hk).cons _) (List.forall_mem_nil _) scope
  unfold applyWithin
  simp only
  split
  · exact hscope _ _ (.of_same rfl)
  · exact hscope _ _ (.of_same rfl)

theorem expects_finishWithin (depth : Nat) (env d scope : DictId) (v : Value) (h : Heap) :
    Expects below (finishWithin rt depth env d scope v h) := by
  unfold finishWithin
  split
  · exact expects_field _ _ _ _
  · exact expects_invoke _ _ _ _ _ _
  · exact .ret _ _

theorem expects_applyValue (v : Value) (hes : ∀ x ∈ es, h.Covers below x) :
    Expects below (applyValue rt depth v es env h) := by
  unfold applyValue
  split
  · exact expects_callBlock hes
  · exact expects_applyWithin (hes _ List.mem_cons_self)
  · exact .next hes rfl _
  · exact .ret _ _
  · exact .failIn _ _

theorem expects_indexList (l : ListId) (v : Value) (env : DictId) (h : Heap) :
    Expects below (indexList l v env h) := by
  unfold indexList
  split
  · exact .ret _ _
  · split
    · exact .ret _ _
    · exact .failIn _ _
  · exact .failIn _ _

theorem expects_assignAll (env : DictId) (xs : List (String × Value)) (h : Heap) :
    Expects below (assignAll env xs h) := by
  induction xs generalizing h with
  | nil => exact .ret _ _
  | cons x xs ih =>
    rw [assignAll]
    split
    · exact .failIn _ _
    · exact ih _

theorem expects_finish (op : Operation) (env : DictId) (vs : List Value) (h : Heap) :
    Expects below (op.finish env vs h) := by
  unfold Operation.finish
  split
  · exact .ret _ _
  · exact .ret _ _
  · split
    · exact .raise _ _
    · exact .ret _ _
  · exact expects_assignAll _ _ _
  · exact .ret _ _
  · exact .ret _ _
  · exact .ret _ _
  · exact .ret _ _

theorem expects_evalOperands (op : Operation) {todo : List (Operand × Value)} (vs : List Value)
    (htodo : ∀ x ∈ todo, h.Covers below x.2) : Expects below (evalOperands op env todo vs h) := by
  cases todo with
  | nil => exact expects_finish op env vs h
  | cons x todo =>
    have hes : ∀ y ∈ x.2 :: todo.map Prod.snd, h.Covers below y := by
      intro y hy
      obtain rfl | hy := List.mem_cons.mp hy
      · exact htodo x List.mem_cons_self
      · obtain ⟨z, hz, rfl⟩ := List.mem_map.mp hy
        exact htodo z (List.mem_cons_of_mem _ hz)
    exact .next hes rfl env

theorem expects_evalForm (form : Form) (hes : ∀ x ∈ es, h.Covers below x) :
    Expects below (evalForm form es env h) := by
  have hoperation : ∀ op : Operation, Expects below (evalOperation op es env h) := by
    intro op
    unfold evalOperation
    split
    · exact expects_evalOperands op [] fun x hx => hes _ (List.of_mem_zip hx).2
    · exact .failIn _ _
  cases form with
  | sequence => exact .body hes stacks_nil env
  | _ => exact hoperation _

theorem expects_evalList (hl : h.Covers below (.list l)) : Expects below (evalList l env h) := by
  have hitems : ∀ x ∈ h.items l, h.Covers below x := fun x hx => hl.item hx
  rw [evalList]
  split
  · exact .ret _ _
  · rename_i head args heq
    rw [heq] at hitems
    have hargs : ∀ x ∈ args, h.Covers below x := fun x hx => hitems x (List.mem_cons_of_mem _ hx)
    split
    · exact .ret _ _
    · split
      · exact expects_evalForm _ hargs
      · exact .next hitems rfl env

theorem expects_evalEntries (literal d scope : DictId) (names : List String) (h : Heap) :
    Expects below (evalEntries literal d scope names h) := by
  cases names with
  | nil => exact .ret _ _
  | cons name names =>
    exact .eval (covers_of_mem (by simp [Frame.held])) (List.forall_mem_nil _) _

theorem expects_begin (depth : Nat) (request : Request) (h : Heap) :
    Expects (request.held :: below) (request.begin rt depth h) := by
  cases request with
  | evaluate expr env =>
    refine ⟨?_, trivial⟩
    rintro _ _ ⟨⟩
    exact covers_of_mem List.mem_cons_self
  | body exprs env =>
    exact .body (fun x hx => covers_of_mem (List.mem_cons_of_mem _ hx)) stacks_nil env
  | apply env d target => exact expects_applyWithin (covers_of_mem (by simp [Request.held]))
  | call env b args =>
    refine expects_callBlock fun x hx => ?_
    obtain ⟨v, hv, rfl⟩ := List.mem_map.mp hx
    exact covers_of_refs (w := v) (by simp [Request.held, hv]) fun r hr => hr

/-- A host function that waits holds what it has asked for. -/
theorem expects_reply (depth : Nat) (reply : Reply) : Expects below (reply.move rt depth) := by
  cases reply with
  | done result k =>
    cases result with
    | error e => exact .raise _ _
    | ok v => exact .ret _ _
  | log text k => exact .answer nofun rfl
  | ask request k resume =>
    have hbegin : Expects (request.held :: below) (request.begin rt depth k) :=
      expects_begin depth request k
    obtain ⟨hcontrol, hstack⟩ := hbegin
    refine ⟨fun x env hx => ?_, hstack.append (stacks_singleton (List.forall_mem_nil _))⟩
    have hx := hcontrol x env hx
    simpa [Reply.move, Frame.held] using hx

theorem expects_evalExpr (depth : Nat) (env : DictId) (he : h.Covers below e) :
    Expects below (evalExpr rt depth e env h) := by
  unfold evalExpr
  split
  · exact expects_evalSymbol _ _ _
  · exact .ret _ _
  · exact expects_evalEntries _ _ _ _ _
  · exact expects_evalList he
  · unfold evalNative
    split
    · exact expects_reply _ _
    · split
      · exact expects_reply _ _
      · exact .ret _ _
    · exact .ret _ _
  · exact .ret _ _

theorem expects_resume (depth : Nat) (v : Value) (hf : ∀ x ∈ f.pending, h.Covers below x) :
    Expects below (f.resume rt depth v h) := by
  cases f with
  | body rest env last =>
    cases rest with
    | nil => exact .ret _ _
    | cons e es => exact .next hf rfl env
  | application frame kept => exact .ret _ _
  | operator args env => exact expects_applyValue v hf
  | argument env b frame param params args =>
    have hkept : KeepsItems h (h.define frame param v).2 := .of_same (lists_define h frame param v)
    unfold Frame.resume
    simp only
    generalize h.define frame param v = x at hkept ⊢
    obtain ⟨result, k⟩ := x
    cases result with
    | error e => exact .raise _ _
    | ok _ => exact expects_bindArgs fun x hx => (hf x hx).mono hkept
  | remaining env b frame param collected args =>
    exact expects_collectRest fun x hx => (hf x hx).mono (keepsItems_pushItem h collected v)
  | within env dict scope => exact expects_finishWithin _ _ _ _ _ _
  | entry literal dict scope expr name names => exact expects_evalEntries _ _ _ _ _
  | index l env => exact expects_indexList _ _ _ _
  | operand op env want todo done =>
    unfold Frame.resume
    simp only
    split
    · exact .failIn _ _
    · exact expects_evalOperands op _ fun x hx => hf _ (List.mem_map_of_mem hx)
  | host resume kept => exact expects_reply _ _

theorem expects_unwind (depth : Nat) (f : Frame) (error : RuntimeError) (h : Heap) :
    Expects below (f.unwind rt depth error h) := by
  unfold Frame.unwind
  split
  · exact .raise _ _
  · exact expects_reply _ _
  · exact .raise _ _

/-! Steps and runs. -/

namespace Machine

/-- The expression that comes next and all that wait are covered from further down. -/
structure Covered (below : List (List Value)) (m : Machine) : Prop where
  control : ∀ x env, m.control = .eval x env →
    m.heap.Covers (m.stack.map Frame.held ++ below) x
  stack : Stacks m.heap below m.stack

/-- A decision that is put into effect on top of covered work. -/
theorem covered_proceed {stack : List Frame} {log : List String}
    (hstack : Stacks h below stack) (hkept : KeepsItems h k) (hlists : k.lists = y.2.lists)
    (hy : Expects (stack.map Frame.held ++ below) y) :
    (proceed stack depth log y.1 k).Covered below := by
  have hsame : KeepsItems y.2 (proceed stack depth log y.1 k).heap := .of_same hlists
  refine ⟨fun x env hx => ?_, ?_⟩
  · have hx := (hy.control x env hx).mono hsame
    rwa [← List.append_assoc, ← List.map_append] at hx
  · exact (hy.stack.mono hsame).append (hstack.mono hkept)

theorem Inside.keepsItems_step (hrt : rt.Tame K) (hm : m.Inside K [] depth S) :
    KeepsItems m.heap (m.step rt).heap := by
  by_cases hrests : m.Rests []
  · rw [step_of_result (rests_nil_iff.mp hrests)]
    exact .of_same rfl
  · obtain ⟨T, hedits, -⟩ := hm.step hrt hrests
    exact hedits.keepsItems

theorem Covered.step (hrt : rt.Tame K) (hm : m.Inside K [] depth S) (hcovered : m.Covered below) :
    (m.step rt).Covered below := by
  have hkept := hm.keepsItems_step hrt
  obtain ⟨control, stack, dep, h, log⟩ := m
  obtain ⟨hcontrol, hstack⟩ := hcovered
  cases control with
  | eval e env =>
    exact covered_proceed hstack hkept rfl (expects_evalExpr dep env (hcontrol e env rfl))
  | ret v =>
    cases stack with
    | nil => exact ⟨hcontrol, hstack⟩
    | cons f stack =>
      refine covered_proceed hstack.2 hkept rfl (expects_resume _ v fun x hx => ?_)
      exact (hstack.1 x hx).mono (.of_same (lists_hold h v))
  | raise error =>
    cases stack with
    | nil => exact ⟨hcontrol, hstack⟩
    | cons f stack => exact covered_proceed hstack.2 hkept rfl (expects_unwind _ f error h)

/-- However many steps the machine takes, no expression is lost. -/
theorem Covered.run (hrt : rt.Tame K) (fuel : Nat) (hm : m.Inside K [] depth S)
    (hcovered : m.Covered below) : (m.run rt fuel).Covered below := by
  induction fuel generalizing m S with
  | zero => exact hcovered
  | succ fuel ih =>
    rw [Machine.run]
    split
    · exact hcovered
    · rename_i hresult
      have hworks : ¬ m.Rests [] := by simp [rests_nil_iff, hresult]
      obtain ⟨T, -, hinside⟩ := hm.step hrt hworks
      exact ih hinside (hcovered.step hrt hm)

/-- A request holds what it has evaluated. -/
theorem covered_begin (rt : Runtime) (request : Request) (log : List String) (h : Heap) :
    (proceed [] 0 log (request.begin rt 0 h).1 (request.begin rt 0 h).2).Covered
      (request.held :: below) :=
  covered_proceed (h := (request.begin rt 0 h).2) trivial (.of_same rfl) rfl
    (expects_begin 0 request h)

end Machine
end DictScript
