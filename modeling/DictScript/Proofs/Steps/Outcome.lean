import DictScript.Eval.Step
import DictScript.Proofs.Frozen.Growth

/-!
What the rules of the machine can come to: which changes they make to the heap, which work they put
on the stack, and where they run a block. Statements about all runs follow from this alone.
-/
namespace DictScript
open Heap

/-! Changes to the heap. -/

/-- One change: new objects, a binding, or a link. No item is added to a list that was there, and no
binding is taken away. -/
inductive Heap.Change : Heap → Heap → Prop where
  | grow {h k : Heap} : Grown h k → Heap.Change h k
  | put {h : Heap} (d : DictId) (n : String) (v : Value) : Heap.Change h (h.put d n v)
  | link {h : Heap} (d : DictId) (p : Option DictId) (declared : Bool) :
      Heap.Change h (h.link d p declared)
  | setCaller {h : Heap} (d : DictId) (c : Option DictId) : Heap.Change h (h.setCaller d c)

abbrev Heap.Changes : Heap → Heap → Prop := Relation.ReflTransGen Heap.Change

section
variable {h k : Heap} {d : DictId} {r : Ref}

theorem changes_of_grown (hgrown : Grown h k) : h.Changes k := .single (.grow hgrown)

theorem changes_of_same (hl : k.lists = h.lists) (hd : k.dicts = h.dicts) : h.Changes k :=
  changes_of_grown (.of_same hl hd)

theorem changes_putAll (d : DictId) (xs : List (String × Value)) (h : Heap) :
    h.Changes (h.putAll d xs) := by
  induction xs generalizing h with
  | nil => exact .refl
  | cons x xs ih => exact .head (.put d x.1 x.2) (ih _)

theorem changes_define (h : Heap) (d : DictId) (n : String) (v : Value) :
    h.Changes (h.define d n v).2 := by
  unfold Heap.define setParent
  split
  · exact .single (.put _ _ _)
  · dsimp only
    split
    · exact .refl
    · exact .single (.link _ _ _)
  · exact .single (.link _ _ _)
  · exact .single (.setCaller _ _)
  · exact .single (.setCaller _ _)
  · exact .refl

/-- No list is lost. -/
theorem lists_le_of_changes (hw : h.Changes k) : h.lists.size ≤ k.lists.size := by
  induction hw with
  | refl => exact le_refl _
  | tail _ hone ih =>
    cases hone with
    | grow hgrown => exact ih.trans hgrown.lists
    | put _ _ _ => exact ih
    | link _ _ _ => exact ih
    | setCaller _ _ => exact ih

end

/-! What is decided. -/

def RuntimeError.IsExhaustion (e : RuntimeError) : Prop := e.cause.kind = .stackExhaustion

def Control.Exhausted : Control → Prop
  | .raise e => e.IsExhaustion
  | _ => False

/-- Work on which nothing depends but the expression it evaluates: no block's body runs, no host
function waits, and no list is being filled. -/
def Frame.isPlain : Frame → Bool
  | .application _ _ => false
  | .host _ _ => false
  | .remaining _ _ _ _ _ _ => false
  | _ => true

def Frame.filled? : Frame → Option ListId
  | .remaining _ _ _ _ l _ => some l
  | _ => none

structure Move.Plain (m : Move) : Prop where
  frames : ∀ f ∈ m.frames, f.isPlain = true
  control : ¬ m.control.Exhausted

def Move.onTop (m : Move) (outer : List Frame) : Move := { m with frames := m.frames ++ outer }

@[simp] theorem Move.onTop_nil (m : Move) : m.onTop [] = m := by
  rw [onTop, List.append_nil]

/-- What a rule comes to at a depth, from the heap `h`. A list that is filled is the one given, or
new. -/
inductive Outcome (rt : Runtime) (depth : Nat) (h : Heap) (filled : Option ListId) :
    Move × Heap → Prop where
  | plain {m : Move} {k : Heap} : h.Changes k → m.Plain → Outcome rt depth h filled (m, k)
  | filling {k : Heap} {e : Value} {env : DictId} {b : Block} {frame : DictId} {param : String}
      {l : ListId} {es : List Value} : h.Changes k → filled = some l ∨ ¬ h.Allocated (.list l) →
      Outcome rt depth h filled (.eval e env [.remaining env b frame param l es], k)
  | applied {k : Heap} (env args : DictId) (b : Block) (kept : List Value) : h.Changes k →
      Outcome rt depth h filled (invoke rt depth env args b kept k)

section
variable {rt : Runtime} {depth : Nat} {h k : Heap} {filled : Option ListId} {r : Move × Heap}
variable {cause : Cause} {env d : DictId} {v : Value} {name : String}

theorem Outcome.after (hw : h.Changes k) (hr : Outcome rt depth k filled r) :
    Outcome rt depth h filled r := by
  cases hr with
  | plain hw' hm => exact .plain (hw.trans hw') hm
  | filling hw' hl =>
    refine .filling (hw.trans hw') (hl.imp_right fun hnew hold => hnew ?_)
    exact Nat.lt_of_lt_of_le hold (lists_le_of_changes hw)
  | applied env args b kept hw' => exact .applied env args b kept (hw.trans hw')

theorem cause_raisedIn (e : RuntimeError) (h : Heap) (d : DictId) :
    (e.raisedIn h d).cause = e.cause := by
  unfold RuntimeError.raisedIn
  split <;> rfl

theorem outcome_ret (v : Value) (hw : h.Changes k) : Outcome rt depth h filled (.ret v, k) :=
  .plain hw ⟨List.forall_mem_nil _, id⟩

theorem outcome_raise {e : RuntimeError} (he : ¬ e.IsExhaustion) (hw : h.Changes k) :
    Outcome rt depth h filled (.raise e, k) :=
  .plain hw ⟨List.forall_mem_nil _, he⟩

theorem outcome_failIn (env : DictId) (hcause : cause.kind ≠ .stackExhaustion)
    (hw : h.Changes k) : Outcome rt depth h filled (.failIn k env cause, k) := by
  refine outcome_raise ?_ hw
  rw [RuntimeError.IsExhaustion, cause_raisedIn]
  exact hcause

theorem outcome_eval {f : Frame} (e : Value) (env : DictId) (hf : f.isPlain = true)
    (hw : h.Changes k) : Outcome rt depth h filled (.eval e env [f], k) :=
  .plain hw ⟨List.forall_mem_singleton.mpr hf, id⟩

theorem outcome_body (es : List Value) (env : DictId) :
    Outcome rt depth h filled (.body es env [], h) := by
  cases es with
  | nil => exact .plain .refl ⟨List.forall_mem_nil _, id⟩
  | cons e es => exact outcome_eval e env rfl .refl

/-- A name is bound, and the work goes on unless a link refuses. -/
theorem outcome_define {go : Heap → Move × Heap} (h : Heap) (d : DictId) (name : String)
    (v : Value) (hgo : ∀ k, Outcome rt depth k filled (go k)) :
    Outcome rt depth h filled (match h.define d name v with
      | (.error e, h) => (.raise e, h)
      | (.ok (), h) => go h) := by
  have hw := changes_define h d name v
  have herror : ∀ e, (h.define d name v).1 = .error e → ¬ e.IsExhaustion := by
    intro e he
    unfold Heap.define setParent at he
    split at he
    · cases he
    · dsimp only at he
      split at he
      · cases he
        exact nofun
      · cases he
    · cases he
    · cases he
    · cases he
    · cases he
      exact nofun
  generalize h.define d name v = x at hw herror ⊢
  obtain ⟨result, k⟩ := x
  cases result with
  | error e => exact outcome_raise (herror e rfl) hw
  | ok _ => exact (hgo k).after hw

/-! The rules, one by one. -/

theorem outcome_evalSymbol : Outcome rt depth h filled (evalSymbol name env h) := by
  unfold evalSymbol
  split
  · exact outcome_ret _ .refl
  · split
    · exact outcome_ret _ .refl
    · exact outcome_failIn env nofun .refl

theorem outcome_field : Outcome rt depth h filled (field d name env h) := by
  unfold field
  split
  · exact outcome_failIn env nofun .refl
  · split
    · exact outcome_ret _ (changes_of_same rfl rfl)
    · exact outcome_ret _ .refl

theorem outcome_collectRest {b : Block} {frame : DictId} {param : String} {l : ListId}
    (es : List Value) (hl : filled = some l ∨ ¬ h.Allocated (.list l)) :
    Outcome rt depth h filled (collectRest rt depth env b frame param l es h) := by
  cases es with
  | cons e es => exact .filling .refl hl
  | nil => exact outcome_define h frame param _ fun k => .applied _ _ _ _ .refl

theorem outcome_bindArgs {b : Block} {frame : DictId} (params : List String) (es : List Value) :
    Outcome rt depth h filled (bindArgs rt depth env b frame params es h) := by
  cases params with
  | nil => exact .applied _ _ _ _ .refl
  | cons p params =>
    unfold bindArgs
    simp only
    split
    · cases es with
      | cons e es => exact .filling (changes_of_grown (grown_newList h [])) (.inr (Nat.lt_irrefl _))
      | nil =>
        refine .after (changes_of_grown (grown_newList h [])) ?_
        exact outcome_define _ frame _ _ fun k => .applied _ _ _ _ .refl
    · cases es with
      | nil => exact .applied _ _ _ _ .refl
      | cons e es => exact outcome_eval _ _ rfl .refl

theorem outcome_callBlock (b : Block) (es : List Value) :
    Outcome rt depth h filled (callBlock rt depth env b es h) := by
  unfold callBlock
  split
  · exact outcome_failIn env nofun .refl
  · exact (outcome_bindArgs _ _).after (changes_of_grown (grown_newDict _ _))

theorem outcome_applyWithin (target : Value) :
    Outcome rt depth h filled (applyWithin env d target h) := by
  unfold applyWithin
  simp only
  split
  · exact outcome_eval _ _ rfl .refl
  · exact outcome_eval _ _ rfl (changes_of_grown (grown_newDict _ _))

theorem outcome_finishWithin (scope : DictId) (v : Value) :
    Outcome rt depth h filled (finishWithin rt depth env d scope v h) := by
  unfold finishWithin
  split
  · exact outcome_field
  · exact .applied _ _ _ _ .refl
  · exact outcome_ret _ .refl

theorem outcome_applyValue (v : Value) (es : List Value) :
    Outcome rt depth h filled (applyValue rt depth v es env h) := by
  unfold applyValue
  split
  · exact outcome_callBlock _ _
  · exact outcome_applyWithin _
  · exact outcome_eval _ _ rfl .refl
  · exact outcome_ret _ .refl
  · exact outcome_failIn env nofun .refl

theorem outcome_indexList (l : ListId) (v : Value) :
    Outcome rt depth h filled (indexList l v env h) := by
  unfold indexList
  split
  · exact outcome_ret _ .refl
  · split
    · exact outcome_ret _ .refl
    · exact outcome_failIn env nofun .refl
  · exact outcome_failIn env nofun .refl

theorem outcome_assignAll (xs : List (String × Value)) (h : Heap) :
    Outcome rt depth h filled (assignAll env xs h) := by
  induction xs generalizing h with
  | nil => exact outcome_ret _ .refl
  | cons x xs ih =>
    obtain ⟨name, v⟩ := x
    rw [assignAll]
    split
    · exact outcome_failIn env nofun .refl
    · exact (ih _).after (.single (.put _ _ _))

theorem outcome_finish (op : Operation) (vs : List Value) :
    Outcome rt depth h filled (op.finish env vs h) := by
  unfold Operation.finish
  split
  · exact outcome_ret _ (changes_putAll _ _ _)
  · exact outcome_ret _ (changes_putAll _ _ _)
  · exact outcome_define h _ _ _ fun k => outcome_ret _ .refl
  · exact outcome_assignAll _ _
  · exact outcome_ret _ .refl
  · exact outcome_ret _ .refl
  · exact outcome_ret _ .refl
  · exact outcome_ret _ .refl

theorem outcome_evalOperands (op : Operation) (todo : List (Operand × Value))
    (done : List Value) : Outcome rt depth h filled (evalOperands op env todo done h) := by
  cases todo with
  | nil => exact outcome_finish op done
  | cons x todo => exact outcome_eval _ _ rfl .refl

theorem outcome_evalForm (form : Form) (es : List Value) :
    Outcome rt depth h filled (evalForm form es env h) := by
  have hoperation : ∀ op : Operation, Outcome rt depth h filled (evalOperation op es env h) := by
    intro op
    unfold evalOperation
    split
    · exact outcome_evalOperands _ _ _
    · exact outcome_failIn env nofun .refl
  cases form with
  | sequence => exact outcome_body es env
  | _ => exact hoperation _

theorem outcome_evalList (l : ListId) : Outcome rt depth h filled (evalList l env h) := by
  unfold evalList
  split
  · exact outcome_ret _ .refl
  · split
    · exact outcome_ret _ (changes_of_same rfl rfl)
    · split
      · exact outcome_evalForm _ _
      · exact outcome_eval _ _ rfl .refl

theorem outcome_evalEntries (literal dict scope : DictId) (names : List String) :
    Outcome rt depth h filled (evalEntries literal dict scope names h) := by
  cases names with
  | nil => exact outcome_ret _ .refl
  | cons name names => exact outcome_eval _ _ rfl .refl

theorem outcome_evalLiteral (literal : DictId) :
    Outcome rt depth h filled (evalLiteral literal env h) := by
  unfold evalLiteral
  simp only
  refine (outcome_evalEntries _ _ _ _).after ?_
  refine .trans ?_ (changes_of_grown (grown_newDict _ _))
  refine .trans (changes_of_grown (grown_newDict h {})) ?_
  split
  · exact .single (.link _ _ _)
  · exact .single (.link _ _ _)

theorem changes_nameBlock (name : String) (v : Value) (h : Heap) :
    h.Changes (nameBlock name v h).1 := by
  unfold nameBlock
  split
  · split
    · exact changes_of_same rfl rfl
    · exact .refl
  · exact .refl

/-- Whatever the host asks for begins with such a rule. -/
theorem outcome_begin (request : Request) :
    Outcome rt depth h filled (request.begin rt depth h) := by
  cases request with
  | evaluate expr env => exact .plain .refl ⟨List.forall_mem_nil _, id⟩
  | body exprs env => exact outcome_body _ _
  | apply env dict target => exact outcome_applyWithin _
  | call env b vs => exact outcome_callBlock _ _

/-- Everything but a native is evaluated by such a rule. -/
theorem outcome_evalExpr (e : Value) (he : ∀ n, e ≠ .native n) :
    Outcome rt depth h filled (evalExpr rt depth e env h) := by
  unfold evalExpr
  split
  · exact outcome_evalSymbol
  · exact outcome_ret _ .refl
  · exact outcome_evalLiteral _
  · exact outcome_evalList _
  · exact (he _ rfl).elim
  · exact outcome_ret _ .refl

def Frame.received (f : Frame) (v : Value) (h : Heap) : Heap :=
  match f.filled? with
  | some l => h.pushItem l v
  | none => h

/-- Everything but a host function goes on by such a rule. -/
theorem outcome_resume (f : Frame) (v : Value) (hf : ∀ resume kept, f ≠ .host resume kept) :
    Outcome rt depth (f.received v h) f.filled? (f.resume rt depth v h) := by
  cases f with
  | body rest env last =>
    cases rest with
    | nil => exact outcome_ret _ .refl
    | cons e es => exact outcome_eval _ _ rfl .refl
  | application frame kept => exact outcome_ret _ .refl
  | operator es env => exact outcome_applyValue _ _
  | argument env b frame param params es =>
    exact outcome_define h frame param v fun k => outcome_bindArgs _ _
  | remaining env b frame param l es => exact outcome_collectRest _ (.inl rfl)
  | within env dict scope => exact outcome_finishWithin _ _
  | entry literal dict scope expr name names =>
    refine (outcome_evalEntries _ _ _ _).after ?_
    exact (changes_nameBlock name v h).trans (.single (.put _ _ _))
  | index l env => exact outcome_indexList _ _
  | operand op env want todo done =>
    unfold Frame.resume
    simp only
    split
    · rename_i cause hcause
      refine outcome_failIn env (fun hkind => ?_) .refl
      cases want <;> cases v <;> cases hcause <;> cases hkind
    · exact outcome_evalOperands _ _ _
  | host resume kept => exact (hf resume kept rfl).elim

/-! What running a block comes to. -/

theorem changes_invoke (env args : DictId) (b : Block) (kept : List Value) :
    h.Changes (invoke rt depth env args b kept h).2 := by
  have hscope : h.Changes (lexicalScope env args b h).1 := by
    unfold lexicalScope
    split
    · split
      · exact .refl
      · exact changes_of_grown (grown_newDict _ _)
    · exact .refl
  unfold invoke
  simp only
  generalize lexicalScope env args b h = x at hscope ⊢
  obtain ⟨h₁, lexical⟩ := x
  have hframe : h.Changes (h₁.frame lexical env b.name).1 :=
    hscope.trans (changes_of_grown (grown_newDict _ _))
  simp only
  generalize h₁.frame lexical env b.name = x at hframe ⊢
  obtain ⟨h₂, frame⟩ := x
  have hargs := hframe.trans
    (changes_putAll frame ((h₂.slots args).filter fun s => s.1 ≠ envName) h₂)
  cases b.receiver with
  | none => split <;> exact hargs
  | some d => split <;> exact hargs.tail (.put _ _ _)

/-- Within the limit the body begins, in a frame of its own. -/
theorem invoke_of_lt (env args : DictId) (b : Block) (kept : List Value) (h : Heap)
    (hdepth : depth < rt.maxDepth) :
    ∃ frame kept', (invoke rt depth env args b kept h).1 =
      .body b.body frame [.application frame kept'] := by
  unfold invoke
  simp only [if_neg (Nat.not_le.mpr hdepth)]
  exact ⟨_, _, rfl⟩

/-- At the limit the application fails, and nothing of the body is left to do. -/
theorem invoke_of_le (env args : DictId) (b : Block) (kept : List Value) (h : Heap)
    (hdepth : rt.maxDepth ≤ depth) :
    ∃ e, (invoke rt depth env args b kept h).1 = .raise e ∧ e.cause = .exhausted rt.maxDepth := by
  unfold invoke
  simp only [if_pos hdepth]
  exact ⟨_, rfl, cause_raisedIn _ _ _⟩

theorem mem_frames_body {f : Frame} {es : List Value} {fs : List Frame}
    (hf : f ∈ (Move.body es env fs).frames) : f.isPlain = true ∨ f ∈ fs := by
  cases es with
  | nil => exact .inr hf
  | cons e es =>
    cases List.mem_cons.mp hf with
    | inl heq => exact .inl (heq ▸ rfl)
    | inr hf => exact .inr hf

/-- The work that a rule leaves to be done. -/
theorem Outcome.frame_cases {f : Frame} (hr : Outcome rt depth h filled r)
    (hf : f ∈ r.1.frames) : f.isPlain = true ∨ f.isApplication = true ∨
      ∃ l, f.filled? = some l ∧ (filled = some l ∨ ¬ h.Allocated (.list l)) := by
  cases hr with
  | plain _ hm => exact .inl (hm.frames f hf)
  | @filling k e env b frame param l es _ hnew =>
    obtain rfl := List.mem_singleton.mp hf
    exact .inr (.inr ⟨l, rfl, hnew⟩)
  | @applied k env args b kept _ =>
    by_cases hlt : depth < rt.maxDepth
    · obtain ⟨frame, kept', hinvoke⟩ := invoke_of_lt env args b kept k hlt
      rw [hinvoke] at hf
      refine (mem_frames_body hf).imp_right fun hf => .inl ?_
      rw [List.mem_singleton.mp hf]
      rfl
    · obtain ⟨e, hinvoke, -⟩ := invoke_of_le env args b kept k (Nat.le_of_not_lt hlt)
      rw [hinvoke] at hf
      cases hf

theorem Outcome.changes (hr : Outcome rt depth h filled r) : h.Changes r.2 := by
  cases hr with
  | plain hw _ => exact hw
  | filling hw _ => exact hw
  | applied env args b kept hw => exact hw.trans (changes_invoke env args b kept)

end

/-! Steps. -/

namespace Machine
variable {rt : Runtime} {m : Machine} {r : Move × Heap}

def pending (m : Machine) : List Frame :=
  match m.control with
  | .eval _ _ => m.stack
  | _ => m.stack.tail

def ruleDepth (m : Machine) : Nat :=
  match m.control, m.stack with
  | .eval _ _, _ => m.depth
  | _, f :: _ => depthBelow f m.depth
  | _, [] => m.depth

def filled? (m : Machine) : Option ListId :=
  match m.control, m.stack with
  | .ret _, f :: _ => f.filled?
  | _, _ => none

def ruleHeap (m : Machine) : Heap :=
  match m.control, m.stack with
  | .ret v, f :: _ => f.received v (m.heap.hold v)
  | _, _ => m.heap

inductive Replies (rt : Runtime) : Machine → Reply → Prop where
  | primitive {n : NativeId} {name : String} {p : Primitive} {env : DictId} {stack : List Frame}
      {depth : Nat} {h : Heap} {log : List String} :
      h.native? n = some (.function name (.primitive p)) →
      Replies rt ⟨.eval (.native n) env, stack, depth, h, log⟩ (p.run rt h env)
  | function {n : NativeId} {name key : String} {f : HostFunction} {env : DictId}
      {stack : List Frame} {depth : Nat} {h : Heap} {log : List String} :
      h.native? n = some (.function name (.host key)) → rt.functions key = some f →
      Replies rt ⟨.eval (.native n) env, stack, depth, h, log⟩ (f h env)
  | resumed {v : Value} {resume : Except RuntimeError Value → Heap → Reply} {kept : List Value}
      {stack : List Frame} {depth : Nat} {h : Heap} {log : List String} :
      Replies rt ⟨.ret v, .host resume kept :: stack, depth, h, log⟩ (resume (.ok v) (h.hold v))
  | failed {e : RuntimeError} {resume : Except RuntimeError Value → Heap → Reply}
      {kept : List Value} {stack : List Frame} {depth : Nat} {h : Heap} {log : List String} :
      Replies rt ⟨.raise e, .host resume kept :: stack, depth, h, log⟩ (resume (.error e) h)

inductive Decides (rt : Runtime) (m : Machine) : Move × Heap → Prop where
  | rule {r : Move × Heap} : Outcome rt m.ruleDepth m.ruleHeap m.filled? r → Decides rt m r
  | native {reply : Reply} : m.Replies rt reply → Decides rt m (reply.move rt m.ruleDepth)
  | passed {e e' : RuntimeError} : m.control = .raise e → e'.cause = e.cause →
      Decides rt m (.raise e', m.heap)

/-- Whatever a machine does that has not ended, one of the rules has decided. -/
theorem step_cases (rt : Runtime) (m : Machine) : m.step rt = m ∨
    ∃ r k, Decides rt m r ∧ (k = r.2 ∨ k = r.2.leave) ∧
      m.step rt = proceed m.pending m.ruleDepth m.log r.1 k := by
  obtain ⟨control, stack, depth, h, log⟩ := m
  cases control with
  | eval e env =>
    refine .inr ⟨evalExpr rt depth e env h, _, ?_, .inl rfl, rfl⟩
    by_cases hnative : ∃ n, e = .native n
    · obtain ⟨n, rfl⟩ := hnative
      rw [evalExpr, evalNative]
      split
      · rename_i name p hn
        exact .native (.primitive hn)
      · rename_i name key hn
        split
        · rename_i f hf
          exact .native (.function hn hf)
        · exact .rule (outcome_ret _ .refl)
      · exact .rule (outcome_ret _ .refl)
    · exact .rule (outcome_evalExpr e fun n hn => hnative ⟨n, hn⟩)
  | ret v =>
    cases stack with
    | nil => exact .inl rfl
    | cons f stack =>
      refine .inr ⟨f.resume rt (depthBelow f depth) v (h.hold v), _, ?_, .inr rfl, rfl⟩
      by_cases hhost : ∃ resume kept, f = .host resume kept
      · obtain ⟨resume, kept, rfl⟩ := hhost
        exact .native .resumed
      · exact .rule (outcome_resume f v fun resume kept hf => hhost ⟨resume, kept, hf⟩)
  | raise e =>
    cases stack with
    | nil => exact .inl rfl
    | cons f stack =>
      refine .inr ⟨f.unwind rt (depthBelow f depth) e h, _, ?_, .inr rfl, rfl⟩
      cases f with
      | application frame kept => exact .passed rfl (cause_raisedIn e h frame)
      | host resume kept => exact .native .failed
      | _ => exact .passed rfl rfl

end Machine
end DictScript
