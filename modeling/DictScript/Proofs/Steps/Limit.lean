import DictScript.Proofs.Steps.Depth

/-!
Raising the limit. Every rule decides as it did under the lower limit, unless it fails there for
want of depth; and no work catches such a failure, so that a run which ends otherwise has met none.
-/
namespace DictScript
variable {rt : Runtime} {limit depth : Nat} {h : Heap} {env : DictId} {b : Block}

def Runtime.withLimit (rt : Runtime) (limit : Nat) : Runtime := { rt with maxDepth := limit }

def SameOrExhausted (r r' : Move × Heap) : Prop := r = r' ∨ r.1.control.Exhausted

theorem SameOrExhausted.onTop {r r' : Move × Heap} (hr : SameOrExhausted r r')
    (outer : List Frame) : SameOrExhausted (r.1.onTop outer, r.2) (r'.1.onTop outer, r'.2) :=
  hr.imp_left fun heq => by rw [heq]

/-! The rules under two limits. -/

section
variable (hle : rt.maxDepth ≤ limit)
include hle

theorem invoke_withLimit (args : DictId) (kept : List Value) :
    SameOrExhausted (invoke rt depth env args b kept h)
      (invoke (rt.withLimit limit) depth env args b kept h) := by
  by_cases hlt : depth < rt.maxDepth
  · refine .inl ?_
    have hlt' : ¬ (rt.withLimit limit).maxDepth ≤ depth := Nat.not_le.mpr (hlt.trans_le hle)
    unfold invoke
    simp only [if_neg hlt', if_neg (Nat.not_le.mpr hlt)]
  · obtain ⟨e, hinvoke, hcause⟩ := invoke_of_le env args b kept h (Nat.le_of_not_lt hlt)
    refine .inr ?_
    rw [hinvoke]
    show e.cause.kind = .stackExhaustion
    rw [hcause]
    rfl

theorem collectRest_withLimit (frame : DictId) (param : String) (l : ListId) (es : List Value) :
    SameOrExhausted (collectRest rt depth env b frame param l es h)
      (collectRest (rt.withLimit limit) depth env b frame param l es h) := by
  cases es with
  | cons e es => exact .inl rfl
  | nil =>
    unfold collectRest
    generalize h.define frame param (.list l) = x
    obtain ⟨result, k⟩ := x
    cases result with
    | error e => exact .inl rfl
    | ok _ => exact invoke_withLimit hle _ _

theorem bindArgs_withLimit (frame : DictId) (params : List String) (es : List Value) :
    SameOrExhausted (bindArgs rt depth env b frame params es h)
      (bindArgs (rt.withLimit limit) depth env b frame params es h) := by
  cases params with
  | nil => exact invoke_withLimit hle _ _
  | cons p params =>
    unfold bindArgs
    simp only
    split
    · exact collectRest_withLimit hle _ _ _ _
    · cases es with
      | nil => exact invoke_withLimit hle _ _
      | cons e es => exact .inl rfl

theorem callBlock_withLimit (es : List Value) :
    SameOrExhausted (callBlock rt depth env b es h)
      (callBlock (rt.withLimit limit) depth env b es h) := by
  unfold callBlock
  split
  · exact .inl rfl
  · exact bindArgs_withLimit hle _ _ _

theorem applyValue_withLimit (v : Value) (es : List Value) :
    SameOrExhausted (applyValue rt depth v es env h)
      (applyValue (rt.withLimit limit) depth v es env h) := by
  unfold applyValue
  split
  · exact callBlock_withLimit hle _
  · exact .inl rfl
  · exact .inl rfl
  · exact .inl rfl
  · exact .inl rfl

theorem begin_withLimit (request : Request) :
    SameOrExhausted (request.begin rt depth h) (request.begin (rt.withLimit limit) depth h) := by
  cases request with
  | call env b vs => exact callBlock_withLimit hle _
  | _ => exact .inl rfl

theorem move_withLimit (reply : Reply) :
    SameOrExhausted (reply.move rt depth) (reply.move (rt.withLimit limit) depth) := by
  cases reply with
  | done result k => cases result <;> exact .inl rfl
  | log text k => exact .inl rfl
  | ask request k resume => exact (begin_withLimit hle request).onTop [.host resume request.held]

theorem evalNative_withLimit (n : NativeId) :
    SameOrExhausted (evalNative rt depth n env h)
      (evalNative (rt.withLimit limit) depth n env h) := by
  have hprimitive : ∀ p : Primitive, p.run (rt.withLimit limit) h env = p.run rt h env := by
    intro p
    cases p <;> rfl
  unfold evalNative
  split
  · rw [hprimitive]
    exact move_withLimit hle _
  · simp only [Runtime.withLimit]
    split
    · exact move_withLimit hle _
    · exact .inl rfl
  · exact .inl rfl

theorem evalExpr_withLimit (e : Value) :
    SameOrExhausted (evalExpr rt depth e env h) (evalExpr (rt.withLimit limit) depth e env h) := by
  cases e with
  | native n => exact evalNative_withLimit hle n
  | _ => exact .inl rfl

theorem resume_withLimit (f : Frame) (v : Value) :
    SameOrExhausted (f.resume rt depth v h) (f.resume (rt.withLimit limit) depth v h) := by
  cases f with
  | body rest env last => cases rest <;> exact .inl rfl
  | operator es env => exact applyValue_withLimit hle _ _
  | argument env b frame param params es =>
    unfold Frame.resume
    simp only
    generalize h.define frame param v = x
    obtain ⟨result, k⟩ := x
    cases result with
    | error e => exact .inl rfl
    | ok _ => exact bindArgs_withLimit hle _ _ _
  | remaining env b frame param l es => exact collectRest_withLimit hle _ _ _ _
  | within env dict scope =>
    unfold Frame.resume finishWithin
    cases v with
    | block b => exact invoke_withLimit hle _ _
    | _ => exact .inl rfl
  | host resume kept => exact move_withLimit hle _
  | _ => exact .inl rfl

theorem unwind_withLimit (f : Frame) (e : RuntimeError) :
    SameOrExhausted (f.unwind rt depth e h) (f.unwind (rt.withLimit limit) depth e h) := by
  cases f with
  | host resume kept => exact move_withLimit hle _
  | _ => exact .inl rfl

end

/-! Failures for want of depth are not caught. -/

def Frame.HandsOn : Frame → Prop
  | .host resume _ => resume = Reply.done
  | _ => True

theorem Outcome.handsOn {filled : Option ListId} {r : Move × Heap}
    (hr : Outcome rt depth h filled r) : ∀ f ∈ r.1.frames, f.HandsOn := by
  intro f hf
  cases f with
  | host resume kept =>
    obtain hplain | happlication | ⟨l, hl, -⟩ := hr.frame_cases hf
    · cases hplain
    · cases happlication
    · cases hl
  | _ => trivial

def Reply.HandsOn : Reply → Prop
  | ask _ _ resume => resume = done
  | _ => True

theorem Reply.HandsOn.move {reply : Reply} (hreply : reply.HandsOn) :
    ∀ f ∈ (reply.move rt depth).1.frames, f.HandsOn := by
  cases reply with
  | done result k => cases result <;> exact List.forall_mem_nil _
  | log text k => exact List.forall_mem_nil _
  | ask request k resume =>
    intro f hf
    obtain hf | hf := List.mem_append.mp hf
    · exact (@outcome_begin rt depth k none request).handsOn f hf
    · exact List.mem_singleton.mp hf ▸ hreply

theorem handsOn_branch (h : Heap) (env : DictId) : (Primitive.branch h env).HandsOn := by
  unfold Primitive.branch
  split
  · trivial
  · split
    · exact rfl
    · trivial

theorem handsOn_run (p : Primitive) (h : Heap) (env : DictId) : (p.run rt h env).HandsOn := by
  cases p with
  | choose => exact handsOn_branch h env
  | list | names | thaw =>
    simp only [Primitive.run]
    split <;> trivial
  | _ => trivial

namespace Machine
variable {m : Machine}

def HandsOn (m : Machine) : Prop := ∀ f ∈ m.stack, f.HandsOn

theorem HandsOn.pending (hm : m.HandsOn) : ∀ f ∈ m.pending, f.HandsOn := by
  unfold Machine.pending
  split
  · exact hm
  · exact fun f hf => hm f (List.mem_of_mem_tail hf)

theorem HandsOn.replies {reply : Reply} (hfunctions : rt.functions = fun _ => none)
    (hm : m.HandsOn) (hreply : m.Replies rt reply) : reply.HandsOn := by
  cases hreply with
  | primitive _ => exact handsOn_run _ _ _
  | function _ hf =>
    rw [hfunctions] at hf
    cases hf
  | @resumed v resume =>
    obtain rfl : resume = Reply.done := hm _ List.mem_cons_self
    trivial
  | @failed e resume =>
    obtain rfl : resume = Reply.done := hm _ List.mem_cons_self
    trivial

theorem HandsOn.step (hfunctions : rt.functions = fun _ => none) (hm : m.HandsOn) :
    (m.step rt).HandsOn := by
  obtain hended | ⟨r, k, hr, -, hstep⟩ := step_cases rt m
  · rwa [hended]
  · rw [hstep]
    intro f hf
    refine (List.mem_append.mp hf).elim (fun hf => ?_) (hm.pending f)
    cases hr with
    | rule hr => exact hr.handsOn f hf
    | passed _ _ => cases hf
    | native hreply =>
      exact (hm.replies hfunctions hreply).move f hf

theorem raise_exhausted {e : RuntimeError} {stack : List Frame} {log : List String}
    (he : e.IsExhaustion) (hm : HandsOn ⟨.raise e, stack, depth, h, log⟩) :
    (step rt ⟨.raise e, stack, depth, h, log⟩).control.Exhausted := by
  cases stack with
  | nil => exact he
  | cons f stack =>
    cases f with
    | application frame kept =>
      show (e.raisedIn h frame).cause.kind = .stackExhaustion
      rw [cause_raisedIn]
      exact he
    | host resume kept =>
      obtain rfl : resume = Reply.done := hm _ List.mem_cons_self
      exact he
    | _ => exact he

/-- Once it has failed for want of depth the machine goes on to fail. -/
theorem HandsOn.exhausted_step (hm : m.HandsOn) (he : m.control.Exhausted) :
    (m.step rt).control.Exhausted := by
  obtain ⟨control, stack, depth, h, log⟩ := m
  cases control with
  | raise e => exact raise_exhausted he hm
  | _ => exact he.elim

theorem HandsOn.exhausted_run (hfunctions : rt.functions = fun _ => none) (fuel : Nat)
    (hm : m.HandsOn) (he : m.control.Exhausted) : (m.run rt fuel).control.Exhausted := by
  induction fuel generalizing m with
  | zero => exact he
  | succ fuel ih =>
    rw [Machine.run]
    split
    · exact he
    · exact ih (hm.step hfunctions) (hm.exhausted_step he)

theorem step_withLimit (hle : rt.maxDepth ≤ limit) (m : Machine) :
    m.step (rt.withLimit limit) = m.step rt ∨ (m.step rt).control.Exhausted := by
  have hproceed : ∀ {r r' : Move × Heap}, SameOrExhausted r r' →
      ∀ stack depth log (leave : Heap → Heap),
        proceed stack depth log r'.1 (leave r'.2) = proceed stack depth log r.1 (leave r.2) ∨
          (proceed stack depth log r.1 (leave r.2)).control.Exhausted := by
    intro r r' hr stack depth log leave
    exact hr.imp_left fun heq => by rw [heq]
  obtain ⟨control, stack, depth, h, log⟩ := m
  cases control with
  | eval e env => exact hproceed (evalExpr_withLimit hle e) _ _ _ id
  | ret v =>
    cases stack with
    | nil => exact .inl rfl
    | cons f stack => exact hproceed (resume_withLimit hle f v) _ _ _ Heap.leave
  | raise e =>
    cases stack with
    | nil => exact .inl rfl
    | cons f stack => exact hproceed (unwind_withLimit hle f e) _ _ _ Heap.leave

/-- The runs under both limits are in step until the lower one is met. -/
theorem HandsOn.run_inStep (hfunctions : rt.functions = fun _ => none)
    (hle : rt.maxDepth ≤ limit) (fuel : Nat) (hm : m.HandsOn)
    (hrun : ¬ (m.run rt fuel).control.Exhausted) :
    m.run (rt.withLimit limit) fuel = m.run rt fuel := by
  induction fuel generalizing m with
  | zero => rfl
  | succ fuel ih =>
    rw [Machine.run] at hrun
    rw [Machine.run, Machine.run]
    split at hrun
    · rfl
    · obtain hsame | he := step_withLimit hle m
      · rw [hsame]
        exact ih (hm.step hfunctions) hrun
      · -- the lower limit is met, and then the run does not end otherwise
        exact (hrun ((hm.step hfunctions).exhausted_run hfunctions fuel he)).elim

theorem exhausted_of_result {result : Except RuntimeError Value} (he : m.control.Exhausted)
    (hresult : m.result? = some result) : ∃ e, result = .error e ∧ e.IsExhaustion := by
  obtain ⟨control, stack, depth, h, log⟩ := m
  cases control with
  | raise e =>
    cases stack with
    | nil => exact ⟨e, (Option.some.inj hresult).symm, he⟩
    | cons f stack => cases hresult
  | _ => exact he.elim

end Machine

theorem Request.handsOn_start (request : Request) (d : Nat) (log : List String) (h : Heap) :
    (request.start rt d log h).HandsOn := fun f hf =>
  (@outcome_begin rt d h none request).handsOn f
    ((List.mem_append.mp hf).resolve_right List.not_mem_nil)

/-- With no natives but the primitives, a run that ends other than by a failure for want of depth
ends under every higher limit, after as many steps, in the very same state. -/
theorem Request.run_withLimit (hfunctions : rt.functions = fun _ => none)
    (hle : rt.maxDepth ≤ limit) (request : Request) (d : Nat) (log : List String) (h : Heap)
    (fuel : Nat) {result : Except RuntimeError Value}
    (hresult : ((request.start rt d log h).run rt fuel).result? = some result)
    (hother : ∀ e, result = .error e → e.cause.kind ≠ .stackExhaustion) :
    (request.start (rt.withLimit limit) d log h).run (rt.withLimit limit) fuel =
      (request.start rt d log h).run rt fuel := by
  have hm : (request.start rt d log h).HandsOn := request.handsOn_start d log h
  have hrun : ¬ ((request.start rt d log h).run rt fuel).control.Exhausted := by
    intro he
    obtain ⟨e, rfl, hkind⟩ := Machine.exhausted_of_result he hresult
    exact hother e rfl hkind
  have hstart : request.start (rt.withLimit limit) d log h = request.start rt d log h := by
    have hbegin : SameOrExhausted (request.begin rt d h)
        (request.begin (rt.withLimit limit) d h) := begin_withLimit hle request
    cases hbegin with
    | inl hsame =>
      unfold Request.start
      rw [hsame]
    | inr he => exact (hrun (hm.exhausted_run hfunctions fuel he)).elim
  rw [hstart]
  exact hm.run_inStep hfunctions hle fuel hrun

/-- Two nested applications come to the same under the limits two and three, a number. -/
theorem Request.run_withLimit_nested : ∃ rt : Runtime, rt.maxDepth = 2 ∧
    let ended := ((Request.call ⟨0⟩ Block.nested.2 []).start rt 0 [] Block.nested.1).run rt 10
    ended.result?.map Except.toOption = some (some (.num 1)) ∧
      ((Request.call ⟨0⟩ Block.nested.2 []).start (rt.withLimit 3) 0 [] Block.nested.1).run
        (rt.withLimit 3) 10 = ended := by
  let rt : Runtime := { root := ⟨0⟩, maxDepth := 2, registry := [], functions := fun _ => none }
  refine ⟨rt, rfl, rfl, ?_⟩
  exact run_withLimit rfl (show rt.maxDepth ≤ 3 by decide) _ 0 [] _ 10 rfl nofun

end DictScript
