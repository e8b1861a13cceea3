import DictScript.Proofs.Steps.Outcome

/-!
How deep applications nest. The counter is the number of applications that are pending, on top of
the depth at which the request began, and it never exceeds the limit: an application that would do
so fails, and its body is not looked at.
-/
namespace DictScript
variable {rt : Runtime} {depth d : Nat} {h : Heap} {filled : Option ListId} {r : Move × Heap}
variable {b : Block} {below : List Frame}

def applications (fs : List Frame) : Nat := fs.countP (·.isApplication)

@[simp] theorem applications_nil : applications [] = 0 := rfl

@[simp] theorem applications_append (fs gs : List Frame) :
    applications (fs ++ gs) = applications fs + applications gs := List.countP_append

@[simp] theorem applications_application (frame : DictId) (kept : List Value) (fs : List Frame) :
    applications (.application frame kept :: fs) = applications fs + 1 :=
  List.countP_cons_of_pos rfl

theorem applications_eq_zero {fs : List Frame} (hfs : ∀ f ∈ fs, f.isApplication = false) :
    applications fs = 0 :=
  List.countP_eq_zero.mpr fun f hf => by simp [hfs f hf]

@[simp] theorem applications_body (es : List Value) (env : DictId) (fs : List Frame) :
    applications (Move.body es env fs).frames = applications fs := by
  cases es with
  | nil => rfl
  | cons e es => exact List.countP_cons_of_neg (by simp [Frame.isApplication])

theorem Move.Plain.applications_eq {m : Move} (hm : m.Plain) : applications m.frames = 0 := by
  refine applications_eq_zero fun f hf => ?_
  have hplain := hm.frames f hf
  cases f with
  | application frame kept => cases hplain
  | _ => rfl

/-! Rules keep to the limit. -/

theorem applications_invoke (env args : DictId) (b : Block) (kept : List Value) (h : Heap)
    (hdepth : depth ≤ rt.maxDepth) :
    depth + applications (invoke rt depth env args b kept h).1.frames ≤ rt.maxDepth := by
  by_cases hlt : depth < rt.maxDepth
  · obtain ⟨frame, kept', hinvoke⟩ := invoke_of_lt env args b kept h hlt
    simp only [hinvoke, applications_body, applications_application, applications_nil]
    omega
  · obtain ⟨e, hinvoke, -⟩ := invoke_of_le env args b kept h (Nat.le_of_not_lt hlt)
    simpa [hinvoke, Move.raise] using hdepth

theorem Outcome.applications_le (hdepth : depth ≤ rt.maxDepth)
    (hr : Outcome rt depth h filled r) : depth + applications r.1.frames ≤ rt.maxDepth := by
  cases hr with
  | plain _ hm => simpa [hm.applications_eq] using hdepth
  | filling _ _ => simpa [Move.eval, applications, Frame.isApplication] using hdepth
  | applied env args b kept _ => exact applications_invoke env args b kept _ hdepth

theorem applications_move (reply : Reply) (hdepth : depth ≤ rt.maxDepth) :
    depth + applications (reply.move rt depth).1.frames ≤ rt.maxDepth := by
  cases reply with
  | done result k =>
    cases result with
    | ok v => exact hdepth
    | error e => exact hdepth
  | log text k => exact hdepth
  | ask request k resume =>
    have hbegin := (@outcome_begin rt depth k none request).applications_le hdepth
    simpa [Reply.move, applications, Frame.isApplication] using hbegin

namespace Machine
variable {m : Machine}

structure Counted (rt : Runtime) (d : Nat) (m : Machine) : Prop where
  depth_eq : m.depth = d + applications m.stack
  depth_le : m.depth ≤ rt.maxDepth

theorem depthBelow_le (f : Frame) (depth : Nat) : depthBelow f depth ≤ depth := by
  unfold depthBelow
  split <;> omega

theorem ruleDepth_le (m : Machine) : m.ruleDepth ≤ m.depth := by
  obtain ⟨control, stack, depth, h, log⟩ := m
  cases control with
  | eval e env => exact le_refl _
  | ret v | raise e =>
    cases stack with
    | nil => exact le_refl _
    | cons f fs => exact depthBelow_le f depth

theorem Counted.ruleDepth_eq (hm : m.Counted rt d) :
    m.ruleDepth = d + applications m.pending := by
  obtain ⟨control, stack, depth, h, log⟩ := m
  obtain ⟨heq, -⟩ := hm
  simp only at heq
  have hpop : ∀ f fs, stack = f :: fs → depthBelow f depth = d + applications fs := by
    rintro f fs rfl
    cases f with
    | application frame kept =>
      rw [applications_application] at heq
      show depth - 1 = _
      omega
    | _ => exact heq
  cases control with
  | eval e env => exact heq
  | ret v | raise e =>
    cases stack with
    | nil => exact heq
    | cons f fs => exact hpop f fs rfl

theorem Counted.proceed {stack : List Frame} {log : List String} {move : Move}
    (hdepth : depth = d + applications stack)
    (hle : depth + applications move.frames ≤ rt.maxDepth) :
    (proceed stack depth log move h).Counted rt d where
  depth_eq := by
    show depth + applications move.frames = d + applications (move.frames ++ stack)
    rw [applications_append]
    omega
  depth_le := hle

theorem Counted.step (hm : m.Counted rt d) : (m.step rt).Counted rt d := by
  have hle := m.ruleDepth_le.trans hm.depth_le
  obtain hended | ⟨r, k, hr, -, hstep⟩ := step_cases rt m
  · rwa [hended]
  · rw [hstep]
    refine .proceed hm.ruleDepth_eq ?_
    cases hr with
    | rule hr => exact hr.applications_le hle
    | @native reply _ => exact applications_move reply hle
    | passed _ _ => exact hle

theorem Counted.run (fuel : Nat) (hm : m.Counted rt d) : (m.run rt fuel).Counted rt d := by
  induction fuel generalizing m with
  | zero => exact hm
  | succ fuel ih =>
    rw [Machine.run]
    split
    · exact hm
    · exact ih hm.step

end Machine

def Request.start (rt : Runtime) (depth : Nat) (log : List String) (h : Heap) (request : Request) :
    Machine :=
  .proceed [] depth log (request.begin rt depth h).1 (request.begin rt depth h).2

theorem Request.counted_start (request : Request) (log : List String) (h : Heap)
    (hd : d ≤ rt.maxDepth) : (request.start rt d log h).Counted rt d :=
  .proceed rfl ((@outcome_begin rt d h none request).applications_le hd)

/-! Where blocks are run. -/

namespace Machine
variable {m : Machine}

/-- The state to which the machine gets when it applies a block at a depth, on top of the work
`below`: the arguments are bound, and whether the body may run is decided. -/
def Applies (rt : Runtime) (m : Machine) (depth : Nat) (b : Block) (below : List Frame) : Prop :=
  ∃ env args kept h outer stack log k, (∀ f ∈ outer, f.isApplication = false) ∧
    below = outer ++ stack ∧
    (k = (invoke rt depth env args b kept h).2 ∨ k = (invoke rt depth env args b kept h).2.leave) ∧
    m = proceed stack depth log ((invoke rt depth env args b kept h).1.onTop outer) k

def Begins (m : Machine) (b : Block) (below : List Frame) : Prop :=
  ∃ frame kept, m.control = (Move.body b.body frame []).control ∧
    m.stack = (Move.body b.body frame []).frames ++ .application frame kept :: below

def Refuses (rt : Runtime) (m : Machine) (below : List Frame) : Prop :=
  ∃ e, m.control = .raise e ∧ e.cause = .exhausted rt.maxDepth ∧ m.stack = below

theorem body_eq (es : List Value) (env : DictId) (fs : List Frame) :
    (Move.body es env fs).control = (Move.body es env []).control ∧
      (Move.body es env fs).frames = (Move.body es env []).frames ++ fs := by
  cases es <;> exact ⟨rfl, rfl⟩

theorem not_exhausted_body (es : List Value) (env : DictId) (fs : List Frame) :
    ¬ (Move.body es env fs).control.Exhausted := by
  cases es <;> exact id

theorem Applies.begins (hm : m.Applies rt depth b below) (hdepth : depth < rt.maxDepth) :
    m.Begins b below ∧ m.depth = depth + 1 ∧ ¬ m.control.Exhausted := by
  obtain ⟨env, args, kept, h, outer, stack, log, k, houter, rfl, -, rfl⟩ := hm
  obtain ⟨frame, kept', hinvoke⟩ := invoke_of_lt env args b kept h hdepth
  obtain ⟨hcontrol, hframes⟩ := body_eq b.body frame [.application frame kept']
  rw [hinvoke]
  refine ⟨⟨frame, kept', hcontrol, ?_⟩, ?_, not_exhausted_body _ _ _⟩
  · show (Move.body b.body frame [.application frame kept']).frames ++ outer ++ stack = _
    rw [hframes]
    simp
  · show depth + applications (_ ++ outer) = depth + 1
    rw [applications_append, applications_body, applications_application,
      applications_eq_zero houter, applications_nil]

theorem Applies.refuses (hm : m.Applies rt depth b below) (hdepth : rt.maxDepth ≤ depth) :
    m.Refuses rt below ∧ m.depth = depth ∧ m.control.Exhausted := by
  obtain ⟨env, args, kept, h, outer, stack, log, k, houter, rfl, -, rfl⟩ := hm
  obtain ⟨e, hinvoke, hcause⟩ := invoke_of_le env args b kept h hdepth
  rw [hinvoke]
  refine ⟨⟨e, rfl, hcause, rfl⟩, ?_, ?_⟩
  · show depth + applications ([] ++ outer) = depth
    rw [List.nil_append, applications_eq_zero houter, Nat.add_zero]
  · show e.cause.kind = .stackExhaustion
    rw [hcause]
    rfl

theorem Begins.applications_eq (hm : m.Begins b below) :
    applications m.stack = applications below + 1 := by
  obtain ⟨frame, kept, -, hstack⟩ := hm
  rw [hstack, applications_append, applications_body, applications_application, applications_nil,
    Nat.zero_add]

/-- An application is refused at the limit and begins below it. -/
theorem Applies.cases (happlies : m.Applies rt depth b below) (hm : m.Counted rt d) :
    depth = d + applications below ∧
      (m.control.Exhausted ↔ depth + 1 = rt.maxDepth + 1) ∧
      (m.control.Exhausted → m.Refuses rt below ∧ m.depth = depth) ∧
      (¬ m.control.Exhausted → m.Begins b below ∧ m.depth = depth + 1) := by
  obtain ⟨hdepth, hle⟩ := hm
  by_cases hlt : depth < rt.maxDepth
  · obtain ⟨hbegins, heq, he⟩ := happlies.begins hlt
    have hcount := hbegins.applications_eq
    exact ⟨by omega, ⟨fun h => (he h).elim, fun h => by omega⟩, fun h => (he h).elim,
      fun _ => ⟨hbegins, heq⟩⟩
  · obtain ⟨hrefuses, heq, he⟩ := happlies.refuses (Nat.le_of_not_lt hlt)
    have hstack : m.stack = below := hrefuses.choose_spec.2.2
    rw [hstack] at hdepth
    exact ⟨by omega, ⟨fun _ => by omega, fun _ => he⟩, fun _ => ⟨hrefuses, heq⟩,
      fun hne => (hne he).elim⟩

/-- A rule applies a block, or no application comes up and none is refused. -/
theorem applies_or {outer : List Frame} {k : Heap} (stack : List Frame) (log : List String)
    (houter : ∀ f ∈ outer, f.isApplication = false) (hr : Outcome rt depth h filled r)
    (hk : k = r.2 ∨ k = r.2.leave) :
    (∃ b below, (proceed stack depth log (r.1.onTop outer) k).Applies rt depth b below) ∨
      applications (r.1.onTop outer).frames = 0 ∧ ¬ r.1.control.Exhausted := by
  have hframes : applications (r.1.onTop outer).frames = applications r.1.frames := by
    show applications (r.1.frames ++ outer) = _
    rw [applications_append, applications_eq_zero houter, Nat.add_zero]
  rw [hframes]
  cases hr with
  | plain _ hm => exact .inr ⟨hm.applications_eq, hm.control⟩
  | filling _ _ => exact .inr ⟨rfl, id⟩
  | applied env args b kept _ =>
    exact .inl ⟨b, _, env, args, kept, _, outer, stack, log, k, houter, rfl, hk, rfl⟩

/-- A step applies a block, or the counter does not rise. A failure for want of depth has then been
there before, or is the answer of a native. -/
theorem applies_step (rt : Runtime) (m : Machine) :
    (∃ depth b below, (m.step rt).Applies rt depth b below) ∨
      (m.step rt).depth ≤ m.depth ∧ ((m.step rt).control.Exhausted →
        m.control.Exhausted ∨ ∃ e k, m.Replies rt (.done (.error e) k)) := by
  obtain hended | ⟨r, k, hr, hk, hstep⟩ := step_cases rt m
  · rw [hended]
    exact .inr ⟨le_refl _, .inl⟩
  · rw [hstep]
    have hdepth (hframes : applications r.1.frames = 0) :
        (proceed m.pending m.ruleDepth m.log r.1 k).depth ≤ m.depth := by
      show m.ruleDepth + applications r.1.frames ≤ m.depth
      rw [hframes]
      exact m.ruleDepth_le
    cases hr with
    | rule hr =>
      have happlies := applies_or m.pending m.log (List.forall_mem_nil _) hr hk
      rw [Move.onTop_nil] at happlies
      obtain ⟨b, below, happlies⟩ | ⟨hframes, he⟩ := happlies
      · exact .inl ⟨_, b, below, happlies⟩
      · exact .inr ⟨hdepth hframes, fun h => (he h).elim⟩
    | passed hcontrol hcause =>
      refine .inr ⟨hdepth rfl, fun he => .inl ?_⟩
      rw [hcontrol]
      show RuntimeError.IsExhaustion _
      rwa [RuntimeError.IsExhaustion, ← hcause]
    | @native reply hreply =>
      cases reply with
      | done result k =>
        cases result with
        | ok v => exact .inr ⟨hdepth rfl, fun he => he.elim⟩
        | error e => exact .inr ⟨hdepth rfl, fun _ => .inr ⟨e, k, hreply⟩⟩
      | log text k => exact .inr ⟨hdepth rfl, fun he => he.elim⟩
      | ask request k resume =>
        have hbegin := @outcome_begin rt m.ruleDepth k none request
        have houter : ∀ f ∈ [Frame.host resume request.held], f.isApplication = false :=
          List.forall_mem_singleton.mpr rfl
        obtain ⟨b, below, happlies⟩ | ⟨hframes, he⟩ :=
          applies_or m.pending m.log houter hbegin hk
        · exact .inl ⟨_, b, below, happlies⟩
        · exact .inr ⟨hdepth hframes, fun h => (he h).elim⟩

end Machine

theorem Machine.stack_of_result {m : Machine} {result : Except RuntimeError Value}
    (hresult : m.result? = some result) : m.stack = [] := by
  unfold Machine.result? at hresult
  split at hresult
  · assumption
  · assumption
  · cases hresult

/-- However a run goes on from a request at some depth, the counter stands at the applications that
are pending, and when there is a result it is back where it was. Bodies run at depths between one
and the limit. An application fails for want of depth just if its body would run beyond the limit,
and then leaves the work below to go on as it is. Nothing else makes the counter rise, and nothing
else fails for want of depth but the answer of a native. -/
theorem Request.depth_counted (request : Request) (h : Heap) (log : List String) (d fuel : Nat)
    (hd : d ≤ rt.maxDepth) :
    let start := request.start rt d log h
    let m := start.run rt fuel
    (∀ result, m.result? = some result → m.depth = d) ∧
      m.depth = d + applications m.stack ∧
      (∀ f ∈ m.stack, f.isApplication = true → 1 ≤ m.depth) ∧ m.depth ≤ rt.maxDepth ∧
      (∀ depth b below, m.Applies rt depth b below → depth = d + applications below ∧
        (m.control.Exhausted ↔ depth + 1 = rt.maxDepth + 1) ∧
        (m.control.Exhausted → m.Refuses rt below ∧ m.depth = depth) ∧
        (¬ m.control.Exhausted → m.Begins b below ∧ m.depth = depth + 1)) ∧
      ((∃ b below, start.Applies rt d b below) ∨ start.depth = d ∧ ¬ start.control.Exhausted) ∧
      ((∃ depth b below, (m.step rt).Applies rt depth b below) ∨
        (m.step rt).depth ≤ m.depth ∧ ((m.step rt).control.Exhausted →
          m.control.Exhausted ∨ ∃ e k, m.Replies rt (.done (.error e) k))) := by
  intro start m
  have hm : m.Counted rt d := (request.counted_start log h hd).run fuel
  refine ⟨fun result hresult => ?_, hm.depth_eq, fun f hf happ => ?_, hm.depth_le,
    fun depth b below happlies => happlies.cases hm, ?_, Machine.applies_step rt m⟩
  · rw [hm.depth_eq, Machine.stack_of_result hresult, applications_nil, Nat.add_zero]
  · have hpos : 0 < applications m.stack := List.countP_pos_iff.mpr ⟨f, hf, happ⟩
    have heq := hm.depth_eq
    omega
  · have hbegin := @outcome_begin rt d h none request
    have happlies := Machine.applies_or [] log (List.forall_mem_nil _) hbegin (.inl rfl)
    rw [Move.onTop_nil] at happlies
    refine happlies.imp_right fun hplain => ⟨?_, hplain.2⟩
    show d + applications _ = d
    rw [hplain.1, Nat.add_zero]

def Block.nested : Heap × Block :=
  let (h, env) := ({} : Heap).newDict {}
  let inner : Block :=
    { id := 0, name := none, params := [], body := [.num 1], env := env, receiver := none }
  let (h, l) := h.newList [.block inner]
  (h, { inner with id := 1, body := [.list l] })

/-- Where only one application may be pending, the inner one fails and nothing is left pending. -/
theorem Request.depth_counted_nested : ∃ (rt : Runtime) (m : Machine),
    m = ((Request.call ⟨0⟩ Block.nested.2 []).start rt 0 [] Block.nested.1).run rt 10 ∧
      m.result?.map (·.toOption.isNone) = some true ∧ m.control.Exhausted ∧ m.depth = 0 := by
  let rt : Runtime := { root := ⟨0⟩, maxDepth := 1, registry := [], functions := fun _ => none }
  obtain ⟨hbalanced, -⟩ := depth_counted (.call ⟨0⟩ Block.nested.2 []) Block.nested.1 [] 0 10
    (show 0 ≤ rt.maxDepth by decide)
  refine ⟨rt, _, rfl, by rfl, by rfl, ?_⟩
  exact hbalanced _ rfl

end DictScript
