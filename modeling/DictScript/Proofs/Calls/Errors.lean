import DictScript.Proofs.Calls.Evaluation
import DictScript.Proofs.Steps.Limit

/-!
Errors keep their origin. Pending work that an error passes hands it on as it is, and an application
adds the frames that are active in it, unless some are there already. So the error at the top is the
one that was raised first, with the frames that were attached closest to the failure.
-/
namespace DictScript
open Heap
variable {rt : Runtime} {depth d : Nat} {h : Heap} {b : Block} {error e' : RuntimeError}
variable {f : Frame} {above below stack : List Frame} {m m₁ : Machine}

/-! Dumps that are added. -/

namespace RuntimeError

def orDump (e : RuntimeError) (dump : Option String) : RuntimeError :=
  { e with dump := e.dump.or dump }

@[simp] theorem orDump_none (e : RuntimeError) : e.orDump none = e := by
  simp [orDump]

theorem orDump_orDump (e : RuntimeError) (dump other : Option String) :
    (e.orDump dump).orDump other = e.orDump (dump.or other) := by
  simp [orDump, Option.or_assoc]

theorem raisedIn_eq_orDump (h : Heap) (d : DictId) (e : RuntimeError) :
    e.raisedIn h d = e.orDump (some (h.frameDump d)) := by
  obtain ⟨cause, dump⟩ := e
  cases dump <;> rfl

end RuntimeError

def Frame.dump? (h : Heap) : Frame → Option String
  | application frame _ => some (h.frameDump frame)
  | _ => none

/-- The dump of the innermost application, as it is when an error gets there. What the work before
it has held is no longer held by then. -/
def Heap.innermostDump (h : Heap) : List Frame → Option String
  | [] => none
  | f :: fs => (f.dump? h).or (h.leave.innermostDump fs)

theorem Frame.dump?_eq_none (h : Heap) (hf : f.isApplication = false) : f.dump? h = none := by
  cases f with
  | application frame kept => cases hf
  | _ => rfl

/-! Host functions that catch no errors. -/

def Reply.PassesErrors : Reply → Prop
  | done _ _ => True
  | log _ _ => True
  | ask _ _ resume =>
    (∀ e h, resume (.error e) h = done (.error e) h) ∧ ∀ v h, (resume (.ok v) h).PassesErrors

def Frame.PassesErrors : Frame → Prop
  | host resume _ =>
    (∀ e h, resume (.error e) h = .done (.error e) h) ∧ ∀ v h, (resume (.ok v) h).PassesErrors
  | _ => True

def Runtime.PassesErrors (rt : Runtime) : Prop :=
  ∀ key f, rt.functions key = some f → ∀ h frame, (f h frame).PassesErrors

theorem Reply.HandsOn.passesErrors {reply : Reply} (hreply : reply.HandsOn) :
    reply.PassesErrors := by
  cases reply with
  | ask request h resume =>
    obtain rfl : resume = Reply.done := hreply
    exact ⟨fun _ _ => rfl, fun _ _ => trivial⟩
  | _ => trivial

theorem Frame.HandsOn.passesErrors (hf : f.HandsOn) : f.PassesErrors := by
  cases f with
  | host resume kept =>
    obtain rfl : resume = Reply.done := hf
    exact ⟨fun _ _ => rfl, fun _ _ => trivial⟩
  | _ => trivial

theorem Reply.PassesErrors.move {reply : Reply} (hreply : reply.PassesErrors) :
    ∀ f ∈ (reply.move rt depth).1.frames, f.PassesErrors := by
  cases reply with
  | done result k => cases result <;> exact List.forall_mem_nil _
  | log text k => exact List.forall_mem_nil _
  | ask request k resume =>
    intro f hf
    obtain hf | hf := List.mem_append.mp hf
    · exact ((@outcome_begin rt depth k none request).handsOn f hf).passesErrors
    · exact List.mem_singleton.mp hf ▸ hreply

theorem Frame.PassesErrors.unwind (hf : f.PassesErrors) (e : RuntimeError) (h : Heap) :
    f.unwind rt depth e h = (.raise (e.orDump (f.dump? h)), h) := by
  cases f with
  | application frame kept =>
    rw [Frame.unwind, RuntimeError.raisedIn_eq_orDump]
    rfl
  | host resume kept =>
    rw [Frame.unwind, hf.1]
    simp [Reply.move, Frame.dump?]
  | _ => simp [Frame.unwind, Frame.dump?]

namespace Machine

def PassesErrors (m : Machine) : Prop := ∀ f ∈ m.stack, f.PassesErrors

theorem PassesErrors.replies {reply : Reply} (hrt : rt.PassesErrors) (hm : m.PassesErrors)
    (hreply : m.Replies rt reply) : reply.PassesErrors := by
  cases hreply with
  | primitive _ => exact (handsOn_run _ _ _).passesErrors
  | function _ hf => exact hrt _ _ hf _ _
  | resumed => exact (hm _ List.mem_cons_self).2 _ _
  | failed =>
    rw [(hm _ List.mem_cons_self).1]
    trivial

theorem PassesErrors.step (hrt : rt.PassesErrors) (hm : m.PassesErrors) :
    (m.step rt).PassesErrors := by
  obtain hended | ⟨r, k, hr, -, hstep⟩ := step_cases rt m
  · rwa [hended]
  · rw [hstep]
    have hpending : ∀ f ∈ m.pending, f.PassesErrors := by
      unfold Machine.pending
      split
      · exact hm
      · exact fun f hf => hm f (List.mem_of_mem_tail hf)
    intro f hf
    refine (List.mem_append.mp hf).elim (fun hf => ?_) (hpending f)
    cases hr with
    | rule hr => exact (hr.handsOn f hf).passesErrors
    | passed _ _ => cases hf
    | native hreply => exact (hm.replies hrt hreply).move f hf

theorem PassesErrors.run (hrt : rt.PassesErrors) (fuel : Nat) (hm : m.PassesErrors) :
    (m.run rt fuel).PassesErrors := by
  induction fuel generalizing m with
  | zero => exact hm
  | succ fuel ih =>
    rw [Machine.run]
    split
    · exact hm
    · exact ih (hm.step hrt)

/-! An error on its way up. -/

/-- In one step the error passes the work on top. -/
theorem step_raise (rt : Runtime) (hf : f.PassesErrors) (hraise : m.control = .raise error)
    (hstack : m.stack = f :: stack) :
    (m.step rt).control = .raise (error.orDump (f.dump? m.heap)) ∧ (m.step rt).stack = stack ∧
      (m.step rt).heap = m.heap.leave := by
  obtain ⟨control, frames, depth, h, log⟩ := m
  obtain rfl : control = .raise error := hraise
  obtain rfl : frames = f :: stack := hstack
  simp only [Machine.step, hf.unwind]
  exact ⟨rfl, rfl, rfl⟩

/-- Once the error is raised, what the run ends with is that error. -/
theorem PassesErrors.run_raise (hm : m.PassesErrors) (hraise : m.control = .raise error)
    (fuel : Nat) (hresult : (m.run rt fuel).result? = some (.error e')) :
    e' = error.orDump (m.heap.innermostDump m.stack) := by
  induction fuel generalizing m error with
  | zero =>
    obtain ⟨control, stack, depth, h, log⟩ := m
    obtain rfl : control = .raise error := hraise
    cases stack with
    | cons f stack => cases hresult
    | nil =>
      cases hresult
      exact (RuntimeError.orDump_none _).symm
  | succ fuel ih =>
    cases hstack : m.stack with
    | nil =>
      have hended : m.result? = some (.error error) := by simp only [result?, hraise, hstack]
      rw [run_of_result (by rw [hended]; rfl), hended] at hresult
      cases hresult
      exact (RuntimeError.orDump_none _).symm
    | cons f stack =>
      have hnone : m.result? = none := by simp only [result?, hraise, hstack]
      simp only [Machine.run, hnone] at hresult
      have hpasses : ∀ g ∈ f :: stack, g.PassesErrors := fun g hg => hm g (hstack ▸ hg)
      obtain ⟨hf, hpasses⟩ := List.forall_mem_cons.mp hpasses
      obtain ⟨hcontrol, hstack', hheap⟩ := step_raise rt hf hraise hstack
      have hm' : (m.step rt).PassesErrors := fun g hg => hpasses g (hstack' ▸ hg)
      rw [ih hm' hcontrol hresult, hstack', hheap, RuntimeError.orDump_orDump]
      rfl

theorem control_of_result (hresult : m.result? = some (.error error)) :
    m.control = .raise error := by
  unfold result? at hresult
  split at hresult
  · cases hresult
  · cases hresult
    assumption
  · cases hresult

/-- A run that ends with an error has raised it somewhere first. -/
theorem PassesErrors.origin (hrt : rt.PassesErrors) (hm : m.PassesErrors) (fuel : Nat)
    (hresult : (m.run rt fuel).result? = some (.error e')) :
    ∃ k ≤ fuel, ∃ e, (∀ j < k, ∀ e, (m.run rt j).control ≠ .raise e) ∧
      (m.run rt k).control = .raise e ∧
      e' = e.orDump ((m.run rt k).heap.innermostDump (m.run rt k).stack) := by
  induction fuel generalizing m with
  | zero =>
    have hraise := control_of_result hresult
    exact ⟨0, le_refl _, e', nofun, hraise, hm.run_raise hraise 0 hresult⟩
  | succ fuel ih =>
    by_cases hraise : ∃ e, m.control = .raise e
    · obtain ⟨e, hraise⟩ := hraise
      exact ⟨0, Nat.zero_le _, e, nofun, hraise, hm.run_raise hraise _ hresult⟩
    · have hcalm : ∀ e, m.control ≠ .raise e := fun e he => hraise ⟨e, he⟩
      cases hended : m.result? with
      | some result =>
        rw [run_of_result (by rw [hended]; rfl)] at hresult
        exact (hcalm _ (control_of_result hresult)).elim
      | none =>
        have hrun : ∀ n, m.run rt (n + 1) = (m.step rt).run rt n := fun n => by
          simp only [Machine.run, hended]
        rw [hrun] at hresult
        obtain ⟨k, hk, e, hbefore, hraise, he⟩ := ih (hm.step hrt) hresult
        refine ⟨k + 1, Nat.succ_le_succ hk, e, fun j hj => ?_, by rwa [hrun], by rwa [hrun]⟩
        cases j with
        | zero => exact hcalm
        | succ j =>
          rw [hrun]
          exact hbefore j (Nat.lt_of_succ_lt_succ hj)

/-- An error that comes back to work which lets it pass comes back to the work below. -/
theorem Returns.passes (hstack : m.stack = above ++ f :: below) (hf : f.PassesErrors)
    (hreturns : Returns rt (f :: below) m m₁) (hraise : m₁.control = .raise error) :
    ∃ m₂, Returns rt below m m₂ ∧ m₂.control = .raise (error.orDump (f.dump? m₁.heap)) := by
  have hrests : m₁.Rests (f :: below) := hreturns.rests
  obtain ⟨hcontrol, hstack₂, -⟩ := step_raise rt hf hraise hrests.stack
  refine ⟨m₁.step rt, (returns_cons_iff hstack).mpr ⟨m₁, hreturns, .step ?_ (.here ⟨hstack₂, ?_⟩)⟩,
    hcontrol⟩
  · exact not_rests_below (hrests.stack.trans (List.nil_append _).symm)
  · exact fun e env heval => nomatch heval.symm.trans hcontrol

end Machine

theorem Request.passesErrors_start (request : Request) (d : Nat) (log : List String) (h : Heap) :
    (request.start rt d log h).PassesErrors :=
  fun f hf => (request.handsOn_start d log h f hf).passesErrors

/-- Errors keep their origin. An application whose body ends with an error ends with an error of the
same cause, and with the dump that the body's error has or else that of the frame in which the body
has run. Any other work that is pending anywhere in a run, be it of an argument, of a form, of a
literal, of an index, of a field or of a native, hands an error on just as it is. So a run that ends
with an error ends with the first one it has raised, with the dump which that one has or else that
of the innermost application around it. -/
theorem Request.errors_keep_origin (hrt : rt.PassesErrors) (request : Request) (d : Nat)
    (log : List String) (h : Heap) :
    let start := request.start rt d log h
    (∀ m depth b below, m.Applies rt depth b below → depth < rt.maxDepth → ∃ frame kept,
      m.control = (Move.body b.body frame []).control ∧
      m.stack = (Move.body b.body frame []).frames ++ .application frame kept :: below ∧
      ∀ m₁ e, Machine.Returns rt (.application frame kept :: below) m m₁ →
        m₁.control = .raise e → ∃ m₂ e', Machine.Returns rt below m m₂ ∧ m₂.control = .raise e' ∧
          e'.cause = e.cause ∧ e'.dump = some (e.dump.getD (m₁.heap.frameDump frame))) ∧
    (∀ n above f below m₁ e, (start.run rt n).stack = above ++ f :: below →
      f.isApplication = false → Machine.Returns rt (f :: below) (start.run rt n) m₁ →
        m₁.control = .raise e →
          ∃ m₂, Machine.Returns rt below (start.run rt n) m₂ ∧ m₂.control = .raise e) ∧
    ∀ n e', (start.run rt n).result? = some (.error e') → ∃ k ≤ n, ∃ e,
      (∀ j < k, ∀ e, (start.run rt j).control ≠ .raise e) ∧
      (start.run rt k).control = .raise e ∧ e'.cause = e.cause ∧
      e'.dump = e.dump.or ((start.run rt k).heap.innermostDump (start.run rt k).stack) := by
  intro start
  have hstart : start.PassesErrors := request.passesErrors_start d log h
  refine ⟨?_, ?_, ?_⟩
  · intro m depth b below happlies hdepth
    obtain ⟨⟨frame, kept, hcontrol, hstack⟩, -⟩ := happlies.begins hdepth
    refine ⟨frame, kept, hcontrol, hstack, fun m₁ e hreturns hraise => ?_⟩
    obtain ⟨m₂, hreturns₂, hcontrol₂⟩ :=
      hreturns.passes (f := .application frame kept) hstack trivial hraise
    refine ⟨m₂, _, hreturns₂, hcontrol₂, rfl, ?_⟩
    show e.dump.or (some (m₁.heap.frameDump frame)) = _
    cases e.dump <;> rfl
  · intro n above f below m₁ e hstack hf hreturns hraise
    have hpasses : f.PassesErrors := hstart.run hrt n f (by simp [hstack])
    obtain ⟨m₂, hreturns₂, hcontrol₂⟩ := hreturns.passes hstack hpasses hraise
    rw [Frame.dump?_eq_none _ hf, RuntimeError.orDump_none] at hcontrol₂
    exact ⟨m₂, hreturns₂, hcontrol₂⟩
  · intro n e' hresult
    obtain ⟨k, hk, e, hbefore, hraise, rfl⟩ := hstart.origin hrt n hresult
    exact ⟨k, hk, e, hbefore, hraise, rfl, rfl⟩

def Block.failing : Heap × Block :=
  let (h, env) := ({} : Heap).newDict {}
  let (h, n) := h.newNative (.function "+" (.primitive .add))
  let inner : Block :=
    { id := 0, name := none, params := [], body := [.native n], env := env, receiver := none }
  let (h, l) := h.newList [.block inner]
  (h, { inner with id := 1, body := [.list l] })

/-- The native fails, having no numbers to add, and says nothing of frames. What the outer block
ends with is that failure, with the dump of the inner one. -/
theorem Request.errors_keep_origin_failing : ∃ (rt : Runtime) (start : Machine) (e' : RuntimeError),
    rt.PassesErrors ∧
      start = (Request.call ⟨0⟩ Block.failing.2 []).start rt 0 [] Block.failing.1 ∧
      (start.run rt 8).result? = some (.error e') ∧ e'.cause = .wrongType "number" "nil" ∧
      e'.dump.isSome ∧ ∃ k ≤ 8, ∃ e, (start.run rt k).control = .raise e ∧ e'.cause = e.cause ∧
        e'.dump = e.dump.or ((start.run rt k).heap.innermostDump (start.run rt k).stack) := by
  let rt : Runtime := { root := ⟨0⟩, maxDepth := 2, registry := [], functions := fun _ => none }
  have hrt : rt.PassesErrors := nofun
  have hfails : (((Request.call ⟨0⟩ Block.failing.2 []).start rt 0 [] Block.failing.1).run
      rt 8).result?.map (fun
        | .error e => some (e.cause, e.dump.isSome)
        | .ok _ => none) = some (some (.wrongType "number" "nil", true)) := by decide +kernel
  obtain ⟨e' | v, hresult, he'⟩ := Option.map_eq_some_iff.mp hfails
  · obtain ⟨hcause, hdump⟩ := Prod.mk.inj (Option.some.inj he')
    obtain ⟨-, -, horigin⟩ :=
      errors_keep_origin hrt (.call ⟨0⟩ Block.failing.2 []) 0 [] Block.failing.1
    obtain ⟨k, hk, e, -, horigin⟩ := horigin 8 e' hresult
    exact ⟨rt, _, e', hrt, rfl, hresult, hcause, hdump, k, hk, e, horigin⟩
  · cases he'

end DictScript
