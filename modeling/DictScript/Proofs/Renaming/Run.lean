import DictScript.Proofs.Calls.Evaluation
import DictScript.Proofs.Renaming.Primitives

/-!
Runs under other numbers. A state of the machine is copied with all that is above its base; what the
one does the other does too, and both come back to the base with the same result.
-/
namespace DictScript
open Heap
variable {ws : List (List Value)} {h h' : Heap} {env d : DictId} {ρ : Renaming} {K : Set Ref}
variable {rt : Runtime} {reply reply' : Reply} {e v : Value} {f f' : Frame} {n : NativeId}
variable {depth : Nat} {base : List Frame} {below : List (List Value)} {m m' k k' : Machine}
variable {x x' : Move × Heap} {error : RuntimeError}

/-! Rules of the machine as a whole. -/

/-- A tame reply is carried out alike. -/
theorem Reply.Copies.move (hreply : Reply.Copies ρ ws reply reply')
    (hS : h.Region h.everything) (htame : reply.Tame (h, h.everything))
    (hmem : .dict rt.root ∈ h.everything) (hroot : ρ.map rt.root = rt.root) (depth : Nat) :
    Move.Copies ρ ws (reply.move rt depth) (reply'.move rt depth) := by
  cases hreply with
  | @done _ k k' result hh =>
    cases result with
    | error e => exact hh.raise e
    | ok v => exact hh.ret v
  | log hh => exact ⟨hh, rfl, .nil, rfl⟩
  | @ask _ k k' request resume resume' hh hresume =>
    cases htame with
    | @ask _ _ T _ _ hedits hheld _ =>
      obtain rfl := everything_of_edits hedits hS
      have hcopies := hh.begins depth request hroot hheld
      have hstays : Stays (k, k.everything) (request.begin rt depth k) :=
        stays_begin request depth hh.region (hedits.sub hmem) hheld
      obtain ⟨T, hbegin, -⟩ := hstays
      have hbecomes := Becomes.of_edits hbegin hh.region
      have hhost : Frame.Copies ρ (request.begin rt depth k).2 (.host resume request.held)
          (.host resume' (request.rename ρ.map).held) :=
        ⟨resume', by rw [Request.held_rename], fun us m m' result hm =>
          hresume us m m' result (hbecomes.trans hm)⟩
      exact ⟨hcopies.heaps, hcopies.control, List.rel_append hcopies.frames (.cons hhost .nil),
        hcopies.logged⟩

namespace Renaming.Heaps
variable (hh : ρ.Heaps ws h h') (htame : rt.Tame K) (huniform : rt.Uniform K)
variable (hfixes : ρ.Fixes K) (hK : K ⊆ h.everything)
include hh htame huniform hfixes hK

theorem evalNative (depth : Nat) (n : NativeId) (henv : h.Allocated (.dict env)) :
    Move.Copies ρ ws (evalNative rt depth n env h) (evalNative rt depth n (ρ.map env) h') := by
  have hmem := hK htame.root
  have hroot := hfixes rt.root htame.root
  rw [DictScript.evalNative, DictScript.evalNative, hh.native]
  cases h.native? n with
  | none => exact hh.ret (.native n)
  | some x =>
    cases x with
    | object tag record => exact hh.ret (.native n)
    | function name code =>
      cases code with
      | primitive p =>
        have hrun : (p.run rt h env).Tame (h, h.everything) :=
          Primitive.tame_run htame p hh.region hK henv
        exact (hh.run htame huniform hfixes hK p henv).move hh.region hrun hmem hroot depth
      | host key =>
        simp only [Option.map_some, Native.rename]
        cases hf : rt.functions key with
        | none => exact hh.ret .nil
        | some f =>
          have hrun := htame.functions key f hf h _ env hh.region hK henv
          exact (huniform.functions key f hf ρ ws h h' env hh hfixes hK henv).move hh.region hrun
            hmem hroot depth

theorem evalExpr (depth : Nat) (henv : h.Allocated (.dict env))
    (horderly : (h.newDict {}).1.Orderly) (e : Value) :
    Move.Copies ρ ws (evalExpr rt depth e env h)
      (evalExpr rt depth (e.rename ρ.map) (ρ.map env) h') := by
  cases e with
  | sym name => exact hh.evalSymbol name env
  | quote v => exact hh.ret v
  | dict literal => exact hh.evalLiteral literal henv horderly
  | list l => exact hh.evalList l henv
  | native n => exact hh.evalNative htame huniform hfixes hK depth n henv
  | _ => exact hh.ret _

omit huniform in
theorem resume (depth : Nat) (hf : f.Copies ρ h f') (hwork : f.Tame (h, h.everything))
    (hv : Has h.everything v) :
    Move.Copies ρ ws (f.resume rt depth v h) (f'.resume rt depth (v.rename ρ.map) h') := by
  obtain ⟨hheld, hresumes⟩ := hwork
  cases f with
  | body rest env last =>
    obtain rfl := hf
    cases rest with
    | nil => exact hh.ret v
    | cons e es => exact hh.eval e env (.cons rfl .nil)
  | application frame kept =>
    obtain rfl := hf
    exact hh.ret v
  | operator args env =>
    obtain rfl := hf
    exact hh.applyValue rt depth (has_dict.mp (hheld _ List.mem_cons_self)) hv args
  | argument env b frame param params args =>
    obtain rfl := hf
    simp only [Frame.held, List.mem_cons] at hheld
    have hframe := has_dict.mp (hheld (.dict frame) (by simp))
    obtain ⟨hresult, hafter⟩ := hh.define param hframe hv
    simp only [Frame.rename, Frame.resume]
    generalize h.define frame param v = x at hresult hafter ⊢
    generalize h'.define (ρ.map frame) param (v.rename ρ.map) = x' at hresult hafter ⊢
    obtain ⟨result, h₁⟩ := x
    obtain ⟨result', h₁'⟩ := x'
    simp only at hresult hafter ⊢
    subst hresult
    obtain ⟨hh₁, hbecomes⟩ := hafter
    cases result' with
    | error e => exact hh₁.raise e
    | ok _ =>
      exact hh₁.bindArgs rt depth
        (hbecomes.allocated (has_dict.mp (hheld (.dict env) (by simp))))
        (hbecomes.has (hheld (.block b) (by simp))) (hbecomes.allocated hframe) params args
  | remaining env b frame param collected args =>
    obtain rfl := hf
    simp only [Frame.held, List.mem_cons] at hheld
    have hlist := has_list.mp (hheld (.list collected) (by simp))
    obtain ⟨hh₁, hbecomes⟩ := hh.pushItem hlist hv
    exact hh₁.collectRest rt depth
      (hbecomes.allocated (has_dict.mp (hheld (.dict env) (by simp))))
      (hbecomes.has (hheld (.block b) (by simp)))
      (hbecomes.allocated (has_dict.mp (hheld (.dict frame) (by simp))))
      (hbecomes.allocated hlist) param args
  | within env dict scope =>
    obtain rfl := hf
    simp only [Frame.held, List.mem_cons] at hheld
    exact hh.finishWithin rt depth (has_dict.mp (hheld (.dict env) (by simp)))
      (has_dict.mp (hheld (.dict dict) (by simp))) scope hv
  | entry literal dict scope expr name names =>
    obtain rfl := hf
    simp only [Frame.held, List.mem_cons] at hheld
    have hdict := has_dict.mp (hheld (.dict dict) (by simp))
    obtain ⟨hnamed, hh₁, hbecomes⟩ := hh.nameBlock name v
    have hv₁ : Has (DictScript.nameBlock name v h).1.everything (DictScript.nameBlock name v h).2 := by
      obtain ⟨hedits, hv₁⟩ := edits_nameBlock (h := h) name hv
      rwa [everything_of_edits hedits hh.region] at hv₁
    have hput := hh₁.put (hbecomes.allocated hdict) hv₁ (hresumes name List.mem_cons_self)
    simp only [Frame.rename, Frame.resume, hnamed]
    exact hput.heaps.evalEntries literal dict scope names
  | index l env =>
    obtain rfl := hf
    exact hh.indexList l v env
  | operand op env want todo done =>
    obtain rfl := hf
    simp only [Frame.held, List.mem_cons, List.mem_append, List.mem_map] at hheld
    have hrefuses : want.refuses (v.rename ρ.map) = want.refuses v := by
      cases want with
      | any => rfl
      | _ => cases v <;> rfl
    simp only [Frame.rename, Frame.resume, hrefuses]
    cases want.refuses v with
    | some cause => exact hh.failIn env cause
    | none =>
      have hdone : renameAll ρ.map done ++ [v.rename ρ.map] = renameAll ρ.map (done ++ [v]) := by
        rw [renameAll_append]
        rfl
      simp only [hdone]
      refine hh.evalOperands op (has_dict.mp (hheld _ (.inl rfl))) todo fun w hw => ?_
      cases List.mem_append.mp hw with
      | inl hw => exact hheld w (.inr (.inl hw))
      | inr hw => exact List.mem_singleton.mp hw ▸ hv
  | host resume kept =>
    obtain ⟨resume', rfl, hcopies⟩ := hf
    have hresult : ∀ w ∈ answerValues (.ok v), Has h.everything w :=
      List.forall_mem_singleton.mpr hv
    exact (hcopies ws h h' (.ok v) (.refl h) hh hresult).move hh.region
      (hresumes (h, h.everything) (.ok v) .refl hresult) (hK htame.root)
      (hfixes rt.root htame.root) depth

omit huniform in
theorem unwind (depth : Nat) (error : RuntimeError) (hf : f.Copies ρ h f')
    (hwork : f.Tame (h, h.everything)) :
    Move.Copies ρ ws (f.unwind rt depth error h) (f'.unwind rt depth error h') := by
  cases f with
  | application frame kept =>
    obtain rfl := hf
    simp only [Frame.rename, Frame.unwind, hh.raisedIn]
    exact hh.raise _
  | host resume kept =>
    obtain ⟨resume', rfl, hcopies⟩ := hf
    have hresult : ∀ w ∈ answerValues (.error error), Has h.everything w :=
      List.forall_mem_nil _
    exact (hcopies ws h h' (.error error) (.refl h) hh hresult).move hh.region
      (hwork.resumes (h, h.everything) (.error error) .refl hresult) (hK htame.root)
      (hfixes rt.root htame.root) depth
  | _ =>
    obtain rfl := hf
    exact hh.raise error

end Renaming.Heaps

namespace Machine

/-! Steps and runs. -/

structure Copies (ρ : Renaming) (base : List Frame) (m m' : Machine) : Prop where
  heaps : ρ.Heaps (m.stack.map Frame.held) m.heap m'.heap
  stack : ∃ above, m'.stack = above ++ base ∧ List.Forall₂ (Frame.Copies ρ m.heap) m.stack above
  control : m'.control = m.control.rename ρ.map
  depth : m'.depth = m.depth
  log : m'.log = m.log

theorem Copies.answered (hm : m.Copies ρ base m') : m'.Rests base ↔ m.Rests [] := by
  obtain ⟨above, hstack, hframes⟩ := hm.stack
  have hempty : m'.stack = base ↔ m.stack = [] := by
    rw [hstack, List.append_left_eq_self, ← List.length_eq_zero_iff, ← hframes.length_eq,
      List.length_eq_zero_iff]
  have hcontrol : (∀ e env, m'.control ≠ .eval e env) ↔ ∀ e env, m.control ≠ .eval e env := by
    rw [hm.control]
    cases m.control with
    | eval e env =>
      exact ⟨fun hanswered => (hanswered _ _ rfl).elim, fun hanswered => (hanswered _ _ rfl).elim⟩
    | _ => exact ⟨fun _ => by simp, fun _ => by simp [Control.rename]⟩
  exact ⟨fun hrests => ⟨hempty.mp hrests.stack, hcontrol.mp hrests.answered⟩,
    fun hrests => ⟨hempty.mpr hrests.stack, hcontrol.mpr hrests.answered⟩⟩

/-- Copied decisions, put into effect on copied stacks. -/
theorem copies_proceed {stack above : List Frame} {k k' : Heap} (base : List Frame) (depth : Nat)
    (log : List String)
    (hx : Move.Copies ρ ws x x') (hk : ρ.After (stack.map Frame.held) x.2 k k')
    (hstack : List.Forall₂ (Frame.Copies ρ x.2) stack above)
    (hheld : ∀ f ∈ x.1.frames, ∀ v ∈ f.held, Has k.everything v) :
    (proceed stack depth log x.1 k).Copies ρ base
      (proceed (above ++ base) depth log x'.1 k') := by
  obtain ⟨hh, hbecomes⟩ := hk
  have hpins' : x'.1.frames.map Frame.held ++ k'.pins =
      ((x.1.frames ++ stack).map Frame.held).map (renameAll ρ.map) ++ ρ.below' := by
    have hnew : x'.1.frames.map Frame.held =
        (x.1.frames.map Frame.held).map (renameAll ρ.map) := by
      have hframes := hx.frames
      generalize x.1.frames = fs at hframes
      generalize x'.1.frames = fs' at hframes
      induction hframes with
      | nil => rfl
      | cons hf _ ih => rw [List.map_cons, hf.held, ih, List.map_cons, List.map_cons]
    rw [hnew, hh.pins', List.map_append, List.map_append, List.append_assoc]
  have hpins : x.1.frames.map Frame.held ++ k.pins =
      (x.1.frames ++ stack).map Frame.held ++ ρ.below := by
    rw [hh.pins, List.map_append, List.append_assoc]
  have hall : ∀ vs ∈ (x.1.frames ++ stack).map Frame.held, ∀ v ∈ vs, Has k.everything v := by
    intro vs hvs v hv
    rw [List.map_append] at hvs
    cases List.mem_append.mp hvs with
    | inl hvs =>
      obtain ⟨f, hf, rfl⟩ := List.mem_map.mp hvs
      exact hheld f hf v hv
    | inr hvs => exact hh.has_pins vs hvs v hv
  have hafter := hh.repin hall
  have hlater := hbecomes.trans hafter.becomes
  refine ⟨?_, ⟨x'.1.frames ++ above, (List.append_assoc _ _ _).symm, ?_⟩, hx.control, ?_, ?_⟩
  · simp only [proceed, hpins, hpins']
    exact hafter.heaps
  · simp only [proceed, hpins]
    exact List.rel_append (hx.frames.imp fun _ _ hf => hf.after hlater)
      (hstack.imp fun _ _ hf => hf.after hlater)
  · have hcount : x'.1.frames.countP (·.isApplication) = x.1.frames.countP (·.isApplication) := by
      have hframes := hx.frames
      generalize x.1.frames = fs at hframes
      generalize x'.1.frames = fs' at hframes
      induction hframes with
      | nil => rfl
      | cons hf _ ih => rw [List.countP_cons, List.countP_cons, hf.isApplication, ih]
    show depth + _ = depth + _
    rw [hcount]
  · show x'.1.logged ++ log = x.1.logged ++ log
    rw [hx.logged]

structure Stands (rt : Runtime) (K : Set Ref) (d : Nat) (below : List (List Value)) (m : Machine) :
    Prop where
  inside : m.Inside K [] d m.heap.everything
  ok : m.Ok rt below

variable {d : Nat}

theorem Stands.step (hlawful : rt.Lawful) (htame : rt.Tame K) (hm : m.Stands rt K d below)
    (hworks : ¬ m.Rests []) : (m.step rt).Stands rt K d below := by
  obtain ⟨T, hedits, hinside⟩ := hm.inside.step htame hworks
  obtain rfl := everything_of_edits hedits hm.inside.region
  exact ⟨hinside, hm.ok.step hlawful⟩

theorem Stands.work (hm : m.Stands rt K d below) :
    ∀ f ∈ m.stack, f.Tame (m.heap, m.heap.everything) := by
  obtain ⟨above, hstack, hworks, -⟩ := hm.inside.above
  rw [List.append_nil] at hstack
  rwa [hstack]

/-- The two take the same step. -/
theorem Copies.step (hlawful : rt.Lawful) (htame : rt.Tame K) (huniform : rt.Uniform K)
    (hfixes : ρ.Fixes K) (hm : m.Copies ρ base m') (hstands : m.Stands rt K d ρ.below)
    (hworks : ¬ m.Rests []) : (m.step rt).Copies ρ base (m'.step rt) := by
  have hnext := hstands.step hlawful htame hworks
  have hheld : ∀ f ∈ (m.step rt).stack, ∀ v ∈ f.held, Has (m.step rt).heap.everything v :=
    fun f hf => (hnext.work f hf).held
  have hwork := hstands.work
  obtain ⟨⟨hS, hK, hcontrol, -⟩, hok⟩ := hstands
  obtain ⟨control, stack, depth, h, log⟩ := m
  obtain ⟨control', stack', depth', h', log'⟩ := m'
  obtain ⟨hh, ⟨above, hstack, hframes⟩, hsame, hdepth, hlog⟩ := hm
  simp only at hh hstack hframes hsame hdepth hlog hcontrol hwork
  subst hstack hsame hdepth hlog
  cases control with
  | eval e env =>
    have horderly : (h.newDict {}).1.Orderly :=
      (hok.good.newDict (c := {}) rfl (by simp) (by simp) (by simp) (by simp)).orderly
    have hx := hh.evalExpr htame huniform hfixes hK depth' hcontrol.2 horderly e
    have hbecomes : h.Becomes (evalExpr rt depth' e env h).2 := by
      obtain ⟨T, hedits, -⟩ := stays_evalExpr htame depth' hS hK hcontrol.2 hcontrol.1
      exact .of_edits hedits hS
    exact copies_proceed base depth' log' hx hx.heaps.here (hframes.imp fun _ _ hf => hf.after hbecomes)
      fun f hf => hheld f (List.mem_append_left _ hf)
  | ret v =>
    cases hframes with
    | nil => exact (hworks ⟨rfl, by simp⟩).elim
    | @cons f f' stack above hf hframes =>
      obtain ⟨hwork, -⟩ := List.forall_mem_cons.mp hwork
      obtain ⟨hh₁, hbecomes₁⟩ := hh.hold hcontrol
      have hwork₁ := hwork.after hbecomes₁
      have hK₁ := hK.trans hbecomes₁.sub
      have hv₁ : Has (h.hold v).everything v := hbecomes₁.has hcontrol
      have hx := hh₁.resume htame hfixes hK₁ (depthBelow f depth') (hf.after hbecomes₁) hwork₁ hv₁
      have hbecomes₂ : (h.hold v).Becomes (f.resume rt (depthBelow f depth') v (h.hold v)).2 := by
        obtain ⟨T, hedits, -⟩ :=
          stays_resume (depthBelow f depth') hh₁.region (hK₁ htame.root) hwork₁ hv₁
        exact .of_edits hedits hh₁.region
      have hdepth : depthBelow f' depth' = depthBelow f depth' := by
        rw [depthBelow, depthBelow, hf.isApplication]
      have hcopies := copies_proceed base (depthBelow f depth') log' hx hx.heaps.leave
        (hframes.imp fun _ _ hf => hf.after (hbecomes₁.trans hbecomes₂))
        fun f hf => hheld f (List.mem_append_left _ hf)
      simp only [Control.rename, List.cons_append, Machine.step, hdepth]
      exact hcopies
  | raise error =>
    cases hframes with
    | nil => exact (hworks ⟨rfl, by simp⟩).elim
    | @cons f f' stack above hf hframes =>
      obtain ⟨hwork, -⟩ := List.forall_mem_cons.mp hwork
      have hx := hh.unwind htame hfixes hK (depthBelow f depth') error hf hwork
      have hbecomes : h.Becomes (f.unwind rt (depthBelow f depth') error h).2 := by
        obtain ⟨T, hedits, -⟩ :=
          stays_unwind (depthBelow f depth') error hS (hK htame.root) hwork
        exact .of_edits hedits hS
      have hdepth : depthBelow f' depth' = depthBelow f depth' := by
        rw [depthBelow, depthBelow, hf.isApplication]
      have hcopies := copies_proceed base (depthBelow f depth') log' hx hx.heaps.leave
        (hframes.imp fun _ _ hf => hf.after hbecomes)
        fun f hf => hheld f (List.mem_append_left _ hf)
      simp only [Control.rename, List.cons_append, Machine.step, hdepth]
      exact hcopies

section
variable (hlawful : rt.Lawful) (htame : rt.Tame K) (huniform : rt.Uniform K) (hfixes : ρ.Fixes K)
include hlawful htame huniform hfixes

/-- Where the run comes back, its copy does. -/
theorem Copies.returns (hreturns : Returns rt [] m k) (hm : m.Copies ρ base m')
    (hstands : m.Stands rt K d ρ.below) :
    ∃ k', Returns rt base m' k' ∧ k.Copies ρ base k' := by
  induction hreturns generalizing m' with
  | here hrests => exact ⟨m', .here (hm.answered.mpr hrests), hm⟩
  | step hworks _ ih =>
    obtain ⟨k', hreturns', hk⟩ := ih (hm.step hlawful htame huniform hfixes hstands hworks)
      (hstands.step hlawful htame hworks)
    exact ⟨k', .step (fun hrests => hworks (hm.answered.mp hrests)) hreturns', hk⟩

/-- The copy does not come back anywhere else. -/
theorem Copies.returned (hreturns : Returns rt base m' k') (hm : m.Copies ρ base m')
    (hstands : m.Stands rt K d ρ.below) :
    ∃ k, Returns rt [] m k ∧ k.Copies ρ base k' := by
  induction hreturns generalizing m with
  | here hrests => exact ⟨m, .here (hm.answered.mp hrests), hm⟩
  | step hworks _ ih =>
    have hworks : ¬ m.Rests [] := fun hrests => hworks (hm.answered.mpr hrests)
    obtain ⟨k, hreturns', hk⟩ := ih (hm.step hlawful htame huniform hfixes hstands hworks)
      (hstands.step hlawful htame hworks)
    exact ⟨k, .step hworks hreturns', hk⟩

end
end Machine
end DictScript
