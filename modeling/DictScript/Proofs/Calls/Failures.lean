import DictScript.Proofs.Calls.Scope
import DictScript.Proofs.Ownership.Rewritten

/-!
What a definition or an assignment leaves behind when it fails. A definition writes nothing before
it has all its operands, and then it does not fail half-way. An assignment is carried out name by
name, and the names before the one that is bound nowhere stay rebound.
-/
namespace DictScript
open Heap
variable {rt : Runtime} {h g : Heap} {env e d : DictId} {name : String} {v : Value} {f : Frame}
variable {args es done : List Value} {todo : List (Operand × Value)} {wants : List Operand}
variable {depth : Nat} {stack : List Frame} {log : List String} {base pins : List (List Value)}
variable {m m' m₁ : Machine} {error : RuntimeError}

/-! The form that is evaluated next. -/

theorem Operation.length_of_operands? {op : Operation} {n : Nat}
    (hwants : op.operands? n = some wants) : wants.length = n := by
  unfold operands? at hwants
  split at hwants <;> cases hwants <;> rfl

/-- A link that is refused is not made. -/
theorem Heap.define_of_error (herror : h.define d name v = (.error error, g)) : g = h := by
  unfold define setParent at herror
  split at herror
  all_goals try split at herror
  all_goals try split at herror
  all_goals cases herror
  all_goals rfl

/-- A definition that has its operands either succeeds or leaves everything as it was. -/
theorem Operation.finish_define (env : DictId) (operands : List Value) (h : Heap) :
    (∃ v k, define.finish env operands h = (.ret v, k)) ∨
      ∃ e, define.finish env operands h = (.raise e, h) := by
  unfold finish
  split
  any_goals exact .inl ⟨_, _, rfl⟩
  · rename_i target name v _
    cases hx : h.define target name v with
    | mk result k =>
      cases result with
      | ok _ => exact .inl ⟨_, _, rfl⟩
      | error e => exact .inr ⟨e, by rw [define_of_error hx]⟩
  · rename_i hassign
    cases hassign

namespace Machine

structure BeginsWith (name : String) (args : List Value) (env : DictId) (m : Machine) : Prop where
  list : ∃ l, m.control = .eval (.list l) env ∧ m.heap.items l = .sym name :: args
  plain : blockLiteral? (.sym name :: args) = none

theorem BeginsWith.step_eq {form : Form} (hm : m.BeginsWith name args env)
    (hform : Form.ofName? name = some form) (rt : Runtime) :
    m.step rt = proceed m.stack m.depth m.log (evalForm form args env m.heap).1
      (evalForm form args env m.heap).2 := by
  obtain ⟨⟨l, hcontrol, hitems⟩, hplain⟩ := hm
  obtain ⟨control, stack, depth, h, log⟩ := m
  obtain rfl : control = .eval (.list l) env := hcontrol
  have hitems : h.items l = .sym name :: args := hitems
  have hlist : evalList l env h = evalForm form args env h := by
    rw [evalList, hitems]
    simp only [hplain, Value.sym?, Option.bind_some, hform]
  simp only [step, evalExpr, hlist]

/-- From `m` to `m'` the expressions are evaluated one after another, in `env`, whatever each of
them comes to. No other step changes an object. -/
inductive OnlyEvaluates (rt : Runtime) (env : DictId) (stack : List Frame) :
    List Value → Machine → Machine → Prop where
  | done {m : Machine} : OnlyEvaluates rt env stack [] m m
  | aside {es : List Value} {m m' : Machine} : SameObjects m.heap (m.step rt).heap →
      OnlyEvaluates rt env stack es (m.step rt) m' → OnlyEvaluates rt env stack es m m'
  | next {e : Value} {es : List Value} {f : Frame} {m m₁ m' : Machine} :
      m.Awaits env stack e f → Returns rt (f :: stack) m m₁ →
      OnlyEvaluates rt env stack es m₁ m' → OnlyEvaluates rt env stack (e :: es) m m'

/-- Beyond the work that waits, what the machine comes back to is come back to a step later. -/
theorem Returns.after_step (hreturns : Returns rt stack m m') (hrests : m.Rests (f :: stack)) :
    Returns rt stack (m.step rt) m' := by
  cases hreturns with
  | here hhere =>
    exact (List.cons_ne_self f stack (hrests.stack.symm.trans hhere.stack)).elim
  | step _ hreturns => exact hreturns

theorem rests_raise : (after stack depth log pins (.raise error, h)).Rests stack :=
  ⟨rfl, by simp [after, proceed, Move.raise]⟩

/-- The operands in `todo` are left. If there is an error, one of them has it, or the definition has
all and is refused. -/
theorem onlyEvaluates_operands
    (hreturns : Returns rt stack
      (after stack depth log pins (evalOperands .define env todo done h)) m')
    (hraise : m'.control = .raise error) :
    SameObjects h (after stack depth log pins (evalOperands .define env todo done h)).heap ∧
      ∃ es, es <+: todo.map Prod.snd ∧ OnlyEvaluates rt env stack es
        (after stack depth log pins (evalOperands .define env todo done h)) m' := by
  induction todo generalizing done h depth log pins with
  | nil =>
    obtain ⟨v, k, hfinish⟩ | ⟨e, hfinish⟩ := Operation.finish_define env done h
    · rw [evalOperands, hfinish] at hreturns
      have hrests : (after stack depth log pins (.ret v, k)).Rests stack :=
        ⟨rfl, by simp [after, proceed, Move.ret]⟩
      obtain rfl := (returns_of_rests hrests).mp hreturns
      cases hraise
    · rw [evalOperands, hfinish] at hreturns ⊢
      obtain rfl := (returns_of_rests rests_raise).mp hreturns
      exact ⟨⟨rfl, rfl, rfl⟩, [], List.nil_prefix, .done⟩
  | cons x todo ih =>
    obtain ⟨want, e⟩ := x
    let f := Frame.operand .define env want todo done
    let m := after stack depth log pins (.eval e env [f], h)
    have hstack : m.stack = [] ++ f :: stack := rfl
    have hawaits : m.Awaits env stack e f := ⟨rfl, rfl⟩
    refine ⟨⟨rfl, rfl, rfl⟩, ?_⟩
    obtain ⟨m₁, hm₁, hreturns⟩ := (returns_cons_iff hstack).mp hreturns
    have hrests := hm₁.rests
    have hreturns := hreturns.after_step hrests
    -- the operand has an error, is not what it has to be, or is taken note of
    cases hcontrol : m₁.control with
    | eval e' env' => exact (hrests.answered e' env' hcontrol).elim
    | raise e' =>
      have hunwind : ∀ depth e h, f.unwind rt depth e h = (.raise e, h) := fun _ _ _ => rfl
      obtain ⟨hraise', hstack', hsame⟩ := step_of_raise hunwind hcontrol hrests.stack
      have hrests' : (m₁.step rt).Rests stack := ⟨hstack', by simp [hraise']⟩
      obtain rfl := (returns_of_rests hrests').mp hreturns
      exact ⟨[e], by simp, .next hawaits hm₁ (.aside hsame .done)⟩
    | ret v =>
      have hstep := step_of_ret rt (f := f) rfl hcontrol hrests.stack
      have hhold := sameObjects_hold m₁.heap v
      cases hrefuses : want.refuses v with
      | some cause =>
        have hresume : f.resume rt m₁.depth v (m₁.heap.hold v) =
            (.failIn (m₁.heap.hold v) env cause, m₁.heap.hold v) := by
          simp only [f, Frame.resume, hrefuses]
        simp only [hresume] at hstep
        rw [hstep] at hreturns
        obtain rfl := (returns_of_rests rests_raise).mp hreturns
        refine ⟨[e], by simp, .next hawaits hm₁ (.aside ?_ ?_)⟩
        · rw [hstep]
          exact hhold.trans ⟨rfl, rfl, rfl⟩
        · rw [hstep]
          exact .done
      | none =>
        have hresume : f.resume rt m₁.depth v (m₁.heap.hold v) =
            evalOperands .define env todo (done ++ [v]) (m₁.heap.hold v) := by
          simp only [f, Frame.resume, hrefuses]
        simp only [hresume] at hstep
        rw [hstep] at hreturns
        obtain ⟨hsame, es, hes, honly⟩ := ih hreturns
        rw [← hstep] at hsame honly
        refine ⟨e :: es, ?_, .next hawaits hm₁ (.aside (hhold.trans hsame) honly)⟩
        exact (List.cons_prefix_cons).mpr ⟨rfl, hes⟩

/-- A definition in the environment or in a target, with any number of operands: if it comes to an
error, then of its operands the first few have been evaluated, and nothing else has written. -/
theorem BeginsWith.onlyEvaluates (hm : m.BeginsWith name args env)
    (hname : name = "def" ∨ name = "set" ∧ args.length ≠ 1)
    (hreturns : Returns rt m.stack m m') (hraise : m'.control = .raise error) :
    ∃ es, es <+: args ∧ OnlyEvaluates rt env m.stack es m m' := by
  obtain ⟨form, hform, hoperation⟩ : ∃ form, Form.ofName? name = some form ∧
      evalForm form args env m.heap = evalOperation .define args env m.heap := by
    obtain rfl | ⟨rfl, hargs⟩ := hname
    · exact ⟨.define, rfl, rfl⟩
    · exact ⟨.assign, rfl, by rw [evalForm, if_neg hargs]⟩
  have hstep := hm.step_eq hform rt
  rw [hoperation, evalOperation] at hstep
  obtain ⟨l, hcontrol, -⟩ := hm.list
  have hreturns : Returns rt m.stack (m.step rt) m' := by
    cases hreturns with
    | here hrests => exact (hrests.answered _ _ hcontrol).elim
    | step _ hreturns => exact hreturns
  cases hwants : Operation.define.operands? args.length with
  | none =>
    rw [hwants] at hstep
    have hrests : (m.step rt).Rests m.stack := by
      rw [hstep]
      exact ⟨rfl, by simp [proceed, Move.failIn, Move.raise]⟩
    obtain rfl := (returns_of_rests hrests).mp hreturns
    refine ⟨[], List.nil_prefix, .aside ?_ .done⟩
    rw [hstep]
    exact ⟨rfl, rfl, rfl⟩
  | some wants =>
    have hafter : m.step rt = after m.stack m.depth m.log m.heap.pins
        (evalOperands .define env (wants.zip args) [] m.heap) := by
      have hheap : (evalOperands .define env (wants.zip args) [] m.heap).2 = m.heap := by
        cases wants.zip args <;> rfl
      simp only [hwants] at hstep
      rw [hstep, after, hheap]
    rw [hafter] at hreturns
    obtain ⟨hsame, es, hes, honly⟩ := onlyEvaluates_operands hreturns hraise
    rw [← hafter] at hsame honly
    have hlength := Operation.length_of_operands? hwants
    rw [← List.unzip_snd, List.unzip_zip hlength] at hes
    exact ⟨es, hes, .aside hsame honly⟩

/-! Names that are rebound. -/

/-- Where the bindings of an assignment are there, and it is carried out. -/
theorem Ok.assigns (hrt : rt.Lawful) (hm : m.Ok rt base) {x : Value}
    (hbegins : m.BeginsForm "set" x e)
    (hreturns : Returns rt (.operand .assign e .dict [] [] :: m.stack) (m.step rt) m₁)
    (hret : m₁.control = .ret (.dict d)) :
    let g := m₁.heap.hold (.dict d)
    g.Complete ∧ g.Allocated (.dict e) ∧
      (∀ x ∈ g.slots d, Key.of x.1 = .slot x.1 ∧ g.Knows g.heldRefs x.2) ∧
      ∃ pins, m₁.step rt = after m.stack m₁.depth m₁.log pins (assignAll e (g.slots d) g) := by
  intro g
  obtain ⟨l, hcontrol, -⟩ := hbegins.list
  have he : m.heap.Allocated (.dict e) := by
    have hscope := hm.inScope
    rw [hcontrol] at hscope
    exact hm.good.complete.held _ hscope
  obtain ⟨n, rfl⟩ := exists_run_of_step hreturns.exists_run
  have hm₁ := hm.run hrt n
  have hd : (m.run rt n).heap.Allocated (.dict d) := by
    refine hm₁.good.known _ (.inr ?_)
    rw [hret]
    exact List.mem_singleton_self _
  have hg : g.Complete := hm₁.good.complete.hold (List.forall_mem_singleton.mpr hd)
  refine ⟨hg, ?_, fun x hx => ⟨?_, knows_slots (living_hold _ d) hx⟩, ?_⟩
  · rw [Allocated, dicts_hold]
    exact (hm.scope_run hrt n he).1
  · refine hm₁.good.wellFormed.ordinary d x.1 ?_
    have hcell := fun c => cell_congr (d := c) (dicts_hold (m.run rt n).heap (.dict d))
    have hslots : g.slots d = (m.run rt n).heap.slots d := slots_congr (hcell d) (hcell _)
    exact List.mem_map_of_mem (hslots ▸ hx)
  · exact ⟨_, step_of_ret rt rfl hret hreturns.rests.stack⟩

structure Rebound (g : Heap) (e : DictId) (xs : List (String × Value)) (k : Heap) : Prop where
  objects : SameObjects (g.rebound e xs) k
  names : ∀ c, k.names c = g.names c
  lookup : ∀ c n, (k.slots c).lookup n =
    if (g.find e n).map g.owner = some (g.owner c) then (xs.lookup n).or ((g.slots c).lookup n)
    else (g.slots c).lookup n

theorem Rebound.of_objects {xs ys : List (String × Value)} (hg : g.Complete)
    (he : g.Allocated (.dict e))
    (hxs : ∀ x ∈ xs ++ ys, Key.of x.1 = .slot x.1 ∧ g.Knows g.heldRefs x.2)
    (hnodup : ((xs ++ ys).map Prod.fst).Nodup) (hk : SameObjects (g.rebound e xs) h) :
    Rebound g e xs h := by
  have hxs := fun x hx => hxs x (List.mem_append_left ys hx)
  rw [List.map_append, List.nodup_append] at hnodup
  have hcell := fun c => cell_congr (d := c) hk.dicts
  have hslots : ∀ c, h.slots c = (g.rebound e xs).slots c :=
    fun c => slots_congr (hcell c) (hcell _)
  refine ⟨hk, fun c => ?_, fun c n => ?_⟩
  · rw [Heap.names, hslots]
    exact (rewritten_rebound hg he hxs).names c
  · rw [hslots]
    exact lookup_rebound hg he hxs hnodup.1 c n

/-- A definition that fails has bound nothing: in the environment or in a target, with whatever
operands, the first few of them have been evaluated, and no other step has changed an object. An
assignment with one operand, once this has come to a dictionary, looks for each name where it was
bound then, as long as no value that is overwritten was what kept a dictionary of the chain alive.
If all are bound they are all rebound there, and the result is nil. Otherwise it fails at the first
that is bound nowhere, with those before it rebound and the others as they were. -/
theorem Ok.bindings_left_behind (hrt : rt.Lawful) (hm : m.Ok rt base) :
    (∀ name args m' error, name = "def" ∨ name = "set" ∧ args.length ≠ 1 →
      m.BeginsWith name args e → Returns rt m.stack m m' → m'.control = .raise error →
      ∃ es, es <+: args ∧ OnlyEvaluates rt e m.stack es m m') ∧
    ∀ x, m.BeginsForm "set" x e →
      (m.step rt).Awaits e m.stack x (.operand .assign e .dict [] []) ∧
      ∀ m₁ d, Returns rt (.operand .assign e .dict [] [] :: m.stack) (m.step rt) m₁ →
        m₁.control = .ret (.dict d) →
        let g := m₁.heap.hold (.dict d)
        (∀ done, done <+: g.slots d → g.KeepsChain (g.rebound e done) e) →
        (m₁.step rt).stack = m.stack ∧
        ((∀ x ∈ g.slots d, (g.find e x.1).isSome) ∧ (m₁.step rt).control = .ret .nil ∧
          Rebound g e (g.slots d) (m₁.step rt).heap ∨
        ∃ done n v rest error, g.slots d = done ++ (n, v) :: rest ∧
          (∀ x ∈ done, (g.find e x.1).isSome) ∧ g.find e n = none ∧
          (m₁.step rt).control = .raise error ∧ error.cause = g.unboundFrom e n ∧
          Rebound g e done (m₁.step rt).heap) := by
  refine ⟨fun name args m' error hname hbegins hreturns hraise =>
    hbegins.onlyEvaluates hname hreturns hraise, fun x hbegins =>
    ⟨hbegins.awaits rt (by decide) rfl fun _ => rfl, fun m₁ d hreturns hret => ?_⟩⟩
  intro g hkeep
  obtain ⟨hg, he, hxs, pins, hstep⟩ := hm.assigns hrt hbegins hreturns hret
  have hassigned := assigned_assignAll hg he hxs hkeep
  have hnodup : ((g.slots d).map Prod.fst).Nodup := names_nodup g d
  rw [hstep]
  generalize assignAll e (g.slots d) g = y at hassigned
  generalize g.slots d = xs at hxs hnodup hassigned
  refine ⟨?_, ?_⟩
  · cases hassigned <;> rfl
  · cases hassigned with
    | all hfound =>
      refine .inl ⟨hfound, rfl, ?_⟩
      rw [← List.append_nil xs] at hxs hnodup
      exact .of_objects hg he hxs hnodup ⟨rfl, rfl, rfl⟩
    | @unbound done rest n v error hsplit hfound hnone hcause =>
      subst hsplit
      refine .inr ⟨done, n, v, rest, error, rfl, hfound, hnone, rfl, hcause, ?_⟩
      exact .of_objects hg he hxs hnodup ⟨rfl, rfl, rfl⟩

end Machine

def Interpreter.assigning : Heap :=
  let h := (HostOp.define ⟨20⟩ "y" .nil).run shadowed
  let o := HostOp.list [.sym "set", .quote (.dict ⟨20⟩)]
  (o.run (h.1.keep h.2)).1.keep (o.run (h.1.keep h.2)).2

theorem Reachable.assigning :
    Reachable (Interpreter.standard 100).runtime Interpreter.assigning := by
  let o := HostOp.define ⟨20⟩ "y" .nil
  let h := (o.run Interpreter.shadowed).1.keep (o.run Interpreter.shadowed).2
  have hchild : Ref.dict ⟨20⟩ ∈ Interpreter.shadowed.held := by decide +kernel
  have hchild' : Ref.dict ⟨20⟩ ∈ h.held := by decide +kernel
  have hh : Reachable (Interpreter.standard 100).runtime h := by
    refine .change o .shadowed (List.forall_mem_cons.mpr ⟨has_dict.mpr hchild, ?_⟩) trivial
    exact List.forall_mem_singleton.mpr (has_of_refs rfl)
  refine .change (.list [.sym "set", .quote (.dict ⟨20⟩)]) hh ?_ trivial
  refine List.forall_mem_cons.mpr ⟨has_of_refs rfl, List.forall_mem_singleton.mpr ?_⟩
  exact List.forall_mem_singleton.mpr hchild'

set_option maxRecDepth 2000 in
theorem Interpreter.slots_assigning :
    assigning.slots ⟨20⟩ = [("x", .bool true), ("y", .nil)] := rfl

/-- The assignment begins with its operand. -/
theorem Interpreter.dicts_assign {i : Interpreter} {x y : Value}
    (hm : (i.begin (.evaluate x (some e))).BeginsWith "set" [y] e) :
    ((i.begin (.evaluate x (some e))).step rt).heap.dicts = i.heap.dicts := by
  rw [hm.step_eq rfl rt]
  rfl

/-- The name that is bound in the root is rebound there before the other one is not found. -/
theorem Machine.Ok.bindings_left_behind_unbound :
    let rt := (Interpreter.standard 100).runtime
    let i : Interpreter := { Interpreter.standard 100 with heap := Interpreter.assigning }
    let m := i.begin (.evaluate (.list ⟨0⟩) (some ⟨0⟩))
    ∃ m₁ error suggestion,
      Returns rt (.operand .assign ⟨0⟩ .dict [] [] :: m.stack) (m.step rt) m₁ ∧
      m₁.control = .ret (.dict ⟨20⟩) ∧ (m₁.step rt).control = .raise error ∧
      error.cause = .unbound "y" suggestion ∧
      ((m₁.step rt).heap.slots ⟨0⟩).lookup "x" = some (.bool true) := by
  intro rt i m
  have hlawful := Interpreter.lawful_standard 100
  have hheld : ∀ v ∈ (Request.evaluate (.list ⟨0⟩) (some ⟨0⟩)).held,
      Has Interpreter.assigning.heldRefs v := by
    have hlist : Ref.list ⟨0⟩ ∈ Interpreter.assigning.held := by decide +kernel
    have hroot : Ref.dict ⟨0⟩ ∈ Interpreter.assigning.held := by decide +kernel
    refine List.forall_mem_cons.mpr ⟨List.forall_mem_singleton.mpr hlist, ?_⟩
    exact List.forall_mem_singleton.mpr (List.forall_mem_singleton.mpr hroot)
  have hok := Interpreter.ok_run (i := i) hlawful rfl (Reachable.assigning.kept hlawful) _ hheld 0
  rw [Machine.run] at hok
  have hbegins : m.BeginsForm "set" (.quote (.dict ⟨20⟩)) ⟨0⟩ :=
    ⟨⟨⟨0⟩, rfl, rfl⟩, by simp [Value.sym?]⟩
  have hwith : m.BeginsWith "set" [.quote (.dict ⟨20⟩)] ⟨0⟩ := ⟨hbegins.list, rfl⟩
  obtain ⟨hawaits, hresult⟩ := (hok.bindings_left_behind hlawful).2 _ hbegins
  obtain ⟨m₁, hreturns, hret, hheap⟩ := hawaits.returns_quote rt
  have hafter := hresult m₁ ⟨20⟩ hreturns hret
  rw [hheap] at hafter
  have hdicts : (m.step rt).heap.dicts = Interpreter.assigning.dicts :=
    Interpreter.dicts_assign hwith
  have hcell := fun c => cell_congr (d := c) ((dicts_hold _ (.dict ⟨20⟩)).trans hdicts)
  have hslots : ((m.step rt).heap.hold (.dict ⟨20⟩)).slots ⟨20⟩ =
      [("x", .bool true), ("y", .nil)] :=
    (slots_congr (hcell _) (hcell _)).trans Interpreter.slots_assigning
  have hx : ((m.step rt).heap.hold (.dict ⟨20⟩)).find ⟨0⟩ "x" = some ⟨0⟩ := by decide +kernel
  have hy : ((m.step rt).heap.hold (.dict ⟨20⟩)).find ⟨0⟩ "y" = none := by decide +kernel
  have hparent : ((m.step rt).heap.hold (.dict ⟨20⟩)).parent ⟨0⟩ = none := by decide +kernel
  have hroot : Ref.dict ⟨0⟩ ∈ ((m.step rt).heap.hold (.dict ⟨20⟩)).held := by decide +kernel
  obtain ⟨hg, he, hxs, -⟩ := hok.assigns hlawful hbegins hreturns hret
  rw [hheap] at hg he hxs
  generalize (m.step rt).heap.hold (.dict ⟨20⟩) = g at *
  have hkeep : ∀ done, done <+: g.slots ⟨20⟩ → g.KeepsChain (g.rebound ⟨0⟩ done) ⟨0⟩ := by
    intro done hdone
    have hk := rewritten_rebound hg he fun x hx => hxs x (hdone.subset hx)
    refine hk.keepsChain hg fun p hp => ?_
    obtain rfl | ⟨q, hq, -⟩ := Relation.ReflTransGen.cases_head hp
    · exact hroot
    · rw [Inherits, hparent] at hq
      cases hq
  obtain ⟨-, hall | ⟨done, n, v, rest, error, hsplit, hfound, hnone, hraise, hcause, hrebound⟩⟩ :=
    hafter hkeep
  · rw [hslots] at hall
    have hbound := hall.1 ("y", .nil) (by simp)
    rw [hy] at hbound
    cases hbound
  · rw [hslots] at hsplit
    -- the first name is bound and the second is not
    obtain _ | ⟨a, _ | ⟨b, done⟩⟩ := done
    · obtain ⟨⟨rfl, -⟩, -⟩ : ("x" = n ∧ Value.bool true = v) ∧ [("y", Value.nil)] = rest := by
        simpa using hsplit
      rw [hx] at hnone
      cases hnone
    · obtain ⟨rfl, ⟨rfl, -⟩, -⟩ :
          ("x", Value.bool true) = a ∧ ("y" = n ∧ Value.nil = v) ∧ [] = rest := by
        simpa using hsplit
      refine ⟨m₁, error, _, hreturns, hret, hraise, hcause, ?_⟩
      rw [hrebound.lookup, hx, Option.map_some, if_pos rfl]
      rfl
    · simp at hsplit

end DictScript
