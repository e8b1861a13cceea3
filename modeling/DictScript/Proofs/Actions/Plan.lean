import DictScript.Action.Eval

/-!
An evaluation consists of pieces that run one inside or after another. What one piece does until it
has run the pieces that it starts itself is its plan. What is so of every plan is so of every
evaluation, at its end and at each moment before.
-/
namespace DictScript.Action
variable {C α β γ : Type}

namespace World

def read (w : World C) (name : String) : Value := (w.stack.get? w.heap name).getD .nil

def nextFrame (w : World C) : DictId := ⟨w.heap.dicts.size⟩

def opened (w : World C) : World C := { w with heap := (w.heap.newDict {}).1 }

def bound (w : World C) (frame : DictId) (name : String) (v : Value) : World C :=
  { w with heap := w.heap.put frame name v }

def defined (w : World C) (name : String) (d : Definition C) : World C :=
  { w with registry := w.registry.add name d }

def pushed (w : World C) (frame : DictId) : World C := { w with stack := w.stack.push frame }

def popped (w : World C) : World C := { w with stack := w.stack.pop }

end World

def onward (f : α → World C → Except Halt β × World C) :
    Except Halt α × World C → Except Halt β × World C
  | (.ok a, w) => f a w
  | (.error e, w) => (.error e, w)

@[simp] theorem onward_ok (f : α → World C → Except Halt β × World C) (a : α) (w : World C) :
    onward f (.ok a, w) = f a w := rfl

@[simp] theorem onward_error (f : α → World C → Except Halt β × World C) (e : Halt) (w : World C) :
    onward f (.error e, w) = (.error e, w) := rfl

@[simp] theorem onward_return (r : Except Halt α × World C) :
    onward (fun a w => (.ok a, w)) r = r := by
  rcases r with ⟨e | a, w⟩ <;> rfl

theorem onward_onward (f : α → World C → Except Halt β × World C)
    (g : β → World C → Except Halt γ × World C) (r : Except Halt α × World C) :
    onward g (onward f r) = onward (fun a w => onward g (f a w)) r := by
  rcases r with ⟨e | a, w⟩ <;> rfl

inductive Task (C : Type) : Type → Type where
  | eval (e : Value) : Task C Value
  | list (l : ListId) : Task C Value
  | slots (frame source : DictId) (names : List String) : Task C Unit
  | body (last : Value) (exprs : List Value) : Task C Value
  | call (name : String) (args : DictId) : Task C Value
  | dispatch (frame : DictId) (last : Value) (definitions : List (Definition C)) : Task C Value
  | implement (frame : DictId) (implementation : Implementation C) : Task C Value

def Task.run (fuel : Nat) : Task C α → Act C α
  | .eval e => Act.eval fuel e
  | .list l => Act.evalList fuel l
  | .slots frame source names => Act.evalSlots fuel frame source names
  | .body last exprs => Act.evalBody fuel last exprs
  | .call name args => Act.call fuel name args
  | .dispatch frame last definitions => Act.dispatch fuel frame last definitions
  | .implement frame implementation => Act.implement fuel frame implementation

/-- What a piece does in a world: it ends, or starts another piece and goes on with its answer.
However that piece ends, its frame is left. -/
inductive Plan (C α : Type) : Type 1 where
  | done (result : Except RuntimeError α) (w : World C)
  | start {β : Type} (t : Task C β) (w : World C) (leave : World C → World C)
    (next : β → World C → Plan C α)

namespace Plan

def answer (a : α) (w : World C) : Plan C α := .done (.ok a) w

def run (fuel : Nat) : Plan C α → Except Halt α × World C
  | .done r w => (r.mapError Halt.error, w)
  | .start t w leave next =>
    onward (fun b w => (next b w).run fuel) (((t.run fuel).run w).map id leave)

@[simp] theorem run_answer (fuel : Nat) (a : α) (w : World C) :
    (answer a w).run fuel = (.ok a, w) := rfl

@[simp] theorem run_start (fuel : Nat) {t : Task C β} {w : World C} {leave : World C → World C}
    {next : β → World C → Plan C α} :
    (start t w leave next).run fuel =
      onward (fun b w => (next b w).run fuel) (((t.run fuel).run w).map id leave) := rfl

end Plan

def Task.plan : Task C α → World C → Plan C α
  | .eval (.sym name), w => .answer (w.read name) w
  | .eval (.quote v), w => .answer v w
  | .eval (.list l), w => .start (.list l) w id .answer
  | .eval v, w => .answer v w
  | .list l, w =>
    match w.heap.items l with
    | [.sym "get", name] => .done ((nameOf name).map w.read) w
    | .sym "let" :: .dict bindings :: exprs =>
      .start (.slots w.nextFrame bindings (w.opened.heap.names bindings)) w.opened id fun _ w₁ =>
        .start (.body .nil exprs) (w₁.pushed w.nextFrame) .popped fun _ w₂ => .answer .nil w₂
    | .sym "def" :: name :: .list required :: exprs =>
      match nameOf name, (w.heap.items required).mapM nameOf with
      | .error e, _ => .done (.error e) w
      | .ok _, .error e => .done (.error e) w
      | .ok name, .ok required => .answer .nil (w.defined name ⟨required, .body exprs⟩)
    | [.sym name, .dict args] => .start (.call name args) w id .answer
    | [.sym name] => .start (.call name w.nextFrame) w.opened id .answer
    | _ => .answer (.list l) w
  | .slots _ _ [], w => .answer () w
  | .slots frame source (name :: names), w =>
    .start (.eval (w.heap.get source name)) w id fun v w =>
      .start (.slots frame source names) (w.bound frame name v) id .answer
  | .body last [], w => .answer last w
  | .body _ (e :: es), w => .start (.eval e) w id fun v w => .start (.body v es) w id .answer
  | .call name args, w =>
    .start (.slots w.nextFrame args (w.opened.heap.names args)) w.opened id fun _ w₁ =>
      .start (.dispatch w.nextFrame .nil (w₁.registry.definitions name)) w₁ id .answer
  | .dispatch _ last [], w => .answer last w
  | .dispatch frame last (d :: ds), w =>
    if d.accepts w.heap frame then
      .start (.implement frame d.implementation) w id fun v w =>
        .start (.dispatch frame v ds) w id .answer
    else .start (.dispatch frame last ds) w id .answer
  | .implement frame (.native run), w =>
    let r := run w.context frame w.heap
    .done r.1 { w with context := r.2.1, heap := r.2.2 }
  | .implement frame (.body exprs), w =>
    .start (.body .nil exprs) (w.pushed frame) .popped .answer

namespace Act

theorem run_bind (x : Act C α) (f : α → Act C β) (w : World C) :
    (x >>= f).run w = onward (fun a w => (f a).run w) (x.run w) := by
  unfold ExceptT.run
  simp only [Bind.bind, ExceptT.bind, ExceptT.mk, StateT.bind, ExceptT.bindCont]
  cases x w with
  | mk r w => cases r <;> rfl

@[simp] theorem run_pure (a : α) (w : World C) : (pure a : Act C α).run w = (.ok a, w) := rfl

theorem run_discard (x : Act C α) (w : World C) :
    (discard x).run w = onward (fun _ w => (.ok (), w)) (x.run w) := by
  show (Function.const α () <$> x).run w = _
  rw [map_eq_pure_bind, run_bind]
  rfl

@[simp] theorem run_get (w : World C) : (get : Act C (World C)).run w = (.ok w, w) := rfl

@[simp] theorem run_lift (r : Except RuntimeError α) (w : World C) :
    (lift r : Act C α).run w = (r.mapError Halt.error, w) := by
  cases r <;> rfl

theorem run_lift_ok (a : α) (w : World C) : (lift (.ok a) : Act C α).run w = (.ok a, w) := rfl

@[simp] theorem run_newFrame (w : World C) : newFrame.run w = (.ok w.nextFrame, w.opened) := rfl

@[simp] theorem run_put (frame : DictId) (name : String) (v : Value) (w : World C) :
    (Act.bind frame name v).run w = (.ok (), w.bound frame name v) := rfl

@[simp] theorem run_addDefinition (name : String) (d : Definition C) (w : World C) :
    (addDefinition name d).run w = (.ok (), w.defined name d) := rfl

@[simp] theorem run_runNative (run : C → DictId → Heap → Except RuntimeError Value × C × Heap)
    (frame : DictId) (w : World C) :
    (runNative run frame).run w =
      ((run w.context frame w.heap).1.mapError Halt.error,
        { w with context := (run w.context frame w.heap).2.1,
                 heap := (run w.context frame w.heap).2.2 }) := by
  rw [runNative, run_bind]
  exact run_lift _ _

@[simp] theorem run_lookup (name : String) (w : World C) :
    (lookup name).run w = (.ok (w.read name), w) := rfl

@[simp] theorem run_within (frame : DictId) (x : Act C α) (w : World C) :
    (within frame x).run w = Prod.map id World.popped (x.run (w.pushed frame)) := rfl

end Act

open Act

/-- With one more unit of fuel, a piece runs its plan. -/
theorem Task.run_succ (fuel : Nat) (t : Task C α) (w : World C) :
    (t.run (fuel + 1)).run w = (t.plan w).run fuel := by
  cases t with
  | eval e => cases e <;> simp [Task.run, Act.eval, plan]
  | list l =>
    simp only [Task.run, Act.evalList, plan, run_bind, run_get, onward_ok]
    generalize w.heap.items l = items
    split <;> try simp only [*]
    · next _ name => cases nameOf name <;> rfl
    · simp only [Task.run, Plan.run_start, Plan.run_answer, run_bind, run_newFrame, run_get,
        run_discard, run_within, run_pure, onward_ok, onward_onward, Prod.map_id, id]
    · next _ name required exprs =>
      cases nameOf name with
      | error e => rfl
      | ok name =>
        simp only [run_bind, run_lift_ok, run_get, onward_ok]
        cases (w.heap.items required).mapM nameOf <;> rfl
    · simp [Task.run]
    · simp [Task.run, run_bind]
    · simp
  | slots frame source names =>
    cases names <;> simp [Task.run, Act.evalSlots, plan, run_bind]
  | body last exprs => cases exprs <;> simp [Task.run, Act.evalBody, plan, run_bind]
  | call name args => simp [Task.run, Act.call, plan, run_bind]
  | dispatch frame last definitions =>
    cases definitions with
    | nil => rfl
    | cons d ds =>
      simp only [Task.run, Act.dispatch, plan, run_bind, run_get, onward_ok]
      split <;> simp [Task.run, run_bind]
  | implement frame implementation =>
    cases implementation with
    | native run => exact run_runNative run frame w
    | body exprs => simp [Task.run, Act.implement, plan]

theorem Task.run_zero (t : Task C α) (w : World C) : (t.run 0).run w = (.error .outOfFuel, w) := by
  cases t <;> rfl

/-! The moments of an evaluation. -/

inductive Plan.Starts (fuel : Nat) (u : Task C β) (v : World C) : Plan C α → Prop where
  | here {leave : World C → World C} {next : β → World C → Plan C α} :
      Starts fuel u v (.start u v leave next)
  | later {γ : Type} {t : Task C γ} {w w₁ : World C} {leave : World C → World C}
      {next : γ → World C → Plan C α} {c : γ} (hc : (t.run fuel).run w = (.ok c, w₁))
      (hu : Starts fuel u v (next c (leave w₁))) : Starts fuel u v (.start t w leave next)

inductive Task.Passes (u : Task C β) (fuel' : Nat) (v : World C) :
    {α : Type} → Nat → Task C α → World C → Prop where
  | here : Passes u fuel' v fuel' u v
  | inner {α γ : Type} {fuel : Nat} {t : Task C α} {s : Task C γ} {w w₁ : World C}
      (hs : (t.plan w).Starts fuel s w₁) (hu : Passes u fuel' v fuel s w₁) :
      Passes u fuel' v (fuel + 1) t w

/-! What is so of every plan. -/

def Plan.Keeps (pre : ∀ {β : Type}, Task C β → World C → Prop)
    (post : ∀ {β : Type}, Task C β → World C → World C → Prop) (final : World C → Prop) :
    Plan C α → Prop
  | .done _ w => final w
  | .start t w leave next => pre t w ∧ ∀ w₁, post t w w₁ →
      final (leave w₁) ∧ ∀ b, Keeps pre post final (next b (leave w₁))

/-- What every piece needs when it starts, and what it guarantees however it ends. A piece that is
out of fuel ends at once. -/
structure Contract (C : Type) where
  pre {α : Type} (t : Task C α) (w : World C) : Prop
  post {α : Type} (t : Task C α) (w w' : World C) : Prop
  out {α : Type} {t : Task C α} {w : World C} : pre t w → post t w w
  plan {α : Type} {t : Task C α} {w : World C} : pre t w → (t.plan w).Keeps pre post (post t w)

namespace Contract
variable (c : Contract C) (fuel : Nat) {fuel' : Nat} {t : Task C α} {u : Task C β} {w v : World C}

theorem plan_run {final : World C → Prop}
    (hrun : ∀ {β : Type} (u : Task C β) (v : World C), c.pre u v →
      c.post u v ((u.run fuel).run v).2)
    {p : Plan C α} (hp : p.Keeps c.pre c.post final) : final (p.run fuel).2 := by
  induction p with
  | done r w => exact hp
  | start t w leave next ih =>
    obtain ⟨herror, hnext⟩ := hp.2 _ (hrun t w hp.1)
    rw [Plan.run_start]
    rcases h : (t.run fuel).run w with ⟨e | b, w₁⟩ <;> rw [h] at herror hnext
    · exact herror
    · exact ih b _ (hnext b)

/-- By induction on the fuel, then along the plan. -/
theorem run (ht : c.pre t w) : c.post t w ((t.run fuel).run w).2 := by
  induction fuel generalizing α t w with
  | zero =>
    rw [t.run_zero]
    exact c.out ht
  | succ fuel ih =>
    rw [t.run_succ]
    exact c.plan_run fuel (fun u v hu => ih hu) (c.plan ht)

theorem pre_of_starts {final : World C → Prop} {p : Plan C α} (hp : p.Keeps c.pre c.post final)
    (h : p.Starts fuel u v) : c.pre u v := by
  induction h with
  | here => exact hp.1
  | later hc hu ih =>
    have hpost := c.run fuel hp.1
    rw [hc] at hpost
    exact ih ((hp.2 _ hpost).2 _)

/-- At each moment, what the piece needs that runs then. -/
theorem pre_of_passes (h : u.Passes fuel' v fuel t w) (ht : c.pre t w) : c.pre u v := by
  induction h with
  | here => exact ht
  | inner hs hu ih => exact ih (c.pre_of_starts _ (c.plan ht) hs)

end Contract
end DictScript.Action
