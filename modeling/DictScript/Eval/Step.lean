import DictScript.Eval.Form
import DictScript.Eval.Primitive

/-!
The steps of the machine. A rule sees everything that is held until it is finished: what the pending
work keeps, and the result it goes on with.
-/
namespace DictScript

def Request.begin (rt : Runtime) (depth : Nat) (h : Heap) : Request → Move × Heap
  | evaluate expr env => (.eval expr (env.getD rt.root) [], h)
  | body exprs env => (.body exprs env [], h)
  | apply env dict target => applyWithin env dict target h
  | call env block args => callBlock rt depth env block (args.map Value.quote) h

def Reply.move (rt : Runtime) (depth : Nat) : Reply → Move × Heap
  | done (.ok v) h => (.ret v, h)
  | done (.error e) h => (.raise e, h)
  | log text h => ({ control := .ret .nil, logged := [text] }, h)
  | ask request h resume =>
    let (move, h) := request.begin rt depth h
    ({ move with frames := move.frames ++ [.host resume request.held] }, h)

def evalNative (rt : Runtime) (depth : Nat) (n : NativeId) (env : DictId) (h : Heap) :
    Move × Heap :=
  match h.native? n with
  | some (.function _ (.primitive p)) => (p.run rt h env).move rt depth
  | some (.function _ (.host key)) =>
    match rt.functions key with
    | some f => (f h env).move rt depth
    | none => (.ret .nil, h)
  | _ => (.ret (.native n), h)

def evalExpr (rt : Runtime) (depth : Nat) (e : Value) (env : DictId) (h : Heap) : Move × Heap :=
  match e with
  | .sym name => evalSymbol name env h
  | .quote v => (.ret v, h)
  | .dict literal => evalLiteral literal env h
  | .list l => evalList l env h
  | .native n => evalNative rt depth n env h
  | v => (.ret v, h)

def Frame.resume (rt : Runtime) (depth : Nat) (f : Frame) (v : Value) (h : Heap) : Move × Heap :=
  match f with
  | body [] _ _ => (.ret v, h)
  | body (e :: es) env _ => (.eval e env [.body es env v], h)
  | application _ _ => (.ret v, h)
  | operator args env => applyValue rt depth v args env h
  | argument env b frame param params args =>
    match h.define frame param v with
    | (.error e, h) => (.raise e, h)
    | (.ok (), h) => bindArgs rt depth env b frame params args h
  | remaining env b frame param collected args =>
    collectRest rt depth env b frame param collected args (h.pushItem collected v)
  | within env dict scope => finishWithin rt depth env dict scope v h
  | entry literal dict scope _ name names =>
    let (h, v) := nameBlock name v h
    evalEntries literal dict scope names (h.put dict name v)
  | index l env => indexList l v env h
  | operand op env want todo done =>
    match want.refuses v with
    | some cause => (.failIn h env cause, h)
    | none => evalOperands op env todo (done ++ [v]) h
  | host resume _ => (resume (.ok v) h).move rt depth

/-- Abandons pending work. The innermost application adds its frames to an error without any. -/
def Frame.unwind (rt : Runtime) (depth : Nat) (f : Frame) (e : RuntimeError) (h : Heap) :
    Move × Heap :=
  match f with
  | application frame _ => (.raise (e.raisedIn h frame), h)
  | host resume _ => (resume (.error e) h).move rt depth
  | _ => (.raise e, h)

namespace Machine

def proceed (stack : List Frame) (depth : Nat) (log : List String) (m : Move) (h : Heap) :
    Machine :=
  { control := m.control
    stack := m.frames ++ stack
    depth := depth + (m.frames.countP (·.isApplication))
    heap := { h with pins := m.frames.map Frame.held ++ h.pins }
    log := m.logged ++ log }

def depthBelow (f : Frame) (depth : Nat) : Nat :=
  if f.isApplication then depth - 1 else depth

def step (rt : Runtime) : Machine → Machine
  | ⟨.eval e env, stack, depth, h, log⟩ =>
    let (m, h) := evalExpr rt depth e env h
    proceed stack depth log m h
  | ⟨.ret v, f :: stack, depth, h, log⟩ =>
    let depth := depthBelow f depth
    let (m, h) := f.resume rt depth v (h.hold v)
    proceed stack depth log m h.leave
  | ⟨.raise e, f :: stack, depth, h, log⟩ =>
    let depth := depthBelow f depth
    let (m, h) := f.unwind rt depth e h
    proceed stack depth log m h.leave
  | m => m

def result? (m : Machine) : Option (Except RuntimeError Value) :=
  match m.control, m.stack with
  | .ret v, [] => some (.ok v)
  | .raise e, [] => some (.error e)
  | _, _ => none

def run (rt : Runtime) : (fuel : Nat) → Machine → Machine
  | 0, m => m
  | fuel + 1, m =>
    match m.result? with
    | some _ => m
    | none => run rt fuel (m.step rt)

end Machine
end DictScript
