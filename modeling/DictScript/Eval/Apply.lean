import DictScript.Eval.Machine
import DictScript.Suggestion

/-!
Application: looking names up, binding arguments, running blocks.
-/
namespace DictScript

def envName : String := "env"

def Heap.unboundFrom (h : Heap) (d : DictId) (name : String) : Cause :=
  .unbound name (similarName name (h.visibleNames d) suggestionThreshold)

def evalSymbol (name : String) (env : DictId) (h : Heap) : Move × Heap :=
  if name = envName then (.ret (.dict env), h)
  else match h.find env name with
    | some d => (.ret (h.get d name), h)
    | none => (.failIn h env (h.unboundFrom env name), h)

/-- A field of `dict`, inherited ones included. A block comes bound to `dict`. -/
def field (dict : DictId) (name : String) (env : DictId) (h : Heap) : Move × Heap :=
  match h.find dict name with
  | none => (.failIn h env (h.unboundFrom dict name), h)
  | some owner =>
    match h.get owner name with
    | .block b =>
      let (h, v) := h.newBlock { b with name := some name, receiver := some dict }
      (.ret v, h)
    | v => (.ret v, h)

/-- The scope of a block's body: the block's own environment, unless the arguments bring one. -/
def lexicalScope (env args : DictId) (b : Block) (h : Heap) : Heap × DictId :=
  match h.get args envName with
  | .dict d => if (h.parent d).isSome then (h, d) else h.view d env
  | _ => (h, b.env)

def invoke (rt : Runtime) (depth : Nat) (env args : DictId) (b : Block) (kept : List Value)
    (h : Heap) : Move × Heap :=
  let (h, lexical) := lexicalScope env args b h
  let (h, frame) := h.frame lexical env b.name
  let h := h.putAll frame ((h.slots args).filter fun s => s.1 ≠ envName)
  let h := match b.receiver with
    | some d => h.put frame "self" (.dict d)
    | none => h
  if rt.maxDepth ≤ depth then (.failIn h frame (.exhausted rt.maxDepth), h)
  else
    let kept := .block b :: .dict args :: .dict lexical :: .dict frame :: kept
    (.body b.body frame [.application frame kept], h)

def collectRest (rt : Runtime) (depth : Nat) (env : DictId) (b : Block) (frame : DictId)
    (param : String) (collected : ListId) (args : List Value) (h : Heap) : Move × Heap :=
  match args with
  | a :: args => (.eval a env [.remaining env b frame param collected args], h)
  | [] =>
    match h.define frame param (.list collected) with
    | (.error e, h) => (.raise e, h)
    | (.ok (), h) => invoke rt depth env frame b [] h

/-- Binds the parameters that are left, and then runs the block. Parameters without an argument stay
unbound. -/
def bindArgs (rt : Runtime) (depth : Nat) (env : DictId) (b : Block) (frame : DictId)
    (params : List String) (args : List Value) (h : Heap) : Move × Heap :=
  match params with
  | [] => invoke rt depth env frame b [] h
  | p :: params =>
    match restName? p with
    | some rest =>
      let (h, collected) := h.newList []
      collectRest rt depth env b frame rest collected args h
    | none =>
      match args with
      | [] => invoke rt depth env frame b [] h
      | a :: args => (.eval a env [.argument env b frame p params args], h)

def callBlock (rt : Runtime) (depth : Nat) (env : DictId) (b : Block) (args : List Value)
    (h : Heap) : Move × Heap :=
  if b.fixedArity < args.length ∧ ¬ b.hasRest then
    (.failIn h env (.arity b.displayName b.fixedArity args.length), h)
  else
    let (h, frame) := h.frame env env b.name
    bindArgs rt depth env b frame b.params args h

/-- Evaluates an expression inside `dict`. Without a parent of its own it sees the names of `env`
behind its own. -/
def applyWithin (env dict : DictId) (target : Value) (h : Heap) : Move × Heap :=
  let (h, scope) := if (h.parent dict).isSome then (h, dict) else h.view dict env
  (.eval target scope [.within env dict scope], h)

def finishWithin (rt : Runtime) (depth : Nat) (env dict scope : DictId) (v : Value) (h : Heap) :
    Move × Heap :=
  match v with
  | .sym name => field dict name env h
  | .block b => invoke rt depth env dict b [.dict scope] h
  | v => (.ret v, h)

def applyValue (rt : Runtime) (depth : Nat) (callee : Value) (args : List Value) (env : DictId)
    (h : Heap) : Move × Heap :=
  match callee, args with
  | .block b, args => callBlock rt depth env b args h
  | .dict d, [a] => applyWithin env d a h
  | .list l, [a] => (.eval a env [.index l env], h)
  | v, [] => (.ret v, h)
  | v, _ => (.failIn h env (.notApplicable v.typeName), h)

def itemAt (h : Heap) (l : ListId) (x : Float) : Value :=
  if x.isFinite ∧ 0 ≤ x then
    match (Binary64.ofFloat x).whole? with
    | some i => ((h.items l)[i]?).getD .nil
    | none => .nil
  else .nil

/-- A list applied to a number, or to a symbol that reads as one. -/
def indexList (l : ListId) (v : Value) (env : DictId) (h : Heap) : Move × Heap :=
  match v with
  | .num x => (.ret (itemAt h l x), h)
  | .sym name =>
    match readFloat? name with
    | some x => (.ret (itemAt h l x), h)
    | none => (.failIn h env (.wrongType "number" "symbol"), h)
  | v => (.failIn h env (.wrongType "number" v.typeName), h)

end DictScript
