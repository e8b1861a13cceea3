import DictScript.Frozen.Thaw

/-!
The machine that evaluates: what it does now, and a stack of what is still to do. A pending piece of
work keeps alive what it will need.
-/
namespace DictScript

inductive Request where
  /-- Evaluate in an environment, or in the root. -/
  | evaluate (expr : Value) (env : Option DictId)
  | body (exprs : List Value) (env : DictId)
  /-- Evaluate `target` inside `dict`. -/
  | apply (env dict : DictId) (target : Value)
  | call (env : DictId) (block : Block) (args : List Value)

def Request.held : Request → List Value
  | evaluate expr env => expr :: env.toList.map Value.dict
  | body exprs env => .dict env :: exprs
  | apply env dict target => [.dict env, .dict dict, target]
  | call env block args => .dict env :: .block block :: args

/-- How a host function answers: with a result, with nil after logging a line, or with a request
whose result it goes on from. -/
inductive Reply where
  | done (result : Except RuntimeError Value) (heap : Heap)
  | log (text : String) (heap : Heap)
  | ask (request : Request) (heap : Heap) (resume : Except RuntimeError Value → Heap → Reply)

/-- A host function reads its arguments from the call frame. -/
abbrev HostFunction := Heap → DictId → Reply

structure Runtime where
  root : DictId
  maxDepth : Nat
  registry : Registry
  functions : String → Option HostFunction

inductive Operand where
  | dict | sym | any
deriving DecidableEq, Repr

/-- The special forms that evaluate all their operands first. -/
inductive Operation where
  | define
  /-- Rebinds names where they are bound. -/
  | assign
  /-- Whether being bound is what was `expected`. -/
  | bound (expected : Bool)
deriving DecidableEq, Repr

inductive Frame where
  /-- The rest of a body; `last` is the result so far. -/
  | body (rest : List Value) (env : DictId) (last : Value)
  /-- A block's body runs in `frame`. -/
  | application (frame : DictId) (kept : List Value)
  /-- The head of a list is evaluated to find out how to apply it. -/
  | operator (args : List Value) (env : DictId)
  /-- The argument for `param` is evaluated. -/
  | argument (env : DictId) (block : Block) (frame : DictId) (param : String)
      (params : List String) (args : List Value)
  /-- An argument for the rest parameter is evaluated. -/
  | remaining (env : DictId) (block : Block) (frame : DictId) (param : String)
      (collected : ListId) (args : List Value)
  /-- An expression is evaluated inside `dict`, through `scope`. -/
  | within (env dict scope : DictId)
  /-- The value of a key of a dictionary literal is evaluated. -/
  | entry (literal dict scope : DictId) (expr : Value) (name : String) (names : List String)
  | index (l : ListId) (env : DictId)
  /-- An operand of a special form is evaluated. -/
  | operand (op : Operation) (env : DictId) (want : Operand) (todo : List (Operand × Value))
      (done : List Value)
  /-- A host function waits. -/
  | host (resume : Except RuntimeError Value → Heap → Reply) (kept : List Value)

namespace Frame

def held : Frame → List Value
  | body rest env last => last :: .dict env :: rest
  | application frame kept => .dict frame :: kept
  | operator args env => .dict env :: args
  | argument env block frame _ _ args => .dict env :: .block block :: .dict frame :: args
  | remaining env block frame _ collected args =>
    .dict env :: .block block :: .dict frame :: .list collected :: args
  | within env dict scope => [.dict env, .dict dict, .dict scope]
  | entry literal dict scope expr _ _ => [.dict literal, .dict dict, .dict scope, expr]
  | index l env => [.list l, .dict env]
  | operand _ env _ todo done => .dict env :: (done ++ todo.map Prod.snd)
  | host _ kept => kept

def isApplication : Frame → Bool
  | application _ _ => true
  | _ => false

end Frame

inductive Control where
  | eval (expr : Value) (env : DictId)
  | ret (v : Value)
  | raise (e : RuntimeError)

/-- What one rule decides: how to go on, the work to come after that with the innermost first, and
lines to log. -/
structure Move where
  control : Control
  frames : List Frame := []
  logged : List String := []

namespace Move

def ret (v : Value) : Move := { control := .ret v }

def raise (e : RuntimeError) : Move := { control := .raise e }

def fail (cause : Cause) : Move := raise (.of cause)

def eval (expr : Value) (env : DictId) (frames : List Frame) : Move :=
  { control := .eval expr env, frames := frames }

def failIn (h : Heap) (env : DictId) (cause : Cause) : Move :=
  raise ((RuntimeError.of cause).raisedIn h env)

def body (exprs : List Value) (env : DictId) (frames : List Frame) : Move :=
  match exprs with
  | [] => { control := .ret .nil, frames := frames }
  | e :: es => eval e env (.body es env .nil :: frames)

end Move

structure Machine where
  control : Control
  /-- Pending work, innermost first. -/
  stack : List Frame := []
  /-- How many applications are pending. -/
  depth : Nat := 0
  heap : Heap
  /-- Lines logged, the last one first. -/
  log : List String := []

end DictScript
