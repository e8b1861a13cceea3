import DictScript.Action.Registry

/-!
Evaluating action expressions. A call evaluates its arguments once and runs every definition whose
arguments are all there, in the order in which they were registered.
-/
namespace DictScript.Action

structure World (C : Type) where
  registry : Registry C := []
  stack : FrameStack := {}
  context : C
  heap : Heap := {}

inductive Halt where
  | error (e : RuntimeError)
  | outOfFuel

abbrev Act (C : Type) (α : Type) := ExceptT Halt (StateM (World C)) α

def nameOf : Value → Except RuntimeError String
  | .sym name => .ok name
  | .quote v => nameOf v
  | v => .error (.of (.wrongType "symbol" v.typeName))

namespace Act
variable {C : Type}

def lift {α : Type} : Except RuntimeError α → Act C α
  | .ok a => pure a
  | .error e => throw (.error e)

/-- The value of a name; nil if no frame holds it. -/
def lookup (name : String) : Act C Value := do
  let w ← get
  return (w.stack.get? w.heap name).getD .nil

/-- Runs `act` with one more frame on the stack, which comes off whatever happens. -/
def within {α : Type} (frame : DictId) (act : Act C α) : Act C α := fun w =>
  let (result, w) := act.run { w with stack := w.stack.push frame }
  (result, { w with stack := w.stack.pop })

def newFrame : Act C DictId :=
  modifyGet fun w => let (h, d) := w.heap.newDict {}; (d, { w with heap := h })

def bind (frame : DictId) (name : String) (v : Value) : Act C Unit :=
  modify fun w => { w with heap := w.heap.put frame name v }

def addDefinition (name : String) (d : Definition C) : Act C Unit :=
  modify fun w => { w with registry := w.registry.add name d }

def runNative (run : C → DictId → Heap → Except RuntimeError Value × C × Heap) (frame : DictId) :
    Act C Value := do
  let result ← modifyGet fun w =>
    let (result, c, h) := run w.context frame w.heap
    (result, { w with context := c, heap := h })
  lift result

mutual
/-- Evaluates an expression; `fuel` bounds how deep evaluation nests. -/
def eval : (fuel : Nat) → Value → Act C Value
  | 0, _ => throw .outOfFuel
  | fuel + 1, e =>
    match e with
    | .sym name => lookup name
    | .quote v => pure v
    | .list l => evalList fuel l
    | v => pure v

def evalList : (fuel : Nat) → ListId → Act C Value
  | 0, _ => throw .outOfFuel
  | fuel + 1, l => do
    match (← get).heap.items l with
    | [.sym "get", name] => lookup (← lift (nameOf name))
    | .sym "let" :: .dict bindings :: body =>
      let frame ← newFrame
      evalSlots fuel frame bindings ((← get).heap.names bindings)
      discard (within frame (evalBody fuel .nil body))
      pure .nil
    | .sym "def" :: name :: .list required :: body =>
      let name ← lift (nameOf name)
      let required ← lift (((← get).heap.items required).mapM nameOf)
      addDefinition name ⟨required, .body body⟩
      pure .nil
    | [.sym name, .dict args] => call fuel name args
    | [.sym name] => call fuel name (← newFrame)
    | _ => pure (.list l)

def evalSlots : (fuel : Nat) → (frame source : DictId) → List String → Act C Unit
  | 0, _, _, _ => throw .outOfFuel
  | _, _, _, [] => pure ()
  | fuel + 1, frame, source, name :: names => do
    let e := (← get).heap.get source name
    bind frame name (← eval fuel e)
    evalSlots fuel frame source names

def evalBody : (fuel : Nat) → (last : Value) → List Value → Act C Value
  | 0, _, _ => throw .outOfFuel
  | _, last, [] => pure last
  | fuel + 1, _, e :: es => do
    evalBody fuel (← eval fuel e) es

/-- Calls an action with a dictionary of argument expressions. The definitions that run are those
registered once the arguments are evaluated. -/
def call : (fuel : Nat) → String → DictId → Act C Value
  | 0, _, _ => throw .outOfFuel
  | fuel + 1, name, args => do
    let frame ← newFrame
    evalSlots fuel frame args ((← get).heap.names args)
    dispatch fuel frame .nil ((← get).registry.definitions name)

/-- Runs the definitions that accept the frame when their turn comes. -/
def dispatch : (fuel : Nat) → DictId → (last : Value) → List (Definition C) → Act C Value
  | 0, _, _, _ => throw .outOfFuel
  | _, _, last, [] => pure last
  | fuel + 1, frame, last, d :: ds => do
    if d.accepts (← get).heap frame then
      dispatch fuel frame (← implement fuel frame d.implementation) ds
    else dispatch fuel frame last ds

def implement : (fuel : Nat) → DictId → Implementation C → Act C Value
  | 0, _, _ => throw .outOfFuel
  | fuel + 1, frame, i =>
    match i with
    | .native run => runNative run frame
    | .body exprs => within frame (evalBody fuel .nil exprs)
end

end Act
end DictScript.Action
