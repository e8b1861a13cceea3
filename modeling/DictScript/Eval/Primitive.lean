import DictScript.Eval.Machine
import DictScript.Equality

/-!
The primitives. Each reads its arguments from the call frame by the names of its parameters.
-/
namespace DictScript

namespace Primitive

def number (h : Heap) (frame : DictId) (name : String) : Except RuntimeError Float :=
  match h.get frame name with
  | .num x => .ok x
  | v => .error (.of (.wrongType "number" v.typeName))

def boolean (h : Heap) (frame : DictId) (name : String) : Except RuntimeError Bool :=
  match h.get frame name with
  | .bool b => .ok b
  | v => .error (.of (.wrongType "boolean" v.typeName))

def onNumbers (f : Float → Float → Value) (h : Heap) (frame : DictId) :
    Except RuntimeError Value := do
  let a ← number h frame "a"
  let b ← number h frame "b"
  return f a b

def plus (h : Heap) (frame : DictId) : Except RuntimeError Value :=
  match h.get frame "a", h.get frame "b" with
  | .str a, .str b => .ok (.str (a ++ b))
  | _, _ => onNumbers (fun x y => .num (x + y)) h frame

/-- The second operand is looked at only if the first leaves the answer open. -/
def shortCircuit (settled : Bool) (h : Heap) (frame : DictId) : Except RuntimeError Value := do
  let a ← boolean h frame "a"
  if a = settled then return .bool a
  return .bool (← boolean h frame "b")

def length (h : Heap) (frame : DictId) : Except RuntimeError Value :=
  let ofNat (n : Nat) : Except RuntimeError Value := .ok (.num (Binary64.nearest n 1))
  match h.get frame "value" with
  | .list l => ofNat (h.items l).length
  | .dict d => ofNat (h.names d).length
  | .str s => ofNat s.length
  | v => .error (.of (.wrongType "list, dictionary or string" v.typeName))

def logText (h : Heap) (frame : DictId) : String :=
  let text (v : Value) := match v with
    | .str s => s
    | v => h.print v
  match h.get frame "values" with
  | .list l => String.intercalate " " ((h.items l).map text)
  | _ => ""

/-- Runs the branch if it is a block, and is the branch if not. -/
def branch (h : Heap) (frame : DictId) : Reply :=
  match boolean h frame "cond" with
  | .error e => .done (.error e) h
  | .ok cond =>
    match h.get frame (if cond then "then" else "else") with
    | .block b => .ask (.call frame b []) h .done
    | v => .done (.ok v) h

def run (rt : Runtime) (p : Primitive) (h : Heap) (frame : DictId) : Reply :=
  match p with
  | add => .done (plus h frame) h
  | sub => .done (onNumbers (fun x y => .num (x - y)) h frame) h
  | mul => .done (onNumbers (fun x y => .num (x * y)) h frame) h
  | div => .done (onNumbers (fun x y => .num (x / y)) h frame) h
  | lt => .done (onNumbers (fun x y => .bool (x < y)) h frame) h
  | le => .done (onNumbers (fun x y => .bool (x ≤ y)) h frame) h
  | gt => .done (onNumbers (fun x y => .bool (x > y)) h frame) h
  | ge => .done (onNumbers (fun x y => .bool (x ≥ y)) h frame) h
  | equal => .done (.ok (.bool (h.equal (h.get frame "a") (h.get frame "b")))) h
  | not => .done ((boolean h frame "a").map fun a => .bool !a) h
  | and => .done (shortCircuit false h frame) h
  | or => .done (shortCircuit true h frame) h
  | choose => branch h frame
  | list =>
    match h.get frame "items" with
    | .nil =>
      let (h, l) := h.newList []
      .done (.ok (.list l)) h
    | v => .done (.ok v) h
  | len => .done (length h frame) h
  | names =>
    match h.get frame "dict" with
    | .dict d =>
      let (h, l) := h.newList ((h.names d).map Value.str)
      .done (.ok (.list l)) h
    | v => .done (.error (.of (.wrongType "dictionary" v.typeName))) h
  | log => .log (logText h frame) h
  | freeze => .done ((h.freeze (h.get frame "value")).map fun ts => .str (frozenText ts)) h
  | thaw =>
    match h.get frame "text" with
    | .str text =>
      let (result, h) := h.thawText rt.registry text (some rt.root)
      .done result h
    | v => .done (.error (.of (.wrongType "string" v.typeName))) h

end Primitive
end DictScript
