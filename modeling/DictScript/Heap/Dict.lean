import DictScript.Heap.Ownership
import DictScript.Error

/-!
Dictionaries: records, prototype objects and scopes. Names lead to slots, except the two links
`parent` and `caller`, which vanish with the dictionary they point to.
-/
namespace DictScript

inductive Key where
  | parent
  | caller
  | slot (name : String)
deriving DecidableEq, Repr

/-- Names have short forms: `^` for `parent` and `@` for `self`. -/
def canonical (name : String) : String :=
  if name = "^" then "parent" else if name = "@" then "self" else name

def Key.of (name : String) : Key :=
  let name := canonical name
  if name = "parent" then .parent else if name = "caller" then .caller else .slot name

namespace Heap

/-- The dictionary whose slots `d` shows: its target, or itself. -/
def owner (h : Heap) (d : DictId) : DictId := (h.cell d).target.getD d

def isView (h : Heap) (d : DictId) : Bool := (h.cell d).target.isSome

def slots (h : Heap) (d : DictId) : List (String × Value) := (h.cell (h.owner d)).slots.toList

def names (h : Heap) (d : DictId) : List String := (h.slots d).map Prod.fst

/-- A parent that the dictionary retains as its scope lives as long as it does itself. -/
def parent (h : Heap) (d : DictId) : Option DictId :=
  let c := h.cell d
  c.parent.filter fun p => c.scope = some p || h.alive p

def caller (h : Heap) (d : DictId) : Option DictId := (h.cell d).caller.filter h.alive

def declaredParent (h : Heap) (d : DictId) : Option DictId :=
  if (h.cell d).declared then h.parent d else none

def holds (h : Heap) (d : DictId) (name : String) : Bool :=
  match Key.of name with
  | .parent => (h.parent d).isSome
  | .caller => (h.caller d).isSome
  | .slot n => ((h.slots d).lookup n).isSome

def linkValue (link : Option DictId) : Value := (link.map Value.dict).getD .nil

def get (h : Heap) (d : DictId) (name : String) : Value :=
  match Key.of name with
  | .parent => linkValue (h.parent d)
  | .caller => linkValue (h.caller d)
  | .slot n => ((h.slots d).lookup n).getD .nil

def put (h : Heap) (d : DictId) (name : String) (v : Value) : Heap :=
  h.modifyCell (h.owner d) fun c => { c with slots := c.slots.put name v }

def putAll (h : Heap) (d : DictId) (slots : List (String × Value)) : Heap :=
  slots.foldl (fun h s => h.put d s.1 s.2) h

def link (h : Heap) (d : DictId) (p : Option DictId) (declared : Bool) : Heap :=
  h.modifyCell d fun c => { c with parent := p, declared := declared }

/-- Walks the parents from `d` on. A chain has at most as many links as there are dictionaries. -/
def chainOf (h : Heap) : Nat → DictId → List DictId
  | 0, _ => []
  | fuel + 1, d =>
    match h.parent d with
    | none => [d]
    | some p => d :: chainOf h fuel p

def chain (h : Heap) (d : DictId) : List DictId := h.chainOf (h.dicts.size + 1) d

def displayName (h : Heap) (d : DictId) : String := (h.cell d).name.getD "(anon)"

/-- Declares a parent, unless `d` would become its own ancestor. -/
def setParent (h : Heap) (d : DictId) : Option DictId → Except RuntimeError Unit × Heap
  | none => (.ok (), h.link d none false)
  | some p =>
    if (h.chain p).contains d then (.error (.of (.cycle (h.displayName d))), h)
    else (.ok (), h.link d (some p) true)

def attach (h : Heap) (d scope : DictId) : Heap := h.link d (some scope) false

def setCaller (h : Heap) (d : DictId) (c : Option DictId) : Heap :=
  h.modifyCell d fun cell => { cell with caller := c }

/-- Binds a name. The links take a dictionary or nil. -/
def define (h : Heap) (d : DictId) (name : String) (v : Value) : Except RuntimeError Unit × Heap :=
  match Key.of name, v with
  | .slot n, v => (.ok (), h.put d n v)
  | .parent, .dict p => h.setParent d (some p)
  | .parent, .nil => h.setParent d none
  | .caller, .dict c => (.ok (), h.setCaller d (some c))
  | .caller, .nil => (.ok (), h.setCaller d none)
  | _, v => (.error (.of (.wrongType "dictionary" v.typeName)), h)

def defineAll (h : Heap) (d : DictId) : List (String × Value) → Except RuntimeError Unit × Heap
  | [] => (.ok (), h)
  | (name, v) :: rest =>
    match h.define d name v with
    | (.error e, h) => (.error e, h)
    | (.ok (), h) => h.defineAll d rest

def eraseSlot (h : Heap) (d : DictId) (name : String) : Heap :=
  h.modifyCell (h.owner d) fun c => { c with slots := c.slots.erase name }

def remove (h : Heap) (d : DictId) (name : String) : Heap × Value :=
  let old := h.get d name
  match Key.of name with
  | .parent => (h.link d none false, old)
  | .caller => (h.setCaller d none, old)
  | .slot n => (h.eraseSlot d n, old)

def findFrom (h : Heap) (name : String) : Nat → DictId → Option DictId
  | 0, _ => none
  | fuel + 1, d =>
    if h.holds d name then some d
    else match h.parent d with
      | none => none
      | some p => findFrom h name fuel p

def find (h : Heap) (d : DictId) (name : String) : Option DictId :=
  h.findFrom name (h.dicts.size + 1) d

def resolve (h : Heap) (d : DictId) (name : String) : Value :=
  ((h.find d name).map fun e => h.get e name).getD .nil

def visibleNames (h : Heap) (d : DictId) : List String :=
  ((h.chain d).flatMap h.names).eraseDups

def child (h : Heap) (parent : DictId) : Heap × DictId :=
  h.newDict { parent := some parent }

/-- A call frame, which keeps its lexical scope alive. -/
def frame (h : Heap) (scope caller : DictId) (name : Option String) : Heap × DictId :=
  h.newDict { parent := some scope, scope := some scope, caller := some caller, name := name }

/-- A view of the slots of `target` that looks other names up from `parent` on. -/
def view (h : Heap) (target parent : DictId) : Heap × DictId :=
  h.newDict
    { parent := some parent, scope := some parent, target := some (h.owner target),
      name := (h.cell target).name }

def anchorFrom (h : Heap) : Nat → DictId → DictId
  | 0, d => d
  | fuel + 1, d =>
    if h.isView d then
      match h.parent d with
      | none => h.owner d
      | some p => anchorFrom h fuel p
    else d

/-- The nearest dictionary that is no view; new dictionaries attach to it. -/
def anchor (h : Heap) (d : DictId) : DictId := h.anchorFrom (h.dicts.size + 1) d

def ofPairs (h : Heap) (pairs : List (String × Value)) : Except RuntimeError DictId × Heap :=
  let (h, d) := h.newDict {}
  let (result, h) := h.defineAll d pairs
  (result.map fun _ => d, h)

def setName (h : Heap) (d : DictId) (name : Option String) : Heap :=
  h.modifyCell d fun c => { c with name := name }

def setTag (h : Heap) (d : DictId) (tag : String) : Heap :=
  h.modifyCell d fun c => { c with tag := some tag }

end Heap
end DictScript
