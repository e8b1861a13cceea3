import DictScript.Frozen.Freeze
import DictScript.Frozen.Registry
import DictScript.Json.Reader
import DictScript.Print
import DictScript.Text.Quoted

/-!
Thawing: rebuilding a value graph from its stream. Dictionaries attach to the scope of the thaw,
unless they are part of inert data.
-/
namespace DictScript

structure Thawer where
  heap : Heap
  rest : List Token
  /-- The lists, dictionaries and natives by number. The thaw holds them all until it ends. -/
  table : Array Value := #[]

abbrev Thaw (α : Type) := ExceptT RuntimeError (StateM Thawer) α

namespace Thaw

def fail {α : Type} (why : Malformed) : Thaw α := throw (.malformed why)

def next : Thaw Token := do
  match (← get).rest with
  | [] => fail .ended
  | t :: rest => modify fun s => { s with rest := rest }; pure t

def close (m : Mark) : Thaw Bool := do
  match (← get).rest with
  | [] => fail (.missing m.text)
  | .mark n :: rest =>
    if n = m then modify fun s => { s with rest := rest }; pure true
    else pure false
  | _ => pure false

def register (v : Value) : Thaw Nat := do
  let number := (← get).table.size
  modify fun s => { s with table := s.table.push v, heap := s.heap.hold v }
  pure number

def replace (number : Nat) (record : DictId) (v : Value) : Thaw Unit :=
  modify fun s =>
    { s with table := s.table.set! number v, heap := (s.heap.letGo record).hold v }

def change (f : Heap → Heap) : Thaw Unit := modify fun s => { s with heap := f s.heap }

def create {α : Type} (f : Heap → Heap × α) : Thaw α :=
  modifyGet fun s => let (h, a) := f s.heap; (a, { s with heap := h })

def onHeap {α : Type} (f : Heap → Except RuntimeError α × Heap) : Thaw α := do
  match ← create fun h => let (result, h) := f h; (h, result) with
  | .error e => throw e
  | .ok a => pure a

/-- What a dictionary stands for once it is closed: itself, or the native its record describes. -/
def finishDict (registry : Registry) (scope : Option DictId) (number : Nat) (d : DictId) :
    Thaw Value := do
  let h := (← get).heap
  if h.holds d tagKey then
    match h.get d tagKey with
    | .str tag =>
      let v ← onHeap fun h => registry.defrost tag h d scope
      replace number d v
      pure v
    | v => throw (.of (.wrongType "string" v.typeName))
  else pure (.dict d)

def blockName : Thaw (Option String) := do
  match ← next with
  | .null => pure none
  | .str name => pure (some name)
  | t => fail (.blockName t.text)

def paramNames (v : Value) : Thaw (List String) := do
  let h := (← get).heap
  match v with
  | .list l =>
    match (h.items l).mapM Value.sym? with
    | some params => pure params
    | none => fail .paramNotASymbol
  | v => fail (.blockParams (h.print v))

/-- The environment of a block; without one it gets the scope, or a dictionary of its own. -/
def blockEnv (scope : Option DictId) (v : Value) : Thaw DictId := do
  match v, scope with
  | .dict d, _ => pure d
  | .nil, some d => pure d
  | .nil, none => create (·.newDict {})
  | v, _ => fail (.blockEnv ((← get).heap.print v))

def blockBody (v : Value) : Thaw (List Value) := do
  let h := (← get).heap
  match v with
  | .list l => pure (h.items l)
  | v => fail (.blockBody (h.print v))

def reference (number : String) : Thaw Value := do
  let table := (← get).table
  match (readIndex? number).bind fun i => table[i]? with
  | some v => pure v
  | none => fail (.dangling ("&" ++ number))

def newDict (inert : Bool) (scope : Option DictId) : Thaw DictId :=
  create fun h => h.newDict { parent := if inert then none else scope }

mutual
/-- Reads one value. Each call and each turn of a loop reads a token or ends, so twice the number of
tokens is fuel enough. -/
def value (registry : Registry) (scope : Option DictId) : (fuel : Nat) → (inert : Bool) → Thaw Value
  | 0, _ => fail .ended
  | fuel + 1, inert => do
    match ← next with
    | .null => pure .nil
    | .bool b => pure (.bool b)
    | .num n => pure (.num n.toFloat)
    | .str text => pure (.str text)
    | .sym name => pure (.sym name)
    | .ref number => reference number
    | .mark .quote => return .quote (← value registry scope fuel inert)
    | .mark .fullQuote => return .fullQuote (← value registry scope fuel true)
    | .mark .listOpen =>
      let l ← create (·.newList [])
      discard (register (.list l))
      items registry scope fuel inert l
      pure (.list l)
    | .mark .dictOpen =>
      let d ← newDict inert scope
      let number ← register (.dict d)
      entries registry scope fuel inert d
      finishDict registry scope number d
    | .mark .blockOpen =>
      let name ← blockName
      let params ← paramNames (← value registry scope fuel inert)
      let env ← blockEnv scope (← value registry scope fuel inert)
      change (·.hold (.dict env))
      let body ← blockBody (← value registry scope fuel inert)
      change (·.letGo env)
      if ← close .blockClose then
        create (·.newBlock
          { id := 0, name := name, params := params, body := body, env := env, receiver := none })
      else fail (.expected Mark.blockClose.text)
    | .mark m => fail (.unknown (quoted m.text))
    | .other text => fail (.unknown (quoted text))
    | .nested j => fail (.unexpected j.text)

def items (registry : Registry) (scope : Option DictId) :
    (fuel : Nat) → (inert : Bool) → ListId → Thaw Unit
  | 0, _, _ => fail .ended
  | fuel + 1, inert, l => do
    if ← close .listClose then pure ()
    else
      let v ← value registry scope fuel inert
      change (·.pushItem l v)
      items registry scope fuel inert l

def entries (registry : Registry) (scope : Option DictId) :
    (fuel : Nat) → (inert : Bool) → DictId → Thaw Unit
  | 0, _, _ => fail .ended
  | fuel + 1, inert, d => do
    if ← close .dictClose then pure ()
    else
      match ← next with
      | .str key =>
        let v ← value registry scope fuel inert
        onHeap (·.define d key v)
        entries registry scope fuel inert d
      | t => fail (.notAKey t.text)
end

def whole (registry : Registry) (scope : Option DictId) (count : Nat) : Thaw Value := do
  let v ← value registry scope (2 * count + 2) false
  match (← get).rest with
  | [] => pure v
  | rest => fail (.trailing rest.length)

end Thaw

namespace Heap

def thawTokens (h : Heap) (registry : Registry) (tokens : List Token) (scope : Option DictId) :
    Except RuntimeError Value × Heap :=
  let (result, s) := (Thaw.whole registry scope tokens.length).run.run
    { heap := h.enter [], rest := tokens }
  (result, s.heap.leave)

def thaw (h : Heap) (registry : Registry) (frozen : Json) (scope : Option DictId) :
    Except RuntimeError Value × Heap :=
  match frozen with
  | .arr tokens => h.thawTokens registry (tokens.map Token.ofJson) scope
  | _ => (.error (.malformed .notAnArray), h)

def thawText (h : Heap) (registry : Registry) (text : String) (scope : Option DictId) :
    Except RuntimeError Value × Heap :=
  match Json.read? text with
  | some frozen => h.thaw registry frozen scope
  | none => (.error (.malformed .badText), h)

end Heap
end DictScript
