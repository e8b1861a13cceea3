import DictScript.Eval.Apply

/-!
Special forms and literals: lists whose head says how to treat the rest, and dictionaries that are
evaluated key by key.
-/
namespace DictScript

def blockBar : String := "|"

/-- A block is written `[params... | body...]`, with a run of symbols before the bar. -/
def blockLiteral? (items : List Value) : Option (List String × List Value) :=
  let isBar (v : Value) := v.sym? = some blockBar
  match items.dropWhile fun v => !isBar v with
  | [] => none
  | _ :: body => ((items.takeWhile fun v => !isBar v).mapM Value.sym?).map fun ps => (ps, body)

inductive Form where
  | sequence | define | assign | bound | unbound
deriving DecidableEq, Repr

def Form.ofName? (name : String) : Option Form :=
  match name with
  | "do" => some .sequence
  | "def" => some .define
  | "set" => some .assign
  | "?" => some .bound
  | "!?" => some .unbound
  | _ => none

namespace Operation

def operands? : Operation → Nat → Option (List Operand)
  | define, 1 => some [.dict]
  | define, 2 => some [.dict, .dict]
  | define, 3 => some [.dict, .sym, .any]
  | assign, 1 => some [.dict]
  | bound _, 1 => some [.sym]
  | bound _, 2 => some [.any, .sym]
  | _, _ => none

def name : Operation → String
  | bound _ => "?"
  | _ => "def"

end Operation

def Operand.refuses : Operand → Value → Option Cause
  | .dict, .dict _ => none
  | .dict, v => some (.wrongType "dictionary" v.typeName)
  | .sym, .sym _ => none
  | .sym, v => some (.wrongType "symbol" v.typeName)
  | .any, _ => none

/-- Rebinds each name where it is nearest bound. -/
def assignAll (env : DictId) : List (String × Value) → Heap → Move × Heap
  | [], h => (.ret .nil, h)
  | (name, v) :: rest, h =>
    match h.find env name with
    | none => (.failIn h env (h.unboundFrom env name), h)
    | some d => assignAll env rest (h.put d name v)

def Operation.finish (op : Operation) (env : DictId) (operands : List Value) (h : Heap) :
    Move × Heap :=
  match op, operands with
  | .define, [.dict bindings] => (.ret .nil, h.putAll env (h.slots bindings))
  | .define, [.dict target, .dict bindings] => (.ret .nil, h.putAll target (h.slots bindings))
  | .define, [.dict target, .sym name, v] =>
    match h.define target name v with
    | (.error e, h) => (.raise e, h)
    | (.ok (), h) => (.ret v, h)
  | .assign, [.dict bindings] => assignAll env (h.slots bindings) h
  | .bound expected, [.sym name] => (.ret (.bool ((h.find env name).isSome == expected)), h)
  | .bound expected, [.dict d, .sym name] => (.ret (.bool ((h.find d name).isSome == expected)), h)
  | .bound expected, [_, .sym _] => (.ret (.bool !expected), h)
  | _, _ => (.ret .nil, h)

def evalOperands (op : Operation) (env : DictId) (todo : List (Operand × Value))
    (done : List Value) (h : Heap) : Move × Heap :=
  match todo with
  | [] => op.finish env done h
  | (want, e) :: todo => (.eval e env [.operand op env want todo done], h)

def evalOperation (op : Operation) (args : List Value) (env : DictId) (h : Heap) : Move × Heap :=
  match op.operands? args.length with
  | some wants => evalOperands op env (wants.zip args) [] h
  | none => (.failIn h env (.arity op.name 2 args.length), h)

/-- Assignment to a target defines there. -/
def evalForm (form : Form) (args : List Value) (env : DictId) (h : Heap) : Move × Heap :=
  match form with
  | .sequence => (.body args env [], h)
  | .define => evalOperation .define args env h
  | .assign => evalOperation (if args.length = 1 then .assign else .define) args env h
  | .bound => evalOperation (.bound true) args env h
  | .unbound => evalOperation (.bound false) args env h

def evalList (l : ListId) (env : DictId) (h : Heap) : Move × Heap :=
  match h.items l with
  | [] => (.ret .nil, h)
  | head :: args =>
    match blockLiteral? (head :: args) with
    | some (params, body) =>
      let (h, v) := h.newBlock
        { id := 0, name := none, params := params, body := body, env := env, receiver := none }
      (.ret v, h)
    | none =>
      match head.sym?.bind Form.ofName? with
      | some form => evalForm form args env h
      | none => (.eval head env [.operator args env], h)

def evalEntries (literal dict scope : DictId) (names : List String) (h : Heap) : Move × Heap :=
  match names with
  | [] => (.ret (.dict dict), h)
  | name :: names =>
    let e := h.get literal name
    (.eval e scope [.entry literal dict scope e name names], h)

def nameBlock (name : String) (v : Value) (h : Heap) : Heap × Value :=
  match v with
  | .block b => if b.name.isNone then h.newBlock { b with name := some name } else (h, v)
  | v => (h, v)

/-- A new dictionary from a literal. It keeps a declared parent and else inherits from the scope;
each entry sees the ones before it. -/
def evalLiteral (literal env : DictId) (h : Heap) : Move × Heap :=
  let (h, dict) := h.newDict {}
  let h := match h.declaredParent literal with
    | some p => h.link dict (some p) true
    | none => h.attach dict (h.anchor env)
  let (h, scope) := h.view dict env
  evalEntries literal dict scope (h.names literal) h

end DictScript
