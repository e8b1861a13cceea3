import DictScript.Eval.Step

/-!
The interpreter as a host uses it: a heap with a root environment, limits, and the host's own
functions and defrosters.
-/
namespace DictScript

structure Interpreter where
  runtime : Runtime
  heap : Heap
  log : List String := []

namespace Interpreter

/-- Binds a host function in the root environment, as a block whose body is the native. The names of
the links take no block, so they stay as they are. -/
def defineNative (i : Interpreter) (name : String) (params : List String) (code : Code) :
    Interpreter :=
  let (h, n) := i.heap.newNative (.function name code)
  let (h, env) := h.newDict {}
  let (h, block) := h.newBlock
    { id := 0, name := some name, params := params, body := [.native n], env := env,
      receiver := none }
  { i with heap := (h.define i.runtime.root name block).2 }

def new (maxDepth : Nat) (registry : Registry) (functions : String → Option HostFunction) :
    Interpreter :=
  let (h, root) := ({} : Heap).newDict { name := some "root", tag := some rootTag }
  let runtime : Runtime :=
    { root := root, maxDepth := maxDepth, registry := registry, functions := functions }
  let bare : Interpreter := { runtime := runtime, heap := { h with roots := [.dict root] } }
  Primitive.table.foldl (fun i (p, name, params) => i.defineNative name params (.primitive p)) bare

def root (i : Interpreter) : DictId := i.runtime.root

def holding (i : Interpreter) (vs : List Value) : Interpreter :=
  { i with heap := { i.heap with roots := .dict i.root :: vs } }

/-- Runs a request for at most `fuel` steps; without an answer it was not enough. -/
def run (fuel : Nat) (i : Interpreter) (request : Request) :
    Option (Except RuntimeError Value) × Interpreter :=
  let (move, h) := request.begin i.runtime 0 (i.heap.enter request.held)
  let start := Machine.proceed [] 0 i.log move h
  let stop := start.run i.runtime fuel
  (stop.result?, { i with heap := stop.heap.leave, log := stop.log })

def thaw (i : Interpreter) (frozen : Json) (scope : Option DictId) :
    Except RuntimeError Value × Interpreter :=
  let (result, h) := i.heap.thaw i.runtime.registry frozen scope
  (result, { i with heap := h })

end Interpreter
end DictScript
