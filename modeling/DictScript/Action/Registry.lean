import DictScript.Action.FrameStack

/-!
Actions: each name has a list of definitions, and a definition asks for arguments by name.
-/
namespace DictScript.Action

inductive Implementation (C : Type) where
  | native (run : C → DictId → Heap → Except RuntimeError Value × C × Heap)
  | body (exprs : List Value)

structure Definition (C : Type) where
  required : List String
  implementation : Implementation C

def Definition.accepts {C : Type} (d : Definition C) (h : Heap) (frame : DictId) : Bool :=
  d.required.all fun name => h.holds frame name

/-- Names in the order of their first definition. -/
abbrev Registry (C : Type) := List (String × List (Definition C))

namespace Registry
variable {C : Type}

def definitions (r : Registry C) (name : String) : List (Definition C) := (r.lookup name).getD []

def names (r : Registry C) : List String := r.map Prod.fst

def count (r : Registry C) (name : String) : Nat := (r.definitions name).length

def add (name : String) (d : Definition C) : Registry C → Registry C
  | [] => [(name, [d])]
  | (n, ds) :: rest => if n = name then (n, ds ++ [d]) :: rest else (n, ds) :: add name d rest

end Registry
end DictScript.Action
