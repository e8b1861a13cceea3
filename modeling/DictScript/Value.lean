import DictScript.Primitive

/-!
Values. Lists, dictionaries and natives live on the heap and a value refers to them; blocks are
immutable, and a number tells them apart.
-/
namespace DictScript

structure ListId where
  index : Nat
deriving DecidableEq, Inhabited, Repr

structure DictId where
  index : Nat
deriving DecidableEq, Inhabited, Repr

structure NativeId where
  index : Nat
deriving DecidableEq, Inhabited, Repr

structure BlockOf (α : Type) where
  /-- Copies that differ in name or receiver have numbers of their own. -/
  id : Nat
  name : Option String
  params : List String
  body : List α
  env : DictId
  /-- The dictionary it was fetched through, `self` when it runs. -/
  receiver : Option DictId
deriving Inhabited

inductive Value where
  | nil
  | num (x : Float)
  | bool (b : Bool)
  | str (s : String)
  | sym (name : String)
  /-- Written `:v`; it evaluates to `v`. -/
  | quote (v : Value)
  /-- Inert data, which evaluates to itself. -/
  | fullQuote (v : Value)
  | list (l : ListId)
  | dict (d : DictId)
  | block (b : BlockOf Value)
  | native (n : NativeId)
deriving Inhabited

abbrev Block := BlockOf Value

inductive Code where
  | primitive (p : Primitive)
  | host (key : String)
deriving DecidableEq, Inhabited, Repr

inductive Native where
  | function (name : String) (code : Code)
  /-- A host object, opaque to scripts, with the record it freezes to if it can be frozen. -/
  | object (tag : String) (record : Option (List (String × Value)))
deriving Inhabited

def Native.tag : Native → String
  | function _ _ => "native-fn"
  | object tag _ => tag

namespace Value

def typeName : Value → String
  | nil => "nil"
  | num _ => "number"
  | bool _ => "boolean"
  | str _ => "string"
  | sym _ => "symbol"
  | quote _ => "quote"
  | fullQuote _ => "full-quote"
  | list _ => "list"
  | dict _ => "dictionary"
  | block _ => "block"
  | native _ => "native"

def sym? : Value → Option String
  | sym name => some name
  | _ => none

def isDict (d : DictId) : Value → Bool
  | dict e => d = e
  | _ => false

end Value

def restMark : List Char := ['.', '.', '.']

def restName? (param : String) : Option String :=
  if restMark.isPrefixOf param.toList then some (String.ofList (param.toList.drop 3)) else none

namespace BlockOf
variable {α : Type}

def displayName (b : BlockOf α) : String := b.name.getD "<block>"

def fixedArity (b : BlockOf α) : Nat :=
  (b.params.takeWhile fun p => (restName? p).isNone).length

def hasRest (b : BlockOf α) : Bool := b.params.any fun p => (restName? p).isSome

end BlockOf

inductive Ref where
  | list (l : ListId)
  | dict (d : DictId)
  | native (n : NativeId)
deriving DecidableEq, Inhabited, Repr

mutual
def Value.refs : Value → List Ref
  | .quote v => v.refs
  | .fullQuote v => v.refs
  | .list l => [.list l]
  | .dict d => [.dict d]
  | .block b => blockRefs b
  | .native n => [.native n]
  | _ => []

def blockRefs : BlockOf Value → List Ref
  | ⟨_, _, _, body, env, receiver⟩ =>
    .dict env :: ((receiver.toList.map Ref.dict) ++ allRefs body)

def allRefs : List Value → List Ref
  | [] => []
  | v :: vs => v.refs ++ allRefs vs
end

end DictScript
