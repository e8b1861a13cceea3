import DictScript.Heap.Dict

/-!
Defrosters rebuild natives and tagged scopes from their frozen records. A tag is registered once.
-/
namespace DictScript

abbrev Defroster := Heap → DictId → Option DictId → Except RuntimeError Value × Heap

abbrev Registry := List (String × Defroster)

def rootTag : String := "root"

namespace Registry

def defrostRoot : Defroster := fun h _ scope =>
  match scope with
  | some d => (.ok (.dict d), h)
  | none => (.error (.of .rootWithoutScope), h)

def soleNative? : Value → Option NativeId
  | .block b =>
    match b.body with
    | [.native n] => some n
    | _ => none
  | _ => none

/-- Primitives are found by name; other functions are bound in the scope of the thaw. -/
def defrostFunction : Defroster := fun h record scope =>
  match h.get record "name" with
  | .str name =>
    match Primitive.ofName? name with
    | some p =>
      let (h, n) := h.newNative (.function name (.primitive p))
      (.ok (.native n), h)
    | none =>
      match scope.bind fun d => soleNative? (h.resolve d name) with
      | some n => (.ok (.native n), h)
      | none => (.error (.of (.unknownFunction name)), h)
  | v => (.error (.of (.wrongType "string" v.typeName)), h)

def standard : Registry := [(rootTag, defrostRoot), ("native-fn", defrostFunction)]

def has (r : Registry) (tag : String) : Bool := (r.lookup tag).isSome

def add (r : Registry) (tag : String) (f : Defroster) : Except RuntimeError Registry :=
  if r.has tag then .error (.of (.duplicate tag)) else .ok (r ++ [(tag, f)])

def defrost (r : Registry) (tag : String) : Defroster := fun h record scope =>
  match r.lookup tag with
  | some f => f h record scope
  | none => (.error (.of (.unregistered tag)), h)

end Registry
end DictScript
