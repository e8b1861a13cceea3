import DictScript.Error
import DictScript.Frozen.Token
import DictScript.Heap.Dict

/-!
Freezing: a value graph as a flat stream of tokens. Lists, dictionaries and natives are numbered as
they are opened, and met again they are written as a reference to their number.
-/
namespace DictScript

def functionTag : String := "native-fn"
def tagKey : String := "native"

structure Freezer where
  /-- The tokens so far, the last one first. -/
  out : List Token := []
  ids : List (Ref × Nat) := []
  /-- How many objects are open or closed. -/
  opened : Nat := 0

namespace Freezer

def emit (s : Freezer) (t : Token) : Freezer := { s with out := t :: s.out }

def openMark (s : Freezer) (m : Mark) : Freezer :=
  { s.emit (.mark m) with opened := s.opened + 1 }

end Freezer

abbrev Freeze := Freezer → Except RuntimeError Freezer

/-- Numbers up to `2 ^ 53` that are whole are written so, minus zero as zero. -/
def freezeNumber (x : Float) : Except RuntimeError JsonNumber :=
  if x.isFinite then
    match (Binary64.ofFloat x).whole? with
    | some n =>
      if 1 <<< 53 < n then .ok (.float x)
      else if Binary64.isNegative x ∧ 0 < n then .ok (.neg n)
      else .ok (.nat n)
    | none => .ok (.float x)
  else .error (.of (.nonFinite (printFloat x)))

mutual
def Value.freeze (object : Ref → Freeze) : Value → Freeze
  | .nil, s => .ok (s.emit .null)
  | .bool b, s => .ok (s.emit (.bool b))
  | .num x, s => (freezeNumber x).map fun n => s.emit (.num n)
  | .str t, s => .ok (s.emit (.str t))
  | .sym n, s => .ok (s.emit (.sym n))
  | .quote v, s => v.freeze object (s.emit (.mark .quote))
  | .fullQuote v, s => v.freeze object (s.emit (.mark .fullQuote))
  | .list l, s => object (.list l) s
  | .dict d, s => object (.dict d) s
  | .block b, s => freezeBlock object b s
  | .native n, s => object (.native n) s

/-- Name, parameters, environment, body. The lists of parameters and of the body take a number,
though nothing can refer to them. -/
def freezeBlock (object : Ref → Freeze) : BlockOf Value → Freeze
  | ⟨_, name, params, body, env, _⟩, s =>
    let s := s.emit (.mark .blockOpen)
    let s := s.emit ((name.map Token.str).getD .null)
    let s := params.foldl (fun s p => s.emit (.sym p)) (s.openMark .listOpen)
    match object (.dict env) (s.emit (.mark .listClose)) with
    | .error e => .error e
    | .ok s =>
      match freezeAll object body (s.openMark .listOpen) with
      | .error e => .error e
      | .ok s => .ok ((s.emit (.mark .listClose)).emit (.mark .blockClose))

def freezeAll (object : Ref → Freeze) : List Value → Freeze
  | [], s => .ok s
  | v :: vs, s =>
    match v.freeze object s with
    | .error e => .error e
    | .ok s => freezeAll object vs s
end

def freezeSlots (object : Ref → Freeze) : List (String × Value) → Freeze
  | [], s => .ok s
  | (name, v) :: rest, s =>
    match v.freeze object (s.emit (.str name)) with
    | .error e => .error e
    | .ok s => freezeSlots object rest s

def freezeEntries (object : Ref → Freeze) (slots : List (String × Value)) : Freeze := fun s =>
  (freezeSlots object slots (s.openMark .dictOpen)).map (·.emit (.mark .dictClose))

/-- The record that a native freezes as. An object names its defroster, by its own tag unless the
record has another. -/
def Native.record : Native → Except RuntimeError (List (String × Value))
  | .function name _ => .ok [(tagKey, .str functionTag), ("name", .str name)]
  | .object tag none => .error (.of (.unfreezable tag))
  | .object tag (some record) =>
    .ok (if (record.lookup tagKey).isSome then record else record ++ [(tagKey, .str tag)])

namespace Heap

/-- Views freeze as their targets. -/
def freezable (h : Heap) : Ref → Ref
  | .dict d => .dict (h.owner d)
  | r => r

def freezeContent (h : Heap) (object : Ref → Freeze) : Ref → Freeze
  | .list l => fun s =>
    (freezeAll object (h.items l) (s.openMark .listOpen)).map (·.emit (.mark .listClose))
  | .dict d =>
    match (h.cell d).tag with
    | some tag => freezeEntries object [(tagKey, .str tag)]
    | none => freezeEntries object (h.slots d)
  | .native n => fun s =>
    match ((h.native? n).map Native.record).getD (.ok []) with
    | .error e => .error e
    | .ok record => freezeEntries object record s

/-- Each level numbers one more object, so the number of objects is fuel enough. -/
def freezeObject (h : Heap) : Nat → Ref → Freeze
  | 0, _, s => .ok s
  | fuel + 1, r, s =>
    let r := h.freezable r
    match s.ids.lookup r with
    | some id => .ok (s.emit (.ref (toString id)))
    | none => h.freezeContent (freezeObject h fuel) r { s with ids := (r, s.opened) :: s.ids }

def freeze (h : Heap) (v : Value) : Except RuntimeError (List Token) :=
  (v.freeze (h.freezeObject (h.size + 1)) {}).map (·.out.reverse)

end Heap

def frozenText (tokens : List Token) : String := (Json.arr (tokens.map Token.toJson)).text

end DictScript
