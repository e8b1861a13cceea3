import DictScript.Heap.Dict

/-!
Structural equality. Pairs of objects under comparison count as equal, so cyclic graphs come to an
end; one difference anywhere makes the whole comparison fail.
-/
namespace DictScript

abbrev Pairs := List (Ref × Ref)

mutual
/-- Answers `none` if the values differ, and otherwise the pairs assumed on the way. -/
def Value.compare (objects : Ref → Ref → Pairs → Option Pairs) :
    Value → Value → Pairs → Option Pairs
  | .nil, .nil, s => some s
  | .num x, .num y, s => if x == y then some s else none
  | .bool x, .bool y, s => if x = y then some s else none
  | .str x, .str y, s => if x = y then some s else none
  | .sym x, .sym y, s => if x = y then some s else none
  | .quote v, .quote w, s => v.compare objects w s
  | .fullQuote v, .fullQuote w, s => v.compare objects w s
  | .list l, .list m, s => objects (.list l) (.list m) s
  | .dict d, .dict e, s => objects (.dict d) (.dict e) s
  | .block b, .block c, s => compareBlocks objects b c s
  | .native n, .native m, s => if n = m then some s else none
  | _, _, _ => none

/-- Blocks agree in parameters, body and the identity of their environment. -/
def compareBlocks (objects : Ref → Ref → Pairs → Option Pairs) :
    BlockOf Value → BlockOf Value → Pairs → Option Pairs
  | ⟨id, _, params, body, env, _⟩, c, s =>
    if id = c.id then some s
    else if params = c.params ∧ env = c.env then compareAll objects body c.body s
    else none

def compareAll (objects : Ref → Ref → Pairs → Option Pairs) :
    List Value → List Value → Pairs → Option Pairs
  | [], [], s => some s
  | v :: vs, w :: ws, s => (v.compare objects w s).bind (compareAll objects vs ws)
  | _, _, _ => none
end

def compareSlots (compare : Value → Value → Pairs → Option Pairs) (others : List (String × Value)) :
    List (String × Value) → Pairs → Option Pairs
  | [], s => some s
  | (name, v) :: rest, s =>
    match others.lookup name with
    | none => none
    | some w => (compare v w s).bind (compareSlots compare others rest)

namespace Heap

def compareContents (h : Heap) (objects : Ref → Ref → Pairs → Option Pairs) :
    Ref → Ref → Pairs → Option Pairs
  | .list l, .list m, s => compareAll objects (h.items l) (h.items m) s
  | .dict d, .dict e, s =>
    let xs := h.slots d
    let ys := h.slots e
    if xs.length = ys.length then compareSlots (Value.compare objects) ys xs s else none
  | _, _, _ => none

/-- Compares two objects, which count as equal meanwhile. Each level assumes one more pair, so the
number of pairs is fuel enough. -/
def compareObjects (h : Heap) : Nat → Ref → Ref → Pairs → Option Pairs
  | 0, _, _, _ => none
  | fuel + 1, a, b, s =>
    if a = b ∨ s.contains (a, b) then some s
    else h.compareContents (compareObjects h fuel) a b ((a, b) :: s)

def pairCount (h : Heap) : Nat := h.lists.size * h.lists.size + h.dicts.size * h.dicts.size

def equal (h : Heap) (v w : Value) : Bool :=
  (v.compare (h.compareObjects (h.pairCount + 1)) w []).isSome

end Heap
end DictScript
