import DictScript.Heap.Basic

/-!
Ownership. A dictionary is alive as long as the host, a pending evaluation or another living object
owns it. Objects on a cycle of owning links own each other and stay alive for good.
-/
namespace DictScript

def DictCell.refs (c : DictCell) : List Ref :=
  c.slots.toList.flatMap (fun s => s.2.refs) ++ c.scope.toList.map Ref.dict ++
    c.target.toList.map Ref.dict

def Native.refs : Native → List Ref
  | .object _ (some record) => record.flatMap fun s => s.2.refs
  | _ => []

namespace Heap

/-- What an object owns; its parent and caller are not among it. -/
def owned (h : Heap) : Ref → List Ref
  | .list l => allRefs (h.items l)
  | .dict d => (h.cell d).refs
  | .native n => ((h.native? n).map Native.refs).getD []

def held (h : Heap) : List Ref := allRefs h.roots ++ h.pins.flatMap allRefs

/-- Objects are numbered dictionaries first, then lists, then natives. -/
def size (h : Heap) : Nat := h.dicts.size + h.lists.size + h.natives.size

def number (h : Heap) : Ref → Nat
  | .dict d => d.index
  | .list l => h.dicts.size + l.index
  | .native n => h.dicts.size + h.lists.size + n.index

def ofNumber (h : Heap) (i : Nat) : Ref :=
  if i < h.dicts.size then .dict ⟨i⟩
  else if i < h.dicts.size + h.lists.size then .list ⟨i - h.dicts.size⟩
  else .native ⟨i - h.dicts.size - h.lists.size⟩

def countOwner (h : Heap) (counts : Array Nat) (r : Ref) : Array Nat :=
  counts.modify (h.number r) (· + 1)

def ownerCounts (h : Heap) : Array Nat :=
  (List.range h.size).foldl (fun counts i => (h.owned (h.ofNumber i)).foldl h.countOwner counts)
    (h.held.foldl h.countOwner (Array.replicate h.size 0))

/-- Takes one owner away; an object that has none left is to be released. -/
def loseOwner (h : Heap) (state : List Nat × Array Nat) (r : Ref) : List Nat × Array Nat :=
  let i := h.number r
  let left := state.2.getD i 0 - 1
  (if left = 0 then i :: state.1 else state.1, state.2.set! i left)

/-- Releases the objects in `work` and all that only they owned. Each is released once, so the
number of objects is fuel enough. -/
def release (h : Heap) : Nat → List Nat → Array Nat → Array Nat
  | 0, _, counts => counts
  | _, [], counts => counts
  | fuel + 1, i :: work, counts =>
    let (work, counts) := (h.owned (h.ofNumber i)).foldl h.loseOwner (work, counts)
    release h fuel work counts

def livingOwners (h : Heap) : Array Nat :=
  let counts := h.ownerCounts
  h.release h.size ((List.range h.size).filter fun i => counts.getD i 0 = 0) counts

/-- Whether the objects lead to `d` over fewer than `n` owning links. At most a thousand objects are
followed at a time. -/
def leadTo (h : Heap) (d : DictId) : (n : Nat) → List Ref → Bool
  | 0, _ => false
  | n + 1, refs => refs.contains (.dict d) || leadTo h d n ((refs.flatMap h.owned).take 1000)

def isNear (h : Heap) (d : DictId) : Bool :=
  h.leadTo d 5 (allRefs h.roots ++ (h.pins.take 8).flatMap allRefs)

def isPinned (h : Heap) (d : DictId) : Bool :=
  h.pins.any fun vs => vs.any (·.isDict d)

/-- Alive are the dictionaries that are held, and those with an owner that is alive itself. The full
count is taken only where a look at what is held does not tell. -/
def alive (h : Heap) (d : DictId) : Bool :=
  h.isNear d || h.isPinned d || h.livingOwners.getD d.index 0 ≠ 0

def enter (h : Heap) (vs : List Value) : Heap := { h with pins := vs :: h.pins }

def hold (h : Heap) (v : Value) : Heap :=
  match h.pins with
  | [] => { h with pins := [[v]] }
  | vs :: rest => { h with pins := (v :: vs) :: rest }

def letGo (h : Heap) (d : DictId) : Heap :=
  match h.pins with
  | [] => h
  | vs :: rest => { h with pins := vs.eraseP (·.isDict d) :: rest }

def leave (h : Heap) : Heap := { h with pins := h.pins.tail }

end Heap
end DictScript
