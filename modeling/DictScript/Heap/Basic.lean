import DictScript.Value

/-!
The heap: lists, dictionaries and natives by number. Nothing is ever deleted; whether a dictionary
still counts is a question of ownership.
-/
namespace DictScript

/-- Overwrites in place, or adds at the end. -/
def putSlot (name : String) (v : Value) : List (String × Value) → List (String × Value)
  | [] => [(name, v)]
  | (n, w) :: rest => if n = name then (n, v) :: rest else (n, w) :: putSlot name v rest

theorem mem_map_fst_putSlot {name n : String} {v : Value} {xs : List (String × Value)} :
    n ∈ (putSlot name v xs).map Prod.fst ↔ n = name ∨ n ∈ xs.map Prod.fst := by
  induction xs with
  | nil => simp [putSlot]
  | cons x xs ih =>
    by_cases h : x.1 = name
    · subst h; simp [putSlot]
    · rw [putSlot, if_neg h, List.map_cons, List.mem_cons, ih]
      simp [or_left_comm]

theorem nodup_putSlot {name : String} {v : Value} {xs : List (String × Value)}
    (h : (xs.map Prod.fst).Nodup) : ((putSlot name v xs).map Prod.fst).Nodup := by
  induction xs with
  | nil => simp [putSlot]
  | cons x xs ih =>
    have hx := List.nodup_cons.mp h
    by_cases hn : x.1 = name
    · simpa [putSlot, hn] using h
    · rw [putSlot, if_neg hn, List.map_cons, List.nodup_cons]
      refine ⟨?_, ih hx.2⟩
      rw [mem_map_fst_putSlot]
      exact fun hm => hm.elim hn hx.1

/-- Bindings in the order of their first insertion, each name once. -/
structure Slots where
  toList : List (String × Value)
  nodup : (toList.map Prod.fst).Nodup

namespace Slots

def empty : Slots := ⟨[], List.nodup_nil⟩

instance : Inhabited Slots := ⟨empty⟩

def put (s : Slots) (name : String) (v : Value) : Slots :=
  ⟨putSlot name v s.toList, nodup_putSlot s.nodup⟩

def erase (s : Slots) (name : String) : Slots :=
  ⟨s.toList.filter fun x => x.1 ≠ name, s.nodup.sublist (List.filter_sublist.map Prod.fst)⟩

end Slots

structure DictCell where
  slots : Slots := .empty
  /-- Inheritance and lexical scope; this link owns nothing. -/
  parent : Option DictId := none
  /-- The parent was assigned, rather than given by the surrounding scope. -/
  declared : Bool := false
  /-- The frame that was active at the call; this link owns nothing. -/
  caller : Option DictId := none
  /-- The scope that call frames and views keep alive. -/
  scope : Option DictId := none
  /-- A view shows the slots of its target. -/
  target : Option DictId := none
  name : Option String := none
  /-- A tagged dictionary freezes as its tag. -/
  tag : Option String := none
deriving Inhabited

structure Heap where
  lists : Array (Array Value) := #[]
  dicts : Array DictCell := #[]
  natives : Array Native := #[]
  /-- How many block numbers are given out. -/
  blocks : Nat := 0
  /-- What the host holds. -/
  roots : List Value := []
  /-- What the pending evaluations hold, innermost first. -/
  pins : List (List Value) := []
deriving Inhabited

namespace Heap

def cell (h : Heap) (d : DictId) : DictCell := h.dicts.getD d.index {}

def items (h : Heap) (l : ListId) : List Value := (h.lists.getD l.index #[]).toList

def native? (h : Heap) (n : NativeId) : Option Native := h.natives[n.index]?

def modifyCell (h : Heap) (d : DictId) (f : DictCell → DictCell) : Heap :=
  { h with dicts := h.dicts.modify d.index f }

def newDict (h : Heap) (c : DictCell) : Heap × DictId :=
  let d : DictId := ⟨h.dicts.size⟩
  ({ h with dicts := h.dicts.push c }, d)

def newList (h : Heap) (items : List Value) : Heap × ListId :=
  let l : ListId := ⟨h.lists.size⟩
  ({ h with lists := h.lists.push items.toArray }, l)

def newNative (h : Heap) (n : Native) : Heap × NativeId :=
  let id : NativeId := ⟨h.natives.size⟩
  ({ h with natives := h.natives.push n }, id)

def newBlock (h : Heap) (b : Block) : Heap × Value :=
  let v : Value := .block { b with id := h.blocks }
  ({ h with blocks := h.blocks + 1 }, v)

def pushItem (h : Heap) (l : ListId) (v : Value) : Heap :=
  { h with lists := h.lists.modify l.index (·.push v) }

end Heap
end DictScript
