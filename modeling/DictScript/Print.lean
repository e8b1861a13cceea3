import DictScript.Heap.Dict
import DictScript.Decimal.Layout

/-!
Printed values and dumps of call frames. A list or dictionary that is being printed already is
elided where it occurs again.
-/
namespace DictScript

structure PrintStyle where
  list : ListId → String
  dict : DictId → String
  native : NativeId → String
  /-- Writes `...` for the body of a block. -/
  elideBody : Bool

def paramText (params : List String) : String :=
  String.join (params.map (· ++ " "))

mutual
def Value.print (style : PrintStyle) : Value → String
  | .nil => "nil"
  | .num x => printFloat x
  | .bool b => if b then "true" else "false"
  | .str s => "\"" ++ s ++ "\""
  | .sym name => name
  | .quote v => ":" ++ v.print style
  | .fullQuote v => "\\" ++ v.print style
  | .list l => style.list l
  | .dict d => style.dict d
  | .block b => printBlock style b
  | .native n => style.native n

def printBlock (style : PrintStyle) : BlockOf Value → String
  | ⟨_, name, params, body, _, _⟩ =>
    let body :=
      if style.elideBody then " ..."
      else String.join ((printAll style body).map (" " ++ ·))
    name.getD "" ++ "[" ++ paramText params ++ "|" ++ body ++ "]"

def printAll (style : PrintStyle) : List Value → List String
  | [] => []
  | v :: vs => v.print style :: printAll style vs
end

namespace Heap

def printNative (h : Heap) (n : NativeId) : String :=
  match h.native? n with
  | some (.function name _) => "<native " ++ name ++ ">"
  | some (.object tag _) => "<" ++ tag ++ ">"
  | none => "<>"

/-- Prints under the objects in `around`, which are elided. Each level adds one more of them, so
their number is fuel enough. -/
def styleWithin (h : Heap) : (fuel : Nat) → (around : List Ref) → PrintStyle
  | 0, _ =>
    { list := fun _ => "[...]", dict := fun _ => "\x7b...\x7d", native := h.printNative,
      elideBody := false }
  | fuel + 1, around =>
    { list := fun l =>
        if around.contains (.list l) then "[...]"
        else
          let inner := styleWithin h fuel (.list l :: around)
          "[" ++ String.intercalate " " (printAll inner (h.items l)) ++ "]"
      dict := fun d =>
        let d := h.owner d
        if around.contains (.dict d) then "\x7b...\x7d"
        else
          let inner := styleWithin h fuel (.dict d :: around)
          let entry (s : String × Value) := s.1 ++ " = " ++ s.2.print inner
          "\x7b" ++ String.intercalate " " ((h.slots d).map entry) ++ "\x7d"
      native := h.printNative
      elideBody := false }

def print (h : Heap) (v : Value) : String :=
  v.print (h.styleWithin (h.lists.size + h.dicts.size) [])

def printShort (h : Heap) (v : Value) : String :=
  v.print
    { list := fun _ => "[...]", dict := fun _ => "\x7b...\x7d", native := h.printNative,
      elideBody := true }

def maxDumpFrames : Nat := 32

/-- A frame's name and its bindings. Those of a tagged scope are noise. -/
def dumpLine (h : Heap) (d : DictId) : String :=
  let entry (s : String × Value) := " " ++ s.1 ++ ": " ++ h.printShort s.2
  let bindings :=
    if (h.cell d).tag.isSome || (h.slots d).isEmpty then ""
    else " [" ++ String.join ((h.slots d).map entry) ++ " ]"
  "  at " ++ h.displayName d ++ bindings

def dumpFrom (h : Heap) : Nat → DictId → List String
  | 0, _ => ["  ..."]
  | fuel + 1, d =>
    h.dumpLine d :: match (h.caller d).or (h.parent d) with
      | none => []
      | some next => dumpFrom h fuel next

/-- The frames from `d` outward: callers, and parents of what was not called. -/
def frameDump (h : Heap) (d : DictId) : String :=
  String.intercalate "\n" (h.dumpFrom maxDumpFrames d)

end Heap

/-- Attaches the frames active at `d`, unless some are attached already. -/
def RuntimeError.raisedIn (h : Heap) (d : DictId) (e : RuntimeError) : RuntimeError :=
  match e.dump with
  | some _ => e
  | none => { e with dump := some (h.frameDump d) }

end DictScript
