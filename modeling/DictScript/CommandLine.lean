import DictScript.Interpreter
import DictScript.Settings

/-!
The command line: evaluate a frozen expression, show a frozen value, or evaluate and freeze again.
-/
namespace DictScript.CommandLine

inductive Command where
  | eval | display | freeze
deriving DecidableEq, Repr

inductive Failure where
  | missingFile
  | badJson
  | badSettings
  | runtime (e : RuntimeError)
  | outOfFuel

def Failure.message : Failure → String
  | missingFile => "IO error: No such file or directory (os error 2)"
  | badJson => "JSON error: not a JSON text"
  | badSettings => "Config error: not a settings file"
  | runtime e => e.report
  | outOfFuel => "evaluation does not end"

/-- A command with the contents of the files it names; `none` for a file that does not exist. -/
structure Invocation where
  command : Command
  file : Option String
  settings : Option (Option String)
  maxDepth : Option Nat

/-- The settings of the file, if one is named, under those given directly. -/
def Invocation.settings? (i : Invocation) : Except Failure Settings := do
  let settings ← match i.settings with
    | none => pure {}
    | some none => throw .missingFile
    | some (some text) =>
      match Settings.read? text with
      | some s => pure s
      | none => throw .badSettings
  return { settings with maxDepth := i.maxDepth.getD settings.maxDepth }

def Invocation.source? (i : Invocation) : Except Failure Json := do
  match i.file with
  | none => throw .missingFile
  | some text =>
    match Json.read? text with
    | some frozen => pure frozen
    | none => throw .badJson

def runtimeFailure {α : Type} : Except RuntimeError α → Except Failure α
  | .ok a => .ok a
  | .error e => .error (.runtime e)

def evaluate (fuel : Nat) (i : Interpreter) (expr : Value) : Except Failure (Value × Heap) :=
  match i.run fuel (.evaluate expr none) with
  | (some (.ok v), i) => .ok (v, (i.holding [v]).heap)
  | (some (.error e), _) => .error (.runtime e)
  | (none, _) => .error .outOfFuel

def run (fuel : Nat) (invocation : Invocation) : Except Failure String := do
  let settings ← invocation.settings?
  let interpreter := Interpreter.new settings.maxDepth Registry.standard fun _ => none
  let frozen ← invocation.source?
  let (thawed, interpreter) := interpreter.thaw frozen (some interpreter.root)
  let expr ← runtimeFailure thawed
  match invocation.command with
  | .display => return interpreter.heap.print expr ++ "\n"
  | .eval =>
    let (v, h) ← evaluate fuel interpreter expr
    return h.print v ++ "\n"
  | .freeze =>
    let (v, h) ← evaluate fuel interpreter expr
    let tokens ← runtimeFailure (h.freeze v)
    return Json.lines (tokens.map Token.toJson) ++ "\n"

end DictScript.CommandLine
