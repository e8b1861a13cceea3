import DictScript.CommandLine

/-!
The program: reads the files that its arguments name and prints.
-/
namespace DictScript.CommandLine

def stepLimit : Nat := 1000000000000000

def readFile? (path : String) : IO (Option String) := do
  try return some (← IO.FS.readFile path)
  catch _ => return none

def usage : String :=
  "usage: dictscript [--config FILE] [--max-depth N] (eval | show | freeze) FILE"

structure Arguments where
  settings : Option String := none
  maxDepth : Option Nat := none
  words : List String := []

/-- Options may stand before or behind the command. -/
def Arguments.read? : Arguments → List String → Option Arguments
  | a, "--config" :: path :: rest => read? { a with settings := some path } rest
  | a, "--max-depth" :: n :: rest =>
    match readIndex? n with
    | some n => read? { a with maxDepth := some n } rest
    | none => none
  | a, word :: rest => read? { a with words := a.words ++ [word] } rest
  | a, [] => some a

def command? : String → Option Command
  | "eval" => some .eval
  | "show" => some .display
  | "freeze" => some .freeze
  | _ => none

def runProgram (args : List String) : IO UInt32 := do
  let some a := Arguments.read? {} args | IO.eprintln usage; return 2
  let [word, path] := a.words | IO.eprintln usage; return 2
  let some command := command? word | IO.eprintln usage; return 2
  let settings ← match a.settings with
    | none => pure none
    | some path => some <$> readFile? path
  let invocation : Invocation :=
    { command := command, file := ← readFile? path, settings := settings, maxDepth := a.maxDepth }
  match run stepLimit invocation with
  | .ok out => IO.print out; return 0
  | .error failure => IO.eprintln ("Error: " ++ failure.message); return 1

end DictScript.CommandLine

def main (args : List String) : IO UInt32 := DictScript.CommandLine.runProgram args
