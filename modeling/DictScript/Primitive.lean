/-!
The primitives that every interpreter starts with, their names and parameters.
-/
namespace DictScript

inductive Primitive where
  | add | sub | mul | div
  | lt | le | gt | ge
  | equal
  | not | and | or
  | choose
  | list | len | names
  | log
  | freeze | thaw
deriving DecidableEq, Inhabited, Repr

namespace Primitive

/-- Names and parameters, in the order in which the root environment lists them. -/
def table : List (Primitive × String × List String) :=
  [ (add, "+", ["a", "b"]), (sub, "-", ["a", "b"]), (mul, "*", ["a", "b"]), (div, "/", ["a", "b"]),
    (lt, "<", ["a", "b"]), (le, "<=", ["a", "b"]), (gt, ">", ["a", "b"]), (ge, ">=", ["a", "b"]),
    (equal, "=", ["a", "b"]),
    (not, "not", ["a"]), (and, "and", ["a", "b"]), (or, "or", ["a", "b"]),
    (choose, "if", ["cond", "then", "else"]),
    (list, "list", ["...items"]), (len, "len", ["value"]), (names, "names", ["dict"]),
    (log, "log", ["...values"]),
    (freeze, "freeze", ["value"]), (thaw, "thaw", ["text"]) ]

def ofName? (name : String) : Option Primitive :=
  (table.find? fun (_, n, _) => n = name).map Prod.fst

end Primitive
end DictScript
