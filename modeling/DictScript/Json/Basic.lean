import DictScript.Decimal.Layout
import DictScript.Decimal.Reader

/-!
JSON values and their text. Numbers remember whether they were written as whole numbers.
-/
namespace DictScript

inductive JsonNumber where
  /-- A whole number below `2 ^ 64`. -/
  | nat (n : Nat)
  /-- Minus `n`, for `n` from 1 to `2 ^ 63`. -/
  | neg (n : Nat)
  | float (x : Float)
deriving Inhabited

namespace JsonNumber

def toFloat : JsonNumber → Float
  | nat n => Binary64.nearest n 1
  | neg n => -Binary64.nearest n 1
  | float x => x

def text : JsonNumber → String
  | nat n => String.ofList (Decimal.digitText n)
  | neg n => String.ofList ('-' :: Decimal.digitText n)
  | float x => freezeFloat x

end JsonNumber

inductive Json where
  | null
  | bool (b : Bool)
  | num (n : JsonNumber)
  | str (s : String)
  | arr (items : List Json)
  | obj (members : List (String × Json))
deriving Inhabited

namespace Json

/-- Members are kept in the order of their keys, and a later one replaces an earlier. -/
def insert (key : String) (value : Json) : List (String × Json) → List (String × Json)
  | [] => [(key, value)]
  | (k, v) :: rest =>
    if key = k then (key, value) :: rest
    else if key < k then (key, value) :: (k, v) :: rest
    else (k, v) :: insert key value rest

def object (members : List (String × Json)) : Json :=
  obj (members.foldl (fun acc (k, v) => insert k v acc) [])

def member? (key : String) : Json → Option Json
  | obj members => members.lookup key
  | _ => none

def hexDigit (n : Nat) : Char := (Nat.digitChar n)

/-- Quotes, backslashes and control characters are escaped, nothing else. -/
def escape (c : Char) : List Char :=
  match c with
  | '"' => ['\\', '"']
  | '\\' => ['\\', '\\']
  | '\x08' => ['\\', 'b']
  | '\x0c' => ['\\', 'f']
  | '\n' => ['\\', 'n']
  | '\r' => ['\\', 'r']
  | '\t' => ['\\', 't']
  | c =>
    if c.toNat < 32 then ['\\', 'u', '0', '0', hexDigit (c.toNat / 16), hexDigit (c.toNat % 16)]
    else [c]

def quote (s : String) : String :=
  String.ofList ('"' :: s.toList.flatMap escape ++ ['"'])

mutual
def text : Json → String
  | null => "null"
  | bool true => "true"
  | bool false => "false"
  | num n => n.text
  | str s => quote s
  | arr items => "[" ++ String.intercalate "," (texts items) ++ "]"
  | obj members => "\x7b" ++ String.intercalate "," (memberTexts members) ++ "\x7d"

def texts : List Json → List String
  | [] => []
  | j :: js => text j :: texts js

def memberTexts : List (String × Json) → List String
  | [] => []
  | (k, v) :: rest => (quote k ++ ":" ++ text v) :: memberTexts rest
end

/-- An array with one item a line, two blanks in front. -/
def lines (items : List Json) : String :=
  if items.isEmpty then "[]"
  else "[\n" ++ String.intercalate ",\n" (items.map fun j => "  " ++ text j) ++ "\n]"

end Json
end DictScript
