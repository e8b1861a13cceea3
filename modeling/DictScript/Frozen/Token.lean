import DictScript.Json.Basic

/-!
Tokens of the frozen form. A stream is a JSON array; strings tell by their first character what
they stand for, and those that say nothing are kept as they are.
-/
namespace DictScript

inductive Mark where
  | quote
  | fullQuote
  | listOpen
  | listClose
  | dictOpen
  | dictClose
  | blockOpen
  | blockClose
deriving DecidableEq, Repr

def Mark.text : Mark → String
  | quote => ":"
  | fullQuote => "\\"
  | listOpen => "["
  | listClose => "]"
  | dictOpen => "\x7b"
  | dictClose => "\x7d"
  | blockOpen => "("
  | blockClose => ")"

def Mark.all : List Mark :=
  [quote, fullQuote, listOpen, listClose, dictOpen, dictClose, blockOpen, blockClose]

inductive Token where
  | null
  | bool (b : Bool)
  | num (n : JsonNumber)
  /-- Written `'text`; also the key of an entry. -/
  | str (text : String)
  /-- Written `$name`. -/
  | sym (name : String)
  /-- Written as `&` and the number of an object. -/
  | ref (number : String)
  | mark (m : Mark)
  | other (text : String)
  | nested (j : Json)
deriving Inhabited

namespace Token

def ofText (s : String) : Token :=
  match s.toList with
  | '\'' :: cs => str (String.ofList cs)
  | '$' :: cs => sym (String.ofList cs)
  | '&' :: cs => ref (String.ofList cs)
  | _ => ((Mark.all.find? fun m => m.text = s).map mark).getD (other s)

def ofJson : Json → Token
  | .null => null
  | .bool b => bool b
  | .num n => num n
  | .str s => ofText s
  | j => nested j

def toJson : Token → Json
  | null => .null
  | bool b => .bool b
  | num n => .num n
  | str text => .str ("'" ++ text)
  | sym name => .str ("$" ++ name)
  | ref number => .str ("&" ++ number)
  | mark m => .str m.text
  | other text => .str text
  | nested j => j

def text (t : Token) : String := t.toJson.text

end Token
end DictScript
