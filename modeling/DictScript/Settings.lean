import DictScript.Json.Reader

/-!
Limits, and reading them from a settings file: lines `key = number`, with comments. All keys are
known and take whole numbers, so nothing else a settings language allows can occur in a valid file.
-/
namespace DictScript

structure Settings where
  maxDepth : Nat := 10000
  /-- Native stack that has to be left before more is taken, in bytes. -/
  stackRedZone : Nat := 131072
  /-- Native stack taken at a time, in bytes. -/
  stackGrowSize : Nat := 4194304
deriving DecidableEq, Repr

namespace Settings

def set? (s : Settings) (key : String) (n : Nat) : Option Settings :=
  match key with
  | "max_depth" => some { s with maxDepth := n }
  | "stack_red_zone" => some { s with stackRedZone := n }
  | "stack_grow_size" => some { s with stackGrowSize := n }
  | _ => none

def isSpace (c : Char) : Bool := c = ' ' ∨ c = '\t'

def skipSpaces (cs : List Char) : List Char := cs.dropWhile isSpace

/-- Comments hold no control characters but tabs. -/
def isCommentChar (c : Char) : Bool := c = '\t' ∨ (0x20 ≤ c.toNat ∧ c.toNat ≠ 0x7f)

def isKeyChar (c : Char) : Bool := c.isAlphanum ∨ c = '_' ∨ c = '-'

def lineEnd? (cs : List Char) : Option (List Char) :=
  let cs := match skipSpaces cs with
    | '#' :: cs => cs.dropWhile isCommentChar
    | cs => cs
  match cs with
  | [] => some []
  | '\n' :: cs => some cs
  | '\r' :: '\n' :: cs => some cs
  | _ => none

def hexNat? (cs : List Char) : Option Nat :=
  (cs.mapM Json.hexValue?).map fun ds => ds.foldl (fun n d => 16 * n + d) 0

/-- The rest of a key in double quotes, `acc` holding what was read in reverse. -/
def quotedKey (acc : List Char) : List Char → Option (String × List Char)
  | '"' :: cs => some (String.ofList acc.reverse, cs)
  | '\\' :: 'u' :: a :: b :: c :: d :: cs =>
    match hexNat? [a, b, c, d] with
    | some n => if n.isValidChar then quotedKey (Char.ofNat n :: acc) cs else none
    | none => none
  | '\\' :: 'U' :: a :: b :: c :: d :: e :: f :: g :: h :: cs =>
    match hexNat? [a, b, c, d, e, f, g, h] with
    | some n => if n.isValidChar then quotedKey (Char.ofNat n :: acc) cs else none
    | none => none
  | '\\' :: c :: cs =>
    if c = '/' then none
    else match Json.shortEscape? c with
      | some c => quotedKey (c :: acc) cs
      | none => none
  | c :: cs => if isCommentChar c then quotedKey (c :: acc) cs else none
  | [] => none

def key? : List Char → Option (String × List Char)
  | '"' :: cs => quotedKey [] cs
  | '\'' :: cs =>
    let name := cs.takeWhile fun c => isCommentChar c ∧ c ≠ '\''
    match cs.drop name.length with
    | '\'' :: cs => some (String.ofList name, cs)
    | _ => none
  | cs =>
    let name := cs.takeWhile isKeyChar
    if name = [] then none else some (String.ofList name, cs.drop name.length)

/-- Digits of a base; an underscore has a digit on both sides. -/
def digits? (base : Nat) (cs : List Char) : Option Nat :=
  let rec go (n : Nat) (afterDigit : Bool) : List Char → Option Nat
    | [] => if afterDigit then some n else none
    | '_' :: cs => if afterDigit then go n false cs else none
    | c :: cs =>
      match Json.hexValue? c with
      | some d => if d < base then go (base * n + d) true cs else none
      | none => none
  go 0 false cs

def decimal? (cs : List Char) : Option Nat :=
  match cs with
  | '0' :: _ :: _ => none
  | cs => digits? 10 cs

/-- A whole number that is not negative and fits in 63 bits. -/
def number? (cs : List Char) : Option Nat :=
  let n? := match cs with
    | '0' :: 'x' :: cs => digits? 16 cs
    | '0' :: 'o' :: cs => digits? 8 cs
    | '0' :: 'b' :: cs => digits? 2 cs
    | '+' :: cs => decimal? cs
    | '-' :: cs => (decimal? cs).filter (· = 0)
    | cs => decimal? cs
  n?.filter (· < 1 <<< 63)

def isNumberChar (c : Char) : Bool := c.isAlphanum ∨ c = '_' ∨ c = '+' ∨ c = '-' ∨ c = '.' ∨ c = ':'

/-- Reads line after line; `seen` are the keys that are taken. Each line has a character, so the
length of the text is fuel enough. -/
def readLines : (fuel : Nat) → (seen : List String) → Settings → List Char → Option Settings
  | 0, _, s, cs => if cs = [] then some s else none
  | fuel + 1, seen, s, cs =>
    match lineEnd? cs with
    | some [] => some s
    | some cs => readLines fuel seen s cs
    | none =>
      match key? (skipSpaces cs) with
      | none => none
      | some (key, cs) =>
        match skipSpaces cs with
        | '=' :: cs =>
          let cs := skipSpaces cs
          let value := cs.takeWhile isNumberChar
          match number? value, lineEnd? (cs.drop value.length) with
          | some n, some cs =>
            if seen.contains key then none
            else match s.set? key n with
              | some s => readLines fuel (key :: seen) s cs
              | none => none
          | _, _ => none
        | _ => none

def read? (text : String) : Option Settings :=
  let cs := match text.toList with
    | '\ufeff' :: cs => cs
    | cs => cs
  readLines (cs.length + 1) [] {} cs

end Settings
end DictScript
