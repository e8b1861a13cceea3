import DictScript.Json.Basic

/-!
Reading JSON text. Nesting is limited, and a number beyond the doubles is an error.
-/
namespace DictScript

namespace JsonNumber

/-- Scales by a power of ten from a table that ends at `10 ^ 308`; smaller exponents take the
last entry more than once. Every step rounds. -/
def scale (x : Float) (e : Int) : Option Float :=
  let pow (n : Nat) : Float := Binary64.nearest (Decimal.tenPow n) 1
  if 0 ≤ e then
    if x == 0 then some x
    else if 308 < e then none
    else
      let y := x * pow e.toNat
      if y.isInf then none else some y
  else if -308 ≤ e then some (x / pow (-e).toNat)
  else
    let y := x / pow 308
    if -616 ≤ e then some (y / pow (-e - 308).toNat)
    else some 0

/-- Takes digits while the number stays below `2 ^ 64`; the rest is left over. -/
def takeDigits (n : Nat) : List Char → Nat × List Char
  | [] => (n, [])
  | c :: cs =>
    let next := 10 * n + Decimal.digitValue c
    if next < 1 <<< 64 then takeDigits next cs else (n, c :: cs)

/-- The significand of a fraction holds 64 bits. Digits of the whole part that do not fit still
count in the exponent, digits behind the point are dropped. -/
def ofParts (negative : Bool) (whole frac : List Char) (e : Int) : Option JsonNumber :=
  let (n, wholeLeft) := takeDigits 0 whole
  let (n, fracLeft) := takeDigits n frac
  let places := frac.length - fracLeft.length
  (scale (Binary64.nearest n 1) (e + wholeLeft.length - places)).map fun x =>
    float (if negative then -x else x)

/-- A number without point and exponent stays whole if it fits in 64 bits. Minus zero does not. -/
def ofWhole (negative : Bool) (digits : List Char) : Option JsonNumber :=
  let n := Decimal.ofDigits digits
  if negative then
    if 0 < n ∧ n ≤ 1 <<< 63 then some (neg n)
    else if n < 1 <<< 64 then some (float (-Binary64.nearest n 1))
    else ofParts true digits [] 0
  else if n < 1 <<< 64 then some (nat n)
  else ofParts false digits [] 0

def exponent? : List Char → Option (Int × List Char)
  | '-' :: cs => digits? cs |>.map fun (n, rest) => (-n, rest)
  | '+' :: cs => digits? cs
  | cs => digits? cs
where
  digits? (cs : List Char) : Option (Int × List Char) :=
    let ds := cs.takeWhile Char.isDigit
    if ds = [] then none else some (Decimal.ofDigits ds, cs.dropWhile Char.isDigit)

def read? (cs : List Char) : Option (JsonNumber × List Char) := do
  let (negative, cs) := match cs with
    | '-' :: rest => (true, rest)
    | _ => (false, cs)
  let whole := cs.takeWhile Char.isDigit
  let cs := cs.dropWhile Char.isDigit
  guard (whole ≠ [] ∧ (whole.head? = some '0' → whole.length = 1))
  let (frac, cs) ← match cs with
    | '.' :: rest =>
      let ds := rest.takeWhile Char.isDigit
      if ds = [] then none else some (some ds, rest.dropWhile Char.isDigit)
    | _ => some (none, cs)
  let (e, cs) ← match cs with
    | c :: rest =>
      if c = 'e' ∨ c = 'E' then (exponent? rest).map fun (e, rest) => (some e, rest)
      else some (none, cs)
    | [] => some (none, cs)
  let n ← match frac, e with
    | none, none => ofWhole negative whole
    | _, _ => ofParts negative whole (frac.getD []) (e.getD 0)
  some (n, cs)

end JsonNumber

namespace Json

def isBlank (c : Char) : Bool := c = ' ' ∨ c = '\n' ∨ c = '\t' ∨ c = '\r'

def skipBlanks (cs : List Char) : List Char := cs.dropWhile isBlank

def hexValue? (c : Char) : Option Nat :=
  if c.isDigit then some (c.toNat - 48)
  else if 'a' ≤ c ∧ c ≤ 'f' then some (c.toNat - 87)
  else if 'A' ≤ c ∧ c ≤ 'F' then some (c.toNat - 55)
  else none

def unit? (a b c d : Char) : Option Nat := do
  let a ← hexValue? a
  let b ← hexValue? b
  let c ← hexValue? c
  let d ← hexValue? d
  some (((a * 16 + b) * 16 + c) * 16 + d)

def shortEscape? : Char → Option Char
  | '"' => some '"'
  | '\\' => some '\\'
  | '/' => some '/'
  | 'b' => some '\x08'
  | 'f' => some '\x0c'
  | 'n' => some '\n'
  | 'r' => some '\r'
  | 't' => some '\t'
  | _ => none

/-- The rest of a string literal, `acc` holding what was read in reverse. Surrogates come in
pairs. -/
def stringBody (acc : List Char) : List Char → Option (String × List Char)
  | [] => none
  | '"' :: rest => some (String.ofList acc.reverse, rest)
  | '\\' :: 'u' :: a :: b :: c :: d :: rest =>
    match unit? a b c d with
    | none => none
    | some high =>
      if 0xD800 ≤ high ∧ high < 0xDC00 then
        match rest with
        | '\\' :: 'u' :: a :: b :: c :: d :: rest =>
          match unit? a b c d with
          | none => none
          | some low =>
            if 0xDC00 ≤ low ∧ low < 0xE000 then
              let code := 0x10000 + (high - 0xD800) * 0x400 + (low - 0xDC00)
              stringBody (Char.ofNat code :: acc) rest
            else none
        | _ => none
      else if 0xDC00 ≤ high ∧ high < 0xE000 then none
      else stringBody (Char.ofNat high :: acc) rest
  | '\\' :: c :: rest =>
    match shortEscape? c with
    | none => none
    | some c => stringBody (c :: acc) rest
  | c :: rest => if c.toNat < 32 then none else stringBody (c :: acc) rest

def keyword? (word : String) (value : Json) (cs : List Char) : Option (Json × List Char) :=
  if word.toList.isPrefixOf cs then some (value, cs.drop word.length) else none

mutual
/-- One value and the text behind it. `room` levels may still open; each call reads a character,
so `fuel` is the length of the text. -/
def value : (fuel room : Nat) → List Char → Option (Json × List Char)
  | 0, _, _ => none
  | fuel + 1, room, cs =>
    match skipBlanks cs with
    | [] => none
    | '[' :: rest =>
      if room ≤ 1 then none else
      match skipBlanks rest with
      | ']' :: rest => some (arr [], rest)
      | rest => elements fuel (room - 1) [] rest
    | '\x7b' :: rest =>
      if room ≤ 1 then none else
      match skipBlanks rest with
      | '\x7d' :: rest => some (obj [], rest)
      | rest => members fuel (room - 1) [] rest
    | '"' :: rest => (stringBody [] rest).map fun (s, rest) => (str s, rest)
    | 'n' :: rest => keyword? "ull" null rest
    | 't' :: rest => keyword? "rue" (bool true) rest
    | 'f' :: rest => keyword? "alse" (bool false) rest
    | cs => (JsonNumber.read? cs).map fun (n, rest) => (num n, rest)

def elements : (fuel room : Nat) → List Json → List Char → Option (Json × List Char)
  | 0, _, _, _ => none
  | fuel + 1, room, acc, cs =>
    match value fuel room cs with
    | none => none
    | some (item, cs) =>
      match skipBlanks cs with
      | ',' :: rest => elements fuel room (item :: acc) rest
      | ']' :: rest => some (arr (item :: acc).reverse, rest)
      | _ => none

def members : (fuel room : Nat) → List (String × Json) → List Char → Option (Json × List Char)
  | 0, _, _, _ => none
  | fuel + 1, room, acc, cs =>
    match skipBlanks cs with
    | '"' :: rest =>
      match stringBody [] rest with
      | none => none
      | some (key, cs) =>
        match skipBlanks cs with
        | ':' :: rest =>
          match value fuel room rest with
          | none => none
          | some (item, cs) =>
            match skipBlanks cs with
            | ',' :: rest => members fuel room (insert key item acc) rest
            | '\x7d' :: rest => some (obj (insert key item acc), rest)
            | _ => none
        | _ => none
    | _ => none
end

def maxNesting : Nat := 128

def read? (text : String) : Option Json :=
  let cs := text.toList
  match value (cs.length + 1) maxNesting cs with
  | some (j, rest) => if skipBlanks rest = [] then some j else none
  | none => none

end Json
end DictScript
