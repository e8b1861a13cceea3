/-!
Suggestions for misspelt names: the candidate with the fewest edits, the first one on a tie.
-/
namespace DictScript

/-- Fills a row of the distance table from `left` on, for one more character `c`. `diagonal` and
the row hold the distances without it. -/
def fillRow (c : Char) (left diagonal : Nat) : List Char → List Nat → List Nat
  | x :: xs, above :: row =>
    let cost := if c = x then diagonal else 1 + min (min diagonal above) left
    cost :: fillRow c cost above xs row
  | _, _ => []

/-- Entry `j` of a row is the distance to the first `j` characters of `word`. -/
def nextRow (word : List Char) (row : List Nat) (c : Char) : List Nat :=
  match row with
  | [] => []
  | d :: row => (d + 1) :: fillRow c (d + 1) d word row

def editDistance (a b : String) : Nat :=
  let word := b.toList
  ((a.toList.foldl (nextRow word) (List.range (word.length + 1))).getLast?).getD 0

def closer (name : String) (threshold : Nat) (best : Option (String × Nat)) (candidate : String) :
    Option (String × Nat) :=
  if candidate = name then best
  else
    let d := editDistance name candidate
    match best with
    | none => if d ≤ threshold then some (candidate, d) else none
    | some (_, least) => if d ≤ threshold ∧ d < least then some (candidate, d) else best

def similarName (name : String) (candidates : List String) (threshold : Nat) : Option String :=
  (candidates.foldl (closer name threshold) none).map Prod.fst

def suggestionThreshold : Nat := 2

end DictScript
