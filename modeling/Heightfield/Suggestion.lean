/-! Names close to a mistyped one. -/

namespace Heightfield.Suggestion

/-- The next row of the distance table: from the distances of `as` to each suffix-free start of
`bs`, those of `as` with `a` added. `diagonal` and `left` stand above and before the entry made. -/
def nextRow (a : Char) : Nat → Nat → List Char → List Nat → List Nat
  | diagonal, left, b :: bs, above :: row =>
    let entry := if a = b then diagonal else 1 + min (min diagonal above) left
    entry :: nextRow a above entry bs row
  | _, _, _, _ => []

/-- Row after row over `as`, from the row of distances already reached. -/
def lastRow (bs : List Char) : List Char → List Nat → List Nat
  | a :: as, first :: row => lastRow bs as ((first + 1) :: nextRow a first (first + 1) bs row)
  | _, row => row

/-- The least number of characters inserted, deleted or replaced that turns one text into the
other. -/
def distance (as bs : List Char) : Nat :=
  (lastRow bs as (List.range (bs.length + 1))).getLastD 0

/-- How far a suggestion may be: one character in three, but always one. -/
def limit (name : String) : Nat := max (name.length / 3) 1

/-- The first of the nearest candidates within the limit. The name itself is none. -/
def similar? (name : String) (candidates : List String) : Option String :=
  let near := (candidates.filter (· ≠ name)).filterMap fun candidate =>
    let d := distance name.toList candidate.toList
    if d ≤ limit name then some (d, candidate) else none
  (near.foldl (fun best next =>
    match best with
    | some b => if next.1 < b.1 then some next else some b
    | none => some next) none).map (·.2)

end Heightfield.Suggestion
