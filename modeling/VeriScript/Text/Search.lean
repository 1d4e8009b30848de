/-!
# Searching texts

* `contains` — whether a text occurs in another.
* `occurrences` — how often it occurs, occurrences that overlap an earlier one left out.
-/

namespace VeriScript.Text

/-- The characters `part` occur one after another in a list of characters. -/
def containsList (part : List Char) : List Char → Bool
  | [] => part.isEmpty
  | c :: cs => part.isPrefixOf (c :: cs) || containsList part cs

/-- A text occurs in another. -/
def contains (part text : String) : Bool :=
  containsList part.toList text.toList

/-- The number of occurrences of `part` at or behind the next `skip` characters, from left to right; the next
occurrence starts behind the one before it. -/
def occurrencesFrom (part : List Char) : Nat → List Char → Nat
  | _, [] => 0
  | skip + 1, _ :: cs => occurrencesFrom part skip cs
  | 0, c :: cs =>
    if part.isPrefixOf (c :: cs) then occurrencesFrom part (part.length - 1) cs + 1
    else occurrencesFrom part 0 cs

/-- The number of occurrences of a text that is not empty in another. -/
def occurrences (part text : String) : Nat :=
  occurrencesFrom part.toList 0 text.toList

end VeriScript.Text
