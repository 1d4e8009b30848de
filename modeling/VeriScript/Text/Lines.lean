/-!
# Lines and columns

* `expandTabs` — tabs become spaces up to the next multiple of eight columns.
* `splitLines`, `joinLines` — the lines of a text, divided by line feeds.
* `normalizeNewlines` — the three ways to end a line become one.
-/

namespace VeriScript.Text

/-- Expand tabs from column `col` on; a line feed or a carriage return starts a new count of columns. -/
def expandTabsFrom (col : Nat) : List Char → List Char
  | [] => []
  | c :: cs =>
    if c == '\t' then
      let width := 8 - col % 8
      List.replicate width ' ' ++ expandTabsFrom (col + width) cs
    else if c == '\n' || c == '\r' then c :: expandTabsFrom 0 cs
    else c :: expandTabsFrom (col + 1) cs

/-- The text with tabs expanded to multiples of eight columns. -/
def expandTabs (cs : List Char) : List Char :=
  expandTabsFrom 0 cs

/-- The parts of a list of characters between the occurrences of `sep`; there is always at least one. -/
def splitOnChar (sep : Char) : List Char → List (List Char)
  | [] => [[]]
  | c :: cs =>
    if c == sep then [] :: splitOnChar sep cs
    else match splitOnChar sep cs with
      | [] => [[c]]
      | part :: parts => (c :: part) :: parts

/-- The lines of a text; a line feed at the end opens an empty last line. -/
def splitLines (s : String) : List String :=
  (splitOnChar '\n' s.toList).map String.ofList

/-- Lines put together again with line feeds between them. -/
def joinLines (lines : List String) : String :=
  String.intercalate "\n" lines

/-- A carriage return, alone or before a line feed, counts as a line feed. -/
def normalizeNewlinesList : List Char → List Char
  | [] => []
  | '\r' :: '\n' :: cs => '\n' :: normalizeNewlinesList cs
  | c :: cs => (if c == '\r' then '\n' else c) :: normalizeNewlinesList cs

@[inherit_doc normalizeNewlinesList]
def normalizeNewlines (s : String) : String :=
  String.ofList (normalizeNewlinesList s.toList)

end VeriScript.Text
