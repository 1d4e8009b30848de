import VeriScript.Span
import VeriScript.Text.Blank
import VeriScript.Text.Lines

/-!
# Reading texts

A cursor is a position in a text with the characters that follow it.  A parser consumes some of them or
fails; a failed parser consumes nothing, so the choice `p <|> q` tries `q` from where `p` started, and takes
`p` for good once it succeeds.

* `Cursor.skipGap` — past the blanks and comments before the next token.
* `Parser.token`, `Parser.literal`, `Parser.keyword` — one token.
* `Parser.many`, `Parser.sepBy1`, `Parser.opt` — repetition, as long as it goes.
-/

namespace VeriScript.Reading

structure Cursor where
  file : String
  line : Nat
  col : Nat
  /-- The character just before the position. -/
  before : Option Char
  rest : List Char
  deriving DecidableEq, Repr

namespace Cursor

/-- The start of a text; its tabs count as spaces. -/
def start (file : String) (text : String) : Cursor :=
  ⟨file, 1, 1, none, Text.expandTabs text.toList⟩

/-- Past the character `c`, with `rest` behind it. -/
def step (cur : Cursor) (c : Char) (rest : List Char) : Cursor :=
  if c = '\n' then { cur with line := cur.line + 1, col := 1, before := some c, rest := rest }
  else { cur with col := cur.col + 1, before := some c, rest := rest }

/-- Past the next `n` characters. -/
def advance : Nat → Cursor → Cursor
  | 0, cur => cur
  | n + 1, cur =>
    match cur.rest with
    | [] => cur
    | c :: rest => advance n (cur.step c rest)

/-- The position as a span. -/
def span (cur : Cursor) : Span :=
  .point cur.file cur.line cur.col

end Cursor

/-! ## Blanks and comments -/

/-- The length of a text up to the end of the first `*/`. -/
def blockCommentEnd? : List Char → Option Nat
  | [] => none
  | '*' :: '/' :: _ => some 2
  | _ :: cs => (blockCommentEnd? cs).map (· + 1)

/-- The length of a text up to the end of the line; a backslash takes the line feed behind it along. -/
def lineCommentLength : List Char → Nat
  | [] => 0
  | '\\' :: '\n' :: cs => lineCommentLength cs + 2
  | c :: cs => if c = '\n' then 0 else lineCommentLength cs + 1

/-- The length of a comment at the start of a text; without its end `/*` starts none. -/
def commentLength? : List Char → Option Nat
  | '/' :: '*' :: cs => (blockCommentEnd? cs).map (· + 2)
  | '/' :: '/' :: cs => some (lineCommentLength cs + 2)
  | _ => none

/-- The length of the blanks and comments at the start of a text, in at most `fuel` pieces. -/
def gapLengthIn : Nat → List Char → Nat
  | 0, _ => 0
  | _ + 1, [] => 0
  | fuel + 1, c :: cs =>
    if Text.isGap c then gapLengthIn fuel cs + 1
    else match commentLength? (c :: cs) with
      | some n => gapLengthIn fuel ((c :: cs).drop n) + n
      | none => 0

/-- The length of the blanks and comments at the start of a text. -/
def gapLength (cs : List Char) : Nat :=
  gapLengthIn cs.length cs

/-- Past the blanks and comments before the next token. -/
def Cursor.skipGap (cur : Cursor) : Cursor :=
  cur.advance (gapLength cur.rest)

/-! ## Parsers -/

abbrev Parser (α : Type) := StateT Cursor Option α

namespace Parser

variable {α β : Type}

/-- The position of the next token. -/
def here : Parser Span := fun cur => some (cur.skipGap.span, cur)

/-- A token of the shape that `size?` measures at the start of a text. -/
def token (size? : List Char → Option Nat) : Parser (List Char) := fun cur =>
  let cur := cur.skipGap
  match size? cur.rest with
  | some n => some (cur.rest.take n, cur.advance n)
  | none => none

/-- The length of `cs` if a text starts with it. -/
def startSize? (cs : List Char) (text : List Char) : Option Nat :=
  if cs.isPrefixOf text then some cs.length else none

/-- Exactly these characters, whatever follows them. -/
def literal (s : String) : Parser Unit := do
  let _ ← token (startSize? s.toList)

/-- The characters that may not touch a keyword on either side. -/
def isWordChar (c : Char) : Bool :=
  c.isAlphanum || c = '_' || c = '$'

/-- A word that no word character touches. -/
def keyword (word : String) : Parser Unit := fun cur =>
  let cur := cur.skipGap
  let size := word.toList.length
  if word.toList.isPrefixOf cur.rest && !cur.before.any isWordChar &&
      !(cur.rest.drop size).head?.any isWordChar then
    some ((), cur.advance size)
  else none

/-- None of these keywords comes next. -/
def notKeyword (words : List String) : Parser Unit := fun cur =>
  if words.any fun w => (keyword w cur).isSome then none else some ((), cur)

/-- `p` if it succeeds. -/
def opt (p : Parser α) : Parser (Option α) := fun cur =>
  match p cur with
  | some (a, cur) => some (some a, cur)
  | none => some (none, cur)

/-- `p` as often as it succeeds, at most `fuel` times. -/
def manyIn (p : Parser α) : Nat → Parser (List α)
  | 0 => fun cur => some ([], cur)
  | fuel + 1 => fun cur =>
    match p cur with
    | none => some ([], cur)
    | some (a, cur) =>
      match manyIn p fuel cur with
      | some (as, cur) => some (a :: as, cur)
      | none => none

/-- `p` as often as it succeeds; `p` consumes something each time. -/
def many (p : Parser α) : Parser (List α) := fun cur =>
  manyIn p cur.rest.length cur

/-- `p` at least once. -/
def many1 (p : Parser α) : Parser (List α) := do
  let a ← p
  let as ← many p
  return a :: as

/-- One or more `p` with commas between them. -/
def sepBy1 (p : Parser α) : Parser (List α) := do
  let a ← p
  let as ← many (do literal ","; p)
  return a :: as

/-- Items with commas between them, or none at all. -/
def sepBy (p : Parser α) : Parser (List α) := do
  return (← opt (sepBy1 p)).getD []

end Parser

/-- What reading a whole text ends in. -/
inductive Outcome (α : Type) where
  /-- The text was read to its end. -/
  | done (value : α)
  /-- The text goes on behind what could be read: the line and column of the first token left over. -/
  | leftover (line col : Nat)
  /-- Not even the start of the text could be read. -/
  | nothing
  deriving Repr

/-- Read a whole text; blanks and comments may follow what `p` reads. -/
def readAll {α : Type} (p : Parser α) (file text : String) : Outcome α :=
  match p (.start file text) with
  | none => .nothing
  | some (a, cur) =>
    let cur := cur.skipGap
    if cur.rest.isEmpty then .done a else .leftover cur.line cur.col

end VeriScript.Reading
