import VeriScript.Text.Blank
import VeriScript.Text.Lines
import VeriScript.Text.Numeral
import VeriScript.Text.Search

/-!
# Reports on syntax errors

What an error message shows of the text around a position, and what it advises.

* `contextLines` — the lines around a line, with a mark below the column (`get_context_lines`).
* `found` — the few characters at the position (`extract_got`).
* `expectedPhrases` — what a message says was expected (`extract_expected`).
* `suggestions` — advice drawn from the text (`generate_suggestions`).
-/

namespace VeriScript.Reading

/-- A line number in four columns or more. -/
def lineLabel (n : Nat) : String :=
  let digits := Text.decimalNat n
  String.ofList (List.replicate (4 - digits.length) ' ') ++ digits ++ ": "

/-- The mark below column `col` of a line with its label. -/
def columnMark (col : Nat) : String :=
  String.ofList (List.replicate (6 + (col - 1)) ' ') ++ "^ Error here"

/-- The lines at most `around` away from line `line`, and the mark below that line. -/
def contextLines (text : String) (line col : Nat) (around : Nat) : String :=
  let numbered := (Text.splitLines text).zipIdx 1
  let near := numbered.filter fun (_, n) => line ≤ n + around && n ≤ line + around
  Text.joinLines <| near.flatMap fun (l, n) =>
    (lineLabel n ++ l) :: if n = line then [columnMark col] else []

/-- The text of up to eleven characters from column `col` of a line, or what ends there.  Line zero is the
last line. -/
def found (text : String) (line col : Nat) : String :=
  let lines := Text.splitLines text
  let line? := if line = 0 then lines.getLast? else lines[line - 1]?
  match line? with
  | none => "end of input"
  | some l =>
    let excerpt := Text.trim (String.ofList ((l.toList.drop (col - 1)).take (col + 10 - (col - 1))))
    if col ≤ l.length ∧ excerpt ≠ "" then "'" ++ excerpt ++ "'" else "end of line"

/-! ## What was expected -/

/-- The phrase ends here: at `, found`, at an opening parenthesis behind blanks, or at the end of the
message, a line feed there left aside. -/
def atPhraseEnd (cs : List Char) : Bool :=
  let afterBlanks := cs.dropWhile Text.isBlank
  cs.isEmpty || cs == ['\n'] ||
    (afterBlanks.length < cs.length && afterBlanks.head? == some '(') ||
    match cs with
    | ',' :: rest =>
      let afterBlanks := rest.dropWhile Text.isBlank
      afterBlanks.length < rest.length && "found".toList.isPrefixOf afterBlanks
    | _ => false

/-- The shortest phrase of at least one character at the start of a text, on one line. -/
def phrase? : List Char → Option (List Char)
  | [] => none
  | c :: cs =>
    if c = '\n' then none
    else if atPhraseEnd cs then some [c]
    else (phrase? cs).map (c :: ·)

/-- The phrase behind the word `Expected` at the start of a text: behind as many of the blanks as leave a
phrase, and behind at least one. -/
def phraseAt? (cs : List Char) : Option (List Char) :=
  let word := "Expected".toList
  if word.isPrefixOf cs then
    let rest := cs.drop word.length
    let blanks := (rest.takeWhile Text.isBlank).length
    (List.range blanks).reverse.findSome? fun n => phrase? (rest.drop (n + 1))
  else none

/-- The first phrase behind the word `Expected` anywhere in a text. -/
def findPhrase? : List Char → Option (List Char)
  | [] => none
  | c :: cs => (phraseAt? (c :: cs)).or (findPhrase? cs)

/-- What a message says was expected. -/
def expectedPhrases (message : String) : List String :=
  match findPhrase? message.toList with
  | some cs => [String.ofList cs]
  | none => ["valid syntax"]

/-! ## Advice -/

/-- Advice on an error, from what was found and expected and from the whole text. -/
def suggestions (found : String) (expected : List String) (text : String) : List String :=
  let expectedText := String.intercalate " " expected
  let advise (wanted : Bool) (advice : String) : List String := if wanted then [advice] else []
  advise (Text.contains "';'" expectedText || found == "end of line" || found == "end of input")
    "Every statement must be terminated by ';'" ++
  advise (Text.contains "=" found && !Text.contains "<-" found && !Text.contains "let" text)
    "Bind names with 'let x = e;' or run actions with 'x <- e;'" ++
  advise (Text.occurrences "\x7b\x7b" text != Text.occurrences "\x7d\x7d" text)
    "Inline terms must be closed with '\x7d\x7d'" ++
  advise (Text.occurrences "(" text != Text.occurrences ")" text)
    "Check for unbalanced parentheses" ++
  advise ("'do".toList.isPrefixOf found.toList || Text.contains "'\x7d'" expectedText)
    "Statements inside 'do \x7b ... \x7d' also need a trailing ';'"

/-- The report on a text that could be read up to a position, and not to its end. -/
def leftoverReport (file text : String) (line col : Nat) : String :=
  let got := found text line col
  let advice := suggestions got ["end of text"] text
  Text.joinLines (
    ["Parse error at " ++ file ++ ":" ++ Text.decimalNat line ++ ":" ++ Text.decimalNat col ++ ":",
     "  Expected end of text", "  Expected: end of text", "  Got: " ++ got,
     "  Context:\n" ++ contextLines text line col 2] ++
    (if advice.isEmpty then [] else "  Suggestions:" :: advice.map ("    - " ++ ·))) ++ "\n"

end VeriScript.Reading
