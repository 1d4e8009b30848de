import VeriScript.Text.Printable

/-!
# Quoted texts

Three ways to write a text between quotes, one for each place where texts are shown.

* `treeText` — in a dump of the syntax tree: single quotes, or double quotes around a text that has a single
  quote and no double quote; unprintable characters by their code.
* `scriptText` — as a value of the language (`show_string`): double quotes; only the quote, the backslash, the line feed
  and the tab are escaped.
* `jsonText` — in a JSON document of ASCII characters; a character beyond the basic plane takes two escapes.
-/

namespace VeriScript.Text

/-- `n` in base sixteen with at least `width` digits. -/
def hexPadded (width n : Nat) : String :=
  let ds := Nat.toDigits 16 n
  String.ofList (List.replicate (width - ds.length) '0' ++ ds)

/-- One character of a quoted text in a dump. -/
def treeChar (quote c : Char) : String :=
  if c == quote || c == '\\' then String.ofList ['\\', c]
  else if c == '\n' then "\\n"
  else if c == '\r' then "\\r"
  else if c == '\t' then "\\t"
  else if isPrintable c then String.singleton c
  else if c.toNat < 0x100 then "\\x" ++ hexPadded 2 c.toNat
  else if c.toNat < 0x10000 then "\\u" ++ hexPadded 4 c.toNat
  else "\\U" ++ hexPadded 8 c.toNat

/-- A text as a dump of the syntax tree quotes it. -/
def treeText (s : String) : String :=
  let quote := if s.toList.contains '\'' && !s.toList.contains '"' then '"' else '\''
  String.singleton quote ++ String.join (s.toList.map (treeChar quote)) ++ String.singleton quote

/-- One character of a string value. -/
def scriptChar (c : Char) : List Char :=
  if c = '\\' then ['\\', '\\']
  else if c = '"' then ['\\', '"']
  else if c = '\n' then ['\\', 'n']
  else if c = '\t' then ['\\', 't']
  else [c]

/-- A text as a string value is shown. -/
def scriptText (s : String) : String :=
  String.ofList ('"' :: s.toList.flatMap scriptChar ++ ['"'])

/-- One character of a JSON text. -/
def jsonChar (c : Char) : String :=
  if c == '"' then "\\\""
  else if c == '\\' then "\\\\"
  else if c == '\n' then "\\n"
  else if c == '\r' then "\\r"
  else if c == '\t' then "\\t"
  else if c.toNat == 8 then "\\b"
  else if c.toNat == 12 then "\\f"
  else if 0x20 ≤ c.toNat && c.toNat < 0x7f then String.singleton c
  else if c.toNat < 0x10000 then "\\u" ++ hexPadded 4 c.toNat
  else
    let n := c.toNat - 0x10000
    "\\u" ++ hexPadded 4 (0xd800 + n / 0x400) ++ "\\u" ++ hexPadded 4 (0xdc00 + n % 0x400)

/-- A text as a JSON document of ASCII characters quotes it. -/
def jsonText (s : String) : String :=
  "\"" ++ String.join (s.toList.map jsonChar) ++ "\""

end VeriScript.Text
