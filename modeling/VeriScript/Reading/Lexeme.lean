import VeriScript.Reading.Cursor

/-!
# Shapes of tokens

Each shape measures how much of the start of a text it takes; the readers of values turn what was taken
into what it means.

* `intSize?`, `intValue` — integer literals in four bases (`parse_int_literal`); decimal digits in any script, and
  no more of them than `Text.maxDigits`.
* `stringSize?`, `unescape` — string literals and their escapes, as release 3.3.3 of the grammar library reads them.
* `nameSize?`, `typeNameSize?`, `typeVarSize?`, `termNameSize?`, `wildcardSize?` — names.
* `betweenSize?` — a text between two delimiters.
-/

namespace VeriScript.Reading

/-- The number of characters at the start of a text that satisfy a test. -/
def runLength (p : Char → Bool) (cs : List Char) : Nat :=
  (cs.takeWhile p).length

/-! ## Names -/

/-- A character of a name after the first: a letter, a digit, an underscore or an apostrophe. -/
def isNameChar (c : Char) : Bool :=
  c.isAlphanum || c = '_' || c = '\''

/-- A character of a type name after the first. -/
def isTypeNameChar (c : Char) : Bool :=
  c.isAlphanum || c = '_'

/-- A name of a script; an underscore alone is none. -/
def nameSize? : List Char → Option Nat
  | [] => none
  | c :: cs =>
    if c.isAlpha then some (runLength isNameChar cs + 1)
    else if c = '_' ∧ runLength isNameChar cs ≠ 0 then some (runLength isNameChar cs + 1)
    else none

/-- An underscore that no name continues. -/
def wildcardSize? : List Char → Option Nat
  | [] => none
  | c :: cs => if c = '_' ∧ runLength isNameChar cs = 0 then some 1 else none

/-- The name of a type constructor. -/
def typeNameSize? : List Char → Option Nat
  | [] => none
  | c :: cs => if c.isUpper then some (runLength isTypeNameChar cs + 1) else none

/-- The name of a type variable. -/
def typeVarSize? : List Char → Option Nat
  | [] => none
  | c :: cs => if c.isLower then some (runLength isTypeNameChar cs + 1) else none

/-- One part of the name of a term. -/
def termNamePartSize? : List Char → Option Nat
  | [] => none
  | c :: cs => if c.isAlpha || c = '_' then some (runLength isNameChar cs + 1) else none

/-- The name of a term, possibly with a qualifier in front. -/
def termNameSize? (cs : List Char) : Option Nat :=
  match termNamePartSize? cs with
  | none => none
  | some n =>
    match cs.drop n with
    | ':' :: ':' :: rest =>
      match termNamePartSize? rest with
      | some m => some (n + 2 + m)
      | none => some n
    | _ => some n

/-! ## Integers -/

/-- A digit of a base up to sixteen. -/
def isDigitIn (base : Nat) (c : Char) : Bool :=
  (Text.hexDigit? c).any (· < base)

def isDecimalDigit (c : Char) : Bool :=
  (Text.decimalDigit? c).isSome

/-- The base that the letter behind a leading zero names. -/
def baseOfLetter? (c : Char) : Option Nat :=
  if c = 'x' ∨ c = 'X' then some 16
  else if c = 'b' ∨ c = 'B' then some 2
  else if c = 'o' ∨ c = 'O' then some 8
  else none

/-- The base and the number of digits of a literal with a base in front of its digits, if the base is among
`bases`. -/
def basedLiteral? (bases : List Nat) : List Char → Option (Nat × Nat)
  | '0' :: c :: cs =>
    match baseOfLetter? c with
    | some base =>
      let n := runLength (isDigitIn base) cs
      if bases.contains base && n != 0 then some (base, n) else none
    | none => none
  | _ => none

/-- A run of decimal digits. -/
def decimalSize? (cs : List Char) : Option Nat :=
  let n := runLength isDecimalDigit cs
  if n = 0 then none else some n

/-- An integer literal: decimal, or in one of `bases` with the base in front. -/
def intSize? (bases : List Nat) (cs : List Char) : Option Nat :=
  match basedLiteral? bases cs with
  | some (_, n) => some (n + 2)
  | none => decimalSize? cs

/-- The value of a run of decimal digits, unless there are too many of them. -/
def decimalValue (cs : List Char) : Except Text.Fault Nat :=
  if cs.length ≤ Text.maxDigits then .ok (Text.ofDigits 10 (cs.filterMap Text.decimalDigit?)) else .error .digits

/-- The value of an integer literal. -/
def intValue (cs : List Char) : Except Text.Fault Nat :=
  match basedLiteral? [16, 8, 2] cs with
  | some (base, _) => .ok (Text.ofDigits base ((cs.drop 2).filterMap Text.hexDigit?))
  | none => decimalValue cs

/-- The value of a literal that can be read. -/
def readable {α : Type} (r : Except Text.Fault α) : Parser α := fun cur =>
  match r with
  | .ok a => some (a, cur)
  | .error _ => none

/-! ## Texts between delimiters -/

/-- The number of characters before the first occurrence of `close`. -/
def beforeSize? (close : List Char) : List Char → Option Nat
  | [] => if close.isEmpty then some 0 else none
  | c :: cs => if close.isPrefixOf (c :: cs) then some 0 else (beforeSize? close cs).map (· + 1)

/-- A text from `opening` to the first `close` behind it. -/
def betweenSize? (opening close : List Char) (cs : List Char) : Option Nat :=
  if opening.isPrefixOf cs then
    (beforeSize? close (cs.drop opening.length)).map fun n => opening.length + n + close.length
  else none

/-- The text without the two characters that open it and the two that close it. -/
def inner (cs : List Char) : List Char :=
  (cs.drop 2).take (cs.length - 4)

/-! ## String literals -/

/-- The length of the rest of a string literal, its closing quote included. -/
def stringRest? : List Char → Option Nat
  | [] => none
  | '"' :: _ => some 1
  | '\\' :: c :: cs => if c = '\n' then none else (stringRest? cs).map (· + 2)
  | c :: cs => if c = '\n' ∨ c = '\r' ∨ c = '\\' then none else (stringRest? cs).map (· + 1)

/-- A string literal on one line. -/
def stringSize? : List Char → Option Nat
  | '"' :: cs => (stringRest? cs).map (· + 1)
  | _ => none

/-- The character with a code of two hexadecimal digits. -/
def hexChar (a b : Char) : Char :=
  Char.ofNat (16 * (Text.hexDigit? a).getD 0 + (Text.hexDigit? b).getD 0)

/-- What the character behind a backslash stands for, when it stands alone. -/
def escapeChar (c : Char) : Char :=
  if c = 't' then '\t'
  else if c = 'n' then '\n'
  else if c = 'f' then '\x0c'
  else if c = 'r' then '\r'
  else if c = '0' then '\x00'
  else c

/-- The characters that the inside of a string literal denotes.  An octal digit before a `3` stands for
itself; a hexadecimal digit before the closing `2` of `\x` or the closing `4` of `\u` forms a character code
with it. -/
def unescape : List Char → List Char
  | [] => []
  | '\\' :: 'x' :: d :: '2' :: cs =>
    if isDigitIn 16 d then hexChar d '2' :: unescape cs else 'x' :: unescape (d :: '2' :: cs)
  | '\\' :: 'u' :: d :: '4' :: cs =>
    if isDigitIn 16 d then hexChar d '4' :: unescape cs else 'u' :: unescape (d :: '4' :: cs)
  | '\\' :: a :: '3' :: cs =>
    if isDigitIn 8 a then a :: '3' :: unescape cs else escapeChar a :: unescape ('3' :: cs)
  | '\\' :: c :: cs => escapeChar c :: unescape cs
  | c :: cs => c :: unescape cs

/-- The text that a string literal denotes. -/
def stringValue (cs : List Char) : String :=
  String.ofList (unescape ((cs.drop 1).take (cs.length - 2)))

end VeriScript.Reading
