/-!
# Numerals

Numbers as texts, and the decimal digits of all scripts of Unicode.

* `decimal` — the decimal text of an integer; `inBase` — its text in base 2, 8, 10 or 16, as `show_int` writes it.
* `Fault` — why a text cannot be written; `written` — a text with numbers in it, if they can be written.
* `decimalDigit?` — the value of a decimal digit, in whatever script it is written.
* `ofDigits` — the number that a list of digit values denotes.
-/

namespace VeriScript.Text

/-- Why a text cannot be written.  This is no error of a script, and no script anticipates it. -/
inductive Fault where
  /-- A number has more decimal digits than are written. -/
  | digits
  /-- A function type has so many parameters, and not two. -/
  | parameters (count : Nat)
  /-- A list type or a block type lacks a parameter. -/
  | missing
  deriving DecidableEq, Repr

def Fault.message : Fault → String
  | .digits =>
    "Exceeds the limit (4300 digits) for integer string conversion; use sys.set_int_max_str_digits() to increase the limit"
  | .parameters count =>
    if count < 2 then "not enough values to unpack (expected 2, got " ++ String.ofList (Nat.toDigits 10 count) ++ ")"
    else "too many values to unpack (expected 2)"
  | .missing => "list index out of range"

/-- Decimal text of a natural number. -/
def decimalNat (n : Nat) : String :=
  String.ofList (Nat.toDigits 10 n)

/-- Decimal text of an integer. -/
def decimal : Int → String
  | .ofNat n => decimalNat n
  | .negSucc n => "-" ++ decimalNat (n + 1)

/-- The text of an integer in a base: binary, octal and hexadecimal texts name their base after the sign,
in any other base the text is decimal. -/
def inBase (base : Int) (n : Int) : String :=
  let sign := if n < 0 then "-" else ""
  if base = 16 then sign ++ "0x" ++ String.ofList (Nat.toDigits 16 n.natAbs)
  else if base = 8 then sign ++ "0o" ++ String.ofList (Nat.toDigits 8 n.natAbs)
  else if base = 2 then sign ++ "0b" ++ String.ofList (Nat.toDigits 2 n.natAbs)
  else decimal n

/-- The number of digits that decimal texts have at most, written or read. -/
def maxDigits : Nat := 4300

/-- An integer that is not too long for a decimal text. -/
def hasDecimal (n : Int) : Bool :=
  (Nat.toDigits 10 n.natAbs).length ≤ maxDigits

/-- The integers that the text of an integer in a base has in decimal: only these may be too long. -/
def decimals (base n : Int) : List Int :=
  if base = 16 ∨ base = 8 ∨ base = 2 then [] else [n]

/-- A text, unless one of the integers that stand in it in decimal is too long. -/
def written (numerals : List Int) (text : String) : Except Fault String :=
  if numerals.all hasDecimal then .ok text else .error .digits

/-- The zeros of the decimal digits of Unicode; the other nine digits follow each of them. -/
def decimalZeros : List Nat :=
  [0x30, 0x660, 0x6f0, 0x7c0, 0x966, 0x9e6, 0xa66, 0xae6, 0xb66, 0xbe6, 0xc66, 0xce6, 0xd66, 0xde6, 0xe50,
   0xed0, 0xf20, 0x1040, 0x1090, 0x17e0, 0x1810, 0x1946, 0x19d0, 0x1a80, 0x1a90, 0x1b50, 0x1bb0, 0x1c40,
   0x1c50, 0xa620, 0xa8d0, 0xa900, 0xa9d0, 0xa9f0, 0xaa50, 0xabf0, 0xff10, 0x104a0, 0x10d30, 0x11066,
   0x110f0, 0x11136, 0x111d0, 0x112f0, 0x11450, 0x114d0, 0x11650, 0x116c0, 0x11730, 0x118e0, 0x11950,
   0x11c50, 0x11d50, 0x11da0, 0x16a60, 0x16ac0, 0x16b50, 0x1d7ce, 0x1d7d8, 0x1d7e2, 0x1d7ec, 0x1d7f6,
   0x1e140, 0x1e2f0, 0x1e950, 0x1fbf0]

/-- The value of a decimal digit in any script. -/
def decimalDigit? (c : Char) : Option Nat :=
  (decimalZeros.find? fun z => z ≤ c.toNat && c.toNat < z + 10).map (c.toNat - ·)

/-- The value of a digit of base sixteen, letters in either case. -/
def hexDigit? (c : Char) : Option Nat :=
  let n := c.toNat
  if 48 ≤ n ∧ n ≤ 57 then some (n - 48)
  else if 97 ≤ n ∧ n ≤ 102 then some (n - 87)
  else if 65 ≤ n ∧ n ≤ 70 then some (n - 55)
  else none

/-- The number that digit values denote in a base, most significant first. -/
def ofDigits (base : Nat) (ds : List Nat) : Nat :=
  ds.foldl (fun n d => base * n + d) 0

end VeriScript.Text
