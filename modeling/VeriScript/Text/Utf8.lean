import VeriScript.Text.Numeral
import VeriScript.Text.Quoted

/-!
# Reading UTF-8

* `decodeUtf8` — the text that a list of bytes encodes, or the first place where it encodes none.
* `Utf8Fault.message` — that place in words.
-/

namespace VeriScript.Text

inductive Utf8Reason where
  | invalidStart
  | invalidContinuation
  | unexpectedEnd
  deriving DecidableEq, Repr

/-- The first undecodable bytes: their position, the bytes themselves and what is wrong with them. -/
structure Utf8Fault where
  position : Nat
  bytes : List UInt8
  reason : Utf8Reason
  deriving DecidableEq, Repr

def Utf8Reason.message : Utf8Reason → String
  | .invalidStart => "invalid start byte"
  | .invalidContinuation => "invalid continuation byte"
  | .unexpectedEnd => "unexpected end of data"

def Utf8Fault.message (f : Utf8Fault) : String :=
  let place := match f.bytes with
    | [b] => "byte 0x" ++ hexPadded 2 b.toNat ++ " in position " ++ decimalNat f.position
    | bs => "bytes in position " ++ decimalNat f.position ++ "-" ++ decimalNat (f.position + bs.length - 1)
  "'utf-8' codec can't decode " ++ place ++ ": " ++ f.reason.message

/-- The number of bytes that follow a start byte; `none` for a byte that starts nothing. -/
def utf8Trail? (b : UInt8) : Option Nat :=
  let n := b.toNat
  if n < 0x80 then some 0
  else if n < 0xc2 then none
  else if n < 0xe0 then some 1
  else if n < 0xf0 then some 2
  else if n < 0xf5 then some 3
  else none

/-- The least and greatest value of the byte after a start byte: overlong forms, surrogates and numbers
beyond the last code point are no encodings. -/
def utf8Second (b : UInt8) : Nat × Nat :=
  let n := b.toNat
  if n == 0xe0 then (0xa0, 0xbf)
  else if n == 0xed then (0x80, 0x9f)
  else if n == 0xf0 then (0x90, 0xbf)
  else if n == 0xf4 then (0x80, 0x8f)
  else (0x80, 0xbf)

/-- Up to `count` continuation bytes; the first must lie in the given range.  Also what stopped the scan
before `count` bytes, if something did. -/
def utf8Continuation (range : Nat × Nat) : Nat → List UInt8 → List UInt8 × Option Utf8Reason
  | 0, _ => ([], none)
  | _ + 1, [] => ([], some .unexpectedEnd)
  | count + 1, b :: bs =>
    if range.1 ≤ b.toNat ∧ b.toNat ≤ range.2 then
      let (taken, stop) := utf8Continuation (0x80, 0xbf) count bs
      (b :: taken, stop)
    else ([], some .invalidContinuation)

/-- The code point of a start byte with its continuation bytes. -/
def utf8Char (start : UInt8) (trail : List UInt8) : Char :=
  let lead := match trail.length with
    | 0 => start.toNat
    | 1 => start.toNat % 0x20
    | 2 => start.toNat % 0x10
    | _ => start.toNat % 0x08
  Char.ofNat (trail.foldl (fun n b => n * 0x40 + b.toNat % 0x40) lead)

/-- Decode from a position on; `skip` bytes belong to the character before. -/
def decodeUtf8From (position : Nat) : Nat → List UInt8 → Except Utf8Fault (List Char)
  | _, [] => .ok []
  | skip + 1, _ :: bs => decodeUtf8From (position + 1) skip bs
  | 0, b :: bs =>
    match utf8Trail? b with
    | none => .error ⟨position, [b], .invalidStart⟩
    | some count =>
      match utf8Continuation (utf8Second b) count bs with
      | (taken, some reason) => .error ⟨position, b :: taken, reason⟩
      | (taken, none) => do
        let cs ← decodeUtf8From (position + 1) count bs
        return utf8Char b taken :: cs

/-- The text that the bytes encode. -/
def decodeUtf8 (bytes : List UInt8) : Except Utf8Fault String :=
  (decodeUtf8From 0 0 bytes).map String.ofList

end VeriScript.Text
