/-!
# Blank characters

Two classes of blanks occur.  `isBlank` is the Unicode class that trimming removes from the ends of a
text; `isGap` is the smaller class that may stand between two tokens of a script.

* `trim`, `trimRight` — a text without the blanks at both ends, or at its right end.
-/

namespace VeriScript.Text

/-- The blanks of Unicode, with the four information separators of ASCII. -/
def isBlank (c : Char) : Bool :=
  let n := c.toNat
  (9 ≤ n && n ≤ 13) || (0x1c ≤ n && n ≤ 0x20) || n == 0x85 || n == 0xa0 || n == 0x1680 ||
    (0x2000 ≤ n && n ≤ 0x200a) || n == 0x2028 || n == 0x2029 || n == 0x202f || n == 0x205f || n == 0x3000

/-- The blanks that separate tokens: space, tab, line feed and carriage return. -/
def isGap (c : Char) : Bool :=
  c == ' ' || c == '\t' || c == '\n' || c == '\r'

def trimRightList (cs : List Char) : List Char :=
  (cs.reverse.dropWhile isBlank).reverse

/-- Remove the blanks at the right end. -/
def trimRight (s : String) : String :=
  String.ofList (trimRightList s.toList)

/-- Remove the blanks at both ends. -/
def trim (s : String) : String :=
  String.ofList (trimRightList (s.toList.dropWhile isBlank))

/-- A text of blanks only. -/
def allBlank (s : String) : Bool :=
  s.toList.all isBlank

theorem isBlank_of_isGap {c : Char} (h : isGap c = true) : isBlank c = true := by
  simp only [isGap, Bool.or_eq_true, beq_iff_eq] at h
  rcases h with ((rfl | rfl) | rfl) | rfl <;> decide

end VeriScript.Text
