import VeriScript.Text.Numeral

/-!
# Positions in a script

A span (`SourceSpan`) names the part of a file that a piece of syntax or an error belongs to.  Lines and columns count
from one.
-/

namespace VeriScript

structure Span where
  file : String
  startLine : Nat
  startCol : Nat
  endLine : Nat
  endCol : Nat
  deriving DecidableEq, Repr

namespace Span

/-- The span of a single position. -/
def point (file : String) (line col : Nat) : Span :=
  ⟨file, line, col, line, col⟩

/-- The span in words: the end is left out where it adds nothing to the start. -/
def render (s : Span) : String :=
  let start := s.file ++ ":" ++ Text.decimalNat s.startLine ++ ":" ++ Text.decimalNat s.startCol
  if s.startLine = s.endLine then
    if s.startCol = s.endCol then start else start ++ "-" ++ Text.decimalNat s.endCol
  else start ++ "-" ++ Text.decimalNat s.endLine ++ ":" ++ Text.decimalNat s.endCol

end Span

end VeriScript
