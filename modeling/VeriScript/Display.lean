/-!
# Display options (`make_pp_opts`)
-/

namespace VeriScript

/-- How values and terms are shown. -/
structure Display where
  /-- Operators of terms in ASCII characters only. -/
  ascii : Bool
  /-- The base of integers. -/
  base : Int
  /-- Variables of terms in colour. -/
  color : Bool
  deriving DecidableEq, Repr

/-- Plain decimal display, with the operators of terms as symbols. -/
def Display.standard : Display := ⟨false, 10, false⟩

/-- Plain decimal display in ASCII characters. -/
def Display.plain : Display := ⟨true, 10, false⟩

end VeriScript
