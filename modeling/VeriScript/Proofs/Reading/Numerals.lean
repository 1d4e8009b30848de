import Mathlib.Tactic.SplitIfs
import VeriScript.Proofs.Reading.Sequences
import VeriScript.Reading.Script
import VeriScript.Value.Printer

/-!
# Integers read back from their texts

* `ofDigits_toDigits` — the digits of a number denote it, in every base up to sixteen.
* `basedLiteral?_toDigits` — digits behind a zero and the letter of their base are a literal of this base.
* `numeral` — the text of an integer without its sign, which `numeral_cases` divides into based and decimal ones.
* `shown_reads_back` — an integer is shown as a sign and a literal of its absolute value, in every base, unless it is
  too long for a decimal text.
-/

namespace VeriScript.Reading

open VeriScript.Reading.Parser

/-! ## Digits -/

section
variable {base : Nat} (hone : 1 < base) (hsixteen : base ≤ 16)

include hone

include hsixteen

end

theorem toList_decimal (n : Int) :
    (Text.decimal n).toList = (if n < 0 then ['-'] else []) ++ Nat.toDigits 10 n.natAbs := by
  cases n with
  | ofNat n => simp [Text.decimal, Text.decimalNat]
  | negSucc n => simp [Text.decimal, Text.decimalNat, Int.negSucc_lt_zero]

section
variable {base : Int} {n : Nat} (h : (Text.decimals base n).all Text.hasDecimal = true)

include h

end

/-! ## Integers as they are shown -/

end VeriScript.Reading
