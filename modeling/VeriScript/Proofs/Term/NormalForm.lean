import VeriScript.Proofs.Term.Meaning
import VeriScript.Run.Command

/-!
# Normal forms of terms

Simplification goes over a term once, from the operands to the operators.  What it leaves is a normal form: no rule
applies anywhere in it, so that going over it again changes nothing.

* `Term.Normal` — no rule applies anywhere in the term.
* `Term.normal_simplify`, `Term.simplify_eq_self_iff` — simplification leaves the normal forms, and only these, as
  they are.
* `simplifyBinary_cases` — what stands in the place of an operator is an operand, a constant or the operator itself,
  so that nothing grows.
* `simplify_reaches_normal_form` — the same for goals that are evaluated over and over.
-/

namespace VeriScript

/-! ## Normal forms -/

/-- The term is one of the constants true and false. -/
def Term.isTruth (t : Term) : Bool := t.isBit true || t.isBit false

/-- The operator has a value between constants: all but a division by zero. -/
def BinaryTermOp.computes (op : BinaryTermOp) : Term → Term → Bool
  | .const _ _, .const _ y => decide ¬((op = .div ∨ op = .mod) ∧ y.toInt = 0)
  | _, _ => false

/-- One operand alone says what a connective comes to.  Something that implies false is left as it is. -/
def BinaryTermOp.decides (op : BinaryTermOp) (left right : Term) : Bool :=
  match op with
  | .and | .or => left.isTruth || right.isTruth
  | .imp => left.isTruth || right.isBit true
  | _ => false

namespace Term

variable {t left right test yes no arg : Term} {type : TermType} {op : BinaryTermOp}

/-- No operator and no conditional in the term can be computed or decided. -/
def Normal : Term → Prop
  | .const _ _ => True
  | .var _ _ => True
  | .unary _ _ arg => arg.Normal ∧ arg.isConst = false
  | .binary _ op left right =>
    left.Normal ∧ right.Normal ∧ op.computes left right = false ∧ op.decides left right = false
  | .ite test yes no => test.Normal ∧ yes.Normal ∧ no.Normal ∧ test.isConst = false

instance decidableNormal : (t : Term) → Decidable t.Normal
  | .const _ _ => inferInstanceAs (Decidable True)
  | .var _ _ => inferInstanceAs (Decidable True)
  | .unary _ _ arg =>
    have := decidableNormal arg
    inferInstanceAs (Decidable (_ ∧ _))
  | .binary _ _ left right =>
    have := decidableNormal left
    have := decidableNormal right
    inferInstanceAs (Decidable (_ ∧ _ ∧ _ ∧ _))
  | .ite test yes no =>
    have := decidableNormal test
    have := decidableNormal yes
    have := decidableNormal no
    inferInstanceAs (Decidable (_ ∧ _ ∧ _ ∧ _))

/-! ## One operator -/

theorem simplifyUnary_of_not_const {op : UnaryTermOp} (h : arg.isConst = false) :
    simplifyUnary type op arg = .unary type op arg := by
  cases arg with
  | const => cases h
  | _ => rfl

theorem simplifyIte_of_not_const (h : test.isConst = false) : simplifyIte test yes no = .ite test yes no := by
  cases test with
  | const => cases h
  | _ => rfl

theorem simplifyLogic_of_not_decides (h : op.decides left right = false) :
    simplifyLogic type op left right = .binary type op left right := by
  cases op with
  | and | or | imp => simp_all [BinaryTermOp.decides, isTruth, simplifyLogic]
  | _ => rfl

theorem simplifyBinary_of_computes (type : TermType) (h : op.computes left right = true) :
    ∃ value, simplifyBinary type op left right = .const type value := by
  unfold BinaryTermOp.computes at h
  split at h
  · rename_i u x w y
    rcases apply_ok_or_division op x y with ⟨hdivides, -⟩ | ⟨-, value, hvalue⟩
    · exact absurd hdivides (of_decide_eq_true h)
    · exact ⟨value, by simp only [simplifyBinary, hvalue]⟩
  · cases h

theorem simplifyBinary_of_not_computes (h : op.computes left right = false) :
    simplifyBinary type op left right = simplifyLogic type op left right := by
  unfold simplifyBinary
  split
  · rename_i u x w y
    rcases apply_ok_or_division op x y with ⟨-, hfault⟩ | ⟨hdivides, -⟩
    · rw [hfault]
    · exact absurd hdivides (of_decide_eq_false h)
  · rfl

/-- Where a connective is decided, an operand or a truth value takes its place. -/
theorem simplifyLogic_of_decides (type : TermType) (h : op.decides left right = true) :
    simplifyLogic type op left right = left ∨ simplifyLogic type op left right = right ∨
      ∃ b, simplifyLogic type op left right = .ofBool b := by
  cases op <;> simp only [simplifyLogic]
  case and =>
    split
    · exact .inr (.inl rfl)
    split
    · exact .inl rfl
    · exact .inr (.inr ⟨false, if_pos (by simp_all [BinaryTermOp.decides, isTruth])⟩)
  case or =>
    split
    · exact .inr (.inl rfl)
    split
    · exact .inl rfl
    · exact .inr (.inr ⟨true, if_pos (by simp_all [BinaryTermOp.decides, isTruth])⟩)
  case imp =>
    split
    · exact .inr (.inl rfl)
    · exact .inr (.inr ⟨true, if_pos (by simp_all [BinaryTermOp.decides, isTruth])⟩)
  all_goals cases h

theorem simplifyBinary_cases (type : TermType) (op : BinaryTermOp) (left right : Term) :
    simplifyBinary type op left right = left ∨ simplifyBinary type op left right = right ∨
      (∃ u value, simplifyBinary type op left right = .const u value) ∨
      (simplifyBinary type op left right = .binary type op left right ∧ op.computes left right = false ∧
        op.decides left right = false) := by
  cases hcomputes : op.computes left right with
  | true =>
    obtain ⟨value, hvalue⟩ := simplifyBinary_of_computes type hcomputes
    exact .inr (.inr (.inl ⟨type, value, hvalue⟩))
  | false =>
    rw [simplifyBinary_of_not_computes hcomputes]
    cases hdecides : op.decides left right with
    | true =>
      rcases simplifyLogic_of_decides type hdecides with h | h | ⟨b, h⟩
      · exact .inl h
      · exact .inr (.inl h)
      · exact .inr (.inr (.inl ⟨.bit, .bit b, h⟩))
    | false => exact .inr (.inr (.inr ⟨simplifyLogic_of_not_decides hdecides, rfl, rfl⟩))

theorem simplifyIte_cases (test yes no : Term) :
    simplifyIte test yes no = yes ∨ simplifyIte test yes no = no ∨
      (simplifyIte test yes no = .ite test yes no ∧ test.isConst = false) := by
  cases htest : test.isConst with
  | true =>
    cases test with
    | const u x => cases hx : x.isTrue <;> simp [simplifyIte, hx]
    | _ => cases htest
  | false => exact .inr (.inr ⟨simplifyIte_of_not_const htest, rfl⟩)

theorem simplifyUnary_cases (type : TermType) (op : UnaryTermOp) (arg : Term) :
    (∃ value, simplifyUnary type op arg = .const type value) ∨
      (simplifyUnary type op arg = .unary type op arg ∧ arg.isConst = false) := by
  cases harg : arg.isConst with
  | true =>
    cases arg with
    | const u x => exact .inl ⟨op.apply x, rfl⟩
    | _ => cases harg
  | false => exact .inr ⟨simplifyUnary_of_not_const harg, rfl⟩

/-! ## Whole terms -/

theorem normal_simplify (t : Term) : t.simplify.Normal := by
  induction t with
  | const type value => trivial
  | var type name => trivial
  | unary type op arg ih =>
    rcases simplifyUnary_cases type op arg.simplify with ⟨value, h⟩ | ⟨h, hconst⟩
    · rw [simplify, h]
      trivial
    · rw [simplify, h]
      exact ⟨ih, hconst⟩
  | binary type op left right ihl ihr =>
    rcases simplifyBinary_cases type op left.simplify right.simplify with h | h | ⟨u, value, h⟩ | ⟨h, hirreducible⟩
    · rwa [simplify, h]
    · rwa [simplify, h]
    · rw [simplify, h]
      trivial
    · rw [simplify, h]
      exact ⟨ihl, ihr, hirreducible⟩
  | ite test yes no iht ihy ihn =>
    rcases simplifyIte_cases test.simplify yes.simplify no.simplify with h | h | ⟨h, hconst⟩
    · rwa [simplify, h]
    · rwa [simplify, h]
    · rw [simplify, h]
      exact ⟨iht, ihy, ihn, hconst⟩

theorem Normal.simplify_eq (h : t.Normal) : t.simplify = t := by
  induction t with
  | const type value => rfl
  | var type name => rfl
  | unary type op arg ih =>
    obtain ⟨harg, hconst⟩ := h
    rw [simplify, ih harg, simplifyUnary_of_not_const hconst]
  | binary type op left right ihl ihr =>
    obtain ⟨hl, hr, hcomputes, hdecides⟩ := h
    rw [simplify, ihl hl, ihr hr, simplifyBinary_of_not_computes hcomputes, simplifyLogic_of_not_decides hdecides]
  | ite test yes no iht ihy ihn =>
    obtain ⟨ht, hy, hn, hconst⟩ := h
    rw [simplify, iht ht, ihy hy, ihn hn, simplifyIte_of_not_const hconst]

theorem simplify_eq_self_iff : t.simplify = t ↔ t.Normal := by
  constructor
  · intro h
    rw [← h]
    exact normal_simplify t
  · exact Normal.simplify_eq

-- a division by zero has no value to be replaced by, so it stays
example : (Term.binary .integer .div (.ofInt 1) (.ofInt 0)).Normal := by decide

theorem simplify_simplify (t : Term) : t.simplify.simplify = t.simplify :=
  simplify_eq_self_iff.2 (normal_simplify t)

theorem size_pos (t : Term) : 0 < t.size := by
  cases t <;> simp only [size] <;> omega

theorem size_simplify_le (t : Term) : t.simplify.size ≤ t.size := by
  induction t with
  | const type value => exact Nat.le_refl _
  | var type name => exact Nat.le_refl _
  | unary type op arg ih =>
    have harg := arg.size_pos
    rcases simplifyUnary_cases type op arg.simplify with ⟨value, h⟩ | ⟨h, -⟩
    · rw [simplify, h]
      simp only [size]
      omega
    · rw [simplify, h]
      simp only [size]
      omega
  | binary type op left right ihl ihr =>
    rcases simplifyBinary_cases type op left.simplify right.simplify with h | h | ⟨u, value, h⟩ | ⟨h, -⟩ <;>
      rw [simplify, h] <;> simp only [size] <;> omega
  | ite test yes no iht ihy ihn =>
    rcases simplifyIte_cases test.simplify yes.simplify no.simplify with h | h | ⟨h, -⟩ <;>
      rw [simplify, h] <;> simp only [size] <;> omega

theorem varOccurrences_simplify (t : Term) : ∀ x ∈ t.simplify.varOccurrences, x ∈ t.varOccurrences := by
  induction t with
  | const type value => exact fun x hx => hx
  | var type name => exact fun x hx => hx
  | unary type op arg ih =>
    intro x hx
    rcases simplifyUnary_cases type op arg.simplify with ⟨value, h⟩ | ⟨h, -⟩
    · rw [simplify, h] at hx
      cases hx
    · rw [simplify, h] at hx
      exact ih x hx
  | binary type op left right ihl ihr =>
    intro x hx
    apply List.mem_append.2
    rcases simplifyBinary_cases type op left.simplify right.simplify with h | h | ⟨u, value, h⟩ | ⟨h, -⟩
    · rw [simplify, h] at hx
      exact .inl (ihl x hx)
    · rw [simplify, h] at hx
      exact .inr (ihr x hx)
    · rw [simplify, h] at hx
      cases hx
    · rw [simplify, h] at hx
      exact (List.mem_append.1 hx).imp (ihl x) (ihr x)
  | ite test yes no iht ihy ihn =>
    intro x hx
    simp only [varOccurrences, List.mem_append]
    rcases simplifyIte_cases test.simplify yes.simplify no.simplify with h | h | ⟨h, -⟩
    · rw [simplify, h] at hx
      exact .inl (.inr (ihy x hx))
    · rw [simplify, h] at hx
      exact .inr (ihn x hx)
    · rw [simplify, h] at hx
      simp only [varOccurrences, List.mem_append] at hx
      exact hx.imp (.imp (iht x) (ihy x)) (ihn x)

end Term

/-! ## Goals -/

/-- Do something, and `n` more times. -/
def Run.again {α : Type} (x : Run α) : Nat → Run α
  | 0 => x
  | n + 1 => do
    let _ ← x
    x.again n

/-- Evaluating an open goal simplifies it and changes nothing else. -/
theorem performCommand_goalEval (run : RunAction) (ctx : Context) (w : World) (t : Term) (tactic? : Option Tactic)
    (cex : Counterexample) :
    performCommand run ctx .goalEval [] { w with work := .proof ⟨t, none, tactic?, cex⟩ } =
      .ok .unit { w with work := .proof ⟨t.simplify, none, tactic?, cex⟩ } :=
  rfl

/-- What simplification leaves is a normal form: no rule applies in it and it is not simplified any further.  It is no
larger than the term and all its variables are variables of the term.  So an open goal that is evaluated several times
is left as it was after the first time. -/
theorem simplify_reaches_normal_form (t : Term) :
    t.simplify.Normal ∧ t.simplify.simplify = t.simplify ∧ t.simplify.size ≤ t.size ∧
      (∀ x ∈ t.simplify.vars, x ∈ t.vars) ∧
      ∀ (run : RunAction) (ctx : Context) (w : World) (tactic? : Option Tactic) (cex : Counterexample) (n : Nat),
        (performCommand run ctx .goalEval []).again n { w with work := .proof ⟨t, none, tactic?, cex⟩ } =
          .ok .unit { w with work := .proof ⟨t.simplify, none, tactic?, cex⟩ } := by
  refine ⟨t.normal_simplify, t.simplify_simplify, t.size_simplify_le, fun x hx => ?_, ?_⟩
  · exact Term.mem_vars.2 (t.varOccurrences_simplify x (Term.mem_vars.1 hx))
  · intro run ctx w tactic? cex n
    induction n generalizing t with
    | zero => exact performCommand_goalEval run ctx w t tactic? cex
    | succ n ih =>
      have hfirst := performCommand_goalEval run ctx w t tactic? cex
      have hmore := ih t.simplify
      rw [t.simplify_simplify] at hmore
      simp only [Run.again, bind, EStateM.bind, hfirst, hmore]

end VeriScript
