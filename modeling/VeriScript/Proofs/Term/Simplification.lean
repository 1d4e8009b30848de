import VeriScript.Proofs.Term.Meaning
import VeriScript.Term.Simplify

/-!
# What simplification keeps

A term that has a value keeps it when it is simplified.  A term without one may gain one, since simplification
drops operands and branches that divide by zero or wait for a variable.

* `Simplifies` — what simplification may put in the place of a term.
* `simplifies_simplify` — what it puts there, from the laws for each operator.
* `simplifyStrict` — simplification that stops where the evaluator does; it never stops.
* `simplify_keeps_meaning` — types and values are kept, for every term and every assignment.
-/

namespace VeriScript.Term

variable {Γ : String → TermType} {a : Assignment} {t left right test yes no : Term} {v : Scalar}

/-- What simplification may put in the place of a term: a term of the same type that keeps every value and
has no new variables. -/
structure Simplifies (t t' : Term) : Prop where
  typed : t'.Typed
  type_eq : t'.type = t.type
  eval_eq : ∀ {a v}, a.Fits t → t.eval a = .ok v → t'.eval a = .ok v
  vars_subset : t'.varOccurrences ⊆ t.varOccurrences

namespace Simplifies

variable {t' t'' : Term}

theorem refl (h : t.Typed) : Simplifies t t :=
  ⟨h, rfl, fun _ hv => hv, fun _ hx => hx⟩

theorem trans (h : Simplifies t t') (h' : Simplifies t' t'') : Simplifies t t'' where
  typed := h'.typed
  type_eq := h'.type_eq.trans h.type_eq
  eval_eq ha hv := h'.eval_eq (ha.of_subset h.vars_subset) (h.eval_eq ha hv)
  vars_subset _ hx := h.vars_subset (h'.vars_subset hx)

/-- Where names have one type each, they keep it. -/
theorem wellTyped (h : Simplifies t t') (ht : t.WellTyped Γ) : t'.WellTyped Γ :=
  h.typed.wellTyped fun x hx => ht.vars_typed x (mem_vars.2 (h.vars_subset (mem_vars.1 hx)))

/-! ### Simplified operands -/

theorem unary {type : TermType} {op : UnaryTermOp} (h : Simplifies t t') (ht : (Term.unary type op t).Typed) :
    Simplifies (.unary type op t) (.unary type op t') := by
  refine ⟨⟨h.typed, h.type_eq.trans ht.2.1, ht.2.2⟩, rfl, fun ha hv => ?_, h.vars_subset⟩
  obtain ⟨x, hx, rfl⟩ := eval_unary_ok.1 hv
  exact eval_unary_ok.2 ⟨x, h.eval_eq ha hx, rfl⟩

theorem binary {type : TermType} {op : BinaryTermOp} {left' right' : Term} (hl : Simplifies left left')
    (hr : Simplifies right right') (ht : (Term.binary type op left right).Typed) :
    Simplifies (.binary type op left right) (.binary type op left' right') := by
  obtain ⟨-, -, hlr, hop, htype⟩ := ht
  refine ⟨⟨hl.typed, hr.typed, ?_, ?_, htype⟩, rfl, fun ha hv => ?_, fun x hx => ?_⟩
  · rw [hl.type_eq, hr.type_eq, hlr]
  · rwa [hl.type_eq]
  · obtain ⟨x, y, hx, hy, hxy⟩ := eval_binary_ok.1 hv
    have hx' := hl.eval_eq (ha.of_subset (List.subset_append_left _ _)) hx
    have hy' := hr.eval_eq (ha.of_subset (List.subset_append_right _ _)) hy
    exact eval_binary_ok.2 ⟨x, y, hx', hy', hxy⟩
  · simp only [varOccurrences, List.mem_append] at hx ⊢
    exact hx.imp (hl.vars_subset ·) (hr.vars_subset ·)

theorem ite {test' yes' no' : Term} (ht : Simplifies test test') (hy : Simplifies yes yes')
    (hn : Simplifies no no') (h : (Term.ite test yes no).Typed) :
    Simplifies (.ite test yes no) (.ite test' yes' no') := by
  obtain ⟨-, -, -, hbit, hyn⟩ := h
  refine ⟨⟨ht.typed, hy.typed, hn.typed, ?_, ?_⟩, hy.type_eq, fun ha hv => ?_, fun x hx => ?_⟩
  · rw [ht.type_eq, hbit]
  · rw [hy.type_eq, hn.type_eq, hyn]
  · obtain ⟨x, hx, hv⟩ := eval_ite_ok.1 hv
    refine eval_ite_ok.2 ⟨x, ht.eval_eq (ha.of_subset fun _ hx => by simp [varOccurrences, hx]) hx, ?_⟩
    split at hv
    · rename_i hx
      rw [if_pos hx]
      exact hy.eval_eq (ha.of_subset fun _ hx => by simp [varOccurrences, hx]) hv
    · rename_i hx
      rw [if_neg hx]
      exact hn.eval_eq (ha.of_subset (List.subset_append_right _ _)) hv
  · simp only [varOccurrences, List.mem_append] at hx ⊢
    exact hx.imp (Or.imp (ht.vars_subset ·) (hy.vars_subset ·)) (hn.vars_subset ·)

end Simplifies

/-! ## The laws -/

variable {type : TermType} {op : BinaryTermOp}

theorem simplifies_unary {op : UnaryTermOp} (h : (Term.unary type op t).Typed) :
    Simplifies (.unary type op t) (simplifyUnary type op t) := by
  cases t with
  | const u x =>
    obtain ⟨-, -, rfl⟩ := h
    refine ⟨?_, rfl, fun _ hv => ?_, fun _ hx => hx⟩
    · cases op <;> rfl
    · exact hv
  | _ => exact .refl h

/-- A law that puts one operand or a constant in the place of an operator between conditions. -/
theorem Simplifies.of_law (hop : op.operandType? = some .bit) (h : (Term.binary .bit op left right).Typed) {t' : Term}
    (ht' : t' = left ∨ t' = right ∨ ∃ b, t' = .ofBool b)
    (hlaw : ∀ {a x y}, left.eval a = .ok (.bit x) → right.eval a = .ok (.bit y) →
      t'.eval a = op.apply (.bit x) (.bit y)) : Simplifies (.binary .bit op left right) t' := by
  obtain ⟨hl, hr, hlr, hop', -⟩ := h
  have hlbit : left.type = .bit := hop' _ hop
  have hrbit : right.type = .bit := hlr ▸ hlbit
  have ⟨htyped, hbit, hvars⟩ : t'.Typed ∧ t'.type = .bit ∧
      t'.varOccurrences ⊆ left.varOccurrences ++ right.varOccurrences := by
    obtain rfl | rfl | ⟨b, rfl⟩ := ht'
    · exact ⟨hl, hlbit, List.subset_append_left _ _⟩
    · exact ⟨hr, hrbit, List.subset_append_right _ _⟩
    · exact ⟨rfl, rfl, List.nil_subset _⟩
  refine ⟨htyped, hbit, fun ha hv => ?_, hvars⟩
  obtain ⟨x, y, hx, hy, hxy⟩ := eval_binary_ok.1 hv
  have hxtype := eval_type hl (ha.of_subset (List.subset_append_left _ _)) hx
  have hytype := eval_type hr (ha.of_subset (List.subset_append_right _ _)) hy
  rw [Scalar.eq_bit (hxtype.trans hlbit)] at hx hxy
  rw [Scalar.eq_bit (hytype.trans hrbit)] at hy hxy
  exact (hlaw hx hy).trans hxy

theorem eval_of_isBit {b : Bool} (h : t.isBit b) (a : Assignment) : t.eval a = .ok (.bit b) := by
  unfold isBit at h
  split at h
  · rw [eq_of_beq h]; rfl
  · cases h

theorem eq_of_isBit {b x : Bool} (h : t.isBit b) (hx : t.eval a = .ok (.bit x)) : x = b := by
  have := (eval_of_isBit h a).symm.trans hx
  simp_all

section
variable {op : BinaryTermOp} {x y z : Bool} (hbit : op.operandType? = some .bit)
  (h : (Term.binary .bit op left right).Typed)
include hbit h

/-- `x` on the left leaves what is on the right. -/
theorem Simplifies.of_left_unit (hl : left.isBit x) (hop : ∀ y, op.apply (.bit x) (.bit y) = .ok (.bit y)) :
    Simplifies (.binary .bit op left right) right :=
  .of_law hbit h (.inr (.inl rfl)) fun hx hy => by rw [eq_of_isBit hl hx, hop, hy]

/-- `y` on the right leaves what is on the left. -/
theorem Simplifies.of_right_unit (hr : right.isBit y) (hop : ∀ x, op.apply (.bit x) (.bit y) = .ok (.bit x)) :
    Simplifies (.binary .bit op left right) left :=
  .of_law hbit h (.inl rfl) fun hx hy => by rw [eq_of_isBit hr hy, hop, hx]

/-- `x` on the left or `y` on the right decides. -/
theorem Simplifies.of_zero (hlr : left.isBit x || right.isBit y)
    (hleft : ∀ y, op.apply (.bit x) (.bit y) = .ok (.bit z))
    (hright : ∀ x, op.apply (.bit x) (.bit y) = .ok (.bit z)) :
    Simplifies (.binary .bit op left right) (.ofBool z) := by
  refine .of_law hbit h (.inr (.inr ⟨z, rfl⟩)) fun hx hy => ?_
  obtain hl | hr := Bool.or_eq_true_iff.1 hlr
  · rw [eq_of_isBit hl hx, hleft]; rfl
  · rw [eq_of_isBit hr hy, hright]; rfl

end

theorem simplifies_logic (h : (Term.binary type op left right).Typed) :
    Simplifies (.binary type op left right) (simplifyLogic type op left right) := by
  obtain rfl : type = op.resultType := h.2.2.2.2
  cases op <;> simp only [simplifyLogic]
  case and | or =>
    split
    · exact .of_left_unit rfl h ‹_› fun _ => rfl
    split
    · exact .of_right_unit rfl h ‹_› fun x => by cases x <;> rfl
    split
    · exact .of_zero rfl h ‹_› (fun _ => rfl) fun x => by cases x <;> rfl
    · exact .refl h
  case imp =>
    split
    · exact .of_left_unit rfl h ‹_› fun _ => rfl
    split
    · exact .of_zero rfl h ‹_› (fun _ => rfl) fun x => by cases x <;> rfl
    · exact .refl h
  all_goals exact .refl h

theorem simplifies_binary (h : (Term.binary type op left right).Typed) :
    Simplifies (.binary type op left right) (simplifyBinary type op left right) := by
  unfold simplifyBinary
  split
  · rename_i t x u y
    split
    · rename_i value hvalue
      obtain ⟨hx, hy, hxy, hop, rfl⟩ := h
      refine ⟨?_, rfl, fun _ hv => ?_, List.nil_subset _⟩
      · exact apply_type (hx.trans (hxy.trans (Eq.symm hy))) (fun o ho => hx.trans (hop o ho)) hvalue
      · exact hvalue.symm.trans hv
    · exact simplifies_logic h
  · exact simplifies_logic h

theorem simplifies_ite (h : (Term.ite test yes no).Typed) :
    Simplifies (.ite test yes no) (simplifyIte test yes no) := by
  obtain ⟨-, hyes, hno, -, htype⟩ := id h
  cases test with
  | const type x =>
    simp only [simplifyIte]
    split
    · rename_i hx
      refine ⟨hyes, rfl, fun _ hv => ?_, fun _ hx => by simp [varOccurrences, hx]⟩
      simpa [eval, bind, Except.bind, hx] using hv
    · rename_i hx
      refine ⟨hno, htype.symm, fun _ hv => ?_, fun _ hx => by simp [varOccurrences, hx]⟩
      simpa [eval, bind, Except.bind, hx] using hv
  | _ => exact .refl h

theorem simplifies_simplify (h : t.Typed) : Simplifies t t.simplify := by
  induction t with
  | const type value => exact .refl h
  | var type name => exact .refl h
  | unary type op arg ih =>
    have harg := (ih h.1).unary h
    exact harg.trans (simplifies_unary harg.typed)
  | binary type op left right ihl ihr =>
    have hargs := (ihl h.1).binary (ihr h.2.1) h
    exact hargs.trans (simplifies_binary hargs.typed)
  | ite test yes no iht ihy ihn =>
    have hparts := (iht h.1).ite (ihy h.2.1) (ihn h.2.2.1) h
    exact hparts.trans (simplifies_ite hparts.typed)

/-! ## Faults -/

/-- An operator between constants, computed unless it is a division by zero. -/
def simplifyConstants (type : TermType) (op : BinaryTermOp) (left right : Term) (x y : Scalar) :
    Except TermFault Term :=
  if (op = .div ∨ op = .mod) ∧ y.toInt = 0 then .ok (simplifyLogic type op left right)
  else (op.apply x y).map (.const type)

/-- Simplification by the evaluator: the value of an operator between constants is asked for, and a fault that
comes instead ends it. -/
def simplifyStrict : Term → Except TermFault Term
  | .const t value => .ok (.const t value)
  | .var t name => .ok (.var t name)
  | .unary t op arg => do
    match ← arg.simplifyStrict with
    | .const u x => ((Term.unary t op (.const u x)).eval []).map (.const t)
    | arg => .ok (.unary t op arg)
  | .binary t op left right => do
    match ← left.simplifyStrict, ← right.simplifyStrict with
    | .const u x, .const w y => simplifyConstants t op (.const u x) (.const w y) x y
    | left, right => .ok (simplifyLogic t op left right)
  | .ite test yes no => do
    return simplifyIte (← test.simplifyStrict) (← yes.simplifyStrict) (← no.simplifyStrict)

theorem simplifyConstants_eq {type u w : TermType} (op : BinaryTermOp) (x y : Scalar) :
    simplifyConstants type op (.const u x) (.const w y) x y =
      .ok (simplifyBinary type op (.const u x) (.const w y)) := by
  unfold simplifyConstants
  obtain ⟨hdivides, hfault⟩ | ⟨hdivides, value, hvalue⟩ := apply_ok_or_division op x y
  · rw [if_pos hdivides]
    simp only [simplifyBinary, hfault]
  · rw [if_neg hdivides]
    simp only [simplifyBinary, hvalue]
    rfl

/-- The evaluator is never asked for a value that it does not have. -/
theorem simplifyStrict_eq (t : Term) : t.simplifyStrict = .ok t.simplify := by
  induction t with
  | const type value => rfl
  | var type name => rfl
  | unary type op arg ih =>
    simp only [simplifyStrict, simplify, ih, bind, Except.bind]
    cases arg.simplify <;> rfl
  | binary type op left right ihl ihr =>
    simp only [simplifyStrict, simplify, ihl, ihr, bind, Except.bind]
    cases left.simplify with
    | const u x =>
      cases right.simplify with
      | const w y => exact simplifyConstants_eq op x y
      | _ => rfl
    | _ => rfl
  | ite test yes no iht ihy ihn =>
    simp only [simplifyStrict, simplify, iht, ihy, ihn, bind, Except.bind, pure, Except.pure]

/-! ## Meaning -/

/-- Simplification ends without a fault, with a term of the same type.  Where the term has a value under an
assignment of the right types, to all its variables or to some, the simplified term has the same. -/
theorem simplify_keeps_meaning (ht : t.Typed) :
    t.simplifyStrict = .ok t.simplify ∧ t.simplify.Typed ∧ t.simplify.type = t.type ∧
      ∀ (a : Assignment) (v : Scalar), a.Fits t → t.eval a = .ok v → t.simplify.eval a = .ok v := by
  have hsimplifies := simplifies_simplify ht
  exact ⟨simplifyStrict_eq t, hsimplifies.typed, hsimplifies.type_eq, fun _ _ ha hv => hsimplifies.eval_eq ha hv⟩

/-- `if b || True then y + (7 - 2 * 3) else if x then x else 1 / 0`, with `x` at both types. -/
def droppedBranch : Term :=
  .ite (.binary .bit .or (.var .bit "b") (.ofBool true))
    (.binary .integer .add (.var .integer "y")
      (.binary .integer .sub (.ofInt 7) (.binary .integer .mul (.ofInt 2) (.ofInt 3))))
    (.ite (.var .bit "x") (.var .integer "x") (.binary .integer .div (.ofInt 1) (.ofInt 0)))

/-- The branch that no value of `x` fits is dropped, and the value is kept. -/
theorem simplify_keeps_droppedBranch :
    droppedBranch.Typed ∧ Assignment.Fits [("b", .bit false), ("y", .int 4)] droppedBranch ∧
      droppedBranch.simplify = .binary .integer .add (.var .integer "y") (.ofInt 1) ∧
      droppedBranch.simplify.eval [("b", .bit false), ("y", .int 4)] = .ok (.int 5) := by
  have htyped : droppedBranch.Typed := by decide
  have hvars : droppedBranch.vars = [("b", .bit), ("y", .integer), ("x", .bit), ("x", .integer)] := by decide
  have hfits : Assignment.Fits [("b", .bit false), ("y", .int 4)] droppedBranch := by
    rw [Assignment.Fits, hvars]
    simp [Table.get?, Scalar.type]
  exact ⟨htyped, hfits, by decide, (simplify_keeps_meaning htyped).2.2.2 _ _ hfits rfl⟩

end VeriScript.Term
