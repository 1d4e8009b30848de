import VeriScript.Term.Eval

/-!
# Well-typed terms and their meaning

* `Term.Typed`, `Term.WellTyped` — every operator has operands of its type; in the second, a name has one type
  throughout as well.
* `Assignment.Fits`, `Assignment.Respects`, `Assignment.Covers` — assignments of scalars of the right types to the
  variables of a term, or to all names, and to all variables.
* `Term.eval_type`, `Term.eval_total`, `Term.eval_ends` — a well-typed term has a value of its type, or divides by
  zero.
-/

namespace VeriScript

/-- The assignment gives scalars of the types that names have. -/
def Assignment.Respects (a : Assignment) (Γ : String → TermType) : Prop :=
  ∀ name v, Table.get? a name = some v → v.type = Γ name

/-- The scalars that the assignment gives to variables of the term have the types of these variables. -/
def Assignment.Fits (a : Assignment) (t : Term) : Prop :=
  ∀ x ∈ t.vars, ∀ v, Table.get? a x.1 = some v → v.type = x.2

/-- The assignment gives every variable of the term a scalar. -/
def Assignment.Covers (a : Assignment) (t : Term) : Prop :=
  ∀ x ∈ t.vars, ∃ v, Table.get? a x.1 = some v

theorem Scalar.eq_bit {v : Scalar} (h : v.type = .bit) : v = .bit v.isTrue := by
  cases v with
  | int n => simp [Scalar.type] at h
  | bit b => rfl

namespace Term

variable {Γ : String → TermType} {a b : Assignment} {t left right test yes no : Term} {v : Scalar}

def isConst : Term → Bool
  | .const _ _ => true
  | _ => false

/-- The term has one type throughout, names having the types `Γ`. -/
def WellTyped (Γ : String → TermType) : Term → Prop
  | .const type value => value.type = type
  | .var type name => type = Γ name
  | .unary type op arg => arg.WellTyped Γ ∧ arg.type = op.operandType ∧ type = op.operandType
  | .binary type op left right =>
    left.WellTyped Γ ∧ right.WellTyped Γ ∧ left.type = right.type ∧
      (∀ operand ∈ op.operandType?, left.type = operand) ∧ type = op.resultType
  | .ite test yes no =>
    test.WellTyped Γ ∧ yes.WellTyped Γ ∧ no.WellTyped Γ ∧ test.type = .bit ∧ yes.type = no.type

/-- Operators and conditionals have operands of their types.  Nothing is asked of names: one that stands for
variables of both types is well typed too. -/
def Typed : Term → Prop
  | .const type value => value.type = type
  | .var _ _ => True
  | .unary type op arg => arg.Typed ∧ arg.type = op.operandType ∧ type = op.operandType
  | .binary type op left right =>
    left.Typed ∧ right.Typed ∧ left.type = right.type ∧
      (∀ operand ∈ op.operandType?, left.type = operand) ∧ type = op.resultType
  | .ite test yes no => test.Typed ∧ yes.Typed ∧ no.Typed ∧ test.type = .bit ∧ yes.type = no.type

instance decidableTyped : (t : Term) → Decidable t.Typed
  | .const type value => inferInstanceAs (Decidable (value.type = type))
  | .var _ _ => inferInstanceAs (Decidable True)
  | .unary _ _ arg =>
    have := decidableTyped arg
    inferInstanceAs (Decidable (_ ∧ _ ∧ _))
  | .binary _ _ left right =>
    have := decidableTyped left
    have := decidableTyped right
    inferInstanceAs (Decidable (_ ∧ _ ∧ _ ∧ _ ∧ _))
  | .ite test yes no =>
    have := decidableTyped test
    have := decidableTyped yes
    have := decidableTyped no
    inferInstanceAs (Decidable (_ ∧ _ ∧ _ ∧ _ ∧ _))

/-! ## Values -/

theorem eval_unary_ok {type : TermType} {op : UnaryTermOp} {arg : Term} :
    (Term.unary type op arg).eval a = .ok v ↔ ∃ x, arg.eval a = .ok x ∧ op.apply x = v := by
  simp only [eval, bind, Except.bind, pure, Except.pure]
  cases arg.eval a <;> simp

theorem eval_binary_ok {type : TermType} {op : BinaryTermOp} :
    (Term.binary type op left right).eval a = .ok v ↔
      ∃ x y, left.eval a = .ok x ∧ right.eval a = .ok y ∧ op.apply x y = .ok v := by
  simp only [eval, bind, Except.bind]
  cases left.eval a <;> cases right.eval a <;> simp

theorem eval_ite_ok :
    (Term.ite test yes no).eval a = .ok v ↔
      ∃ x, test.eval a = .ok x ∧ (if x.isTrue then yes else no).eval a = .ok v := by
  simp only [eval, bind, Except.bind]
  cases test.eval a with
  | error f => simp
  | ok x => cases hx : x.isTrue <;> simp [hx]

theorem mem_vars {x : String × TermType} : x ∈ t.vars ↔ x ∈ t.varOccurrences := by
  simp [vars]

theorem nodup_eraseDups {α : Type} [BEq α] [LawfulBEq α] : ∀ xs : List α, xs.eraseDups.Nodup
  | [] => .nil
  | x :: xs => by
    rw [List.eraseDups_cons, List.nodup_cons]
    exact ⟨by simp, nodup_eraseDups _⟩
termination_by xs => xs.length
decreasing_by exact Nat.lt_succ_of_le (List.length_filter_le _ _)

theorem vars_nodup (t : Term) : t.vars.Nodup := nodup_eraseDups _

/-- The variables of a well-typed term have the types of their names. -/
theorem WellTyped.vars_typed (h : t.WellTyped Γ) : ∀ x ∈ t.vars, x.2 = Γ x.1 := by
  simp only [mem_vars]
  induction t with
  | const type value => nofun
  | var type name => simpa [varOccurrences, WellTyped] using h
  | unary type op arg ih => exact ih h.1
  | binary type op left right ihl ihr =>
    intro x hx
    exact (List.mem_append.1 hx).elim (ihl h.1 x) (ihr h.2.1 x)
  | ite test yes no iht ihy ihn =>
    intro x hx
    simp only [varOccurrences, List.mem_append] at hx
    exact hx.elim (·.elim (iht h.1 x) (ihy h.2.1 x)) (ihn h.2.2.1 x)

theorem WellTyped.typed (h : t.WellTyped Γ) : t.Typed := by
  induction t with
  | const type value => exact h
  | var type name => trivial
  | unary type op arg ih =>
    obtain ⟨harg, htypes⟩ := h
    exact ⟨ih harg, htypes⟩
  | binary type op left right ihl ihr =>
    obtain ⟨hl, hr, htypes⟩ := h
    exact ⟨ihl hl, ihr hr, htypes⟩
  | ite test yes no iht ihy ihn =>
    obtain ⟨ht, hy, hn, htypes⟩ := h
    exact ⟨iht ht, ihy hy, ihn hn, htypes⟩

theorem Typed.wellTyped (h : t.Typed) (hvars : ∀ x ∈ t.vars, x.2 = Γ x.1) : t.WellTyped Γ := by
  simp only [mem_vars] at hvars
  induction t with
  | const type value => exact h
  | var type name => exact hvars (name, type) (by simp [varOccurrences])
  | unary type op arg ih =>
    obtain ⟨harg, htypes⟩ := h
    exact ⟨ih harg hvars, htypes⟩
  | binary type op left right ihl ihr =>
    obtain ⟨hl, hr, htypes⟩ := h
    obtain ⟨hleft, hright⟩ := List.forall_mem_append.1 hvars
    exact ⟨ihl hl hleft, ihr hr hright, htypes⟩
  | ite test yes no iht ihy ihn =>
    obtain ⟨ht, hy, hn, htypes⟩ := h
    obtain ⟨hbefore, hno⟩ := List.forall_mem_append.1 hvars
    obtain ⟨htest, hyes⟩ := List.forall_mem_append.1 hbefore
    exact ⟨iht ht htest, ihy hy hyes, ihn hn hno, htypes⟩

end Term

namespace Assignment

variable {Γ : String → TermType} {a : Assignment} {t t' : Term}

theorem Respects.fits (ha : a.Respects Γ) (ht : t.WellTyped Γ) : a.Fits t :=
  fun x hx v hv => (ha x.1 v hv).trans (ht.vars_typed x hx).symm

theorem Fits.of_subset (ha : a.Fits t) (h : t'.varOccurrences ⊆ t.varOccurrences) : a.Fits t' :=
  fun x hx => ha x (Term.mem_vars.2 (h (Term.mem_vars.1 hx)))

end Assignment

namespace Term

variable {a b : Assignment} {t : Term} {v : Scalar}

theorem eval_congr (h : ∀ x ∈ t.vars, Table.get? a x.1 = Table.get? b x.1) : t.eval a = t.eval b := by
  induction t with
  | const type value => rfl
  | var type name =>
    have hname : Table.get? a name = Table.get? b name := h (name, type) (by simp [mem_vars, varOccurrences])
    simp only [eval, hname]
  | unary type op arg ih =>
    simp only [eval, ih fun x hx => h x (by simpa [mem_vars, varOccurrences] using hx)]
  | binary type op left right ihl ihr =>
    simp only [mem_vars, varOccurrences, List.mem_append] at h ihl ihr
    simp only [eval, ihl fun x hx => h x (.inl hx), ihr fun x hx => h x (.inr hx)]
  | ite test yes no iht ihy ihn =>
    simp only [mem_vars, varOccurrences, List.mem_append] at h iht ihy ihn
    simp only [eval, iht fun x hx => h x (.inl (.inl hx)), ihy fun x hx => h x (.inl (.inr hx)),
      ihn fun x hx => h x (.inr hx)]

theorem apply_ok_or_division (op : BinaryTermOp) (x y : Scalar) :
    ((op = .div ∨ op = .mod) ∧ y.toInt = 0) ∧ op.apply x y = .error .divisionByZero ∨
      ¬ ((op = .div ∨ op = .mod) ∧ y.toInt = 0) ∧ ∃ value, op.apply x y = .ok value := by
  by_cases hy : y.toInt = 0 <;> cases op <;> simp [BinaryTermOp.apply, hy]

/-! ## Types of values -/

theorem apply_type {op : BinaryTermOp} {x y : Scalar} (hxy : x.type = y.type)
    (hop : ∀ operand ∈ op.operandType?, x.type = operand) (h : op.apply x y = .ok v) :
    v.type = op.resultType := by
  cases op <;> simp only [BinaryTermOp.apply] at h
  case div | mod =>
    split at h <;> cases h
    rfl
  case and | or | imp =>
    have hx : x.type = .bit := hop _ rfl
    cases h
    split <;> simp_all [BinaryTermOp.resultType, Scalar.type]
  all_goals cases h; rfl

theorem eval_type (ht : t.Typed) (ha : a.Fits t) (h : t.eval a = .ok v) : v.type = t.type := by
  induction t generalizing v with
  | const type value => cases h; exact ht
  | var type name =>
    simp only [eval] at h
    split at h
    · cases h
      rename_i hv
      exact ha (name, type) (by simp [mem_vars, varOccurrences]) v hv
    · cases h
  | unary type op arg ih =>
    obtain ⟨x, -, rfl⟩ := eval_unary_ok.1 h
    obtain ⟨-, -, rfl⟩ := ht
    cases op <;> rfl
  | binary type op left right ihl ihr =>
    obtain ⟨hl, hr, hlr, hop, rfl⟩ := ht
    obtain ⟨x, y, hx, hy, hv⟩ := eval_binary_ok.1 h
    have hxl : x.type = left.type := ihl hl (ha.of_subset (List.subset_append_left _ _)) hx
    have hyr : y.type = right.type := ihr hr (ha.of_subset (List.subset_append_right _ _)) hy
    exact apply_type (by rw [hxl, hyr, hlr]) (by rwa [hxl]) hv
  | ite test yes no iht ihy ihn =>
    obtain ⟨-, hyes, hno, -, htype⟩ := ht
    obtain ⟨x, -, hv⟩ := eval_ite_ok.1 h
    split at hv
    · exact ihy hyes (ha.of_subset fun _ hx => by simp [varOccurrences, hx]) hv
    · exact (ihn hno (ha.of_subset (List.subset_append_right _ _)) hv).trans htype.symm

theorem eval_total (ha : a.Covers t) (hdiv : t.eval a ≠ .error .divisionByZero) : ∃ v, t.eval a = .ok v := by
  suffices h : ∀ fault, t.eval a = .error fault → fault = .divisionByZero by
    cases ht : t.eval a with
    | ok v => exact ⟨v, rfl⟩
    | error fault => exact absurd (h fault ht ▸ ht) hdiv
  clear hdiv
  simp only [Assignment.Covers, mem_vars] at ha
  induction t with
  | const type value => intro fault h; cases h
  | var type name =>
    intro fault h
    obtain ⟨v, hv⟩ := ha (name, type) (by simp [varOccurrences])
    simp [eval, hv] at h
  | unary type op arg ih =>
    intro fault h
    simp only [eval, bind, Except.bind, pure, Except.pure] at h
    cases hx : arg.eval a with
    | ok x => simp [hx] at h
    | error f => exact ih ha fault (by simpa [hx] using h)
  | binary type op left right ihl ihr =>
    intro fault h
    simp only [varOccurrences, List.mem_append] at ha
    simp only [eval, bind, Except.bind] at h
    cases hx : left.eval a with
    | error f => exact ihl (fun x hx => ha x (.inl hx)) fault (by simpa [hx] using h)
    | ok x =>
      cases hy : right.eval a with
      | error f => exact ihr (fun x hx => ha x (.inr hx)) fault (by simpa [hx, hy] using h)
      | ok y =>
        simp only [hx, hy] at h
        obtain ⟨-, hfault⟩ | ⟨-, value, hvalue⟩ := apply_ok_or_division op x y
        · exact (Except.error.inj (hfault.symm.trans h)).symm
        · cases hvalue.symm.trans h
  | ite test yes no iht ihy ihn =>
    intro fault h
    simp only [varOccurrences, List.mem_append] at ha
    simp only [eval, bind, Except.bind] at h
    cases hx : test.eval a with
    | error f => exact iht (fun x hx => ha x (.inl (.inl hx))) fault (by simpa [hx] using h)
    | ok x =>
      simp only [hx] at h
      split at h
      · exact ihy (fun x hx => ha x (.inl (.inr hx))) fault h
      · exact ihn (fun x hx => ha x (.inr hx)) fault h

/-- The evaluation of a well-typed term, with scalars of their types for all its variables, ends with a value of its
type or with a division by zero. -/
theorem eval_ends (ht : t.Typed) (hfits : a.Fits t) (hcovers : a.Covers t) :
    (∃ v, t.eval a = .ok v ∧ v.type = t.type) ∨ t.eval a = .error .divisionByZero := by
  by_cases hdivision : t.eval a = .error .divisionByZero
  · exact .inr hdivision
  · obtain ⟨v, hv⟩ := eval_total hcovers hdivision
    exact .inl ⟨v, hv, eval_type ht hfits hv⟩

end Term

end VeriScript
