import Mathlib.Tactic.FinCases
import VeriScript.Proofs.Term.Meaning
import VeriScript.Term.Elaborate

/-!
# What elaboration accepts

* `RawTerm.HasType` — the rules for numbers and conditions, over terms as they are read.
* `RawTerm.elaborate_sound`, `RawTerm.elaborate_of_hasType` — elaboration accepts what the rules give a type,
  provided that every name stands for a term.  A name is replaced by the whole term, which keeps its type.
* `RawTerm.elaborate_exact` — this, and that the evaluation of a well-typed term ends with a value of its type or a
  division by zero.
-/

namespace VeriScript

/-- An operator is put between terms of one type, which is the type it takes if it takes one only. -/
theorem BinaryTermOp.elaborate_ok {op : BinaryTermOp} {left right t : Term} :
    op.elaborate left right = .ok t ↔ left.type = right.type ∧ (∀ operand ∈ op.operandType?, left.type = operand) ∧
      t = .binary op.resultType op left right := by
  unfold BinaryTermOp.elaborate
  cases hoperand : op.operandType? with
  | none =>
    have hresult : op.resultType = .bit := by
      cases op <;> simp_all [BinaryTermOp.operandType?, BinaryTermOp.resultType]
    by_cases hsame : left.type = right.type <;> simp [hsame, hresult, eq_comm]
  | some expected =>
    by_cases hleft : left.type = expected
    · subst hleft
      by_cases hright : left.type = right.type
      · simp [hright, eq_comm]
      · simp [hright, Ne.symm hright]
    · simp [hleft]

namespace RawTerm

variable {env : TermEnv} {Γ : String → TermType} {raw left right test yes no : RawTerm} {τ : TermType} {t : Term}

def names : RawTerm → List String
  | .int _ | .bool _ => []
  | .name x => [x]
  | .ite test yes no => test.names ++ yes.names ++ no.names
  | .unary _ arg => arg.names
  | .binary _ left right => left.names ++ right.names

/-- The types of terms as they are read, where names have the types `Γ`. -/
inductive HasType (Γ : String → TermType) : RawTerm → TermType → Prop
  | int {n : Nat} : HasType Γ (.int n) .integer
  | bool {b : Bool} : HasType Γ (.bool b) .bit
  | name {x : String} : HasType Γ (.name x) (Γ x)
  | ite {c s t : RawTerm} {τ : TermType} (test : HasType Γ c .bit) (yes : HasType Γ s τ) (no : HasType Γ t τ) :
    HasType Γ (.ite c s t) τ
  | not {s : RawTerm} (arg : HasType Γ s .bit) : HasType Γ (.unary .not s) .bit
  | neg {s : RawTerm} (arg : HasType Γ s .integer) : HasType Γ (.unary .neg s) .integer
  | arithmetic {op : BinaryTermOp} {s t : RawTerm} (kind : op ∈ [.add, .sub, .mul, .div, .mod])
    (left : HasType Γ s .integer) (right : HasType Γ t .integer) : HasType Γ (.binary op s t) .integer
  | order {op : BinaryTermOp} {s t : RawTerm} (kind : op ∈ [.lt, .le, .gt, .ge])
    (left : HasType Γ s .integer) (right : HasType Γ t .integer) : HasType Γ (.binary op s t) .bit
  | equality {op : BinaryTermOp} {s t : RawTerm} {τ : TermType} (kind : op ∈ [.eq, .ne])
    (left : HasType Γ s τ) (right : HasType Γ t τ) : HasType Γ (.binary op s t) .bit
  | logic {op : BinaryTermOp} {s t : RawTerm} (kind : op ∈ [.and, .or, .imp])
    (left : HasType Γ s .bit) (right : HasType Γ t .bit) : HasType Γ (.binary op s t) .bit

/-! ## Steps of elaboration -/

theorem elaborate_name_ok {x : String} : (RawTerm.name x).elaborate env = .ok t ↔ Table.get? env x = some t := by
  rw [elaborate]
  cases Table.get? env x <;> simp

theorem elaborate_ite_ok :
    (RawTerm.ite test yes no).elaborate env = .ok t ↔ ∃ c y n, test.elaborate env = .ok c ∧ yes.elaborate env = .ok y ∧
      no.elaborate env = .ok n ∧ c.type = .bit ∧ y.type = n.type ∧ t = .ite c y n := by
  simp only [elaborate, bind, Except.bind, pure, Except.pure, throw, throwThe, MonadExceptOf.throw]
  cases test.elaborate env with
  | error f => simp
  | ok c =>
    cases yes.elaborate env with
    | error f => simp
    | ok y =>
      cases no.elaborate env with
      | error f => simp
      | ok n =>
        by_cases hbit : c.type = .bit
        · by_cases hsame : y.type = n.type <;> simp [hbit, hsame, eq_comm]
        · simp [hbit]

theorem elaborate_unary_ok {op : UnaryTermOp} {arg : RawTerm} :
    (RawTerm.unary op arg).elaborate env = .ok t ↔ ∃ x, arg.elaborate env = .ok x ∧ x.type = op.operandType ∧
      t = .unary op.operandType op x := by
  simp only [elaborate, bind, Except.bind, pure, Except.pure, throw, throwThe, MonadExceptOf.throw]
  cases arg.elaborate env with
  | error f => simp
  | ok x => by_cases htype : x.type = op.operandType <;> simp [htype, eq_comm]

variable {op : BinaryTermOp}

theorem elaborate_binary_ok : (RawTerm.binary op left right).elaborate env = .ok t ↔ ∃ l r, left.elaborate env = .ok l ∧
      right.elaborate env = .ok r ∧ l.type = r.type ∧ (∀ operand ∈ op.operandType?, l.type = operand) ∧
      t = .binary op.resultType op l r := by
  simp only [elaborate, bind, Except.bind]
  cases left.elaborate env with
  | error f => simp
  | ok l =>
    cases right.elaborate env with
    | error f => simp
    | ok r => simp [BinaryTermOp.elaborate_ok]

/-! ## Types -/

/-- The rule for an operator between terms of one type, which is the type it takes if it takes one only. -/
theorem HasType.binary (hl : left.HasType Γ τ) (hr : right.HasType Γ τ)
    (hop : ∀ operand ∈ op.operandType?, τ = operand) : (RawTerm.binary op left right).HasType Γ op.resultType := by
  cases op
  case eq | ne => exact .equality (by decide) hl hr
  case and | or | imp =>
    obtain rfl : τ = .bit := hop .bit rfl
    exact .logic (by decide) hl hr
  case lt | le | gt | ge =>
    obtain rfl : τ = .integer := hop .integer rfl
    exact .order (by decide) hl hr
  all_goals
    obtain rfl : τ = .integer := hop .integer rfl
    exact .arithmetic (by decide) hl hr

/-- What elaboration makes of a term: names are replaced by terms, and the result has the type that the rules give
the term. -/
theorem elaborate_sound (henv : ∀ x u, Table.get? env x = some u → u.Typed ∧ u.type = Γ x)
    (h : raw.elaborate env = .ok t) :
    t.Typed ∧ raw.HasType Γ t.type ∧ ∀ x ∈ raw.names, ∃ u, Table.get? env x = some u := by
  induction raw generalizing t with
  | int n =>
    cases h
    exact ⟨rfl, .int, List.forall_mem_nil _⟩
  | bool b =>
    cases h
    exact ⟨rfl, .bool, List.forall_mem_nil _⟩
  | name x =>
    have hx := elaborate_name_ok.1 h
    obtain ⟨htyped, htype⟩ := henv x t hx
    exact ⟨htyped, htype ▸ .name, List.forall_mem_singleton.2 ⟨t, hx⟩⟩
  | ite test yes no iht ihy ihn =>
    obtain ⟨c, y, n, hc, hy, hn, hbit, hsame, rfl⟩ := elaborate_ite_ok.1 h
    obtain ⟨hctyped, hctype, hcnames⟩ := iht hc
    obtain ⟨hytyped, hytype, hynames⟩ := ihy hy
    obtain ⟨hntyped, hntype, hnnames⟩ := ihn hn
    refine ⟨⟨hctyped, hytyped, hntyped, hbit, hsame⟩, .ite (hbit ▸ hctype) hytype (hsame ▸ hntype), ?_⟩
    exact List.forall_mem_append.2 ⟨List.forall_mem_append.2 ⟨hcnames, hynames⟩, hnnames⟩
  | unary op arg ih =>
    obtain ⟨x, hx, htype, rfl⟩ := elaborate_unary_ok.1 h
    obtain ⟨hxtyped, hxtype, hxnames⟩ := ih hx
    refine ⟨⟨hxtyped, htype, rfl⟩, ?_, hxnames⟩
    rw [htype] at hxtype
    cases op with
    | not => exact .not hxtype
    | neg => exact .neg hxtype
  | binary op left right ihl ihr =>
    obtain ⟨l, r, hl, hr, hsame, hop, rfl⟩ := elaborate_binary_ok.1 h
    obtain ⟨hltyped, hltype, hlnames⟩ := ihl hl
    obtain ⟨hrtyped, hrtype, hrnames⟩ := ihr hr
    refine ⟨⟨hltyped, hrtyped, hsame, hop, rfl⟩, hltype.binary (hsame ▸ hrtype) hop, ?_⟩
    exact List.forall_mem_append.2 ⟨hlnames, hrnames⟩

theorem elaborate_binary_of_types {result : TermType}
    (hl : ∃ l, left.elaborate env = .ok l ∧ l.type = τ) (hr : ∃ r, right.elaborate env = .ok r ∧ r.type = τ)
    (hop : ∀ operand ∈ op.operandType?, τ = operand) (hresult : op.resultType = result) :
    ∃ t, (RawTerm.binary op left right).elaborate env = .ok t ∧ t.type = result := by
  obtain ⟨l, hl, rfl⟩ := hl
  obtain ⟨r, hr, hrl⟩ := hr
  exact ⟨_, elaborate_binary_ok.2 ⟨l, r, hl, hr, hrl.symm, hop, rfl⟩, hresult⟩

theorem elaborate_of_hasType (henv : ∀ x u, Table.get? env x = some u → u.type = Γ x) (h : raw.HasType Γ τ)
    (hnames : ∀ x ∈ raw.names, ∃ u, Table.get? env x = some u) : ∃ t, raw.elaborate env = .ok t ∧ t.type = τ := by
  induction h with
  | int => exact ⟨_, rfl, rfl⟩
  | bool => exact ⟨_, rfl, rfl⟩
  | @name x =>
    obtain ⟨u, hu⟩ := hnames x (List.mem_singleton.2 rfl)
    exact ⟨u, elaborate_name_ok.2 hu, henv x u hu⟩
  | ite _ _ _ iht ihy ihn =>
    obtain ⟨hbefore, hno⟩ := List.forall_mem_append.1 hnames
    obtain ⟨htest, hyes⟩ := List.forall_mem_append.1 hbefore
    obtain ⟨c, hc, hctype⟩ := iht htest
    obtain ⟨y, hy, hytype⟩ := ihy hyes
    obtain ⟨n, hn, hntype⟩ := ihn hno
    exact ⟨_, elaborate_ite_ok.2 ⟨c, y, n, hc, hy, hn, hctype, hytype.trans hntype.symm, rfl⟩, hytype⟩
  | not _ ih | neg _ ih =>
    obtain ⟨x, hx, htype⟩ := ih hnames
    exact ⟨_, elaborate_unary_ok.2 ⟨x, hx, htype, rfl⟩, rfl⟩
  | arithmetic kind _ _ ihl ihr | order kind _ _ ihl ihr | equality kind _ _ ihl ihr | logic kind _ _ ihl ihr =>
    obtain ⟨hl, hr⟩ := List.forall_mem_append.1 hnames
    refine elaborate_binary_of_types (ihl hl) (ihr hr) ?_ ?_
    · fin_cases kind <;> simp [BinaryTermOp.operandType?]
    · fin_cases kind <;> rfl

/-! ## Elaboration and evaluation -/

/-- Elaboration with well-typed terms for names accepts the terms whose names all stand for one and that have a type
by the rules, and makes them well-typed terms of that type.  Evaluating a well-typed term ends with a value of its type
or a division by zero, if all its variables have scalars of their types; then no name is used at both types.  Other
variables do not matter. -/
theorem elaborate_exact (raw : RawTerm) (henv : ∀ x u, Table.get? env x = some u → u.Typed ∧ u.type = Γ x) :
    ((∃ t, raw.elaborate env = .ok t) ↔
      (∀ x ∈ raw.names, ∃ u, Table.get? env x = some u) ∧ ∃ τ, raw.HasType Γ τ) ∧
    (∀ t, raw.elaborate env = .ok t → t.Typed ∧ raw.HasType Γ t.type) ∧
    ∀ (t : Term) (a : Assignment), t.Typed → a.Fits t → a.Covers t →
      ((∃ v, t.eval a = .ok v ∧ v.type = t.type) ∨ t.eval a = .error .divisionByZero) ∧
      ∀ b : Assignment, (∀ x ∈ t.vars, Table.get? a x.1 = Table.get? b x.1) → t.eval b = t.eval a := by
  refine ⟨⟨?accepted, ?accepts⟩, ?typed, ?safe⟩
  case accepted =>
    rintro ⟨t, h⟩
    obtain ⟨-, htype, hnames⟩ := elaborate_sound henv h
    exact ⟨hnames, t.type, htype⟩
  case accepts =>
    rintro ⟨hnames, τ, htype⟩
    obtain ⟨t, h, -⟩ := elaborate_of_hasType (fun x u hu => (henv x u hu).2) htype hnames
    exact ⟨t, h⟩
  case typed =>
    intro t h
    obtain ⟨htyped, htype, -⟩ := elaborate_sound henv h
    exact ⟨htyped, htype⟩
  case safe =>
    intro t a htyped hfits hcovers
    exact ⟨Term.eval_ends htyped hfits hcovers, fun b hb => (Term.eval_congr hb).symm⟩

/-- `if p then 6 / n else n`. -/
def quotient : RawTerm :=
  .ite (.name "p") (.binary .div (.int 6) (.name "n")) (.name "n")

/-- `p` stands for a variable and `n` for `x + 1`. -/
def quotientEnv : TermEnv :=
  [("p", .var .bit "p"), ("n", .binary .integer .add (.var .integer "x") (.ofInt 1))]

/-- The quotient is accepted, and its evaluation ends where `n` is zero too. -/
theorem elaborate_exact_quotient :
    (∀ x u, Table.get? quotientEnv x = some u → u.Typed ∧ u.type = if x = "p" then .bit else .integer) ∧
    ∃ t, quotient.elaborate quotientEnv = .ok t ∧ t.Typed ∧ t.vars = [("p", .bit), ("x", .integer)] ∧
      ∀ b : Assignment, Table.get? b "p" = some (.bit true) → Table.get? b "x" = some (.int (-1)) →
        t.eval b = .error .divisionByZero := by
  have henv : ∀ x u, Table.get? quotientEnv x = some u → u.Typed ∧ u.type = if x = "p" then .bit else .integer := by
    intro x u hu
    by_cases hp : "p" = x
    · subst hp
      cases hu
      decide
    by_cases hn : "n" = x
    · subst hn
      cases hu
      decide
    · simp [quotientEnv, Table.get?, hp, hn] at hu
  obtain ⟨-, htyped, hsafe⟩ := elaborate_exact quotient henv
  obtain ⟨t, ht⟩ : ∃ t, quotient.elaborate quotientEnv = .ok t := ⟨_, rfl⟩
  have hvars : t.vars = [("p", .bit), ("x", .integer)] := by
    cases ht
    decide
  have hfits : Assignment.Fits [("p", .bit true), ("x", .int (-1))] t := by
    rw [Assignment.Fits, hvars]
    simp [Table.get?, Scalar.type]
  have hcovers : Assignment.Covers [("p", .bit true), ("x", .int (-1))] t := by
    rw [Assignment.Covers, hvars]
    simp [Table.get?]
  refine ⟨henv, t, ht, (htyped t ht).1, hvars, fun b hp hx => ?_⟩
  have hb : ∀ x ∈ t.vars, Table.get? [("p", .bit true), ("x", .int (-1))] x.1 = Table.get? b x.1 := by
    rw [hvars]
    simp [Table.get?, hp, hx]
  rw [(hsafe t _ (htyped t ht).1 hfits hcovers).2 b hb]
  cases ht
  rfl

end RawTerm

end VeriScript
