import VeriScript.Reading.Term
import VeriScript.Term.Printer

/-!
# Chains of operators and how they are grouped

The text of a term without parentheses around its outermost operators is a chain: a first operand and
operators with an operand behind each.

* `Term.raw` — a term without its types; a negative constant is the negation of a positive one.
* `Term.chain` — the chain that a term is written as where its place demands a given precedence.
* `Term.grouped_chain` — the levels of the operators group the chain of a term into that term again.
-/

namespace VeriScript

/-! ## Dividing at a level -/

namespace Reading

section
variable {α ο : Type} {has : ο → Bool} {ops : List (ο × α)}

theorem divide_of_none (h : ∀ x ∈ ops, has x.1 = false) : divide has ops = (ops, []) := by
  induction ops with
  | nil => rfl
  | cons x ops ih =>
    obtain ⟨hx, hops⟩ := List.forall_mem_cons.1 h
    simp [divide, ih hops, hx]

theorem divide_append_last (front : List (ο × α)) {o : ο} (a : α) (ho : has o = true)
    (h : ∀ x ∈ ops, has x.1 = false) :
    divide has (front ++ (o, a) :: ops) = ((divide has front).1, (divide has front).2 ++ [(o, a, ops)]) := by
  induction front with
  | nil => simp [divide, divide_of_none h, ho]
  | cons x front ih =>
    simp only [List.cons_append, divide, ih]
    split <;> simp

theorem divide_append_first {front : List (ο × α)} {o : ο} (a : α) (ho : has o = true)
    (h : ∀ x ∈ front, has x.1 = false) :
    divide has (front ++ (o, a) :: ops) = (front, (o, a, (divide has ops).1) :: (divide has ops).2) := by
  induction front with
  | nil => simp [divide, ho]
  | cons x front ih =>
    obtain ⟨hx, hfront⟩ := List.forall_mem_cons.1 h
    simp [divide, ih hfront, hx]

/-- A level without an operator in the chain does nothing. -/
theorem grouped_of_none {level : Level ο α} {tighter : List (Level ο α)} (first : α)
    (hnil : ∀ a, level.combine a [] = a) (h : ∀ x ∈ ops, level.has x.1 = false) :
    grouped (level :: tighter) first ops = grouped tighter first ops := by
  simp [grouped, divide_of_none h, hnil]

end

section
variable {has : BinaryTermOp → Bool} {tighter : List (Level BinaryTermOp RawTerm)} {op : BinaryTermOp}
  {first second : RawTerm} {front ops : List (BinaryTermOp × RawTerm)}

/-- The last operator of a level that groups to the left is the outermost one. -/
theorem grouped_leftChain (hop : has op = true) (h : ∀ x ∈ ops, has x.1 = false) :
    grouped (⟨has, RawTerm.leftChain⟩ :: tighter) first (front ++ (op, second) :: ops) =
      .binary op (grouped (⟨has, RawTerm.leftChain⟩ :: tighter) first front)
        (grouped tighter second ops) := by
  simp [grouped, divide_append_last front second hop h, RawTerm.leftChain]

/-- The first operator of a level that groups to the right is the outermost one. -/
theorem grouped_rightChain (hop : has op = true) (h : ∀ x ∈ front, has x.1 = false) :
    grouped (⟨has, RawTerm.rightChain⟩ :: tighter) first (front ++ (op, second) :: ops) =
      .binary op (grouped tighter first front)
        (grouped (⟨has, RawTerm.rightChain⟩ :: tighter) second ops) := by
  simp [grouped, divide_append_first second hop h, RawTerm.rightChain]

end

/-! ## Levels of operators of terms -/

/-- The levels from precedence `n` on. -/
def levelsFrom (n : Nat) : List (Level BinaryTermOp RawTerm) :=
  termLevels.drop (n - 1)

theorem levelsFrom_eq {n : Nat} (h2 : 2 ≤ n) (h6 : n ≤ 6) :
    levelsFrom n = ⟨fun op => op.precedence = n, RawTerm.leftChain⟩ :: levelsFrom (n + 1) := by
  obtain rfl | rfl | rfl | rfl | rfl : n = 2 ∨ n = 3 ∨ n = 4 ∨ n = 5 ∨ n = 6 := by omega
  all_goals rfl

/-- A level has no operator of a tighter one. -/
theorem grouped_levelsFrom_succ {n : Nat} (hn : 1 ≤ n) (h6 : n ≤ 6) (first : RawTerm)
    {ops : List (BinaryTermOp × RawTerm)} (h : ∀ x ∈ ops, n < x.1.precedence) :
    grouped (levelsFrom n) first ops = grouped (levelsFrom (n + 1)) first ops := by
  obtain rfl | h2 : n = 1 ∨ 2 ≤ n := by omega
  · refine grouped_of_none first (fun _ => rfl) fun x hx => ?_
    have hne : x.1 ≠ .imp := fun himp => by simpa [himp, BinaryTermOp.precedence] using h x hx
    simpa using hne
  · rw [levelsFrom_eq h2 h6]
    refine grouped_of_none first (fun _ => rfl) fun x hx => ?_
    have := h x hx
    simp only [decide_eq_false_iff_not]
    omega

/-- The levels looser than all operators of a chain do nothing. -/
theorem grouped_levelsFrom {n p : Nat} (hn : 1 ≤ n) (hnp : n ≤ p) (hp : p ≤ 7) (first : RawTerm)
    {ops : List (BinaryTermOp × RawTerm)} (h : ∀ x ∈ ops, p ≤ x.1.precedence) :
    grouped (levelsFrom n) first ops = grouped (levelsFrom p) first ops := by
  induction hnp with
  | refl => rfl
  | step hnm ih =>
    rename_i m
    have hm : n ≤ m := hnm
    rw [ih (by omega) fun x hx => Nat.le_of_lt (h x hx)]
    exact grouped_levelsFrom_succ (by omega) (by omega) first h

end Reading

namespace BinaryTermOp

variable (op : BinaryTermOp)

theorem one_le_precedence : 1 ≤ op.precedence := by
  cases op <;> decide

theorem precedence_le_six : op.precedence ≤ 6 := by
  cases op <;> decide

theorem two_le_precedence (h : op ≠ .imp) : 2 ≤ op.precedence := by
  revert h
  cases op <;> decide

/-- What the place to the left of an operator demands. -/
def leftLeast : Nat :=
  if op = .imp then op.precedence + 1 else op.precedence

/-- What the place to the right of an operator demands. -/
def rightLeast : Nat :=
  if op = .imp then op.precedence else op.precedence + 1

theorem leftLeast_eq (h : op ≠ .imp) : op.leftLeast = op.precedence := if_neg h

theorem rightLeast_eq (h : op ≠ .imp) : op.rightLeast = op.precedence + 1 := if_neg h

theorem precedence_le_leftLeast : op.precedence ≤ op.leftLeast := by
  unfold leftLeast; split <;> omega

theorem precedence_le_rightLeast : op.precedence ≤ op.rightLeast := by
  unfold rightLeast; split <;> omega

theorem one_le_leftLeast : 1 ≤ op.leftLeast :=
  Nat.le_trans op.one_le_precedence op.precedence_le_leftLeast

theorem one_le_rightLeast : 1 ≤ op.rightLeast :=
  Nat.le_trans op.one_le_precedence op.precedence_le_rightLeast

theorem leftLeast_le_seven : op.leftLeast ≤ 7 := by
  cases op <;> decide

theorem rightLeast_le_seven : op.rightLeast ≤ 7 := by
  cases op <;> decide

end BinaryTermOp

open Reading

/-! ## Chains -/

def Scalar.raw : Scalar → RawTerm
  | .int (.ofNat n) => .int n
  | .int (.negSucc n) => .unary .neg (.int (n + 1))
  | .bit b => .bool b

namespace Term

/-- A term as it is read. -/
def raw : Term → RawTerm
  | .const .bit value => .bool value.isTrue
  | .const .integer value => value.raw
  | .var _ name => .name name
  | .unary _ op arg => .unary op arg.raw
  | .binary _ op left right => .binary op left.raw right.raw
  | .ite test yes no => .ite test.raw yes.raw no.raw

/-- The first operand of a term and the operators behind it, in a place that demands the precedence
`least`.  A term that binds more loosely is one operand, in parentheses. -/
def chain (least : Nat) : Term → Term × List (BinaryTermOp × Term)
  | .binary type op left right =>
    if op.precedence < least then (.binary type op left right, [])
    else
      ((left.chain op.leftLeast).1,
        (left.chain op.leftLeast).2 ++
          (op, (right.chain op.rightLeast).1) :: (right.chain op.rightLeast).2)
  | t => (t, [])

def operands (least : Nat) (t : Term) : List Term :=
  (t.chain least).1 :: (t.chain least).2.map Prod.snd

variable {t left right : Term} {least : Nat}

/-- The operators of a chain bind at least as tightly as its place demands. -/
theorem le_precedence_of_mem_chain (t : Term) (least : Nat) :
    ∀ x ∈ (t.chain least).2, least ≤ x.1.precedence := by
  induction t generalizing least with
  | binary type op left right ihl ihr =>
    unfold chain
    split
    · exact List.forall_mem_nil _
    rename_i hleast
    intro x hx
    rcases List.mem_append.1 hx with hx | hx
    · have := ihl _ x hx
      have := op.precedence_le_leftLeast
      omega
    · rcases List.mem_cons.1 hx with rfl | hx
      · show least ≤ op.precedence
        omega
      · have := ihr _ x hx
        have := op.precedence_le_rightLeast
        omega
  | _ => exact List.forall_mem_nil _

theorem mem_operands {o : Term} (hleast : 1 ≤ least) (ho : o ∈ t.operands least) :
    (o = t ∧ (t.precedence < least ∨ 7 ≤ t.precedence)) ∨
      (o.size < t.size ∧ o.varOccurrences ⊆ t.varOccurrences ∧ o.numerals ⊆ t.numerals) := by
  induction t generalizing least with
  | binary type op left right ihl ihr =>
    unfold operands chain at ho
    split at ho
    · rename_i hless
      rw [List.mem_singleton.1 ho]
      exact .inl ⟨rfl, .inl hless⟩
    · have hside : o ∈ left.operands op.leftLeast ∨ o ∈ right.operands op.rightLeast := by
        simpa [operands, or_assoc] using ho
      simp only [size, varOccurrences, numerals]
      right
      rcases hside with h | h
      · rcases ihl op.one_le_leftLeast h with ⟨rfl, -⟩ | ⟨hsize, hvars, hnumerals⟩
        · exact ⟨by omega, List.subset_append_left _ _, List.subset_append_left _ _⟩
        · exact ⟨by omega, List.subset_append_of_subset_left _ hvars, List.subset_append_of_subset_left _ hnumerals⟩
      · rcases ihr op.one_le_rightLeast h with ⟨rfl, -⟩ | ⟨hsize, hvars, hnumerals⟩
        · exact ⟨by omega, List.subset_append_right _ _, List.subset_append_right _ _⟩
        · exact ⟨by omega, List.subset_append_of_subset_right _ hvars, List.subset_append_of_subset_right _ hnumerals⟩
  | ite test yes no =>
    rw [List.mem_singleton.1 ho]
    exact .inl ⟨rfl, .inl hleast⟩
  | _ =>
    rw [List.mem_singleton.1 ho]
    exact .inl ⟨rfl, .inr (by simp [precedence])⟩

/-! ## Grouping -/

/-- Operators with their operands as they are read. -/
def rawOperations (ops : List (BinaryTermOp × Term)) : List (BinaryTermOp × RawTerm) :=
  ops.map fun x => (x.1, x.2.raw)

theorem le_precedence_rawOperations {n : Nat} {ops : List (BinaryTermOp × Term)}
    (h : ∀ x ∈ ops, n ≤ x.1.precedence) : ∀ x ∈ rawOperations ops, n ≤ x.1.precedence := by
  intro x hx
  obtain ⟨y, hy, rfl⟩ := List.mem_map.1 hx
  exact h y hy

theorem rawOperations_append (front : List (BinaryTermOp × Term)) (op : BinaryTermOp) (second : Term)
    (ops : List (BinaryTermOp × Term)) :
    rawOperations (front ++ (op, second) :: ops) =
      rawOperations front ++ (op, second.raw) :: rawOperations ops := by
  simp [rawOperations]

theorem grouped_operand (hleast : 1 ≤ least) (hseven : least ≤ 7) (o : Term) :
    grouped (levelsFrom least) o.raw (rawOperations []) = o.raw :=
  grouped_levelsFrom hleast hseven (Nat.le_refl 7) o.raw (List.forall_mem_nil _)

theorem grouped_chain (hleast : 1 ≤ least) (hseven : least ≤ 7) :
    grouped (levelsFrom least) (t.chain least).1.raw (rawOperations (t.chain least).2) = t.raw := by
  induction t generalizing least with
  | binary type op left right ihl ihr =>
    have hall := le_precedence_rawOperations
      (le_precedence_of_mem_chain (.binary type op left right) op.precedence)
    have hl := le_precedence_rawOperations (le_precedence_of_mem_chain left op.leftLeast)
    have hr := le_precedence_rawOperations (le_precedence_of_mem_chain right op.rightLeast)
    specialize ihl op.one_le_leftLeast op.leftLeast_le_seven
    specialize ihr op.one_le_rightLeast op.rightLeast_le_seven
    by_cases hop : op.precedence < least
    · rw [chain, if_pos hop]
      exact grouped_operand hleast hseven _
    rw [chain, if_neg (Nat.lt_irrefl _)] at hall
    rw [chain, if_neg hop,
      grouped_levelsFrom hleast (Nat.le_of_not_lt hop) (Nat.le_succ_of_le op.precedence_le_six) _ hall,
      rawOperations_append, raw]
    by_cases himp : op = .imp
    · subst himp
      -- the operators to the left bind more tightly than an implication
      have hfront : ∀ x ∈ rawOperations (left.chain BinaryTermOp.imp.leftLeast).2, (x.1 == .imp) = false := by
        intro x hx
        have hne : x.1 ≠ .imp := fun heq => absurd (hl x hx) (by rw [heq]; decide)
        simpa using hne
      refine (grouped_rightChain rfl hfront).trans ?_
      exact congr (congrArg (RawTerm.binary .imp) ihl) ihr
    · have h2 := op.two_le_precedence himp
      rw [op.leftLeast_eq himp] at ihl ⊢
      rw [op.rightLeast_eq himp] at hr ihr ⊢
      -- the operators to the right bind more tightly than this one
      have hback : ∀ x ∈ rawOperations (right.chain (op.precedence + 1)).2,
          decide (x.1.precedence = op.precedence) = false := by
        intro x hx
        have := hr x hx
        simp only [decide_eq_false_iff_not]
        omega
      rw [levelsFrom_eq h2 op.precedence_le_six] at ihl ⊢
      rw [grouped_leftChain (by simp) hback, ihl, ihr]
  | _ => exact grouped_operand hleast hseven _

end Term

end VeriScript
