import VeriScript.Proofs.Reading.Numerals
import VeriScript.Proofs.Term.QualifiedNames
import VeriScript.Term.Coq

/-!
# The meaning of exported terms

The text of an exported term can be evaluated as it is read, from left to right.  This gives the value of the term, as
long as the words for its variables stay apart: the colons of a qualified name become an underscore, and the truth
values are words like names.

* `CoqText.meaning` — the meaning of a text of words and brackets, given the values of its words.
* `CoqText.Denotes` — where the text stands, an operand of that meaning is read.
* `CoqText.denotes_coq` — an exported term means its value.
* `coq_determines_meaning` — the texts of terms determine their values exactly if the variables stay apart.
-/

namespace VeriScript

open Reading

namespace CoqText

abbrev Outcome := Except TermFault Scalar

/-! ## Reading a text -/

/-- A part of an expression: a word, or an expression in brackets, which has no word. -/
structure Part where
  word : List Char
  meaning : TermType → Outcome

/-- The operator that stands between its operands. -/
def operator? (w : List Char) : Option BinaryTermOp :=
  [BinaryTermOp.add, .sub, .mul].find? (·.text.toList = w)

/-- The functions, with their operators and the types of their operands. -/
def functions : List (String × BinaryTermOp × TermType) :=
  [("Z.div", .div, .integer), ("Z.modulo", .mod, .integer), ("Z.eqb", .eq, .integer), ("Bool.eqb", .eq, .bit),
    ("Z.ltb", .lt, .integer), ("Z.leb", .le, .integer), ("Z.gtb", .gt, .integer), ("Z.geb", .ge, .integer),
    ("andb", .and, .bit), ("orb", .or, .bit), ("implb", .imp, .bit)]

/-- The meaning of the parts between two brackets. -/
def combine : List Part → TermType → Outcome
  | [x], τ => x.meaning τ
  | [f, x], τ => do return (if f.word = "negb".toList then UnaryTermOp.not else .neg).apply (← x.meaning τ)
  | [x, y, z], _ =>
    match operator? y.word, functions.find? (·.1.toList = x.word) with
    | some op, _ => do op.apply (← x.meaning .integer) (← z.meaning .integer)
    | none, some (_, op, τ) => do op.apply (← y.meaning τ) (← z.meaning τ)
    | none, none => .error (.noValue "")
  | [_, x, _, y, _, z], τ => do if (← x.meaning .bit).isTrue then y.meaning τ else z.meaning τ
  | _, _ => .error (.noValue "")

/-- How far a text has been read: the word that has begun, the parts behind the last open bracket, and the parts in
front of it and of the brackets around it. -/
structure State where
  word : List Char
  parts : List Part
  around : List (List Part)

section
variable (value : TermType → List Char → Outcome)

abbrev wordPart (w : List Char) : Part :=
  ⟨w, fun τ => value τ w⟩

def State.flush (st : State) : State :=
  if st.word = [] then st else ⟨[], st.parts ++ [wordPart value st.word], st.around⟩

def State.close : State → State
  | ⟨_, parts, outer :: around⟩ => ⟨[], outer ++ [⟨[], combine parts⟩], around⟩
  | st => st

def State.step (st : State) (c : Char) : State :=
  if c = '(' then ⟨[], [], st.parts :: st.around⟩
  else if c = ' ' then st.flush value
  else if c = ')' then (st.flush value).close
  else { st with word := st.word ++ [c] }

/-- The meaning of a text of a type, if its words have the values `value`. -/
def meaning (text : String) (τ : TermType) : Outcome :=
  combine ((text.toList.foldl (State.step value) ⟨[], [], []⟩).flush value).parts τ

/-- Reading the text adds a part. -/
abbrev Adds (text : String) (p : Part) : Prop :=
  ∀ parts around,
    (text.toList.foldl (State.step value) ⟨[], parts, around⟩).flush value = ⟨[], parts ++ [p], around⟩

/-- Reading the text adds an operand of the given meaning. -/
def Denotes (text : String) (τ : TermType) (v : Outcome) : Prop :=
  ∃ p, Adds value text p ∧ operator? p.word = none ∧ p.meaning τ = v

end

/-- A word ends where the text goes on behind it. -/
def IsWord (w : List Char) : Prop :=
  w ≠ [] ∧ ∀ c ∈ w, c ∉ [' ', '(', ')']

instance (w : List Char) : Decidable (IsWord w) :=
  decidable_of_iff (w ≠ [] ∧ w.all (· ∉ [' ', '(', ')']) = true) (by simp [IsWord])

section
variable {value : TermType → List Char → Outcome} {x y z w : String} {p q r : Part} {τ operand : TermType}
  {u v k : Outcome}

@[simp]
theorem flush_nil (parts : List Part) (around : List (List Part)) :
    State.flush value ⟨[], parts, around⟩ = ⟨[], parts, around⟩ := rfl

@[simp]
theorem flush_cons (c : Char) (w : List Char) (parts : List Part) (around : List (List Part)) :
    State.flush value ⟨c :: w, parts, around⟩ = ⟨[], parts ++ [wordPart value (c :: w)], around⟩ := rfl

theorem foldl_word {cs : List Char} (hcs : ∀ c ∈ cs, c ∉ [' ', '(', ')']) (st : State) :
    cs.foldl (State.step value) st = { st with word := st.word ++ cs } := by
  induction cs generalizing st with
  | nil => simp
  | cons c cs ih =>
    obtain ⟨hc, hcs⟩ := List.forall_mem_cons.1 hcs
    simp only [List.mem_cons, List.not_mem_nil, or_false, not_or] at hc
    simp [ih hcs, State.step, hc]

theorem adds_word (hw : IsWord w.toList) : Adds value w (wordPart value w.toList) := by
  intro parts around
  simp [foldl_word hw.2, State.flush, String.toList_eq_nil_iff.not.1 hw.1]

theorem adds_one (hx : Adds value x p) : Adds value ("(" ++ x ++ ")") ⟨[], combine [p]⟩ := by
  intro parts around
  simp [State.step, hx, State.close]

theorem adds_three (hx : Adds value x p) (hy : Adds value y q) (hz : Adds value z r) :
    Adds value ("(" ++ x ++ " " ++ y ++ " " ++ z ++ ")") ⟨[], combine [p, q, r]⟩ := by
  intro parts around
  simp [State.step, hx, hy, hz, State.close]

theorem Denotes.meaning_eq (h : Denotes value x τ v) : meaning value x τ = v := by
  obtain ⟨p, hadds, -, hp⟩ := h
  rw [meaning, hadds]
  exact hp

theorem denotes_word (hw : IsWord w.toList) (hop : operator? w.toList = none) :
    Denotes value w τ (value τ w.toList) :=
  ⟨_, adds_word hw, hop, rfl⟩

theorem denotes_unary {t : Term} (type : TermType) (op : UnaryTermOp) (h : Denotes value t.coq τ v) :
    Denotes value (Term.unary type op t).coq τ (do return op.apply (← v)) := by
  obtain ⟨p, hadds, -, rfl⟩ := h
  let w := if op = .not then "negb".toList else "-".toList
  refine ⟨⟨[], combine [wordPart value w, p]⟩, fun parts around => ?_, rfl, by cases op <;> rfl⟩
  cases op <;> simp [Term.coq, State.step, hadds, State.close, w]

theorem denotes_call {f : String} {op : BinaryTermOp} (hf : (f, op, operand) ∈ functions)
    (hx : Denotes value x operand u) (hy : Denotes value y operand v) :
    Denotes value (Term.coqCall f x y) τ (do op.apply (← u) (← v)) := by
  have hfunctions : ∀ e ∈ functions, IsWord e.1.toList ∧ functions.find? (·.1.toList = e.1.toList) = some e := by decide
  obtain ⟨hword, hfind⟩ := hfunctions _ hf
  obtain ⟨p, hx, hp, rfl⟩ := hx
  obtain ⟨q, hy, -, rfl⟩ := hy
  exact ⟨_, adds_three (adds_word hword) hx hy, rfl, by simp only [combine, hp, hfind]⟩

theorem denotes_between {op : BinaryTermOp} (hop : op ∈ [.add, .sub, .mul]) (hx : Denotes value x .integer u)
    (hy : Denotes value y .integer v) : Denotes value (Term.coqBetween op.text x y) τ (do op.apply (← u) (← v)) := by
  have hoperators : ∀ op ∈ [BinaryTermOp.add, .sub, .mul],
      IsWord op.text.toList ∧ operator? op.text.toList = some op := by decide
  obtain ⟨hword, hfind⟩ := hoperators op hop
  obtain ⟨p, hx, -, rfl⟩ := hx
  obtain ⟨q, hy, -, rfl⟩ := hy
  exact ⟨_, adds_three hx (adds_word hword) hy, rfl, by simp only [combine, hfind]⟩

theorem denotes_ite {test yes no : Term} (ht : Denotes value test.coq .bit u) (hy : Denotes value yes.coq τ v)
    (hn : Denotes value no.coq τ k) :
    Denotes value (Term.ite test yes no).coq τ (do if (← u).isTrue then v else k) := by
  obtain ⟨p, ht, -, rfl⟩ := ht
  obtain ⟨q, hy, -, rfl⟩ := hy
  obtain ⟨r, hn, -, rfl⟩ := hn
  let word (w : String) := wordPart value w.toList
  refine ⟨⟨[], combine [word "if", p, word "then", q, word "else", r]⟩, fun parts around => ?_, rfl, rfl⟩
  simp [Term.coq, State.step, ht, hy, hn, State.close, word]

end

/-! ## Values of words -/

/-- The number that decimal digits denote. -/
def digitsValue (w : List Char) : Int :=
  Text.ofDigits 10 (w.filterMap Text.decimalDigit?)

/-- The constant of a type that a word is. -/
def constant? (w : List Char) : TermType → Option Scalar
  | .bit => if w = "true".toList then some (.bit true) else if w = "false".toList then some (.bit false) else none
  | .integer =>
    if w.head? = some '-' then some (.int (-digitsValue w.tail))
    else if w.head?.any isDecimalDigit then some (.int (digitsValue w)) else none

/-- The value of a word, which is a constant or stands for one of the names. -/
def wordValue (Γ : String → TermType) (names : List String) (a : Assignment) (τ : TermType) (w : List Char) : Outcome :=
  match constant? w τ, names.find? fun x => Γ x = τ ∧ (coqName x).toList = w with
  | some v, _ => .ok v
  | none, some x => (Term.var τ x).eval a
  | none, none => .error (.noValue "")

/-- Names of one type are different words, and no name of a bit is a truth value. -/
structure Apart (Γ : String → TermType) (names : List String) : Prop where
  injective : ∀ x ∈ names, ∀ y ∈ names, Γ x = Γ y → coqName x = coqName y → x = y
  not_constant : ∀ x ∈ names, Γ x = .bit → coqName x ≠ "true" ∧ coqName x ≠ "false"

theorem isWord_of_nameChars {w : List Char} (hne : w ≠ []) (hw : ∀ c ∈ w, (isNameChar c || c = '-') = true) :
    IsWord w := by
  have hdividers : ∀ c ∈ [' ', '(', ')'], (isNameChar c || c = '-') = false := forall_mem_of_all rfl
  exact ⟨hne, fun c hc hmem => absurd (hw c hc) (by simp [hdividers c hmem])⟩

theorem operator?_of_nameChars {w : List Char} (hw : ∀ c ∈ w, isNameChar c = true) : operator? w = none := by
  have hoperators : ∀ op ∈ [BinaryTermOp.add, .sub, .mul], op.text.toList.all isNameChar = false := by decide
  simp only [operator?, List.find?_eq_none, decide_eq_true_eq]
  rintro op hop rfl
  exact Bool.false_ne_true ((hoperators op hop).symm.trans (List.all_eq_true.2 hw))

theorem coqNameChars_append {cs : List Char} (h : ':' ∉ cs) (rest : List Char) :
    coqNameChars (cs ++ rest) = cs ++ coqNameChars rest := by
  induction cs with
  | nil => rfl
  | cons c cs ih =>
    simp only [List.mem_cons, not_or] at h
    simp [coqNameChars, Ne.symm h.1, ih h.2]

theorem isNamePart_coqName {name : String} (h : IsTermName name) : IsNamePart (coqName name).toList := by
  have hpart : ∀ {cs}, IsNamePart cs → coqNameChars cs = cs := by
    intro cs hcs
    simpa [coqNameChars] using coqNameChars_append hcs.colon_not_mem []
  rw [coqName, String.toList_ofList]
  rcases h.exists_parts with hname | ⟨first, second, hname, hfirst, hsecond⟩
  · rwa [hpart hname]
  · rw [hname, coqNameChars_append hfirst.colon_not_mem, coqNameChars, hpart hsecond]
    obtain ⟨c, part, rfl, hc, hfirst⟩ := hfirst
    have hmore : ∀ d ∈ '_' :: second, isNameChar d = true := List.forall_mem_cons.2 ⟨by decide, hsecond.isNameChar⟩
    exact ⟨c, part ++ '_' :: second, rfl, hc, List.forall_mem_append.2 ⟨hfirst, hmore⟩⟩

section
variable {Γ : String → TermType} {names : List String} {a : Assignment}

theorem constant?_decimal (n : Int) : constant? (Text.decimal n).toList .integer = some (.int n) := by
  rw [toList_decimal]
  split
  · have hn : -(n.natAbs : Int) = n := by omega
    rw [List.singleton_append, constant?, List.head?_cons, if_pos rfl, List.tail_cons, digitsValue,
      ofDigits_decimal, hn]
  · obtain ⟨c, cs, hdigits, hc⟩ := exists_digit_head n.natAbs
    have hvalue : digitsValue (c :: cs) = n := by
      rw [← hdigits, digitsValue, ofDigits_decimal]
      omega
    simp [hdigits, constant?, ne_of_class hc (d := '-') rfl, isDecimalDigit_of_isDigit hc, hvalue]

theorem denotes_int (n : Int) : Denotes (wordValue Γ names a) (Term.ofInt n).coq .integer (.ok (.int n)) := by
  have hdigits : ∀ c ∈ Nat.toDigits 10 n.natAbs, isNameChar c = true := by
    intro c hc
    simp [isNameChar, Char.isAlphanum, isDigit_of_mem_decimal c hc]
  have hword : IsWord (Text.decimal n).toList := by
    rw [toList_decimal]
    refine isWord_of_nameChars (by simp [Nat.toDigits_ne_nil]) ?_
    split <;> simp_all
  have hvalue : wordValue Γ names a .integer (Text.decimal n).toList = .ok (.int n) := by
    rw [wordValue, constant?_decimal]
  by_cases hn : 0 ≤ n
  · rw [show (Term.ofInt n).coq = Text.decimal n from if_pos hn, ← hvalue]
    refine denotes_word hword (operator?_of_nameChars ?_)
    rwa [toList_decimal, if_neg (by omega)]
  · rw [show (Term.ofInt n).coq = "(" ++ Text.decimal n ++ ")" from if_neg hn]
    exact ⟨_, adds_one (adds_word hword), rfl, hvalue⟩

theorem constant?_coqName (hapart : Apart Γ names) {x : String} (hx : x ∈ names) (hname : IsTermName x) :
    constant? (coqName x).toList (Γ x) = none := by
  cases htype : Γ x with
  | bit =>
    obtain ⟨htrue, hfalse⟩ := hapart.not_constant x hx htype
    rw [constant?, if_neg (htrue ∘ String.toList_inj.1), if_neg (hfalse ∘ String.toList_inj.1)]
  | integer =>
    obtain ⟨c, part, hcs, hc, -⟩ := isNamePart_coqName hname
    simp [hcs, constant?, ne_of_class hc (d := '-') rfl, isDecimalDigit_of_isNameStart hc]

theorem eval_ne {type : TermType} {left right : Term} : (Term.binary type .ne left right).eval a =
    (Term.unary .bit .not (.binary .bit .eq left right)).eval a := by
  simp [Term.eval, BinaryTermOp.apply, UnaryTermOp.apply, Scalar.isTrue]

variable (hapart : Apart Γ names) (hnames : ∀ x ∈ names, IsTermName x)
include hapart hnames

theorem denotes_var {x : String} (hx : x ∈ names) :
    Denotes (wordValue Γ names a) (coqName x) (Γ x) ((Term.var (Γ x) x).eval a) := by
  have hpart := isNamePart_coqName (hnames x hx)
  have hne : (coqName x).toList ≠ [] := by
    obtain ⟨c, part, hc, -⟩ := hpart
    simp [hc]
  have hvalue : wordValue Γ names a (Γ x) (coqName x).toList = (Term.var (Γ x) x).eval a := by
    rw [wordValue, constant?_coqName hapart hx (hnames x hx)]
    cases hfind : names.find? fun y => Γ y = Γ x ∧ (coqName y).toList = (coqName x).toList with
    | none => simpa using List.find?_eq_none.1 hfind x hx
    | some y =>
      have hy := List.find?_some hfind
      simp only [decide_eq_true_eq, String.toList_inj] at hy
      rw [hapart.injective y (List.mem_of_find?_eq_some hfind) x hx hy.1 hy.2]
  rw [← hvalue]
  refine denotes_word (isWord_of_nameChars hne fun c hc => ?_) (operator?_of_nameChars hpart.isNameChar)
  rw [hpart.isNameChar c hc, Bool.true_or]

theorem denotes_coq {t : Term} (h : t.WellTyped Γ) (hvars : ∀ x ∈ t.varOccurrences, x.1 ∈ names) :
    Denotes (wordValue Γ names a) t.coq t.type (t.eval a) := by
  induction t with
  | const type value =>
    cases value with
    | int n =>
      obtain rfl : TermType.integer = type := h
      exact denotes_int n
    | bit b =>
      obtain rfl : TermType.bit = type := h
      cases b
      · exact denotes_word (w := "false") (by decide) (by decide)
      · exact denotes_word (w := "true") (by decide) (by decide)
  | var type x =>
    obtain rfl : type = Γ x := h
    exact denotes_var hapart hnames (hvars (x, Γ x) (by simp [Term.varOccurrences]))
  | unary type op arg ih =>
    obtain ⟨harg, htype, rfl⟩ := h
    exact denotes_unary _ op (htype ▸ ih harg hvars)
  | binary type op left right ihl ihr =>
    obtain ⟨hl, hr, htype, hoperand, rfl⟩ := h
    obtain ⟨hleft, hright⟩ := List.forall_mem_append.1 hvars
    specialize ihl hl hleft
    specialize ihr hr hright
    rw [← htype] at ihr
    have hequal : Denotes (wordValue Γ names a) (Term.binary .bit .eq left right).coq .bit
        ((Term.binary .bit .eq left right).eval a) := by
      simp only [Term.coq]
      generalize left.type = operand at ihl ihr ⊢
      cases operand <;> exact denotes_call (by decide) ihl ihr
    cases op
    case eq => exact hequal
    case ne =>
      rw [eval_ne, show (Term.binary _ .ne left right).coq = (Term.unary .bit .not (.binary .bit .eq left right)).coq
        from rfl]
      exact denotes_unary .bit .not hequal
    case add | sub | mul =>
      rw [hoperand .integer rfl] at ihl ihr
      exact denotes_between (by decide) ihl ihr
    case and | or | imp =>
      rw [hoperand .bit rfl] at ihl ihr
      exact denotes_call (by decide) ihl ihr
    all_goals
      rw [hoperand .integer rfl] at ihl ihr
      exact denotes_call (by decide) ihl ihr
  | ite test yes no iht ihy ihn =>
    obtain ⟨ht, hy, hn, htest, htype⟩ := h
    simp only [Term.varOccurrences, List.forall_mem_append] at hvars
    obtain ⟨⟨htestVars, hyes⟩, hno⟩ := hvars
    exact denotes_ite (htest ▸ iht ht htestVars) (ihy hy hyes) (htype ▸ ihn hn hno)

end

end CoqText

theorem Assignment.Respects.of_mem {Γ : String → TermType} {a : Assignment} (h : ∀ e ∈ a, e.2.type = Γ e.1) :
    a.Respects Γ :=
  fun _ _ hget => h _ (Table.mem_of_get? hget)

open CoqText

/-- Terms of one type and one text have one value, whatever values of their types their variables have.  The names of
the variables are as given. -/
def TextDetermines (Γ : String → TermType) (named : String → Prop) : Prop :=
  ∀ t u : Term, t.WellTyped Γ → u.WellTyped Γ → t.type = u.type → (∀ x ∈ t.vars ++ u.vars, named x.1) →
    t.coq = u.coq → ∀ a : Assignment, a.Respects Γ → t.eval a = u.eval a

/-- The text of an exported term determines its meaning exactly if variables of one type have different names in Coq,
and variables for bits other names than the truth values. -/
theorem coq_determines_meaning (Γ : String → TermType) (names : List String) (hnames : ∀ x ∈ names, IsTermName x) :
    TextDetermines Γ (· ∈ names) ↔ Apart Γ names := by
  constructor
  · intro h
    have hconst : ∀ x ∈ names, Γ x = .bit → ∀ b, coqName x ≠ (Term.ofBool b).coq := by
      intro x hx hbit b hcoq
      have heval := h (.var .bit x) (.ofBool b) hbit.symm rfl rfl (by simp [Term.mem_vars, Term.varOccurrences, hx])
        hcoq [(x, .bit !b)] (.of_mem (List.forall_mem_singleton.2 hbit.symm))
      simp [Term.eval, Table.get?] at heval
    refine ⟨fun x hx y hy htype hcoq => ?_, fun x hx hbit => ⟨hconst x hx hbit true, hconst x hx hbit false⟩⟩
    obtain ⟨v, v', hvalues, hv, hv'⟩ : ∃ v v' : Scalar, v ≠ v' ∧ v.type = Γ x ∧ v'.type = Γ x := by
      cases Γ x
      exacts [⟨.int 0, .int 1, by decide⟩, ⟨.bit true, .bit false, by decide⟩]
    have heval := h (.var (Γ x) x) (.var (Γ y) y) rfl rfl htype
      (by simp [Term.mem_vars, Term.varOccurrences, hx, hy]) hcoq [(x, v), (y, v')]
      (.of_mem (by simp [hv, hv', htype]))
    by_contra hne
    simp [Term.eval, Table.get?, hne, hvalues] at heval
  · intro hapart t u ht hu htype hvars hcoq a _
    simp only [List.forall_mem_append, Term.mem_vars] at hvars
    have hmeaning := (denotes_coq (a := a) hapart hnames ht hvars.1).meaning_eq
    rw [← hmeaning, hcoq, htype]
    exact (denotes_coq hapart hnames hu hvars.2).meaning_eq

/-- Names with a qualifier and truth values among integers do no harm. -/
theorem coq_determines_apart :
    (∀ x ∈ ["q::a", "q_b", "true"], IsTermName x) ∧
      TextDetermines (fun _ => .integer) (· ∈ ["q::a", "q_b", "true"]) := by
  have hnames : ∀ x ∈ ["q::a", "q_b", "true"], IsTermName x := by
    simp only [List.forall_mem_cons]
    exact ⟨rfl, rfl, rfl, List.forall_mem_nil _⟩
  exact ⟨hnames, (coq_determines_meaning _ _ hnames).2 ⟨by decide, by decide⟩⟩

/-- A qualified name is taken for another name. -/
theorem qualified_name_conflated : ¬ ∀ Γ, TextDetermines Γ IsTermName := by
  intro h
  have hnames : ∀ x ∈ [("a::b", TermType.integer), ("a_b", .integer)], IsTermName x.1 := by
    simp only [List.forall_mem_cons]
    exact ⟨rfl, rfl, List.forall_mem_nil _⟩
  have heval := h (fun _ => .integer) (.var .integer "a::b") (.var .integer "a_b") rfl rfl rfl hnames (by decide)
    [("a::b", .int 1), ("a_b", .int 0)] (.of_mem (by decide))
  simp [Term.eval, Table.get?] at heval

end VeriScript
