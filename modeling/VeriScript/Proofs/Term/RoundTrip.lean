import VeriScript.Proofs.Reading.Term
import VeriScript.Proofs.Term.Elaboration
import VeriScript.Proofs.Term.Grouping

/-!
# Terms read back from their texts

* `Term.chars`, `Term.charsAt` — the text of a term, and its text in a place that demands a precedence.
* `Term.charsAt_eq_chain` — the text of a term is the text of its chain of operators.
* `Term.termAt_reads` — reading the text of a term takes all of it and gives the term without types.
* `Term.elaborate_raw` — the types found for it are the types it had.
* `parseTerm_shown` — a term is read back from its text, with the signs of its constants as operators.
-/

namespace VeriScript

open VeriScript.Reading

namespace Term

variable {t : Term} {least : Nat}

/-! ## Texts -/

theorem render_plain {display : Display} (hascii : display.ascii = true) (hcolor : display.color = false)
    (t : Term) : t.render display = t.render .plain := by
  induction t with
  | const type value => rfl
  | var type name => simp [render, hcolor, Display.plain]
  | unary type op arg ih => simp [render, hascii, ih, Display.plain]
  | binary type op left right ihl ihr => simp [render, hascii, ihl, ihr, Display.plain]
  | ite test yes no iht ihy ihn => simp [render, iht, ihy, ihn]

/-- The text of a term in ASCII characters. -/
def chars (t : Term) : List Char :=
  (t.render .plain).toList

/-- The text of a term in a place that demands the precedence `least`. -/
def charsAt (least : Nat) (t : Term) : List Char :=
  if t.precedence < least then '(' :: t.chars ++ [')'] else t.chars

theorem toList_wrap (t : Term) (least : Nat) :
    (t.wrap least (t.render .plain)).toList = t.charsAt least := by
  unfold wrap charsAt
  split <;> simp [chars]

theorem charsAt_of_lt (h : t.precedence < least) : t.charsAt least = '(' :: t.chars ++ [')'] :=
  if_pos h

theorem charsAt_of_le (h : least ≤ t.precedence) : t.charsAt least = t.chars :=
  if_neg (Nat.not_lt.2 h)

theorem chars_unary (type : TermType) (op : UnaryTermOp) (arg : Term) :
    (Term.unary type op arg).chars = op.text.toList ++ arg.charsAt 7 := by
  simp [chars, render, Display.plain, ← toList_wrap]

theorem chars_binary (type : TermType) (op : BinaryTermOp) (left right : Term) :
    (Term.binary type op left right).chars =
      left.charsAt op.leftLeast ++ ' ' :: (op.text.toList ++ ' ' :: right.charsAt op.rightLeast) := by
  simp only [chars, render, ← toList_wrap, BinaryTermOp.leftLeast, BinaryTermOp.rightLeast]
  split <;> simp [Display.plain]

theorem chars_ite (test yes no : Term) :
    (Term.ite test yes no).chars =
      "if ".toList ++ test.chars ++ " then ".toList ++ yes.chars ++ " else ".toList ++ no.chars := by
  simp [chars, render]

theorem chars_var (type : TermType) (name : String) : (Term.var type name).chars = name.toList := rfl

/-! ## Names and numbers -/

/-- The names of the variables can be read, and the integers are not too long. -/
def Readable (t : Term) : Prop :=
  (∀ x ∈ t.varOccurrences, IsTermName x.1) ∧ ∀ n ∈ t.numerals, Text.hasDecimal n = true

variable {type : TermType} {depth : Nat}

theorem readable_var {name : String} : (Term.var type name).Readable ↔ IsTermName name := by
  simp [Readable, varOccurrences, numerals]

theorem readable_binary {op : BinaryTermOp} {left right : Term} :
    (Term.binary type op left right).Readable ↔ left.Readable ∧ right.Readable := by
  simp only [Readable, varOccurrences, numerals, List.forall_mem_append, and_and_and_comm]

theorem readable_ite {test yes no : Term} :
    (Term.ite test yes no).Readable ↔ test.Readable ∧ yes.Readable ∧ no.Readable := by
  simp only [Readable, varOccurrences, numerals, List.forall_mem_append]
  constructor
  · rintro ⟨⟨⟨ht, hy⟩, hn⟩, ⟨ht', hy'⟩, hn'⟩
    exact ⟨⟨ht, ht'⟩, ⟨hy, hy'⟩, hn, hn'⟩
  · rintro ⟨⟨ht, ht'⟩, ⟨hy, hy'⟩, hn, hn'⟩
    exact ⟨⟨⟨ht, hy⟩, hn⟩, ⟨ht', hy'⟩, hn'⟩

theorem Readable.of_subset {o : Term} (h : t.Readable) (hvars : o.varOccurrences ⊆ t.varOccurrences)
    (hnumerals : o.numerals ⊆ t.numerals) : o.Readable :=
  ⟨fun x hx => h.1 x (hvars hx), fun n hn => h.2 n (hnumerals hn)⟩

/-! ## What stands at the start of a text, and in it -/

/-- A constant is written as a truth value, as digits or as digits behind a sign.  The digits are not too many if the
constant is readable. -/
theorem const_cases (type : TermType) (value : Scalar) :
    (∃ b : Bool, (Term.const type value).chars = (if b then "True" else "False").toList ∧
        (Term.const type value).raw = .bool b) ∨
      (∃ n : Nat, (Term.const type value).chars = Nat.toDigits 10 n ∧ (Term.const type value).raw = .int n ∧
        ((Term.const type value).Readable → Text.hasDecimal n = true)) ∨
      ∃ n : Nat, (Term.const type value).chars = UnaryTermOp.neg.text.toList ++ Nat.toDigits 10 n ∧
        (Term.const type value).raw = .unary .neg (.int n) ∧
        ((Term.const type value).Readable → Text.hasDecimal n = true) := by
  cases type with
  | bit => exact .inl ⟨value.isTrue, rfl, rfl⟩
  | integer =>
    rcases value with (n | n) | b
    · refine .inr (.inl ⟨n, ?_, rfl, fun h => h.2 _ List.mem_cons_self⟩)
      simp [chars, render, constText, Scalar.text, Text.decimal, Text.decimalNat]
    · refine .inr (.inr ⟨n + 1, ?_, rfl, fun h => h.2 (.negSucc n) List.mem_cons_self⟩)
      simp [chars, render, constText, Scalar.text, Text.decimal, Text.decimalNat, UnaryTermOp.text]
    · exact .inl ⟨b, rfl, rfl⟩

theorem opens_unaryTermOp (op : UnaryTermOp) (cs : List Char) : Opens (op.text.toList ++ cs) := by
  cases op with
  | not => exact ⟨'!', cs, rfl, by decide⟩
  | neg => exact ⟨'-', cs, rfl, by decide⟩

theorem opens_charsAt_of (h : Opens t.chars) (least : Nat) : Opens (t.charsAt least) := by
  unfold charsAt
  split
  · exact ⟨'(', _, rfl, by decide⟩
  · exact h

theorem opens_chars (h : t.Readable) : Opens t.chars := by
  induction t with
  | const type value =>
    rcases const_cases type value with ⟨b, htext, -⟩ | ⟨n, htext, -⟩ | ⟨n, htext, -⟩ <;> rw [htext]
    · cases b with
      | true => exact ⟨'T', _, rfl, by decide⟩
      | false => exact ⟨'F', _, rfl, by decide⟩
    · exact opens_decimal n
    · exact opens_unaryTermOp _ _
  | var type name =>
    rw [chars_var]
    exact (readable_var.1 h).isNameText.opens
  | unary type op arg ih =>
    rw [chars_unary]
    exact opens_unaryTermOp _ _
  | binary type op left right ihl ihr =>
    rw [chars_binary]
    exact (opens_charsAt_of (ihl (readable_binary.1 h).1) _).append _
  | ite test yes no iht ihy ihn =>
    rw [chars_ite]
    exact ⟨'i', _, rfl, by decide⟩

theorem opens_charsAt (h : t.Readable) (least : Nat) : Opens (t.charsAt least) :=
  opens_charsAt_of (opens_chars h) least

theorem length_chars_le (t : Term) (least : Nat) : t.chars.length ≤ (t.charsAt least).length := by
  unfold charsAt
  split
  · simp
    omega
  · exact Nat.le_refl _

theorem size_le_length (h : t.Readable) : t.size ≤ t.chars.length := by
  induction t with
  | const type value => exact (opens_chars h).length_pos
  | var type name => exact (opens_chars h).length_pos
  | unary type op arg ih =>
    have harg := ih h
    have hwrap := length_chars_le arg 7
    have hop : op.text.toList.length = 1 := by cases op <;> rfl
    rw [chars_unary, List.length_append, size]
    omega
  | binary type op left right ihl ihr =>
    have hleft := ihl (readable_binary.1 h).1
    have hright := ihr (readable_binary.1 h).2
    have hwrapLeft := length_chars_le left op.leftLeast
    have hwrapRight := length_chars_le right op.rightLeast
    rw [chars_binary]
    simp only [List.length_append, List.length_cons, size]
    omega
  | ite test yes no iht ihy ihn =>
    obtain ⟨ht, hy, hn⟩ := readable_ite.1 h
    have htest := iht ht
    have hyes := ihy hy
    have hno := ihn hn
    have hif : "if ".toList.length = 3 := rfl
    rw [chars_ite]
    simp only [List.length_append, size]
    omega

theorem tab_not_mem_charsAt (h : '\t' ∉ t.chars) (least : Nat) : '\t' ∉ t.charsAt least := by
  unfold charsAt
  split <;> simp [h]

theorem tab_not_mem_chars (h : t.Readable) : '\t' ∉ t.chars := by
  induction t with
  | const type value =>
    have hdigits : ∀ n, '\t' ∉ Nat.toDigits 10 n := by
      intro n hmem
      exact absurd (isDigit_of_mem_decimal _ hmem) (by decide)
    rcases const_cases type value with ⟨b, htext, -⟩ | ⟨n, htext, -⟩ | ⟨n, htext, -⟩ <;> rw [htext]
    · cases b <;> decide
    · exact hdigits n
    · simp [UnaryTermOp.text, hdigits n]
  | var type name =>
    rw [chars_var]
    exact (readable_var.1 h).isNameText.tab_not_mem
  | unary type op arg ih =>
    have hop : '\t' ∉ op.text.toList := by cases op <;> decide
    rw [chars_unary]
    simp [hop, tab_not_mem_charsAt (ih h)]
  | binary type op left right ihl ihr =>
    have hop : '\t' ∉ op.text.toList := by cases op <;> decide
    rw [chars_binary]
    simp [hop, tab_not_mem_charsAt (ihl (readable_binary.1 h).1), tab_not_mem_charsAt (ihr (readable_binary.1 h).2)]
  | ite test yes no iht ihy ihn =>
    obtain ⟨ht, hy, hn⟩ := readable_ite.1 h
    rw [chars_ite]
    simp [iht ht, ihy hy, ihn hn]

/-! ## Chains -/

def operationsChars (ops : List (BinaryTermOp × Term)) : List Char :=
  ops.flatMap fun x => ' ' :: (x.1.text.toList ++ ' ' :: x.2.charsAt 7)

theorem length_le_operationsChars (ops : List (BinaryTermOp × Term)) :
    ops.length ≤ (operationsChars ops).length := by
  induction ops with
  | nil => exact Nat.le_refl 0
  | cons x ops ih =>
    simp only [operationsChars, List.flatMap_cons, List.length_append, List.length_cons] at ih ⊢
    omega

theorem stops_operations (ops : List (BinaryTermOp × Term)) {rest : List Char} (hend : TermEnd rest) :
    Stops (operationsChars ops ++ rest) := by
  cases ops with
  | nil => exact hend.stops
  | cons x ops => simp [Stops, stopChars, operationsChars]

/-- An operand is written as in front of an operator of any level. -/
theorem charsAt_operand (hseven : least ≤ 7) (h : t.precedence < least ∨ 7 ≤ t.precedence) :
    t.charsAt least = t.charsAt 7 ++ operationsChars [] := by
  simp only [operationsChars, List.flatMap_nil, List.append_nil]
  rcases h with h | h
  · rw [charsAt_of_lt h, charsAt_of_lt (Nat.lt_of_lt_of_le h hseven)]
  · rw [charsAt_of_le h, charsAt_of_le (Nat.le_trans hseven h)]

theorem charsAt_eq_chain (hleast : 1 ≤ least) (hseven : least ≤ 7) :
    t.charsAt least = (t.chain least).1.charsAt 7 ++ operationsChars (t.chain least).2 := by
  induction t generalizing least with
  | const type value | var type name => exact charsAt_operand hseven (.inr (Nat.le_succ 7))
  | unary type op arg => exact charsAt_operand hseven (.inr (Nat.le_refl 7))
  | ite test yes no => exact charsAt_operand hseven (.inl hleast)
  | binary type op left right ihl ihr =>
    by_cases hop : op.precedence < least
    · rw [chain, if_pos hop]
      exact charsAt_operand hseven (.inl hop)
    · rw [chain, if_neg hop, charsAt_of_le (Nat.le_of_not_lt hop), chars_binary,
        ihl op.one_le_leftLeast op.leftLeast_le_seven, ihr op.one_le_rightLeast op.rightLeast_le_seven]
      simp [operationsChars]

/-! ## Reading -/

/-- An operand whose inner terms have sizes up to `depth`. -/
structure OperandWithin (depth : Nat) (t : Term) : Prop where
  readable : t.Readable
  size_le : t.size ≤ depth + 1
  size_le_of_loose : t.precedence < 7 → t.size ≤ depth

theorem OperandWithin.of_size_le (hread : t.Readable) (hsize : t.size ≤ depth) : t.OperandWithin depth :=
  ⟨hread, Nat.le_succ_of_le hsize, fun _ => hsize⟩

/-- The operands of a chain are smaller than the chain, unless it is an operand itself. -/
theorem operandWithin_of_mem (hread : t.Readable) (hsize : t.size ≤ depth + 1)
    (hprec : 1 ≤ t.precedence) : ∀ o ∈ t.operands 1, o.OperandWithin depth := by
  intro o ho
  rcases mem_operands (Nat.le_refl 1) ho with ⟨rfl, hloose | htight⟩ | ⟨hless, hvars, hnumerals⟩
  · omega
  · exact ⟨hread, hsize, fun h => absurd h (Nat.not_lt.2 htight)⟩
  · exact .of_size_le (hread.of_subset hvars hnumerals) (by omega)

section
variable {term : Parser RawTerm} {depth : Nat} {rest : List Char}
  (hterm : ∀ t : Term, t.size ≤ depth → t.Readable → ∀ rest, TermEnd rest → Reads term t.chars t.raw rest)
include hterm

/-- A term that binds more loosely than an operand stands in parentheses. -/
theorem termOperand_paren (hread : t.Readable) (hsize : t.size ≤ depth) (hloose : t.precedence < 7) :
    Reads (termOperand term) (t.charsAt 7) t.raw rest := by
  rw [charsAt_of_lt hloose]
  exact termOperand_of_atom (termAtom_paren (opens_chars hread) (hterm t hsize hread _ (.paren _)))
    ⟨'(', _, rfl, by decide⟩

theorem termOperand_reads (h : t.OperandWithin depth) (hrest : Stops rest) :
    Reads (termOperand term) (t.charsAt 7) t.raw rest := by
  -- operators in front of an operand are read by the same reader, so this is an induction on the operand
  induction t with
  | const type value =>
    have hdigits : ∀ n : Nat, Text.hasDecimal n = true →
        Reads (termOperand term) (Nat.toDigits 10 n) (.int n) rest := by
      intro n hn
      obtain ⟨c, more, hhead, hc⟩ := exists_digit_head n
      exact termOperand_of_atom (termAtom_int hn hrest) ⟨c, more, hhead, ne_of_class hc rfl, ne_of_class hc rfl⟩
    rw [charsAt_of_le (Nat.le_succ 7)]
    rcases const_cases type value with ⟨b, htext, hraw⟩ | ⟨n, htext, hraw, hn⟩ | ⟨n, htext, hraw, hn⟩ <;>
      rw [htext, hraw]
    · refine termOperand_of_atom (termAtom_bool b hrest.not_word) ?_
      cases b with
      | true => exact ⟨'T', _, rfl, by decide⟩
      | false => exact ⟨'F', _, rfl, by decide⟩
    · exact hdigits n (hn h.readable)
    · exact termOperand_unary .neg (opens_decimal n) (hdigits n (hn h.readable))
  | var type name =>
    have hname := readable_var.1 h.readable
    obtain ⟨c, more, hhead, hc⟩ := hname.isNameText.exists_head
    rw [charsAt_of_le (Nat.le_succ 7), chars_var]
    exact termOperand_of_atom (termAtom_name hname hrest) ⟨c, more, hhead, ne_of_class hc rfl, ne_of_class hc rfl⟩
  | unary type op arg ih =>
    have hread : arg.Readable := h.readable
    have hsize : 1 + arg.size ≤ depth + 1 := h.size_le
    rw [charsAt_of_le (Nat.le_refl 7), chars_unary]
    exact termOperand_unary op (opens_charsAt hread 7) (ih (.of_size_le hread (by omega)))
  | binary type op left right =>
    have hsix : op.precedence < 7 := Nat.lt_succ_of_le op.precedence_le_six
    exact termOperand_paren hterm h.readable (h.size_le_of_loose hsix) hsix
  | ite test yes no =>
    have hzero : 0 < 7 := by decide
    exact termOperand_paren hterm h.readable (h.size_le_of_loose hzero) hzero

/-- The operators and operands of a chain are read one after the other. -/
theorem operationsIn_reads {ops : List (BinaryTermOp × Term)}
    (hops : ∀ x ∈ ops, x.2.OperandWithin depth) (hend : TermEnd rest) {fuel : Nat}
    (hfuel : ops.length ≤ fuel) {cur : Cursor} (hcur : cur.rest = operationsChars ops ++ rest) :
    ∃ cur', operationsIn binaryTermOp (termOperand term) fuel cur = some (rawOperations ops, cur') ∧
      cur'.rest = rest := by
  induction ops generalizing fuel cur with
  | nil =>
    refine ⟨cur, ?_, hcur⟩
    cases fuel with
    | zero => rfl
    | succ fuel => simp [operationsIn, binaryTermOp_of_end hend hcur, rawOperations]
  | cons x ops ih =>
    -- a step of fuel for each operator
    obtain ⟨fuel, rfl⟩ := Nat.exists_eq_add_of_le' (Nat.le_trans (Nat.le_add_left 1 ops.length) hfuel)
    obtain ⟨hx, hops⟩ := List.forall_mem_cons.1 hops
    have hcur : cur.rest = ' ' :: (x.1.text.toList ++ ' ' :: (x.2.charsAt 7 ++ (operationsChars ops ++ rest))) := by
      simpa [operationsChars] using hcur
    have hskip := Cursor.rest_skipGap_of_space hcur (solid_binaryTermOp x.1 _)
    have hop := binaryTermOp_of_text x.1 hskip
    have hat := Cursor.At.of_space (rest_advance_skipGap hskip) ((opens_charsAt hx.readable 7).solid _)
    obtain ⟨cur1, hoperand, hrest1⟩ := termOperand_reads hterm hx (stops_operations ops hend) _ hat
    obtain ⟨cur2, hmore, hrest2⟩ := ih hops (by simpa using hfuel) hrest1
    refine ⟨cur2, ?_, hrest2⟩
    simp [operationsIn, hop, hoperand, hmore, rawOperations]

/-- A first operand and the operations behind it are a term. -/
theorem termWith_of_chain {first : Term} {cs : List Char} {ops : List (BinaryTermOp × Term)}
    (hfirst : Reads (termOperand term) cs first.raw (operationsChars ops ++ rest))
    (hops : ∀ x ∈ ops, x.2.OperandWithin depth) (hend : TermEnd rest) :
    Reads (termWith term) (cs ++ operationsChars ops) (grouped termLevels first.raw (rawOperations ops)) rest := by
  intro cur hcur
  rw [List.append_assoc] at hcur
  obtain ⟨cur1, hoperand, hrest1⟩ := hfirst cur hcur
  have hfuel : ops.length ≤ cur1.rest.length := by
    rw [hrest1, List.length_append]
    exact Nat.le_trans (length_le_operationsChars ops) (Nat.le_add_right _ _)
  obtain ⟨cur2, hmore, hrest2⟩ := operationsIn_reads hterm hops hend hfuel hrest1
  refine ⟨cur2, ?_, hrest2⟩
  have hoperations : operations binaryTermOp (termOperand term) cur1 = some (rawOperations ops, cur2) := hmore
  rw [termWith, bind_of_some hoperand, bind_of_some hoperations]
  rfl

/-- Where all smaller terms are read, so is a term. -/
theorem termWith_reads (hread : t.Readable) (hsize : t.size ≤ depth + 1) (hend : TermEnd rest) :
    Reads (termWith term) t.chars t.raw rest := by
  by_cases hprec : 1 ≤ t.precedence
  · obtain ⟨hfirst, hops⟩ := List.forall_mem_cons.1 (operandWithin_of_mem hread hsize hprec)
    have hchain := termWith_of_chain hterm (termOperand_reads hterm hfirst (stops_operations _ hend))
      (fun x hx => hops x.2 (List.mem_map_of_mem hx)) hend
    rwa [← charsAt_eq_chain (Nat.le_refl 1) (by decide), charsAt_of_le hprec,
      show termLevels = levelsFrom 1 from rfl, grouped_chain (Nat.le_refl 1) (by decide)] at hchain
  · -- only a conditional stands alone without an operator around it
    cases t with
    | ite test yes no =>
      obtain ⟨ht, hy, hn⟩ := readable_ite.1 hread
      rw [size] at hsize
      have hatom := termAtom_ite (opens_chars ht) (opens_chars hy) (opens_chars hn)
        (hterm test (by omega) ht) (hterm yes (by omega) hy) (hterm no (by omega) hn rest hend)
      rw [← chars_ite] at hatom
      have hoperand : Reads (termOperand term) (Term.ite test yes no).chars (Term.ite test yes no).raw
          (operationsChars [] ++ rest) :=
        termOperand_of_atom hatom ⟨'i', _, by rw [chars_ite]; rfl, by decide⟩
      have hchain := termWith_of_chain hterm hoperand (List.forall_mem_nil _) hend
      rwa [show operationsChars [] = [] from rfl, List.append_nil, show termLevels = levelsFrom 1 from rfl,
        grouped_operand (Nat.le_refl 1) (by decide)] at hchain
    | binary type op left right => exact absurd op.one_le_precedence hprec
    | _ => simp [precedence] at hprec

end

theorem termAt_reads {rest : List Char} (hread : t.Readable) (hsize : t.size ≤ depth)
    (hend : TermEnd rest) : Reads (termAt depth) t.chars t.raw rest := by
  induction depth generalizing t rest with
  | zero => cases t <;> simp [size] at hsize
  | succ depth ih => exact termWith_reads (fun t hsize hread rest hend => ih hread hsize hend) hread hsize hend

theorem readAll_chars {text : String} (hread : t.Readable) (htext : text.toList = t.chars) :
    readAll Reading.term "" text = .done t.raw := by
  have htab : '\t' ∉ text.toList := htext ▸ tab_not_mem_chars hread
  have hsolid : Solid text.toList := by simpa [htext] using (opens_chars hread).solid []
  have hstart : (Cursor.start "" text).rest = t.chars := (Text.expandTabs_eq htab).trans htext
  have hat : (Cursor.start "" text).At (t.chars ++ []) := by
    simpa [htext] using Cursor.at_start htab hsolid
  -- the length of the text is the depth that reading starts with
  have hsize : t.size ≤ (Cursor.start "" text).rest.length + 1 := by
    rw [hstart]
    exact Nat.le_succ_of_le (size_le_length hread)
  obtain ⟨cur, hterm, hrest⟩ := termAt_reads hread hsize .done _ hat
  have hterm : Reading.term (Cursor.start "" text) = some (t.raw, cur) := hterm
  simp [readAll, hterm, Cursor.rest_skipGap_of_solid hrest solid_nil]

/-! ## Types -/

/-- The term with its negative constants as negations of positive ones. -/
def withSigns : Term → Term
  | .const .integer (.int n) => if n < 0 then .unary .integer .neg (.ofInt (-n)) else .ofInt n
  | .const type value => .const type value
  | .var type name => .var type name
  | .unary type op arg => .unary type op arg.withSigns
  | .binary type op left right => .binary type op left.withSigns right.withSigns
  | .ite test yes no => .ite test.withSigns yes.withSigns no.withSigns

theorem type_withSigns (t : Term) : t.withSigns.type = t.type := by
  induction t with
  | const type value =>
    cases type <;> cases value <;> simp only [withSigns]
    split <;> rfl
  | ite test yes no iht ihy ihn => exact ihy
  | _ => rfl

theorem elaborate_const {env : TermEnv} {value : Scalar} (h : value.type = type) :
    (Term.const type value).raw.elaborate env = .ok (Term.const type value).withSigns := by
  subst h
  rcases value with (n | n) | b
  · have hn : ¬ Int.ofNat n < 0 := Int.not_lt.2 (Int.natCast_nonneg n)
    simp only [Scalar.type, withSigns, if_neg hn]
    rfl
  · simp only [Scalar.type, withSigns, if_pos (Int.negSucc_lt_zero n), Int.neg_negSucc]
    rfl
  · rfl

theorem elaborate_raw {Γ : String → TermType} {env : TermEnv} (h : t.WellTyped Γ)
    (henv : ∀ x ∈ t.varOccurrences, Table.get? env x.1 = some (.var x.2 x.1)) :
    t.raw.elaborate env = .ok t.withSigns := by
  induction t with
  | const type value => exact elaborate_const h
  | var type name => exact RawTerm.elaborate_name_ok.2 (henv (name, type) (by simp [varOccurrences]))
  | unary type op arg ih =>
    obtain ⟨harg, htype, rfl⟩ := h
    exact RawTerm.elaborate_unary_ok.2 ⟨_, ih harg henv, (type_withSigns arg).trans htype, rfl⟩
  | binary type op left right ihl ihr =>
    obtain ⟨hleft, hright, htypes, hop, rfl⟩ := h
    simp only [varOccurrences, List.forall_mem_append] at henv
    refine RawTerm.elaborate_binary_ok.2 ⟨_, _, ihl hleft henv.1, ihr hright henv.2, ?_, ?_, rfl⟩
    · rw [type_withSigns, type_withSigns, htypes]
    · rwa [type_withSigns]
  | ite test yes no iht ihy ihn =>
    obtain ⟨htest, hyes, hno, hbit, htypes⟩ := h
    simp only [varOccurrences, List.forall_mem_append] at henv
    refine RawTerm.elaborate_ite_ok.2
      ⟨_, _, _, iht htest henv.1.1, ihy hyes henv.1.2, ihn hno henv.2, ?_, ?_, rfl⟩
    · rw [type_withSigns, hbit]
    · rw [type_withSigns, type_withSigns, htypes]

end Term

/-- A well-typed term is read back from its text: in an environment that has its variables under their names,
its text is read as the term, with its negative constants as negations.  A term with an integer of more than 4300
digits has no text. -/
theorem parseTerm_shown {Γ : String → TermType} {env : TermEnv} {display : Display} {t : Term}
    (ht : t.WellTyped Γ) (hnames : ∀ x ∈ t.vars, IsTermName x.1)
    (henv : ∀ x ∈ t.vars, Table.get? env x.1 = some (.var x.2 x.1)) (hascii : display.ascii = true)
    (hcolor : display.color = false) :
    if t.numerals.all Text.hasDecimal then
      ∃ text, t.shown display = .ok text ∧ parseTerm env text = .ok t.withSigns
    else t.shown display = .error .digits := by
  simp only [Term.mem_vars] at hnames henv
  split
  · rename_i hshort
    have hread : readAll Reading.term "" (t.render display) = .done t.raw := by
      rw [Term.render_plain hascii hcolor]
      exact Term.readAll_chars ⟨hnames, List.all_eq_true.1 hshort⟩ rfl
    refine ⟨t.render display, if_pos hshort, ?_⟩
    simp [parseTerm, readTermText, hread, bind, Except.bind, Term.elaborate_raw ht henv]
  · rename_i hlong
    exact if_neg hlong

/-- A term whose text needs parentheses, signs and a qualified name. -/
def nestedTerm : Term :=
  .ite (.unary .bit .not (.binary .bit .eq (.var .integer "q::a") (.ofInt (-3))))
    (.binary .integer .sub (.var .integer "x")
      (.binary .integer .sub (.var .integer "y") (.ofInt (-1))))
    (.unary .integer .neg (.binary .integer .mul (.var .integer "x") (.ofInt 2)))

/-- The variables of `nestedTerm` under their names. -/
def nestedEnv : TermEnv :=
  [("q::a", .var .integer "q::a"), ("x", .var .integer "x"), ("y", .var .integer "y")]

theorem parseTerm_nestedTerm :
    nestedTerm.WellTyped (fun _ => .integer) ∧ (∀ x ∈ nestedTerm.vars, IsTermName x.1) ∧
      (∀ x ∈ nestedTerm.vars, Table.get? nestedEnv x.1 = some (.var x.2 x.1)) ∧
      nestedTerm.shown .plain = .ok "if !(q::a == -3) then x - (y - -1) else -(x * 2)" ∧
      parseTerm nestedEnv "if !(q::a == -3) then x - (y - -1) else -(x * 2)" = .ok nestedTerm.withSigns := by
  have htyped : nestedTerm.WellTyped fun _ => .integer := by
    simp [nestedTerm, Term.WellTyped, Scalar.type, Term.type, UnaryTermOp.operandType,
      BinaryTermOp.operandType?, BinaryTermOp.resultType]
  have hvars : nestedTerm.vars = [("q::a", .integer), ("x", .integer), ("y", .integer)] := by decide
  have hnames : ∀ x ∈ nestedTerm.vars, IsTermName x.1 := by
    rw [hvars]
    simp only [List.forall_mem_cons]
    exact ⟨rfl, rfl, rfl, List.forall_mem_nil _⟩
  have henv : ∀ x ∈ nestedTerm.vars, Table.get? nestedEnv x.1 = some (.var x.2 x.1) := by
    rw [hvars]
    decide
  have hshown : nestedTerm.shown .plain = .ok "if !(q::a == -3) then x - (y - -1) else -(x * 2)" := by decide
  have hread := parseTerm_shown htyped hnames henv (rfl : Display.plain.ascii = true) rfl
  rw [if_pos (by decide)] at hread
  obtain ⟨text, htext, hread⟩ := hread
  cases hshown.symm.trans htext
  exact ⟨htyped, hnames, henv, hshown, hread⟩

theorem shown_ofInt {n : Int} (h : Text.hasDecimal n = false) : (Term.ofInt n).shown .plain = .error .digits := by
  simp [Term.shown, Term.numerals, Text.written, h]

theorem wellTyped_ofInt (n : Int) (Γ : String → TermType) : (Term.ofInt n).WellTyped Γ := rfl

/-- A constant that is too long is a well-typed term without a text. -/
theorem longConstant_not_shown :
    (Term.ofInt (10 ^ Text.maxDigits)).WellTyped (fun _ => .integer) ∧
      (Term.ofInt (10 ^ Text.maxDigits)).shown .plain = .error .digits :=
  ⟨wellTyped_ofInt _ _, shown_ofInt hasDecimal_pow⟩

end VeriScript
