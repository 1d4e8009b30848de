import VeriScript.Proofs.Reading.Names

/-!
# What the readers of terms take

The parts of a term are read with any reader `term` of the terms inside it.

* `unaryTermOp_of_text`, `binaryTermOp_of_text` — operators are read as the operators they are written for.
* `TermEnd`, `binaryTermOp_of_end` — what follows a whole term, where no operator goes on.
* `termAtom_int`, `termAtom_bool`, `termAtom_name`, `termAtom_paren`, `termAtom_ite` — one lemma for each
  form of an atom.
* `termOperand_of_atom`, `termOperand_unary` — atoms behind operators.
-/

namespace VeriScript.Reading

open VeriScript.Reading.Parser

/-! ## Operators -/

section
variable {cur cur' : Cursor} {cs rest : List Char}

theorem termSymbol_eq {α : Type} (s : String) (stop : Option Char) (a : α) (h : cur.skipGap.rest = cs) :
    (do termSymbol s stop; return a : Parser α) cur =
      if s.toList.isPrefixOf cs && (stop.isNone || (cs.drop s.toList.length).head? != stop) then
        some (a, cur.skipGap.advance s.toList.length)
      else none := by
  split
  · rename_i htest
    have htoken : termSymbol s stop cur = some ((), cur.skipGap.advance s.toList.length) := by
      refine bind_of_some (a := cs.take s.toList.length) ?_
      simp only [token, h, if_pos htest]
    rw [bind_of_some htoken, pure_run]
  · rename_i htest
    have htoken : termSymbol s stop cur = none := by
      rw [termSymbol, bind_of_none (token_of_none h (if_neg htest))]
    rw [bind_of_none htoken]

theorem unaryTermOp_of_text (op : UnaryTermOp) (h : cur.skipGap.rest = op.text.toList ++ rest)
    (hstop : '=' ∉ rest.head?) :
    unaryTermOp cur = some (op, cur.skipGap.advance op.text.toList.length) := by
  simp only [unaryTermOp, orElse_run, termSymbol_eq _ _ _ h]
  cases op with
  | not => simpa [UnaryTermOp.text, List.isPrefixOf] using hstop
  | neg => simp [UnaryTermOp.text, List.isPrefixOf]

theorem unaryTermOp_of_head (h : cur.skipGap.rest = cs) (hnot : '!' ∉ cs.head?) (hneg : '-' ∉ cs.head?) :
    unaryTermOp cur = none := by
  simp only [unaryTermOp, orElse_run, termSymbol_eq _ _ _ h]
  cases cs with
  | nil => rfl
  | cons c cs =>
    have hc : '!' ≠ c ∧ '-' ≠ c := by simpa [eq_comm] using And.intro hnot hneg
    simp [List.isPrefixOf, hc]

theorem unaryTermOp_consumes {op : UnaryTermOp} (h : unaryTermOp cur = some (op, cur')) :
    cur'.rest.length < cur.rest.length := by
  have hskip := cur.length_skipGap_le
  simp only [unaryTermOp, orElse_run, termSymbol_eq _ _ _ rfl] at h
  cases hrest : cur.skipGap.rest with
  | nil => simp [hrest] at h
  | cons c cs =>
    have hcur : cur' = cur.skipGap.advance 1 := by
      simp only [Option.or_eq_some_iff, Option.ite_none_right_eq_some, Option.some.injEq, Prod.mk.injEq] at h
      rcases h with ⟨-, -, h⟩ | ⟨-, -, -, h⟩ <;> exact h.symm
    rw [hcur, Cursor.rest_advance, List.length_drop]
    rw [hrest, List.length_cons] at hskip ⊢
    omega

theorem binaryTermOp_of_text (op : BinaryTermOp) (h : cur.skipGap.rest = op.text.toList ++ ' ' :: rest) :
    binaryTermOp cur = some (op, cur.skipGap.advance op.text.toList.length) := by
  simp only [binaryTermOp, orElse_run, termSymbol_eq _ _ _ h]
  cases op <;> simp [BinaryTermOp.text, List.isPrefixOf]

/-- No operator with a blank behind it starts a comment. -/
theorem solid_binaryTermOp (op : BinaryTermOp) (cs : List Char) : Solid (op.text.toList ++ ' ' :: cs) := by
  cases op
  case div => exact solid_of_commentLength (by decide) rfl
  all_goals exact solid_cons rfl

/-- What comes right behind a whole term. -/
inductive TermEnd : List Char → Prop where
  | done : TermEnd []
  | paren (cs : List Char) : TermEnd (')' :: cs)
  | yes (cs : List Char) : TermEnd (' ' :: ("then".toList ++ cs))
  | no (cs : List Char) : TermEnd (' ' :: ("else".toList ++ cs))

theorem TermEnd.stops (h : TermEnd rest) : Stops rest := by
  cases h <;> simp [Stops, stopChars]

theorem solid_then (cs : List Char) : Solid ("then".toList ++ cs) :=
  solid_cons rfl

theorem solid_else (cs : List Char) : Solid ("else".toList ++ cs) :=
  solid_cons rfl

theorem solid_paren (cs : List Char) : Solid (')' :: cs) :=
  solid_cons rfl

/-- No operator starts with one of these characters. -/
theorem binaryTermOp_of_head (h : cur.skipGap.rest = cs)
    (hhead : ∀ c ∈ cs.head?, c = ')' ∨ c = 't' ∨ c = 'e' ∨ c = ':' ∨ c = '\'') : binaryTermOp cur = none := by
  simp only [binaryTermOp, orElse_run, termSymbol_eq _ _ _ h]
  cases cs with
  | nil => rfl
  | cons c cs => rcases hhead c rfl with rfl | rfl | rfl | rfl | rfl <;> simp [List.isPrefixOf]

theorem binaryTermOp_of_end (h : TermEnd rest) (hcur : cur.rest = rest) : binaryTermOp cur = none := by
  cases h with
  | done => exact binaryTermOp_of_head (Cursor.rest_skipGap_of_solid hcur solid_nil) (by simp)
  | paren cs => exact binaryTermOp_of_head (Cursor.rest_skipGap_of_solid hcur (solid_paren cs)) (by simp)
  | yes cs => exact binaryTermOp_of_head (Cursor.rest_skipGap_of_space hcur (solid_then cs)) (by simp)
  | no cs => exact binaryTermOp_of_head (Cursor.rest_skipGap_of_space hcur (solid_else cs)) (by simp)

end

/-! ## Atoms -/

section
variable {term : Parser RawTerm} {cs rest : List Char} {t : RawTerm}

theorem termAtom_int {n : Nat} (hn : Text.hasDecimal n = true) (hrest : Stops rest) :
    Reads (termAtom term) (Nat.toDigits 10 n) (.int n) rest := by
  intro cur hcur
  have htoken := token_of_some hcur.rest_eq (intSize?_decimal [16, 2] n hrest)
  refine ⟨_, ?_, rest_advance_skipGap hcur.rest_eq⟩
  rw [termAtom, orElse_of_some]
  rw [bind_of_some htoken, bind_of_some (readable_decimal hn _), pure_run]

theorem intToken_of_head {cur : Cursor} {c : Char} (h : cur.skipGap.rest = c :: cs)
    (hc : isDecimalDigit c = false) : token (intSize? [16, 2]) cur = none :=
  token_of_none h (intSize?_of_head _ hc)

theorem termAtom_bool (b : Bool) (hrest : rest.head?.any isWordChar = false) :
    Reads (termAtom term) (if b then "True" else "False").toList (.bool b) rest := by
  intro cur hcur
  refine ⟨_, ?_, rest_advance_skipGap hcur.rest_eq⟩
  cases b with
  | true =>
    have htrue : keyword "True" cur = some _ := keyword_of_append hcur hrest
    rw [termAtom, orElse_bind_of_none (intToken_of_head hcur.rest_eq rfl), orElse_of_some (bind_of_some htrue)]
    rfl
  | false =>
    have hfalse : keyword "False" cur = some _ := keyword_of_append hcur hrest
    rw [termAtom, orElse_bind_of_none (intToken_of_head hcur.rest_eq rfl),
      orElse_bind_of_none (keyword_of_cons "True" hcur.rest_eq rfl), orElse_of_some (bind_of_some hfalse)]
    rfl

/-- What can be read as a name is read as a name. -/
theorem termAtom_of_termName {cur cur' : Cursor} {name : String} (h : termName cur = some (name, cur')) :
    termAtom term cur = some (.name name, cur') := by
  obtain ⟨hkey, n, hsize, -⟩ := named_eq_some h
  obtain ⟨text, more, htext, -, hname⟩ := exists_name_of_termNameSize? hsize
  obtain ⟨c, cs, rfl, hc⟩ := hname.exists_head
  have hint : token (intSize? [16, 2]) cur = none :=
    intToken_of_head htext (isDecimalDigit_of_isNameStart hc)
  rw [termAtom, orElse_bind_of_none hint, orElse_bind_of_none (hkey _ (by decide)),
    orElse_bind_of_none (hkey _ (by decide)), orElse_bind_of_none (hkey _ (by decide)),
    orElse_of_some (by rw [bind_of_some h]; rfl)]

theorem termAtom_name {name : String} (h : IsTermName name) (hrest : Stops rest) :
    Reads (termAtom term) name.toList (.name name) rest := by
  intro cur hcur
  obtain ⟨cur', hname, hcur'⟩ := h.reads hrest cur hcur
  exact ⟨cur', termAtom_of_termName hname, hcur'⟩

theorem termAtom_paren (hcs : Opens cs) (hterm : Reads term cs t (')' :: rest)) :
    Reads (termAtom term) ('(' :: cs ++ [')']) t rest := by
  intro cur hcur
  have hopen : cur.skipGap.rest = "(".toList ++ (cs ++ ')' :: rest) := by simp [hcur.rest_eq]
  have hat : (cur.skipGap.advance "(".toList.length).At (cs ++ ')' :: rest) := by
    refine .of_solid (rest_advance_skipGap hopen) (hcs.solid _) ?_
    rw [show "(".toList.length = 1 from rfl, Cursor.before_advance_one hopen]
    decide
  obtain ⟨cur2, hread, hrest2⟩ := hterm _ hat
  have hclose : cur2.skipGap.rest = ")".toList ++ rest :=
    Cursor.rest_skipGap_of_solid hrest2 (solid_paren _)
  refine ⟨_, ?_, rest_advance_skipGap hclose⟩
  rw [termAtom, orElse_bind_of_none (intToken_of_head hopen rfl),
    orElse_bind_of_none (keyword_of_cons "True" hopen rfl), orElse_bind_of_none (keyword_of_cons "False" hopen rfl),
    orElse_bind_of_none (keyword_of_cons "if" hopen rfl), orElse_bind_of_none (termName_of_none hopen rfl),
    bind_of_some (literal_of_append hopen), bind_of_some hread, bind_of_some (literal_of_append hclose)]
  rfl

theorem keyword_of_space {word : String} {cur : Cursor} (h : cur.At (word.toList ++ ' ' :: cs))
    (hs : Solid cs) : ∃ cur', keyword word cur = some ((), cur') ∧ cur'.At cs :=
  ⟨_, keyword_of_append h rfl, .of_space (rest_advance_skipGap h.rest_eq) hs⟩

theorem termAtom_ite {cs1 cs2 cs3 : List Char} {t1 t2 t3 : RawTerm} (h1 : Opens cs1) (h2 : Opens cs2)
    (h3 : Opens cs3) (hread1 : ∀ rest, TermEnd rest → Reads term cs1 t1 rest)
    (hread2 : ∀ rest, TermEnd rest → Reads term cs2 t2 rest) (hread3 : Reads term cs3 t3 rest) :
    Reads (termAtom term) ("if ".toList ++ cs1 ++ " then ".toList ++ cs2 ++ " else ".toList ++ cs3)
      (.ite t1 t2 t3) rest := by
  intro cur hcur
  have hstart : cur.At ("if".toList ++ ' ' ::
      (cs1 ++ (' ' :: ("then".toList ++ ' ' :: (cs2 ++ (' ' :: ("else".toList ++ ' ' :: (cs3 ++ rest)))))))) := by
    simpa using hcur
  obtain ⟨cur1, hif, hat1⟩ := keyword_of_space hstart (h1.solid _)
  obtain ⟨cur2, htest, hrest2⟩ := hread1 _ (.yes _) cur1 hat1
  obtain ⟨cur3, hthen, hat3⟩ := keyword_of_space (.of_space hrest2 (solid_then _)) (h2.solid _)
  obtain ⟨cur4, hyes, hrest4⟩ := hread2 _ (.no _) cur3 hat3
  obtain ⟨cur5, helse, hat5⟩ := keyword_of_space (.of_space hrest4 (solid_else _)) (h3.solid _)
  obtain ⟨cur6, hno, hrest6⟩ := hread3 cur5 hat5
  refine ⟨cur6, ?_, hrest6⟩
  rw [termAtom, orElse_bind_of_none (intToken_of_head hstart.rest_eq rfl),
    orElse_bind_of_none (keyword_of_cons "True" hstart.rest_eq rfl),
    orElse_bind_of_none (keyword_of_cons "False" hstart.rest_eq rfl), orElse_of_some]
  rw [bind_of_some hif, bind_of_some htest, bind_of_some hthen, bind_of_some hyes, bind_of_some helse,
    bind_of_some hno]
  rfl

/-! ## Operands -/

theorem termOperand_of_atom (h : Reads (termAtom term) cs t rest)
    (hhead : ∃ c more, cs = c :: more ∧ c ≠ '!' ∧ c ≠ '-') : Reads (termOperand term) cs t rest := by
  obtain ⟨c, more, rfl, hnot, hneg⟩ := hhead
  intro cur hcur
  have hnone : unaryTermOp cur = none :=
    unaryTermOp_of_head hcur.rest_eq (by simpa using hnot) (by simpa using hneg)
  obtain ⟨cur', hatom, hcur'⟩ := h cur hcur
  refine ⟨cur', ?_, hcur'⟩
  rw [termOperand, bind_of_some (many_of_none hnone), bind_of_some hatom]
  rfl

theorem termOperand_unary (op : UnaryTermOp) (hcs : Opens cs) (h : Reads (termOperand term) cs t rest) :
    Reads (termOperand term) (op.text.toList ++ cs) (.unary op t) rest := by
  intro cur hcur
  have htext : cur.skipGap.rest = op.text.toList ++ (cs ++ rest) := by
    rw [hcur.rest_eq, List.append_assoc]
  have hat : (cur.skipGap.advance op.text.toList.length).At (cs ++ rest) := by
    refine .of_solid (rest_advance_skipGap htext) (hcs.solid _) ?_
    cases op <;> exact (congrArg (Option.any isWordChar) (Cursor.before_advance_one htext)).trans (by decide)
  have hop := unaryTermOp_of_text op htext hcs.not_equals
  obtain ⟨cur', hread, hrest⟩ := h _ hat
  obtain ⟨ops, cur1, hmany, hread⟩ := exists_of_bind_eq_some hread
  obtain ⟨atom, cur2, hatom, hread⟩ := exists_of_bind_eq_some hread
  cases hread
  refine ⟨_, ?_, hrest⟩
  rw [termOperand, bind_of_some (many_of_some (fun _ _ _ => unaryTermOp_consumes) hop hmany),
    bind_of_some hatom]
  rfl

end

end VeriScript.Reading
