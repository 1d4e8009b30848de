import VeriScript.Proofs.Reading.Sequences
import VeriScript.Reading.Script
import VeriScript.Text.Quoted

/-!
# What the readers of expressions take

The expressions that spell data: literals, names, tuples, arrays and records.  The statements are about any readers of
the expressions inside.

* `stringSize?_script`, `stringValue_script` — a quoted text is taken whole and means the text.
* `atom_int`, `atom_string`, `atom_name`, `atom_unit`, `atom_paren`, `atom_array`, `atom_record` — expressions that need
  no parentheses.
* `expression_of_atom` — no selector, argument, operator or type follows such an expression where a list goes on or
  ends.
-/

namespace VeriScript.Reading

open VeriScript.Reading.Parser

/-! ## String literals -/

variable {c : Char} {cs : List Char}

theorem stringRest?_escape (hc : c ≠ '\n') : stringRest? ('\\' :: c :: cs) = (stringRest? cs).map (· + 2) := by
  simp [stringRest?, hc]

theorem stringRest?_plain (hc : c ∉ ['"', '\\', '\n', '\r']) :
    stringRest? (c :: cs) = (stringRest? cs).map (· + 1) := by
  simp only [List.mem_cons, List.not_mem_nil, or_false, not_or] at hc
  obtain ⟨hquote, hslash, hfeed, hreturn⟩ := hc
  rw [stringRest?.eq_def]
  split <;> simp_all

theorem unescape_escape (hx : c ≠ 'x') (hu : c ≠ 'u') (hdigit : isDigitIn 8 c = false) :
    unescape ('\\' :: c :: cs) = escapeChar c :: unescape cs := by
  rw [unescape.eq_def]
  split <;> grind

theorem unescape_plain (hc : c ≠ '\\') : unescape (c :: cs) = c :: unescape cs := by
  rw [unescape.eq_def]
  split <;> simp_all

theorem scriptChar_cases (c : Char) :
    (∃ d, Text.scriptChar c = ['\\', d] ∧ escapeChar d = c ∧ d ≠ 'x' ∧ d ≠ 'u' ∧ d ≠ '\n' ∧ isDigitIn 8 d = false) ∨
      Text.scriptChar c = [c] ∧ c ∉ ['"', '\\', '\n', '\t'] := by
  unfold Text.scriptChar
  split
  · exact .inl ⟨'\\', rfl, by simp_all [escapeChar], by decide⟩
  · split
    · exact .inl ⟨'"', rfl, by simp_all [escapeChar], by decide⟩
    · split
      · exact .inl ⟨'n', rfl, by simp_all [escapeChar], by decide⟩
      · split
        · exact .inl ⟨'t', rfl, by simp_all [escapeChar], by decide⟩
        · exact .inr ⟨rfl, by simp_all⟩

section
variable {cs rest : List Char}

theorem stringRest?_script (h : '\r' ∉ cs) :
    stringRest? (cs.flatMap Text.scriptChar ++ '"' :: rest) = some ((cs.flatMap Text.scriptChar).length + 1) := by
  induction cs with
  | nil => rfl
  | cons c cs ih =>
    obtain ⟨hc, hcs⟩ := not_or.1 (mt List.mem_cons.2 h)
    obtain ⟨d, htext, -, -, -, hd, -⟩ | ⟨htext, hplain⟩ := scriptChar_cases c
    · simp [htext, stringRest?_escape hd, ih hcs]
    · have hclass : c ∉ ['"', '\\', '\n', '\r'] := by simp_all [eq_comm]
      simp [htext, stringRest?_plain hclass, ih hcs]

theorem unescape_script : unescape (cs.flatMap Text.scriptChar) = cs := by
  induction cs with
  | nil => rfl
  | cons c cs ih =>
    obtain ⟨d, htext, hmeans, hx, hu, -, hdigit⟩ | ⟨htext, hplain⟩ := scriptChar_cases c
    · simp [htext, unescape_escape hx hu hdigit, ih, hmeans]
    · have hslash : c ≠ '\\' := by simp_all
      simp [htext, unescape_plain hslash, ih]

end

theorem toList_scriptText (s : String) :
    (Text.scriptText s).toList = '"' :: (s.toList.flatMap Text.scriptChar ++ ['"']) := by
  simp [Text.scriptText]

theorem stringSize?_script {s : String} {rest : List Char} (h : '\r' ∉ s.toList) :
    stringSize? ((Text.scriptText s).toList ++ rest) = some (Text.scriptText s).toList.length := by
  simp [toList_scriptText, stringSize?, stringRest?_script h]

theorem stringValue_script (s : String) : stringValue (Text.scriptText s).toList = s := by
  simp [stringValue, toList_scriptText, unescape_script]

/-! ## Where literals start -/

variable {r : Rules} {cs rest : List Char} {cur : Cursor} {name : String}

/-- A character that starts a literal, or a term between braces. -/
def isLiteralStart (c : Char) : Bool :=
  c = '\x7b' || c = '"' || isDecimalDigit c

/-- No literal can be read. -/
structure NoLiteral (cur : Cursor) : Prop where
  code : codeText cur = none
  termType : termTypeText cur = none
  int : intLiteral cur = none
  string : stringLiteral cur = none

theorem between_of_not {opening close : List Char} (h : opening.isPrefixOf cur.skipGap.rest = false) :
    token (betweenSize? opening close) cur = none :=
  token_of_none rfl (by simp [betweenSize?, h])

theorem intLiteral_of_head (h : ∀ c ∈ cur.skipGap.rest.head?, isDecimalDigit c = false) : intLiteral cur = none := by
  refine bind_of_none (token_of_none rfl ?_)
  cases hrest : cur.skipGap.rest with
  | nil => rfl
  | cons c cs => exact intSize?_of_head _ (h c (by simp [hrest]))

theorem stringLiteral_of_head (h : '"' ∉ cur.skipGap.rest.head?) : stringLiteral cur = none := by
  refine bind_of_none (token_of_none rfl ?_)
  unfold stringSize?
  split
  · simp_all
  · rfl

theorem isPrefixOf_of_not_brace {opening : List Char} (hopening : opening.head? = some '\x7b')
    (h : '\x7b' ∉ cs.head?) : opening.isPrefixOf cs = false := by
  refine isPrefixOf_of_head (List.ne_nil_of_mem (List.mem_of_mem_head? hopening)) fun c hc => ?_
  rw [hopening]
  intro hmem
  cases hmem
  exact h hc

theorem codeText_of_not_brace (h : '\x7b' ∉ cur.skipGap.rest.head?) : codeText cur = none :=
  bind_of_none (between_of_not (isPrefixOf_of_not_brace rfl h))

theorem termTypeText_of_not_brace (h : '\x7b' ∉ cur.skipGap.rest.head?) : termTypeText cur = none :=
  bind_of_none (between_of_not (isPrefixOf_of_not_brace rfl h))

theorem noLiteral_of_head (h : ∀ c ∈ cur.skipGap.rest.head?, isLiteralStart c = false) : NoLiteral cur := by
  have hne : ∀ c, isLiteralStart c = true → c ∉ cur.skipGap.rest.head? := by
    intro c hc hmem
    simp [h c hmem] at hc
  have hdigit : ∀ c ∈ cur.skipGap.rest.head?, isDecimalDigit c = false := by
    intro c hc
    have hstart := h c hc
    simp only [isLiteralStart, Bool.or_eq_false_iff] at hstart
    exact hstart.2
  exact ⟨codeText_of_not_brace (hne _ (by decide)), termTypeText_of_not_brace (hne _ (by decide)),
    intLiteral_of_head hdigit, stringLiteral_of_head (hne _ (by decide))⟩

theorem noLiteral_of_cons (h : cur.skipGap.rest = c :: cs) (hc : isLiteralStart c = false) : NoLiteral cur := by
  refine noLiteral_of_head fun d hd => ?_
  rw [h] at hd
  cases hd
  exact hc

/-- A brace that is not doubled starts no term. -/
theorem noLiteral_of_brace (h : cur.skipGap.rest = '\x7b' :: c :: cs) (hbrace : c ≠ '\x7b')
    (hbar : c ≠ '|') : NoLiteral cur := by
  refine ⟨bind_of_none (between_of_not ?_), bind_of_none (between_of_not ?_), intLiteral_of_head ?_,
    stringLiteral_of_head ?_⟩
  · simp [h, List.isPrefixOf, hbrace.symm]
  · simp [h, List.isPrefixOf, hbar.symm]
  · rw [h]
    intro d hd
    cases hd
    decide
  · simp [h]

theorem here_run (cur : Cursor) : here cur = some (cur.skipGap.span, cur) := rfl

def isDataStart (c : Char) : Bool :=
  c.isDigit || ['"', '(', '[', '\x7b', 't', 'f'].contains c

/-- The text starts with a character that starts an expression for data. -/
def StartsData (cs : List Char) : Prop :=
  ∃ c more, cs = c :: more ∧ isDataStart c = true

theorem StartsData.opens (h : StartsData cs) : Opens cs := by
  obtain ⟨c, more, rfl, hc⟩ := h
  exact opens_of_class hc rfl

theorem StartsData.append (h : StartsData cs) (rest : List Char) : StartsData (cs ++ rest) := by
  obtain ⟨c, more, rfl, hc⟩ := h
  exact ⟨c, more ++ rest, rfl, hc⟩

/-! ## Expressions that need no parentheses -/

theorem NoLiteral.skip (h : NoLiteral cur) {f g k : String → Parser Expr} {l : Nat → Parser Expr} {p : Parser Expr} :
    ((codeText >>= f) <|> (termTypeText >>= g) <|> (intLiteral >>= l) <|> (stringLiteral >>= k) <|> p) cur = p cur := by
  rw [orElse_bind_of_none h.code, orElse_bind_of_none h.termType, orElse_bind_of_none h.int,
    orElse_bind_of_none h.string]

theorem atom_int {n : Nat} (hn : Text.hasDecimal n = true) (hrest : Stops rest) :
    Finds r.atom (Nat.toDigits 10 n) (fun e => ∃ span, e = .int span n) rest := by
  intro cur hcur
  have htoken := token_of_some hcur.rest_eq (intSize?_decimal [16, 2, 8] n hrest)
  have hint : intLiteral cur = some (n, cur.skipGap.advance (Nat.toDigits 10 n).length) := by
    rw [intLiteral, bind_of_some htoken, readable_decimal hn]
  have hbrace : '\x7b' ∉ cur.skipGap.rest.head? := by
    obtain ⟨c, more, htext, hc⟩ := exists_digit_head n
    rw [hcur.rest_eq, htext]
    simpa using ne_of_class hc rfl
  refine ⟨.int cur.skipGap.span n, _, ?_, rest_advance_skipGap hcur.rest_eq, _, rfl⟩
  rw [Rules.atom, bind_of_some (here_run cur), orElse_bind_of_none (codeText_of_not_brace hbrace),
    orElse_bind_of_none (termTypeText_of_not_brace hbrace)]
  refine orElse_of_some ?_
  rw [bind_of_some hint]
  rfl

theorem atom_string {s : String} (hs : '\r' ∉ s.toList) :
    Finds r.atom (Text.scriptText s).toList (fun e => ∃ span, e = .string span s) rest := by
  intro cur hcur
  have htoken := token_of_some hcur.rest_eq (stringSize?_script hs)
  have hstring : stringLiteral cur = some (s, cur.skipGap.advance (Text.scriptText s).toList.length) := by
    rw [stringLiteral, bind_of_some htoken, stringValue_script]
    rfl
  have hhead : cur.skipGap.rest.head? = some '"' := by rw [hcur.rest_eq, toList_scriptText]; rfl
  have hbrace : '\x7b' ∉ cur.skipGap.rest.head? := by rw [hhead]; decide
  have hint : intLiteral cur = none := by
    refine intLiteral_of_head fun c hc => ?_
    rw [hhead] at hc
    cases hc
    decide
  refine ⟨.string cur.skipGap.span s, _, ?_, rest_advance_skipGap hcur.rest_eq, _, rfl⟩
  rw [Rules.atom, bind_of_some (here_run cur), orElse_bind_of_none (codeText_of_not_brace hbrace),
    orElse_bind_of_none (termTypeText_of_not_brace hbrace), orElse_bind_of_none hint]
  refine orElse_of_some ?_
  rw [bind_of_some hstring]
  rfl

theorem atom_unit : Finds r.atom ['(', ')'] (fun e => ∃ span, e = .tuple span []) rest := by
  intro cur hcur
  have hliteral : NoLiteral cur := noLiteral_of_cons hcur.rest_eq rfl
  obtain ⟨cur1, hopen, hcur1⟩ := literal_opening (s := "(") hcur (solid_cons rfl) rfl rfl
  obtain ⟨cur2, hclose, hrest⟩ := literal_closing (s := ")") hcur1.rest_eq
  refine ⟨.tuple cur.skipGap.span [], cur2, ?_, hrest, _, rfl⟩
  rw [Rules.atom, bind_of_some (here_run cur), hliteral.skip]
  refine orElse_of_some ?_
  rw [bind_of_some hopen, bind_of_some hclose]
  rfl

/-- What the expressions between parentheses mean: a single one itself, several a tuple. -/
def parenthesized (span : Span) : List Expr → Expr
  | [e] => .paren span e
  | es => .tuple span es

theorem atom_paren {Q : List Expr → Prop} (hcs : StartsData cs) (hp : Finds (sepBy1 r.expr) cs Q (')' :: rest)) :
    Finds r.atom ('(' :: (cs ++ [')'])) (fun e => ∃ span es, Q es ∧ e = parenthesized span es) rest := by
  intro cur hcur
  obtain ⟨es, cur', hrun, hrest, hes⟩ := brackets_run (β := Expr) "(" ")" rfl rfl rfl (hcs.opens.solid _)
    (hp.reaches (solid_cons rfl)) hcur
  have hliteral : NoLiteral cur := noLiteral_of_cons hcur.rest_eq rfl
  have hempty := brackets_of_class (β := Expr) "(" ")" rfl rfl rfl hcs rfl (hcs.opens.solid _) hcur
  refine ⟨parenthesized cur.skipGap.span es, cur', ?_, hrest, _, es, hes, rfl⟩
  rw [Rules.atom, bind_of_some (here_run cur), hliteral.skip, orElse_of_none (hempty _)]
  refine orElse_of_some ((hrun _).trans ?_)
  rcases es with _ | ⟨e, _ | ⟨e', es⟩⟩ <;> rfl

theorem atom_array {Q : List Expr → Prop} (hcs : Solid (cs ++ ']' :: rest))
    (hp : Reaches (sepBy r.expr) cs Q (']' :: rest)) :
    Finds r.atom ('[' :: (cs ++ [']'])) (fun e => ∃ span es, Q es ∧ e = .array span es) rest := by
  intro cur hcur
  obtain ⟨es, cur', hrun, hrest, hes⟩ := brackets_run (β := Expr) "[" "]" rfl rfl rfl hcs hp hcur
  have hliteral : NoLiteral cur := noLiteral_of_cons hcur.rest_eq rfl
  have hparen := literal_of_cons "(" hcur.rest_eq rfl
  refine ⟨.array cur.skipGap.span es, cur', ?_, hrest, _, es, hes, rfl⟩
  rw [Rules.atom, bind_of_some (here_run cur), hliteral.skip, orElse_bind_of_none hparen,
    orElse_bind_of_none hparen]
  exact orElse_of_some (hrun _)

theorem atom_record {Q : List (String × Expr) → Prop} (hcs : Solid (cs ++ '\x7d' :: rest))
    (hhead : ∀ c ∈ (cs ++ '\x7d' :: rest).head?, c ≠ '\x7b' ∧ c ≠ '|')
    (hp : Reaches (sepBy r.field) cs Q ('\x7d' :: rest)) :
    Finds r.atom ('\x7b' :: (cs ++ ['\x7d'])) (fun e => ∃ span fields, Q fields ∧ e = .record span fields) rest := by
  intro cur hcur
  obtain ⟨fields, cur', hrun, hrest, hfields⟩ := brackets_run (β := Expr) "\x7b" "\x7d" rfl rfl rfl hcs hp hcur
  have hliteral : NoLiteral cur := by
    obtain ⟨c, more, hnext⟩ : ∃ c more, cs ++ '\x7d' :: rest = c :: more := List.exists_cons_of_ne_nil (by simp)
    obtain ⟨hbrace, hbar⟩ := hhead c (by simp [hnext])
    have hskip : cur.skipGap.rest = '\x7b' :: c :: more := by simp [hcur.rest_eq, ← hnext]
    exact noLiteral_of_brace hskip hbrace hbar
  have hparen := literal_of_cons "(" hcur.rest_eq rfl
  have hbracket := literal_of_cons "[" hcur.rest_eq rfl
  refine ⟨.record cur.skipGap.span fields, cur', ?_, hrest, _, fields, hfields, rfl⟩
  rw [Rules.atom, bind_of_some (here_run cur), hliteral.skip, orElse_bind_of_none hparen,
    orElse_bind_of_none hparen, orElse_bind_of_none hbracket,
    orElse_bind_of_none (keyword_of_cons "do" hcur.rest_eq rfl)]
  exact orElse_of_some (hrun _)

theorem isLiteralStart_of_isNameStart (h : isNameStart c = true) : isLiteralStart c = false := by
  have hbrace : c ≠ '\x7b' := ne_of_class h rfl
  have hquote : c ≠ '"' := ne_of_class h rfl
  simp [isLiteralStart, hbrace, hquote, isDecimalDigit_of_isNameStart h]

theorem atom_name (h : IsIdentifier name) (hrest : Stops rest) :
    Finds r.atom name.toList (fun e => ∃ span, e = .var span name) rest := by
  intro cur hcur
  obtain ⟨cur', hread, hrest'⟩ := h.reads hrest cur hcur
  obtain ⟨c, part, htext, hc, -⟩ := runShape_name.exists_chars h.isName
  have hstart : isNameStart c = true := runShape_name.start hc
  have hskip : cur.skipGap.rest = c :: (part ++ rest) := by rw [hcur.rest_eq, htext]; rfl
  have hliteral : NoLiteral cur := noLiteral_of_cons hskip (isLiteralStart_of_isNameStart hstart)
  have hparen := literal_of_ne "(" hskip (ne_of_class hstart rfl) rfl
  have hbracket := literal_of_ne "[" hskip (ne_of_class hstart rfl) rfl
  have hbrace := literal_of_ne "\x7b" hskip (ne_of_class hstart rfl) rfl
  have hdo : keyword "do" cur = none :=
    h.isName.keyword_eq_none runShape_name.nameShape keywords_end hrest hcur "do" (by decide)
  refine ⟨.var cur.skipGap.span name, cur', ?_, hrest', _, rfl⟩
  rw [Rules.atom, bind_of_some (here_run cur), hliteral.skip, orElse_bind_of_none hparen,
    orElse_bind_of_none hparen, orElse_bind_of_none hbracket, orElse_bind_of_none hdo,
    orElse_bind_of_none hbrace, bind_of_some hread]
  rfl

/-! ## Where expressions end -/

theorem selection_of_none (h : r.atom cur = none) : r.selection cur = none := by
  rw [Rules.selection, bind_of_some (here_run cur)]
  exact bind_of_none h

/-- An expression that starts with no word and no backslash starts with an expression that needs no parentheses. -/
theorem expression_of_none (hlet : keyword "let" cur = none) (hlambda : literal "\\" cur = none)
    (hif : keyword "if" cur = none) (hatom : r.atom cur = none) : r.expression cur = none := by
  have happlication : r.application cur = none := by
    rw [Rules.application, bind_of_some (here_run cur)]
    exact bind_of_none (selection_of_none hatom)
  have hoperation : r.operation cur = none := bind_of_none happlication
  rw [Rules.expression, bind_of_some (here_run cur), orElse_bind_of_none hlet, orElse_bind_of_none hlambda,
    orElse_bind_of_none hif, bind_of_none hoperation]

theorem ItemEnd.head {p : Char → Bool} (h : ItemEnd rest) (hp : [',', ')', ']', '\x7d'].any p = false) :
    ∀ c ∈ rest.head?, p c = false := by
  intro c hc
  exact Bool.eq_false_iff.2 (List.any_eq_false.1 hp c (h c hc))

section
variable (h : ItemEnd cur.skipGap.rest)
include h

theorem atom_of_end : r.atom cur = none := by
  have hliteral : NoLiteral cur := noLiteral_of_head (h.head (by decide))
  have hname : identifier cur = none :=
    named_of_none rfl (runShape_name.size_of_head (h.head (by decide)))
  rw [Rules.atom, bind_of_some (here_run cur), hliteral.skip, orElse_bind_of_none (literal_of_outside "(" h rfl),
    orElse_bind_of_none (literal_of_outside "(" h rfl), orElse_bind_of_none (literal_of_outside "[" h rfl),
    orElse_bind_of_none (keyword_of_outside "do" h rfl), orElse_bind_of_none (literal_of_outside "\x7b" h rfl),
    bind_of_none hname]

theorem selector_of_end (span : Span) : r.selector span cur = none := by
  have hdot := literal_of_outside "." h rfl
  rw [Rules.selector, orElse_bind_of_none hdot, orElse_bind_of_none hdot, bind_of_none (literal_of_outside "@" h rfl)]

theorem symbol_of_end (s : String) {stops : List Char} (hs : startsOutside [',', ')', ']', '\x7d'] s = true) :
    symbol s stops cur = none := by
  refine bind_of_none (token_of_none rfl ?_)
  have hstart : s.toList.isPrefixOf cur.skipGap.rest = false :=
    isPrefixOf_of_head (ne_nil_of_startsOutside hs) (head_of_startsOutside hs h)
  simp [hstart]

theorem binaryOp_of_end : binaryOp cur = none := by
  rw [binaryOp, bind_of_some (here_run cur)]
  refine bind_of_none ?_
  simp only [orElse_run, bind_of_none (symbol_of_end h "*" rfl), bind_of_none (symbol_of_end h "/" rfl),
    bind_of_none (symbol_of_end h "%" rfl), bind_of_none (symbol_of_end h "+" rfl),
    bind_of_none (symbol_of_end h "-" rfl), bind_of_none (symbol_of_end h "==" rfl),
    bind_of_none (symbol_of_end h "!=" rfl), bind_of_none (symbol_of_end h "<=" rfl),
    bind_of_none (symbol_of_end h ">=" rfl), bind_of_none (symbol_of_end h "<" rfl),
    bind_of_none (symbol_of_end h ">" rfl), bind_of_none (symbol_of_end h "&&" rfl),
    bind_of_none (symbol_of_end h "||" rfl), Option.or_none]

theorem expression_of_end : r.expression cur = none :=
  expression_of_none (keyword_of_outside "let" h rfl) (literal_of_outside "\\" h rfl) (keyword_of_outside "if" h rfl)
    (atom_of_end h)

theorem exprAt_of_end {depth : Nat} : exprAt depth cur = none := by
  cases depth with
  | zero => rfl
  | succ depth => exact expression_of_end h

end

theorem operation_of_atom {Q : Expr → Prop} (hatom : Finds r.atom cs Q rest) (hrest : ItemEnd rest) :
    Finds r.operation cs Q rest := by
  intro cur hcur
  obtain ⟨e, cur', hread, hrest', he⟩ := hatom cur hcur
  have hend : ItemEnd cur'.skipGap.rest := hrest.skipGap hrest'
  have hselection : r.selection cur = some (e, cur') := by
    rw [Rules.selection, bind_of_some (here_run cur), bind_of_some hread,
      bind_of_some (many_of_none (selector_of_end hend _))]
    rfl
  have hnext : r.selection cur' = none := selection_of_none (atom_of_end hend)
  have happlication : r.application cur = some (e, cur') := by
    rw [Rules.application, bind_of_some (here_run cur), bind_of_some hselection, bind_of_some (many_of_none hnext)]
    rfl
  have hoperations : operations binaryOp r.application cur' = some ([], cur') := by
    unfold operations
    cases cur'.rest.length <;> simp [operationsIn, binaryOp_of_end hend]
  refine ⟨e, cur', ?_, hrest', he⟩
  rw [Rules.operation, bind_of_some happlication, bind_of_some hoperations]
  rfl

theorem expression_of_atom {Q : Expr → Prop} (hcs : StartsData cs) (hatom : Finds r.atom cs Q rest)
    (hrest : ItemEnd rest) : Finds r.expression cs Q rest := by
  intro cur hcur
  obtain ⟨e, cur', hread, hrest', he⟩ := operation_of_atom hatom hrest cur hcur
  obtain ⟨c, more, rfl, hc⟩ := hcs
  have hlet : keyword "let" cur = none :=
    keyword_of_head hcur.rest_eq (by simpa using (ne_of_class hc (d := 'l') rfl).symm) (by decide)
  have hif : keyword "if" cur = none :=
    keyword_of_head hcur.rest_eq (by simpa using (ne_of_class hc (d := 'i') rfl).symm) (by decide)
  have htype : opt (do literal ":"; typeExpr) cur' = some (none, cur') := by
    simp [opt, bind_of_none (literal_of_outside ":" (hrest.skipGap hrest') rfl)]
  refine ⟨e, cur', ?_, hrest', he⟩
  rw [Rules.expression, bind_of_some (here_run cur), orElse_bind_of_none hlet,
    orElse_bind_of_none (literal_of_ne "\\" hcur.rest_eq (ne_of_class hc rfl) rfl), orElse_bind_of_none hif,
    bind_of_some hread, bind_of_some htype]
  rfl

end VeriScript.Reading
