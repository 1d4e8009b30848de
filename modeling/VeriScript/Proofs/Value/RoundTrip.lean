import VeriScript.Proofs.Reading.Expression
import VeriScript.Proofs.Run.Outcome

/-!
# Data read back from its text

* `Value.IsData` — the values whose texts are expressions; `Value.IsShort` — integers that are not too long for them.
* `Value.Evaluates` — an expression evaluates to a value equal to a given one, wherever the names `true` and `false`
  have their meaning.
* `Value.chars` — the text of a value.
* `Value.exprAt_finds` — reading the text of data takes all of it and gives an expression that evaluates to the data.
* `parseExpression_shown` — data is read back from its text.
-/

namespace VeriScript

open VeriScript.Reading

namespace Value

/-! ## Data -/

/-- Values without functions, actions and terms, whose texts are expressions.  No integer in them is negative, and all
of them satisfy `I`. -/
inductive IsData (I : Nat → Prop) : Value → Prop
  | unit : IsData I .unit
  | bool (b : Bool) : IsData I (.bool b)
  | int {n : Nat} (hn : I n) : IsData I (.int n)
  | string {s : String} (hs : '\r' ∉ s.toList) : IsData I (.string s)
  | array {elems : List Value} (helems : ∀ v ∈ elems, IsData I v) : IsData I (.array elems)
  | tuple {elems : List Value} (hlength : 2 ≤ elems.length) (helems : ∀ v ∈ elems, IsData I v) :
    IsData I (.tuple elems)
  | record {fields : List (String × Value)} (hdistinct : (Table.names fields).Nodup)
    (hnames : ∀ f ∈ fields, IsIdentifier f.1) (hvalues : ∀ f ∈ fields, IsData I f.2) : IsData I (.record fields)

/-- The number is not too long for a decimal text. -/
def IsShort (n : Nat) : Prop :=
  Text.hasDecimal n = true

theorem mem_numeralsList {base n : Int} {vs : List Value} :
    n ∈ numeralsList base vs ↔ ∃ v ∈ vs, n ∈ v.numerals base := by
  induction vs with
  | nil => simp [numeralsList]
  | cons v vs ih => simp [numeralsList, ih]

theorem mem_numeralsFields {base n : Int} {fields : List (String × Value)} :
    n ∈ numeralsFields base fields ↔ ∃ f ∈ fields, n ∈ f.2.numerals base := by
  induction fields with
  | nil => simp [numeralsFields]
  | cons f fields ih => simp [numeralsFields, ih]

variable {I : Nat → Prop} {v : Value} {as bs : List Value}

/-- Where all integers can be written, no integer in data is too long. -/
theorem IsData.isShort (h : v.IsData I) (hall : ∀ n ∈ v.numerals 10, Text.hasDecimal n = true) : v.IsData IsShort := by
  induction h with
  | unit => exact .unit
  | bool b => exact .bool b
  | int hn => exact .int (hall _ List.mem_cons_self)
  | string hs => exact .string hs
  | array helems ih => exact .array fun v hv => ih v hv fun n hn => hall n (mem_numeralsList.2 ⟨v, hv, hn⟩)
  | tuple hlength helems ih =>
    exact .tuple hlength fun v hv => ih v hv fun n hn => hall n (mem_numeralsList.2 ⟨v, hv, hn⟩)
  | record hdistinct hnames hvalues ih =>
    exact .record hdistinct hnames fun f hf => ih f hf fun n hn => hall n (mem_numeralsFields.2 ⟨f, hf, hn⟩)

/-! ## Equality -/

def Same (a b : Value) : Prop :=
  a.equal b = .ok true

theorem equalList_of_forall₂ (h : List.Forall₂ Same as bs) : equalList as bs = .ok true := by
  induction h with
  | nil => rfl
  | @cons a b as bs hab hrest ih =>
    have hab : a.equal b = .ok true := hab
    simp [equalList, hab, ih, bind, Except.bind]

theorem same_array (h : List.Forall₂ Same as bs) : Same (.array as) (.array bs) := by
  simp [Same, equal, h.length_eq, equalList_of_forall₂ h]

theorem same_tuple (h : List.Forall₂ Same as bs) : Same (.tuple as) (.tuple bs) := by
  simp [Same, equal, h.length_eq, equalList_of_forall₂ h]

theorem equalFields_of_get? {fs gs : List (String × Value)}
    (h : ∀ f ∈ fs, ∃ b, Table.get? gs f.1 = some b ∧ Same f.2 b) : equalFields fs gs = .ok true := by
  induction fs with
  | nil => rfl
  | cons f fs ih =>
    obtain ⟨name, a⟩ := f
    obtain ⟨⟨b, hget, hab⟩, hfs⟩ := List.forall_mem_cons.1 h
    have hab : a.equal b = .ok true := hab
    simp only [equalFields, hget, hab, ih hfs, bind, Except.bind, if_true]

theorem sameNames_of_perm {fs gs : List (String × Value)} (h : (Table.names fs).Perm (Table.names gs)) :
    Table.sameNames fs gs = true := by
  refine Table.sameNames_iff.2 fun name => ?_
  rw [Bool.eq_iff_iff, Table.has_iff_mem_names, Table.has_iff_mem_names, h.mem_iff]

theorem same_record {fields fields' : List (String × Value)} (hdistinct : (Table.names fields).Nodup)
    (h : SortedFields Same fields fields') : Same (.record fields) (.record (Table.ofList fields')) := by
  have hdistinct' : (Table.names fields').Nodup := h.names_perm.nodup_iff.1 hdistinct
  have hfields : ∀ f ∈ fields, ∃ b, Table.get? fields' f.1 = some b ∧ Same f.2 b := by
    intro f hf
    obtain ⟨⟨_, b⟩, hg, hname⟩ := List.mem_map.1 (h.names_perm.subset (List.mem_map.2 ⟨f, hf, rfl⟩))
    obtain rfl : _ = f.1 := hname
    exact ⟨b, Table.get?_of_mem hdistinct' hg, h.related hdistinct hf hg⟩
  rw [Table.ofList_of_nodup hdistinct']
  simp [Same, equal, sameNames_of_perm h.names_perm, equalFields_of_get? hfields]

/-! ## Evaluation -/

/-- The names of the booleans have their meaning. -/
def HasBools (s : Session) : Prop :=
  ∀ b : Bool, Table.get? s.values (if b then "true" else "false") = some (.bool b)

/-- Wherever the names of the booleans have their meaning, the expression evaluates to a value equal to `v`. -/
def Evaluates (v : Value) (e : Expr) : Prop :=
  ∀ (call : Call) (ctx : Context) (w : World), HasBools w.session → Run.Succeeds (evalExpr call ctx [] e) w v.Same

section
variable {span : Span}

theorem evaluates_unit : Evaluates .unit (.tuple span []) := by
  intro call ctx w hw
  rw [evalExpr]
  refine .bind (.trace _ _) fun _ w' _ _ => ?_
  rw [evalExprs]
  exact .bind (.pure (P := (· = [])) rfl) fun vs _ _ hvs => .pure (by subst hvs; rfl)

theorem evaluates_bool (b : Bool) : Evaluates (.bool b) (.var span (if b then "true" else "false")) := by
  intro call ctx w hw
  rw [evalExpr]
  refine .bind (.trace _ _) fun _ w' hw' _ => ?_
  rw [evalName]
  refine .bind .session fun s _ _ hs => ?_
  rw [hs, hw'.session_eq, Env.lookup, Option.none_or, hw b]
  refine .pure ?_
  cases b <;> rfl

theorem evaluates_int (n : Nat) : Evaluates (.int n) (.int span n) := by
  intro call ctx w hw
  rw [evalExpr]
  exact .bind (.trace _ _) fun _ _ _ _ => .pure (by simp [Same, equal, isFunctional])

theorem evaluates_string (s : String) : Evaluates (.string s) (.string span s) := by
  intro call ctx w hw
  rw [evalExpr]
  exact .bind (.trace _ _) fun _ _ _ _ => .pure (by simp [Same, equal, isFunctional])

variable {vs : List Value} {es : List Expr}

theorem evalExprs_succeeds {call : Call} {ctx : Context}
    (h : List.Forall₂ Evaluates vs es) {w : World} (hw : HasBools w.session) :
    Run.Succeeds (evalExprs call ctx [] es) w (List.Forall₂ Same vs) := by
  induction h generalizing w with
  | nil =>
    rw [evalExprs]
    exact .pure .nil
  | cons he hes ih =>
    rw [evalExprs]
    refine .bind (he call ctx w hw) fun v w' hw' hv => ?_
    refine .bind (ih (hw'.session_eq ▸ hw)) fun vs _ _ hvs => ?_
    exact .pure (.cons hv hvs)

theorem evaluates_array (h : List.Forall₂ Evaluates vs es) : Evaluates (.array vs) (.array span es) := by
  intro call ctx w hw
  rw [evalExpr]
  refine .bind (.trace _ _) fun _ w' hw' _ => ?_
  refine .bind (evalExprs_succeeds h (hw'.session_eq ▸ hw)) fun vs' _ _ hvs => ?_
  exact .pure (same_array hvs)

theorem evaluates_tuple (hne : vs ≠ []) (h : List.Forall₂ Evaluates vs es) :
    Evaluates (.tuple vs) (.tuple span es) := by
  intro call ctx w hw
  rw [evalExpr]
  refine .bind (.trace _ _) fun _ w' hw' _ => ?_
  refine .bind (evalExprs_succeeds h (hw'.session_eq ▸ hw)) fun vs' _ _ hvs => ?_
  cases hvs with
  | nil => exact absurd rfl hne
  | cons hv hvs => exact .pure (same_tuple (.cons hv hvs))

theorem evalFields_succeeds {call : Call} {ctx : Context} {fields : List (String × Value)}
    {exprs : List (String × Expr)} (h : List.Forall₂ (fun f g => g.1 = f.1 ∧ Evaluates f.2 g.2) fields exprs)
    {w : World} (hw : HasBools w.session) : Run.Succeeds (evalFields call ctx [] exprs) w
      (List.Forall₂ (fun f g => g.1 = f.1 ∧ Same f.2 g.2) fields) := by
  induction h generalizing w with
  | nil =>
    rw [evalFields]
    exact .pure .nil
  | @cons f g fields exprs hfg hrest ih =>
    obtain ⟨name, e⟩ := g
    obtain ⟨hname, he⟩ := hfg
    rw [evalFields]
    refine .bind (he call ctx w hw) fun v w' hw' hv => ?_
    refine .bind (ih (hw'.session_eq ▸ hw)) fun vs _ _ hvs => ?_
    exact .pure (.cons ⟨hname, hv⟩ hvs)

theorem evaluates_record {fields : List (String × Value)} {exprs : List (String × Expr)}
    (hdistinct : (Table.names fields).Nodup) (h : SortedFields Evaluates fields exprs) :
    Evaluates (.record fields) (.record span exprs) := by
  intro call ctx w hw
  rw [evalExpr]
  refine .bind (.trace _ _) fun _ w' hw' _ => ?_
  refine .bind (evalFields_succeeds h (hw'.session_eq ▸ hw)) fun fields' _ _ hfields => ?_
  exact .pure (same_record hdistinct hfields)

end

/-! ## Texts -/

/-- The text of a value. -/
def chars (v : Value) : List Char :=
  (v.render .standard).toList

def fieldChars (f : String × Value) : List Char :=
  f.1.toList ++ ' ' :: '=' :: ' ' :: f.2.chars

theorem renderList_eq (display : Display) (vs : List Value) : renderList display vs = vs.map (render display) := by
  induction vs with
  | nil => rfl
  | cons v vs ih => exact congrArg (render display v :: ·) ih

theorem renderFields_eq (display : Display) (fields : List (String × Value)) :
    renderFields display fields = fields.map fun f => (f.1, f.2.render display) := by
  induction fields with
  | nil => rfl
  | cons f fields ih => exact congrArg ((f.1, render display f.2) :: ·) ih

theorem chars_unit : Value.unit.chars = ['(', ')'] := by decide

theorem chars_int (n : Nat) : (Value.int n).chars = Nat.toDigits 10 n := by
  simp [chars, render, Display.standard, Text.inBase, Text.decimal, Text.decimalNat]

theorem chars_string (s : String) : (Value.string s).chars = (Text.scriptText s).toList := rfl

theorem map_chars (vs : List Value) : vs.map chars = (renderList .standard vs).map String.toList := by
  rw [renderList_eq, List.map_map]
  rfl

theorem chars_array (elems : List Value) :
    (Value.array elems).chars = '[' :: (commaChars (elems.map chars) ++ [']']) := by
  rw [map_chars, ← toList_commas]
  simp [chars, render]

theorem chars_tuple (elems : List Value) :
    (Value.tuple elems).chars = '(' :: (commaChars (elems.map chars) ++ [')']) := by
  rw [map_chars, ← toList_commas]
  simp [chars, render]

theorem chars_record (fields : List (String × Value)) :
    (Value.record fields).chars = '\x7b' :: (commaChars ((Table.sortByName fields).map fieldChars) ++ ['\x7d']) := by
  have htexts : (Table.sortByName fields).map fieldChars =
      ((Table.sortByName (renderFields .standard fields)).map fun f => f.1 ++ " = " ++ f.2).map String.toList := by
    simp [renderFields_eq, Table.sortByName_map, fieldChars, chars]
  rw [htexts, ← toList_commas]
  simp [chars, render]

theorem IsData.startsData (h : v.IsData I) : StartsData v.chars := by
  cases h with
  | unit => exact ⟨'(', _, chars_unit, by decide⟩
  | bool b => cases b <;> exact ⟨_, _, rfl, by decide⟩
  | @int n hn =>
    obtain ⟨c, cs, htext, hc⟩ := exists_digit_head n
    exact ⟨c, cs, by rw [chars_int, htext], by simp [isDataStart, hc]⟩
  | string hs => exact ⟨'"', _, (chars_string _).trans (toList_scriptText _), by decide⟩
  | array helems => exact ⟨'[', _, chars_array _, by decide⟩
  | tuple hlength helems => exact ⟨'(', _, chars_tuple _, by decide⟩
  | record hdistinct hnames hvalues => exact ⟨'\x7b', _, chars_record _, by decide⟩

theorem tab_not_mem_scriptText (s : String) : '\t' ∉ (Text.scriptText s).toList := by
  have hchar : ∀ c, '\t' ∉ Text.scriptChar c := by
    intro c
    unfold Text.scriptChar
    split_ifs <;> simp_all [eq_comm]
  simp [toList_scriptText, hchar]

theorem IsData.tab_not_mem (h : v.IsData I) : '\t' ∉ v.chars := by
  induction h with
  | unit => decide
  | bool b => cases b <;> decide
  | @int n hn =>
    intro hmem
    exact absurd (isDigit_of_mem_decimal _ (chars_int n ▸ hmem)) (by decide)
  | string hs => exact tab_not_mem_scriptText _
  | array helems ih => simp [chars_array, tab_not_mem_commaChars (List.forall_mem_map.2 ih)]
  | tuple hlength helems ih => simp [chars_tuple, tab_not_mem_commaChars (List.forall_mem_map.2 ih)]
  | @record fields hdistinct hnames hvalues ih =>
    have hcomma : '\t' ∉ commaChars ((Table.sortByName fields).map fieldChars) := by
      refine tab_not_mem_sortedFields fun f hf => ?_
      have hname := (hnames f hf).isName.tab_not_mem runShape_name.nameShape
      simp [fieldChars, hname, ih f hf]
    simp [chars_record, hcomma]

/-! ## Reading -/

/-- Data with a text of at most `n` characters is read as an expression that evaluates to it. -/
def ReadWithin (p : Parser Expr) (n : Nat) : Prop :=
  ∀ v : Value, v.IsData IsShort → v.chars.length ≤ n → ∀ rest, ItemEnd rest → Finds p v.chars v.Evaluates rest

section
variable {r : Rules} {n : Nat} {v : Value} {rest : List Char} (hexpr : ReadWithin r.expr n)
include hexpr

theorem atom_elems {vs : List Value} (hlength : 2 ≤ vs.length) (hvs : ∀ v ∈ vs, v.IsData IsShort)
    (hn : (Value.tuple vs).chars.length ≤ n + 1) :
    Finds r.atom (Value.tuple vs).chars (Value.tuple vs).Evaluates rest := by
  rw [chars_tuple] at hn ⊢
  simp only [List.length_cons, List.length_append, List.length_nil] at hn
  obtain ⟨u, us, rfl⟩ : ∃ u us, vs = u :: us := List.exists_cons_of_length_pos (by omega)
  have helems : Finds (Parser.sepBy1 r.expr) (commaChars ((u :: us).map chars)) (List.Forall₂ Evaluates (u :: us))
      (')' :: rest) := by
    refine sepBy1_finds (fun v hv more => (hvs v hv).startsData.opens.solid more) (fun v hv more hmore => ?_)
      ⟨_, _, rfl, by decide⟩
    have hle := length_le_commaChars (List.mem_map_of_mem (f := chars) hv)
    exact hexpr v (hvs v hv) (by omega) more hmore
  refine (atom_paren ?_ helems).imp ?_
  · rw [List.map_cons, commaChars_cons]
    exact (hvs u List.mem_cons_self).startsData.append _
  · rintro _ ⟨span, es, hes, rfl⟩
    have hsize := hes.length_eq
    rcases es with _ | ⟨e, _ | ⟨e', es⟩⟩
    · simp at hsize
    · simp_all
    · exact evaluates_tuple (by simp) hes

theorem atom_items {vs : List Value} (hvs : ∀ v ∈ vs, v.IsData IsShort) (hn : (Value.array vs).chars.length ≤ n + 1)
    (hnone : ∀ cur : Cursor, cur.skipGap.rest = ']' :: rest → r.expr cur = none) :
    Finds r.atom (Value.array vs).chars (Value.array vs).Evaluates rest := by
  rw [chars_array] at hn ⊢
  simp only [List.length_cons, List.length_append, List.length_nil] at hn
  have hitems :
      Reaches (Parser.sepBy r.expr) (commaChars (vs.map chars)) (List.Forall₂ Evaluates vs) (']' :: rest) := by
    refine sepBy_reaches (fun v hv more => (hvs v hv).startsData.opens.solid more) (fun v hv more hmore => ?_)
      ⟨_, _, rfl, by decide⟩ hnone
    have hle := length_le_commaChars (List.mem_map_of_mem (f := chars) hv)
    exact hexpr v (hvs v hv) (by omega) more hmore
  refine (atom_array ?_ hitems).imp ?_
  · exact solid_commaChars (fun v hv => (hvs v hv).startsData.opens) (solid_cons rfl)
  · rintro _ ⟨span, es, hes, rfl⟩
    exact evaluates_array hes

theorem atom_fields {fields : List (String × Value)} (hdistinct : (Table.names fields).Nodup)
    (hnames : ∀ f ∈ fields, IsIdentifier f.1) (hvalues : ∀ f ∈ fields, f.2.IsData IsShort)
    (hn : (Value.record fields).chars.length ≤ n + 1) :
    Finds r.atom (Value.record fields).chars (Value.record fields).Evaluates rest := by
  rw [chars_record] at hn ⊢
  obtain ⟨hsolid, hfields⟩ : Solid (_ ++ '\x7d' :: rest) ∧
      Reaches (Parser.sepBy r.field) _ (SortedFields Evaluates fields) ('\x7d' :: rest) := by
    refine fields_reach "=" (d := '=') (by decide) (by decide) hnames
      (fun f hf => (hvalues f hf).startsData.opens) (fun f hf => hexpr f.2 (hvalues f hf) ?_) rfl
    have hle := length_le_sortedFields hf fieldChars
    simp only [fieldChars, List.length_cons, List.length_append, List.length_nil] at hle hn
    omega
  refine (atom_record hsolid ?_ hfields).imp ?_
  · cases hsorted : Table.sortByName fields with
    | nil => simp [commaChars]
    | cons f fs =>
      have hf : f ∈ fields := (Table.perm_sortByName fields).mem_iff.1 (by simp [hsorted])
      obtain ⟨c, part, htext, hc, -⟩ := runShape_name.exists_chars (hnames f hf).isName
      have hstart : isNameStart c = true := runShape_name.start hc
      rw [List.map_cons, commaChars_cons, htext]
      intro d hd
      cases hd
      exact ⟨ne_of_class hstart rfl, ne_of_class hstart rfl⟩
  · rintro _ ⟨span, es, hes, rfl⟩
    exact evaluates_record hdistinct hes

theorem atom_finds (h : v.IsData IsShort) (hn : v.chars.length ≤ n + 1) (hrest : ItemEnd rest)
    (hnone : ∀ cur : Cursor, cur.skipGap.rest = ']' :: rest → r.expr cur = none) :
    Finds r.atom v.chars v.Evaluates rest := by
  cases h with
  | unit =>
    rw [chars_unit]
    refine atom_unit.imp ?_
    rintro _ ⟨span, rfl⟩
    exact evaluates_unit
  | bool b =>
    refine (atom_name ?_ hrest.stops).imp ?_
    · cases b <;> rfl
    · rintro _ ⟨span, rfl⟩
      exact evaluates_bool b
  | @int m hm =>
    rw [chars_int]
    refine (atom_int hm hrest.stops).imp ?_
    rintro _ ⟨span, rfl⟩
    exact evaluates_int m
  | @string s hs =>
    refine (atom_string hs).imp ?_
    rintro _ ⟨span, rfl⟩
    exact evaluates_string s
  | array helems => exact atom_items hexpr helems hn hnone
  | tuple hlength helems => exact atom_elems hexpr hlength helems hn
  | record hdistinct hnames hvalues => exact atom_fields hexpr hdistinct hnames hvalues hn

end

theorem exprAt_finds (depth : Nat) : ReadWithin (exprAt depth) depth := by
  induction depth with
  | zero =>
    intro v h hn rest hrest
    have hpos := h.startsData.opens.length_pos
    omega
  | succ depth ih =>
    intro v h hn rest hrest
    have hnone : ∀ cur : Cursor, cur.skipGap.rest = ']' :: rest → exprAt depth cur = none := by
      intro cur hcur
      refine exprAt_of_end (Closes.itemEnd ?_)
      exact ⟨_, _, hcur, by decide⟩
    have hatom : Finds (Rules.mk (exprAt depth) (stmtAt depth)).atom v.chars v.Evaluates rest :=
      atom_finds ih h hn hrest hnone
    exact expression_of_atom h.startsData hatom hrest

theorem expr_finds (h : v.IsData IsShort) {rest : List Char} (hrest : ItemEnd rest) :
    Finds Reading.expr v.chars v.Evaluates rest := by
  intro cur hcur
  refine exprAt_finds _ v h ?_ rest hrest cur hcur
  have hle := cur.length_skipGap_le
  rw [hcur.rest_eq, List.length_append] at hle
  omega

theorem hasBools_initial (options : Options) : HasBools (.initial options) := by
  intro b
  cases b <;> rfl

end Value

/-- Data is read back from its text: the text is an expression, and evaluated in an initial session it gives a value
equal to the data.  Data with an integer of more than 4300 digits has no text. -/
theorem parseExpression_shown {v : Value} (h : v.IsData fun _ => True) (file : String) :
    if (v.numerals 10).all Text.hasDecimal then
      ∃ text e, v.shown .standard = .ok text ∧ parseExpression file text = .ok e ∧
        ∀ (ctx : Context) (options : Options) (w : World), w.session = .initial options →
          ∃ v' w', ctx.eval [] e w = .ok v' w' ∧ v.equal v' = .ok true
    else v.shown .standard = .error .digits := by
  split
  · rename_i hshort
    have h := h.isShort (List.all_eq_true.1 hshort)
    have hsolid : Solid v.chars := by simpa using h.startsData.opens.solid []
    obtain ⟨e, hread, he⟩ := readAll_of_finds (Value.expr_finds h itemEnd_nil) h.tab_not_mem hsolid
    refine ⟨v.render .standard, e, if_pos hshort, by rw [parseExpression, parseAll, hread], fun ctx options w hw => ?_⟩
    have hbools : Value.HasBools w.session := hw ▸ Value.hasBools_initial options
    obtain ⟨v', w', heval, -, hsame⟩ := (he ctx.call ctx w hbools).exists_ok
    exact ⟨v', w', heval, hsame⟩
  · rename_i hlong
    exact if_neg hlong

/-- Data with every form, a text that needs escapes and a record that is not written in the order of its fields. -/
def nestedData : Value :=
  .array [.tuple [.int 12, .string "\"x\\32\n", .unit], .record [("y'", .bool false), ("_x", .array [])]]

theorem parseExpression_nestedData :
    nestedData.IsData (fun _ => True) ∧
      nestedData.shown .standard = .ok "[(12, \"\\\"x\\\\32\\n\", ()), \x7b_x = [], y' = false\x7d]" ∧
      ∃ e, parseExpression "" "[(12, \"\\\"x\\\\32\\n\", ()), \x7b_x = [], y' = false\x7d]" = .ok e ∧
        ∀ (ctx : Context) (options : Options) (w : World), w.session = .initial options →
          ∃ v' w', ctx.eval [] e w = .ok v' w' ∧ nestedData.equal v' = .ok true := by
  have hdata : nestedData.IsData fun _ => True := by
    refine .array ?_
    simp only [List.forall_mem_cons]
    refine ⟨.tuple (by decide) ?_, .record (by decide) ?_ ?_, List.forall_mem_nil _⟩
    · simp only [List.forall_mem_cons]
      exact ⟨.int (n := 12) trivial, .string (by decide), .unit, List.forall_mem_nil _⟩
    · simp only [List.forall_mem_cons]
      exact ⟨rfl, rfl, List.forall_mem_nil _⟩
    · simp only [List.forall_mem_cons]
      exact ⟨.bool false, .array (List.forall_mem_nil _), List.forall_mem_nil _⟩
  have hshown : nestedData.shown .standard =
      .ok "[(12, \"\\\"x\\\\32\\n\", ()), \x7b_x = [], y' = false\x7d]" := by cbv
  have hread := parseExpression_shown hdata ""
  rw [if_pos (by decide)] at hread
  obtain ⟨text, e, htext, hread, heval⟩ := hread
  cases hshown.symm.trans htext
  exact ⟨hdata, hshown, e, hread, heval⟩

theorem shown_singleton {n : Int} (h : Text.hasDecimal n = false) :
    (Value.array [.int n]).shown .standard = .error .digits := by
  simp [Value.shown, Value.numerals, Value.numeralsList, Text.decimals, Text.written, Display.standard, h]

/-- An integer that is too long is data without a text. -/
theorem longData_not_shown :
    ∃ n : Nat, (Value.array [.int n]).IsData (fun _ => True) ∧
      (Value.array [.int n]).shown .standard = .error .digits := by
  refine ⟨(10 ^ Text.maxDigits : Int).natAbs, .array (List.forall_mem_singleton.2 (.int trivial)), shown_singleton ?_⟩
  rw [hasDecimal_natAbs, hasDecimal_pow]

end VeriScript
