import VeriScript.Proofs.Reading.Type
import VeriScript.Proofs.Ty.Mono
import VeriScript.Reading.Source
import VeriScript.Ty.Printer

/-!
# Types read back from their texts

* `Ty.WellFormed` — the types that scripts can spell.
* `Ty.Rearranged` — the same type, up to the order of the fields of records.
* `Ty.chars`, `Ty.operandChars`, `Ty.atomChars` — the text of a type, next to an arrow, and as the result of a block.
* `Ty.typeAt_finds` — reading the text of a type takes all of it and gives the type.
* `parseSchema_render` — a schema is read back from its text.
-/

namespace VeriScript

open VeriScript.Reading

namespace Ty

/-! ## Types that scripts can spell -/

/-- The names with a meaning of their own in the text of a type. -/
def structuralNames : List String := ["Function", "Tuple", "List", "Block"]

/-- A kind of context, or a variable that stands for one. -/
inductive IsContext : Ty → Prop
  | kind (kind : ContextKind) : IsContext (.context kind)
  | var {name : String} (hname : IsTypeVar name) : IsContext (.var name)

/-- Every constructor has the arguments that its text shows, and every name can be read. -/
inductive WellFormed : Ty → Prop
  | fn {arg result : Ty} (harg : WellFormed arg) (hresult : WellFormed result) : WellFormed (.fn arg result)
  | list {elem : Ty} (helem : WellFormed elem) : WellFormed (.list elem)
  | block {context result : Ty} (hcontext : IsContext context) (hresult : WellFormed result) :
    WellFormed (.block context result)
  | tuple {elems : List Ty} (hlength : elems.length ≠ 1) (helems : ∀ t ∈ elems, WellFormed t) :
    WellFormed (.tuple elems)
  | con {name : String} (hplain : name ∉ structuralNames) (hname : IsTypeName name) : WellFormed (.con name [])
  | var {name : String} (hname : IsTypeVar name) : WellFormed (.var name)
  | record {fields : List (String × Ty)} (hdistinct : (Table.names fields).Nodup)
    (hnames : ∀ f ∈ fields, IsIdentifier f.1) (htypes : ∀ f ∈ fields, WellFormed f.2) : WellFormed (.record fields)

/-! ## Types up to the order of fields -/

/-- The same type, up to the order of the fields of records. -/
inductive Rearranged : Ty → Ty → Prop
  | con {name : String} {args args' : List Ty} (hlength : args.length = args'.length)
    (hargs : ∀ t t', (t, t') ∈ args.zip args' → Rearranged t t') : Rearranged (.con name args) (.con name args')
  | var (name : String) : Rearranged (.var name) (.var name)
  | record {fields fields' : List (String × Ty)} (hnames : (Table.names fields).Perm (Table.names fields'))
    (htypes : ∀ name t t', (name, t) ∈ fields → (name, t') ∈ fields' → Rearranged t t') :
    Rearranged (.record fields) (.record fields')

variable {name : String} {t : Ty}

theorem Rearranged.of_forall₂ {args args' : List Ty} (h : List.Forall₂ Rearranged args args') :
    Rearranged (.con name args) (.con name args') := by
  obtain ⟨hlength, hargs⟩ := List.forall₂_iff_zip.1 h
  exact .con hlength fun _ _ hmem => hargs hmem

theorem Rearranged.of_sorted {fields fields' : List (String × Ty)} (hdistinct : (Table.names fields).Nodup)
    (h : SortedFields Rearranged fields fields') : Rearranged (.record fields) (.record (Table.ofList fields')) := by
  rw [Table.ofList_of_nodup (h.names_perm.nodup_iff.1 hdistinct)]
  exact .record h.names_perm fun name t t' ht ht' => h.related hdistinct ht ht'

theorem Rearranged.mem_varNames {t t' : Ty} (h : t.Rearranged t') {x : String} (hx : x ∈ t'.varNames) :
    x ∈ t.varNames := by
  induction h with
  | con hlength hargs ih =>
    rw [mem_varNames_con] at hx ⊢
    obtain ⟨u', hu', hx⟩ := hx
    obtain ⟨u, hu, hux⟩ := exists_of_forall₂ (List.forall₂_iff_zip.2 ⟨hlength, fun hmem => ih _ _ hmem⟩) hu'
    exact ⟨u, hu, hux hx⟩
  | var name => exact hx
  | record hnames htypes ih =>
    rw [mem_varNames_record] at hx ⊢
    obtain ⟨f', hf', hx⟩ := hx
    obtain ⟨f, hf, hname⟩ := List.mem_map.1 (hnames.symm.subset (List.mem_map.2 ⟨f', hf', rfl⟩))
    exact ⟨f, hf, ih f.1 f.2 f'.2 hf (hname ▸ hf') hx⟩

/-! ## Texts -/

/-- The text of a type. -/
def chars (t : Ty) : List Char :=
  t.render.toList

/-- The text of a type in front of an arrow. -/
def operandChars (t : Ty) : List Char :=
  (t.argText t.render).toList

/-- The text of a type as the result of a block. -/
def atomChars (t : Ty) : List Char :=
  (t.atomText t.render).toList

def fieldChars (f : String × Ty) : List Char :=
  f.1.toList ++ ' ' :: ':' :: ' ' :: f.2.chars

theorem renderList_eq (ts : List Ty) : renderList ts = ts.map render := by
  induction ts with
  | nil => rfl
  | cons t ts ih => exact congrArg (render t :: ·) ih

theorem renderFields_eq (fields : List (String × Ty)) :
    renderFields fields = fields.map fun f => (f.1, f.2.render) := by
  induction fields with
  | nil => rfl
  | cons f fields ih => exact congrArg ((f.1, render f.2) :: ·) ih

theorem chars_fn (arg result : Ty) :
    (Ty.fn arg result).chars = arg.operandChars ++ ' ' :: '-' :: '>' :: ' ' :: result.chars := by
  simp [chars, operandChars, render]

theorem chars_list (elem : Ty) : (Ty.list elem).chars = '[' :: (elem.chars ++ [']']) := by
  simp [chars, render]

theorem chars_block (context result : Ty) :
    (Ty.block context result).chars = context.chars ++ ' ' :: result.atomChars := by
  simp [chars, atomChars, render]

theorem chars_tuple (elems : List Ty) :
    (Ty.tuple elems).chars = '(' :: (commaChars (elems.map chars) ++ [')']) := by
  have htexts : elems.map chars = (renderList elems).map String.toList := by
    rw [renderList_eq, List.map_map]
    rfl
  rw [htexts, ← toList_commas]
  simp [chars, render]

theorem chars_con (hplain : name ∉ structuralNames) : (Ty.con name []).chars = name.toList := by
  unfold chars render
  split <;> simp_all [structuralNames]

theorem isFunction_con (hplain : name ∉ structuralNames) : (Ty.con name []).isFunction = false := by
  unfold isFunction
  split <;> simp_all [structuralNames]

theorem isBlock_con (hplain : name ∉ structuralNames) : (Ty.con name []).isBlock = false := by
  unfold isBlock
  split <;> simp_all [structuralNames]

theorem chars_var (name : String) : (Ty.var name).chars = name.toList := rfl

theorem chars_record (fields : List (String × Ty)) :
    (Ty.record fields).chars = '\x7b' :: (commaChars ((Table.sortByName fields).map fieldChars) ++ ['\x7d']) := by
  have htexts : (Table.sortByName fields).map fieldChars =
      ((Table.sortByName (renderFields fields)).map fun f => f.1 ++ " : " ++ f.2).map String.toList := by
    simp [renderFields_eq, Table.sortByName_map, fieldChars, chars]
  rw [htexts, ← toList_commas]
  simp [chars, render]

theorem operandChars_of_not (h : t.isFunction = false) : t.operandChars = t.chars := by
  simp [operandChars, argText, h, chars]

theorem atomChars_of (h : t.isFunction = true ∨ t.isBlock = true) : t.atomChars = '(' :: (t.chars ++ [')']) := by
  simp [atomChars, atomText, h, chars]

theorem atomChars_of_not (hfn : t.isFunction = false) (hblock : t.isBlock = false) : t.atomChars = t.chars := by
  simp [atomChars, atomText, hfn, hblock, chars]

theorem atomChars_eq_operandChars (hblock : t.isBlock = false) : t.atomChars = t.operandChars := by
  simp [atomChars, atomText, hblock, operandChars, argText]

/-! ## The characters of texts -/

theorem IsContext.exists_head (h : t.IsContext) : ∃ c more, t.chars = c :: more ∧ isNameStart c = true := by
  cases h with
  | kind kind => cases kind <;> exact ⟨_, _, rfl, by decide⟩
  | var hname =>
    obtain ⟨c, part, htext, hc, -⟩ := runShape_typeVar.exists_chars hname.isName
    exact ⟨c, part, by rw [chars_var, htext], runShape_typeVar.start (n := 0) hc⟩

theorem IsContext.startsType (h : t.IsContext) : StartsType t.chars := by
  obtain ⟨c, more, htext, hc⟩ := h.exists_head
  exact ⟨c, more, htext, by simp [isTypeStart, hc]⟩

theorem startsType_operandChars (h : StartsType t.chars) : StartsType t.operandChars := by
  unfold operandChars argText
  split
  · exact ⟨'(', t.chars ++ [')'], by simp [chars], by decide⟩
  · exact h

theorem WellFormed.startsType (h : t.WellFormed) : StartsType t.chars := by
  induction h with
  | fn harg hresult iharg ihresult =>
    rw [chars_fn]
    exact (startsType_operandChars iharg).append _
  | list helem ih => exact ⟨'[', _, chars_list _, by decide⟩
  | block hcontext hresult ih =>
    rw [chars_block]
    exact hcontext.startsType.append _
  | tuple hlength helems ih => exact ⟨'(', _, chars_tuple _, by decide⟩
  | con hplain hname =>
    obtain ⟨c, part, htext, hc, -⟩ := runShape_typeName.exists_chars hname.isName
    rw [chars_con hplain, htext]
    exact ⟨c, part, rfl, by simp [isTypeStart, runShape_typeName.start (n := 0) hc]⟩
  | var hname => exact (IsContext.var hname).startsType
  | record hdistinct hnames htypes ih => exact ⟨'\x7b', _, chars_record _, by decide⟩

theorem startsType_atomChars (h : StartsType t.chars) : StartsType t.atomChars := by
  unfold atomChars atomText
  split
  · exact ⟨'(', t.chars ++ [')'], by simp [chars], by decide⟩
  · exact h

theorem tab_not_mem_operandChars (h : '\t' ∉ t.chars) : '\t' ∉ t.operandChars := by
  unfold operandChars argText
  split
  · simpa [chars] using h
  · exact h

theorem tab_not_mem_atomChars (h : '\t' ∉ t.chars) : '\t' ∉ t.atomChars := by
  unfold atomChars atomText
  split
  · simpa [chars] using h
  · exact h

theorem IsContext.tab_not_mem (h : t.IsContext) : '\t' ∉ t.chars := by
  cases h with
  | kind kind => cases kind <;> decide
  | var hname =>
    rw [chars_var]
    exact hname.isName.tab_not_mem runShape_typeVar.nameShape

theorem WellFormed.tab_not_mem (h : t.WellFormed) : '\t' ∉ t.chars := by
  induction h with
  | fn harg hresult iharg ihresult => simp [chars_fn, tab_not_mem_operandChars iharg, ihresult]
  | list helem ih => simp [chars_list, ih]
  | block hcontext hresult ih => simp [chars_block, hcontext.tab_not_mem, tab_not_mem_atomChars ih]
  | @tuple elems hlength helems ih =>
    have hcomma : '\t' ∉ commaChars (elems.map chars) :=
      tab_not_mem_commaChars (List.forall_mem_map.2 ih)
    simp [chars_tuple, hcomma]
  | con hplain hname =>
    rw [chars_con hplain]
    exact hname.isName.tab_not_mem runShape_typeName.nameShape
  | var hname => exact (IsContext.var hname).tab_not_mem
  | @record fields hdistinct hnames htypes ih =>
    have hcomma : '\t' ∉ commaChars ((Table.sortByName fields).map fieldChars) := by
      refine tab_not_mem_sortedFields fun f hf => ?_
      have hname := (hnames f hf).isName.tab_not_mem runShape_name.nameShape
      simp [fieldChars, hname, ih f hf]
    simp [chars_record, hcomma]

/-! ## Types without parentheses -/

/-- Types with texts of at most `n` characters are read. -/
def ReadWithin (type : Parser Ty) (n : Nat) : Prop :=
  ∀ u : Ty, u.WellFormed → u.chars.length ≤ n → ∀ rest, ItemEnd rest → Finds type u.chars u.Rearranged rest

section
variable {type : Parser Ty} {n : Nat} {t : Ty} {rest : List Char} (htype : ReadWithin type n)
include htype

/-- The elements of a tuple, or a type in parentheses. -/
theorem atomType_elems {ts : List Ty} (hne : ts ≠ []) (hts : ∀ t ∈ ts, t.WellFormed)
    (hn : (commaChars (ts.map chars)).length ≤ n) :
    Finds (atomType type) ('(' :: (commaChars (ts.map chars) ++ [')']))
      (fun u => ∃ us, List.Forall₂ Rearranged ts us ∧ u = tupled us) rest := by
  obtain ⟨t, ts, rfl⟩ := List.exists_cons_of_ne_nil hne
  have helems : Finds (Parser.sepBy1 type) (commaChars ((t :: ts).map chars)) (List.Forall₂ Rearranged (t :: ts))
      (')' :: rest) := by
    refine sepBy1_finds (fun u hu more => (hts u hu).startsType.opens.solid more) (fun u hu more hmore => ?_)
      ⟨_, _, rfl, by decide⟩
    exact htype u (hts u hu) (Nat.le_trans (length_le_commaChars (List.mem_map_of_mem hu)) hn) more hmore
  refine atomType_paren ?_ helems
  rw [List.map_cons, commaChars_cons]
  exact (hts t List.mem_cons_self).startsType.append _

theorem atomType_parenthesized (h : t.WellFormed) (hn : t.chars.length ≤ n) :
    Finds (atomType type) ('(' :: (t.chars ++ [')'])) t.Rearranged rest := by
  have htext : commaChars ([t].map chars) = t.chars := by simp [commaChars]
  have hread : Finds (atomType type) ('(' :: (commaChars ([t].map chars) ++ [')']))
      (fun u => ∃ us, List.Forall₂ Rearranged [t] us ∧ u = tupled us) rest :=
    atomType_elems htype (by simp) (by simpa using h) (by rwa [htext])
  rw [htext] at hread
  refine hread.imp ?_
  rintro _ ⟨us, hus, rfl⟩
  obtain ⟨u, us, hu, hnil, rfl⟩ := List.forall₂_cons_left_iff.1 hus
  obtain rfl := List.forall₂_nil_left_iff.1 hnil
  exact hu

theorem atomType_tuple {ts : List Ty} (hlength : ts.length ≠ 1) (hts : ∀ t ∈ ts, t.WellFormed)
    (hn : (Ty.tuple ts).chars.length ≤ n + 1) :
    Finds (atomType type) (Ty.tuple ts).chars (Ty.tuple ts).Rearranged rest := by
  rw [chars_tuple] at hn ⊢
  rcases ts with _ | ⟨t, _ | ⟨t', ts⟩⟩
  · refine atomType_unit.finds.imp ?_
    rintro _ rfl
    exact .of_forall₂ .nil
  · exact absurd rfl hlength
  · refine (atomType_elems htype (by simp) hts ?_).imp ?_
    · simp only [List.length_cons, List.length_append, List.length_nil] at hn
      omega
    · rintro _ ⟨us, hus, rfl⟩
      obtain ⟨u, us, hu, hmore, rfl⟩ := List.forall₂_cons_left_iff.1 hus
      obtain ⟨u', us, hu', hmore, rfl⟩ := List.forall₂_cons_left_iff.1 hmore
      exact .of_forall₂ hus

theorem atomType_fields {fields : List (String × Ty)} (hdistinct : (Table.names fields).Nodup)
    (hnames : ∀ f ∈ fields, IsIdentifier f.1) (htypes : ∀ f ∈ fields, f.2.WellFormed)
    (hn : (Ty.record fields).chars.length ≤ n + 1) :
    Finds (atomType type) (Ty.record fields).chars (Ty.record fields).Rearranged rest := by
  rw [chars_record] at hn ⊢
  obtain ⟨hsolid, hfields⟩ : Solid (_ ++ '\x7d' :: rest) ∧
      Reaches (Parser.sepBy (fieldType type)) _ (SortedFields Rearranged fields) ('\x7d' :: rest) := by
    refine fields_reach ":" (d := ':') (by decide) (by decide) hnames
      (fun f hf => (htypes f hf).startsType.opens) (fun f hf => htype f.2 (htypes f hf) ?_) rfl
    have hle := length_le_sortedFields hf fieldChars
    simp only [fieldChars, List.length_cons, List.length_append, List.length_nil] at hle hn
    omega
  refine (atomType_record hsolid hfields).imp ?_
  rintro _ ⟨fs, hfs, rfl⟩
  exact .of_sorted hdistinct hfs

theorem atomType_finds (h : t.WellFormed) (hn : t.atomChars.length ≤ n + 1) (hrest : Stops rest) :
    Finds (atomType type) t.atomChars t.Rearranged rest := by
  have hparen : ∀ {u : Ty}, u.WellFormed → (u.isFunction = true ∨ u.isBlock = true) →
      u.atomChars.length ≤ n + 1 → Finds (atomType type) u.atomChars u.Rearranged rest := by
    intro u hu hwrap hn
    rw [atomChars_of hwrap] at hn ⊢
    refine atomType_parenthesized htype hu ?_
    simp only [List.length_cons, List.length_append, List.length_nil] at hn
    omega
  cases h with
  | fn harg hresult => exact hparen (.fn harg hresult) (.inl rfl) hn
  | block hcontext hresult => exact hparen (.block hcontext hresult) (.inr rfl) hn
  | list helem =>
    rw [atomChars_of_not rfl rfl, chars_list] at hn ⊢
    refine (atomType_list helem.startsType (htype _ helem ?_ _ (Closes.itemEnd ⟨_, _, rfl, by decide⟩))).imp ?_
    · simp only [List.length_cons, List.length_append, List.length_nil] at hn
      omega
    · rintro _ ⟨u, hu, rfl⟩
      exact .of_forall₂ (.cons hu .nil)
  | tuple hlength helems =>
    rw [atomChars_of_not rfl rfl] at hn ⊢
    exact atomType_tuple htype hlength helems hn
  | con hplain hname =>
    rw [atomChars_of_not (isFunction_con hplain) (isBlock_con hplain), chars_con hplain]
    refine (atomType_con hname hrest).finds.imp ?_
    rintro _ rfl
    exact .of_forall₂ .nil
  | var hname =>
    rw [atomChars_of_not rfl rfl, chars_var]
    refine (atomType_var hname hrest).finds.imp ?_
    rintro _ rfl
    exact .var _
  | record hdistinct hnames htypes =>
    rw [atomChars_of_not rfl rfl] at hn ⊢
    exact atomType_fields htype hdistinct hnames htypes hn

/-! ## Operands and arrows -/

omit htype in
/-- A type that is no block is not taken for the context of one. -/
theorem contextType_leaves_atom (h : t.WellFormed) (hblock : t.isBlock = false) (hrest : Stops rest) {cur : Cursor}
    (hcur : cur.At (t.atomChars ++ rest)) : Leaves contextType cur rest := by
  have hbracket : ∀ {c : Char} {cs : List Char}, t.atomChars = c :: cs → isNameStart c = false →
      Leaves contextType cur rest := by
    intro c cs htext hc
    refine leaves_of_none (contextType_of_head fun d hd => ?_)
    rw [hcur.rest_eq, htext] at hd
    cases hd
    exact hc
  cases h with
  | fn harg hresult => exact hbracket (atomChars_of (.inl rfl)) (by decide)
  | block hcontext hresult => cases hblock
  | list helem => exact hbracket ((atomChars_of_not rfl rfl).trans (chars_list _)) (by decide)
  | tuple hlength helems => exact hbracket ((atomChars_of_not rfl rfl).trans (chars_tuple _)) (by decide)
  | con hplain hname =>
    obtain ⟨c, part, htext, hc, hpart⟩ := runShape_typeName.exists_chars hname.isName
    rw [atomChars_of_not (isFunction_con hplain) (isBlock_con hplain), chars_con hplain, htext] at hcur
    exact contextType_leaves (by simp [isTypeNameChar, isAlphanum_eq, isAlpha_eq, hc]) hpart hrest hcur
  | var hname =>
    obtain ⟨c, part, htext, hc, hpart⟩ := runShape_typeVar.exists_chars hname.isName
    rw [atomChars_of_not rfl rfl, chars_var, htext] at hcur
    exact contextType_leaves (by simp [isTypeNameChar, isAlphanum_eq, isAlpha_eq, hc]) hpart hrest hcur
  | record hdistinct hnames htypes =>
    exact hbracket ((atomChars_of_not rfl rfl).trans (chars_record _)) (by decide)

omit htype in
theorem IsContext.reads (h : t.IsContext) (hrest : Stops rest) : Reads contextType t.chars t rest := by
  cases h with
  | kind kind =>
    have htext : (Ty.context kind).chars = kind.name.toList := chars_con (by cases kind <;> decide)
    rw [htext]
    exact contextType_kind kind hrest
  | var hname =>
    rw [chars_var]
    exact contextType_var hname hrest

omit htype in
theorem Rearranged.context (h : t.IsContext) : t.Rearranged t := by
  cases h with
  | kind kind => exact .of_forall₂ .nil
  | var hname => exact .var _

theorem operandType_finds (h : t.WellFormed) (hn : t.operandChars.length ≤ n + 1) (hrest : OperandEnd rest) :
    Finds (operandType type) t.operandChars t.Rearranged rest := by
  cases hblock : t.isBlock with
  | false =>
    rw [← atomChars_eq_operandChars hblock] at hn ⊢
    exact operandType_of_atom (atomType_finds htype h hn hrest.stops) hrest fun cur hcur =>
      contextType_leaves_atom h hblock hrest.stops hcur
  | true =>
    cases h with
    | @block context result hcontext hresult =>
      rw [operandChars_of_not rfl, chars_block] at hn ⊢
      simp only [List.length_append, List.length_cons] at hn
      refine (operandType_block (hcontext.reads (by simp [Stops, stopChars]))
        (startsType_atomChars hresult.startsType) (atomType_finds htype hresult (by omega) hrest.stops)).imp ?_
      rintro _ ⟨u, hu, rfl⟩
      exact .of_forall₂ (.cons (.context hcontext) (.cons hu .nil))
    | con hplain hname => simp [isBlock_con hplain] at hblock
    | _ => cases hblock

/-- The text of a type consists of the texts of operands with arrows between them. -/
structure Operands (t x : Ty) (xs : List Ty) : Prop where
  chars_eq : t.chars = x.operandChars ++ xs.flatMap fun y => ' ' :: '-' :: '>' :: ' ' :: y.operandChars
  wellFormed : ∀ y ∈ x :: xs, y.WellFormed
  rearranged : ∀ u us, List.Forall₂ Rearranged (x :: xs) (u :: us) → t.Rearranged (arrows u us)

omit htype in
theorem WellFormed.exists_operands (h : t.WellFormed) : ∃ x xs, t.Operands x xs := by
  have hsingle : ∀ {t : Ty}, t.WellFormed → t.isFunction = false → ∃ x xs, t.Operands x xs := by
    intro t h hfn
    refine ⟨t, [], by simp [operandChars_of_not hfn], by simpa using h, fun u us hus => ?_⟩
    obtain ⟨hu, hnil⟩ := List.forall₂_cons.1 hus
    obtain rfl := List.forall₂_nil_left_iff.1 hnil
    exact hu
  induction h with
  | @fn arg result harg hresult iharg ihresult =>
    obtain ⟨x, xs, htext, hxs, hrel⟩ := ihresult
    refine ⟨arg, x :: xs, by simp [chars_fn, htext], List.forall_mem_cons.2 ⟨harg, hxs⟩, fun u us hus => ?_⟩
    obtain ⟨hu, hus⟩ := List.forall₂_cons.1 hus
    obtain ⟨v, vs, -, -, rfl⟩ := List.forall₂_cons_left_iff.1 hus
    exact .of_forall₂ (.cons hu (.cons (hrel v vs hus) .nil))
  | list helem ih => exact hsingle (.list helem) rfl
  | block hcontext hresult ih => exact hsingle (.block hcontext hresult) rfl
  | tuple hlength helems ih => exact hsingle (.tuple hlength helems) rfl
  | con hplain hname => exact hsingle (.con hplain hname) (isFunction_con hplain)
  | var hname => exact hsingle (.var hname) rfl
  | record hdistinct hnames htypes ih => exact hsingle (.record hdistinct hnames htypes) rfl

/-- One more level of brackets allows for one more character. -/
theorem ReadWithin.typeWith : ReadWithin (typeWith type) (n + 1) := by
  intro t h hn rest hrest
  obtain ⟨x, xs, htext, hxs, hrel⟩ := h.exists_operands
  have hlength : ∀ y ∈ x :: xs, y.operandChars.length ≤ n + 1 := by
    intro y hy
    rw [htext, List.length_append] at hn
    obtain rfl | hy := List.mem_cons.1 hy
    · omega
    · have hle := length_le_flatMap (f := fun y : Ty => ' ' :: '-' :: '>' :: ' ' :: y.operandChars) hy
      simp only [List.length_cons] at hle
      omega
  rw [htext]
  refine (typeWith_finds (fun y hy => startsType_operandChars (hxs y hy).startsType)
    (fun y hy more hmore => operandType_finds htype (hxs y hy) (hlength y hy) hmore) hrest).imp ?_
  rintro _ ⟨u, us, hus, rfl⟩
  exact hrel u us hus

end

theorem typeAt_finds (depth : Nat) : ReadWithin (typeAt depth) depth := by
  induction depth with
  | zero =>
    intro t h hn rest hrest
    have hpos := h.startsType.opens.length_pos
    omega
  | succ depth ih =>
    intro t h hn rest hrest cur hcur
    exact ih.typeWith t h hn rest hrest cur hcur

theorem typeExpr_finds (h : t.WellFormed) {rest : List Char} (hrest : ItemEnd rest) :
    Finds typeExpr t.chars t.Rearranged rest := by
  intro cur hcur
  refine typeAt_finds _ t h ?_ rest hrest cur hcur
  have hle := cur.length_skipGap_le
  rw [hcur.rest_eq, List.length_append] at hle
  omega

/-- A type does not start with quantified variables. -/
theorem WellFormed.quantifiers_none (h : t.WellFormed) {rest : List Char} {cur : Cursor}
    (hcur : cur.At (t.chars ++ rest)) : quantifiers cur = none := by
  induction h generalizing rest with
  | @fn arg result harg hresult iharg ihresult =>
    rw [chars_fn, List.append_assoc] at hcur
    cases hfn : arg.isFunction with
    | true =>
      have htext : arg.operandChars = '(' :: (arg.chars ++ [')']) := by simp [operandChars, argText, hfn, chars]
      rw [htext] at hcur
      exact quantifiers_of_ne hcur.rest_eq (by decide)
    | false =>
      rw [operandChars_of_not hfn] at hcur
      exact iharg hcur
  | list helem ih => exact quantifiers_of_ne (chars_list _ ▸ hcur.rest_eq) (by decide)
  | block hcontext hresult ih =>
    obtain ⟨c, more, htext, hc⟩ := hcontext.exists_head
    rw [chars_block, htext] at hcur
    exact quantifiers_of_ne hcur.rest_eq (ne_of_class hc rfl)
  | tuple hlength helems ih => exact quantifiers_of_ne (chars_tuple _ ▸ hcur.rest_eq) (by decide)
  | con hplain hname =>
    obtain ⟨c, part, htext, hc, -⟩ := runShape_typeName.exists_chars hname.isName
    rw [chars_con hplain, htext] at hcur
    exact quantifiers_of_ne hcur.rest_eq (ne_of_class hc rfl)
  | var hname =>
    obtain ⟨c, part, htext, hc, -⟩ := runShape_typeVar.exists_chars hname.isName
    rw [chars_var, htext] at hcur
    exact quantifiers_of_ne hcur.rest_eq (ne_of_class hc rfl)
  | @record fields hdistinct hnames htypes ih =>
    rw [chars_record] at hcur
    cases hsorted : Table.sortByName fields with
    | nil =>
      rw [hsorted] at hcur
      exact quantifiers_empty hcur
    | cons f fs =>
      have hf : f ∈ fields := (Table.perm_sortByName fields).mem_iff.1 (by simp [hsorted])
      rw [hsorted, List.map_cons, commaChars_cons, fieldChars] at hcur
      simp only [List.append_assoc, List.cons_append] at hcur
      exact quantifiers_field (hnames f hf) hcur

end Ty

variable {s : Schema}

theorem Schema.toList_render_of_ne (h : s.vars ≠ []) :
    s.render.toList = '\x7b' :: (commaChars (s.vars.map String.toList) ++ ['\x7d']) ++ ' ' :: s.type.chars := by
  simp [render, h, Ty.chars, ← toList_commas]

theorem Schema.toList_render_of_nil (h : s.vars = []) : s.render.toList = s.type.chars := by
  simp [render, h, Ty.chars]

theorem Schema.finds (hclosed : ∀ x ∈ s.type.varNames, x ∈ s.vars) (hvars : ∀ x ∈ s.vars, IsTypeVar x)
    (htype : s.type.WellFormed) :
    Finds Reading.schema s.render.toList (fun r => r.vars = s.vars ∧ s.type.Rearranged r.type) [] := by
  have hread := Ty.typeExpr_finds htype itemEnd_nil
  by_cases hnil : s.vars = []
  · rw [toList_render_of_nil hnil]
    refine (schema_plain (fun cur hcur => htype.quantifiers_none hcur) hread).imp ?_
    -- no variable occurs in the type, so none is quantified
    rintro r ⟨hnames, hr⟩
    have hnone : r.type.varNames = [] := by
      refine List.eq_nil_iff_forall_not_mem.2 fun x hx => ?_
      have hmem := hclosed x (hr.mem_varNames hx)
      simp [hnil] at hmem
    exact ⟨by rw [hnames, hnone, hnil], hr⟩
  · rw [toList_render_of_ne hnil]
    exact schema_quantified hnil hvars htype.startsType hread

theorem Schema.opens_render (htype : s.type.WellFormed) : Opens s.render.toList := by
  by_cases hnil : s.vars = []
  · rw [toList_render_of_nil hnil]
    exact htype.startsType.opens
  · rw [toList_render_of_ne hnil]
    exact ⟨_, _, rfl, by decide⟩

theorem Schema.tab_not_mem_render (hvars : ∀ x ∈ s.vars, IsTypeVar x) (htype : s.type.WellFormed) :
    '\t' ∉ s.render.toList := by
  by_cases hnil : s.vars = []
  · rw [toList_render_of_nil hnil]
    exact htype.tab_not_mem
  · have hcomma : '\t' ∉ commaChars (s.vars.map String.toList) := by
      refine tab_not_mem_commaChars (List.forall_mem_map.2 fun x hx => ?_)
      exact (hvars x hx).isName.tab_not_mem runShape_typeVar.nameShape
    simp [toList_render_of_ne hnil, hcomma, htype.tab_not_mem]

/-- A closed schema is read back from its text, up to the order of the fields of records. -/
theorem parseSchema_render {s : Schema} (hclosed : ∀ x ∈ s.type.varNames, x ∈ s.vars)
    (hvars : ∀ x ∈ s.vars, IsTypeVar x) (htype : s.type.WellFormed) (file : String) :
    ∃ t, parseSchema file s.render = .ok ⟨s.vars, t⟩ ∧ s.type.Rearranged t := by
  have hsolid : Solid s.render.toList := by simpa using (s.opens_render htype).solid []
  obtain ⟨r, hread, hrvars, hr⟩ :=
    readAll_of_finds (Schema.finds hclosed hvars htype) (Schema.tab_not_mem_render hvars htype) hsolid
  refine ⟨r.type, ?_, hr⟩
  rw [parseSchema, parseAll, hread, ← hrvars]

/-- A schema whose text needs parentheses, and whose record is not written in the order of its fields. -/
def nestedSchema : Schema :=
  ⟨["a", "m"],
    .fn (.fn (.var "a") (.list .int))
      (.block (.var "m") (.block (.context .proofScript)
        (.record [("y'", .tuple [.var "a", .unit]), ("x", .context .setup)])))⟩

theorem parseSchema_nestedSchema :
    (∀ x ∈ nestedSchema.type.varNames, x ∈ nestedSchema.vars) ∧ (∀ x ∈ nestedSchema.vars, IsTypeVar x) ∧
      nestedSchema.type.WellFormed ∧
      nestedSchema.render = "\x7ba, m\x7d (a -> [Int]) -> m (ProofScript \x7bx : Setup, y' : (a, ())\x7d)" ∧
      ∃ t, parseSchema "" nestedSchema.render = .ok ⟨["a", "m"], t⟩ ∧ nestedSchema.type.Rearranged t := by
  have hclosed : ∀ x ∈ nestedSchema.type.varNames, x ∈ nestedSchema.vars := by
    intro x
    simp [nestedSchema]
    grind
  have hvars : ∀ x ∈ nestedSchema.vars, IsTypeVar x := by
    simp only [nestedSchema, List.forall_mem_cons]
    exact ⟨rfl, rfl, List.forall_mem_nil _⟩
  have htype : nestedSchema.type.WellFormed := by
    have hint : Ty.int.WellFormed := .con (by decide) rfl
    have hsetup : (Ty.context .setup).WellFormed := .con (by decide) rfl
    have ha : (Ty.var "a").WellFormed := .var rfl
    have hunit : Ty.unit.WellFormed := .tuple (by decide) (List.forall_mem_nil _)
    refine .fn (.fn ha (.list hint)) (.block (.var rfl) (.block (.kind _) (.record (by decide) ?_ ?_)))
    · simp only [List.forall_mem_cons]
      exact ⟨rfl, rfl, List.forall_mem_nil _⟩
    · simp only [List.forall_mem_cons]
      refine ⟨.tuple (by decide) ?_, hsetup, List.forall_mem_nil _⟩
      simp only [List.forall_mem_cons]
      exact ⟨ha, hunit, List.forall_mem_nil _⟩
  exact ⟨hclosed, hvars, htype, by cbv, parseSchema_render hclosed hvars htype ""⟩

end VeriScript
