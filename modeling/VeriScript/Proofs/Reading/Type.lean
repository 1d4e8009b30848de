import VeriScript.Proofs.Reading.Sequences

/-!
# What the readers of types take

Each form of a type is read when the types inside are; the statements are about any reader of the types inside.

* `atomType_unit`, `atomType_paren`, `atomType_list`, `atomType_record`, `atomType_con`, `atomType_var` — the types
  that need no parentheses.
* `contextType_leaves` — a name may be taken for the context of a block, but then no type follows it.
* `operandType_block`, `operandType_of_atom` — the types between arrows.
* `typeWith_finds` — operands with arrows between them.
* `schema_quantified`, `schema_plain` — a type with and without quantified variables in front; a record is not taken
  for quantified variables.
-/

namespace VeriScript.Reading

open VeriScript.Reading.Parser

variable {type : Parser Ty} {cs ds rest : List Char} {cur : Cursor} {name : String}

/-! ## Where types start and end -/

def isTypeStart (c : Char) : Bool :=
  c = '(' || c = '[' || c = '\x7b' || isNameStart c

/-- The text starts with a character that starts a type. -/
def StartsType (cs : List Char) : Prop :=
  ∃ c more, cs = c :: more ∧ isTypeStart c = true

theorem StartsType.opens (h : StartsType cs) : Opens cs := by
  obtain ⟨c, more, rfl, hc⟩ := h
  exact opens_of_class hc rfl

theorem StartsType.append (h : StartsType cs) (rest : List Char) : StartsType (cs ++ rest) := by
  obtain ⟨c, more, rfl, hc⟩ := h
  exact ⟨c, more ++ rest, rfl, hc⟩

/-- What comes right behind an operand of a function type: the end of the type or an arrow. -/
def OperandEnd (rest : List Char) : Prop :=
  ItemEnd rest ∨ ∃ more, rest = ' ' :: '-' :: '>' :: ' ' :: more

theorem OperandEnd.stops (h : OperandEnd rest) : Stops rest := by
  obtain h | ⟨more, rfl⟩ := h
  · exact h.stops
  · simp [Stops, stopChars]

/-- No type starts behind an operand. -/
theorem OperandEnd.not_start (h : OperandEnd rest) (hcur : cur.rest = rest) :
    ∀ c ∈ cur.skipGap.rest.head?, isTypeStart c = false := by
  obtain h | ⟨more, rfl⟩ := h
  · rw [Cursor.rest_skipGap_of_solid hcur h.solid]
    have hclass : ∀ d ∈ [',', ')', ']', '\x7d'], isTypeStart d = false := forall_mem_of_all rfl
    exact fun c hc => hclass c (h c hc)
  · rw [Cursor.rest_skipGap_of_space hcur (solid_cons rfl)]
    intro c hc
    cases hc
    decide

/-! ## Types that need no parentheses -/

theorem typeName_of_head (h : ∀ c ∈ cur.skipGap.rest.head?, isNameStart c = false) : typeName cur = none := by
  have hname : named [] typeNameSize? cur = none := named_of_none rfl (runShape_typeName.size_of_head h)
  exact hname

theorem typeVar_of_head (h : ∀ c ∈ cur.skipGap.rest.head?, isNameStart c = false) : typeVar cur = none :=
  named_of_none rfl (runShape_typeVar.size_of_head h)

variable {c : Char} {Q : Ty → Prop}

theorem isNameStart_of_isTypeStart (h : isTypeStart c = false) : isNameStart c = false := by
  simp_all [isTypeStart]

theorem atomType_of_head (h : ∀ c ∈ cur.skipGap.rest.head?, isTypeStart c = false) : atomType type cur = none := by
  have hname : ∀ c ∈ cur.skipGap.rest.head?, isNameStart c = false := fun c hc => isNameStart_of_isTypeStart (h c hc)
  have hparen := literal_of_class "(" h rfl rfl
  have hbracket := literal_of_class "[" h rfl rfl
  have hbrace := literal_of_class "\x7b" h rfl rfl
  simp only [atomType, orElse_run, bind_of_none hparen, bind_of_none hbracket, bind_of_none hbrace,
    bind_of_none (typeName_of_head hname), bind_of_none (typeVar_of_head hname), Option.or_none]

theorem atomType_unit : Reads (atomType type) ['(', ')'] .unit rest := by
  intro cur hcur
  obtain ⟨cur1, hopen, hcur1⟩ := literal_opening (s := "(") hcur (solid_cons rfl) rfl rfl
  obtain ⟨cur2, hclose, hrest⟩ := literal_closing (s := ")") hcur1.rest_eq
  refine ⟨cur2, orElse_of_some ?_, hrest⟩
  rw [bind_of_some hopen, bind_of_some hclose]
  rfl

/-- What the types between parentheses stand for: a single type for itself, several for a tuple. -/
def tupled : List Ty → Ty
  | [t] => t
  | ts => .tuple ts

theorem atomType_paren {Q : List Ty → Prop} (hcs : StartsType cs) (hp : Finds (sepBy1 type) cs Q (')' :: rest)) :
    Finds (atomType type) ('(' :: (cs ++ [')'])) (fun t => ∃ ts, Q ts ∧ t = tupled ts) rest := by
  intro cur hcur
  obtain ⟨ts, cur', hrun, hrest, hts⟩ := brackets_run (β := Ty) "(" ")" rfl rfl rfl (hcs.opens.solid _)
    (hp.reaches (solid_cons rfl)) hcur
  have hempty := brackets_of_class (β := Ty) "(" ")" rfl rfl rfl hcs rfl (hcs.opens.solid _) hcur
  refine ⟨tupled ts, cur', ?_, hrest, ts, hts, rfl⟩
  rw [atomType, orElse_of_none (hempty _)]
  refine orElse_of_some ?_
  refine (hrun _).trans ?_
  rcases ts with _ | ⟨t, _ | ⟨u, ts⟩⟩ <;> rfl

theorem atomType_list (hcs : StartsType cs) (hp : Finds type cs Q (']' :: rest)) :
    Finds (atomType type) ('[' :: (cs ++ [']'])) (fun t => ∃ u, Q u ∧ t = .list u) rest := by
  intro cur hcur
  obtain ⟨u, cur', hrun, hrest, hu⟩ := brackets_run (β := Ty) "[" "]" rfl rfl rfl (hcs.opens.solid _)
    (hp.reaches (solid_cons rfl)) hcur
  have hparen := literal_of_cons "(" hcur.rest_eq rfl
  refine ⟨.list u, cur', ?_, hrest, u, hu, rfl⟩
  rw [atomType, orElse_bind_of_none hparen, orElse_bind_of_none hparen]
  exact orElse_of_some (hrun _)

theorem atomType_record {Q : List (String × Ty) → Prop} (hcs : Solid (cs ++ '\x7d' :: rest))
    (hp : Reaches (sepBy (fieldType type)) cs Q ('\x7d' :: rest)) :
    Finds (atomType type) ('\x7b' :: (cs ++ ['\x7d'])) (fun t => ∃ fields, Q fields ∧ t = .record (Table.ofList fields))
      rest := by
  intro cur hcur
  obtain ⟨fields, cur', hrun, hrest, hfields⟩ := brackets_run (β := Ty) "\x7b" "\x7d" rfl rfl rfl hcs hp hcur
  have hparen := literal_of_cons "(" hcur.rest_eq rfl
  have hbracket := literal_of_cons "[" hcur.rest_eq rfl
  refine ⟨.record (Table.ofList fields), cur', ?_, hrest, fields, hfields, rfl⟩
  rw [atomType, orElse_bind_of_none hparen, orElse_bind_of_none hparen,
    orElse_bind_of_none hbracket]
  exact orElse_of_some (hrun _)

theorem atomType_of_nameStart (h : cur.skipGap.rest = c :: cs) (hc : isNameStart c = true) :
    atomType type cur = ((do return .con (← typeName) []) <|> (do return .var (← typeVar)) : Parser Ty) cur := by
  have hparen := literal_of_ne "(" h (ne_of_class hc rfl) rfl
  have hbracket := literal_of_ne "[" h (ne_of_class hc rfl) rfl
  have hbrace := literal_of_ne "\x7b" h (ne_of_class hc rfl) rfl
  rw [atomType, orElse_bind_of_none hparen, orElse_bind_of_none hparen,
    orElse_bind_of_none hbracket, orElse_bind_of_none hbrace]

theorem atomType_con (h : IsTypeName name) (hrest : Stops rest) :
    Reads (atomType type) name.toList (.con name []) rest := by
  intro cur hcur
  obtain ⟨cur', hread, hrest'⟩ := h.reads hrest cur hcur
  obtain ⟨c, part, hname, hc, -⟩ := runShape_typeName.exists_chars h.isName
  have hskip : cur.skipGap.rest = c :: (part ++ rest) := by rw [hcur.rest_eq, hname]; rfl
  refine ⟨cur', ?_, hrest'⟩
  rw [atomType_of_nameStart hskip (runShape_typeName.start (n := 0) hc)]
  refine orElse_of_some ?_
  rw [bind_of_some hread]
  rfl

theorem isUpper_of_isLower (h : c.isLower = true) : c.isUpper = false := by
  have hlower : (c.val ≥ 97 && c.val ≤ 122) = true := h
  change decide (c.val ≥ 65 ∧ c.val ≤ 90) = false
  simp only [ge_iff_le, UInt32.le_iff_toNat_le, Bool.and_eq_true, decide_eq_true_eq] at hlower
  simp only [ge_iff_le, UInt32.le_iff_toNat_le, decide_eq_false_iff_not]
  change 97 ≤ c.val.toNat ∧ c.val.toNat ≤ 122 at hlower
  change ¬ (65 ≤ c.val.toNat ∧ c.val.toNat ≤ 90)
  omega

theorem atomType_var (h : IsTypeVar name) (hrest : Stops rest) :
    Reads (atomType type) name.toList (.var name) rest := by
  intro cur hcur
  obtain ⟨cur', hread, hrest'⟩ := h.reads hrest cur hcur
  obtain ⟨c, part, hname, hc, -⟩ := runShape_typeVar.exists_chars h.isName
  have hskip : cur.skipGap.rest = c :: (part ++ rest) := by rw [hcur.rest_eq, hname]; rfl
  have hcon : typeName cur = none := by
    have hnamed : named [] typeNameSize? cur = none :=
      named_of_none hskip (runShape_typeName.cons_neg (by simp [isUpper_of_isLower hc]))
    exact hnamed
  refine ⟨cur', ?_, hrest'⟩
  rw [atomType_of_nameStart hskip (runShape_typeVar.start (n := 0) hc), orElse_bind_of_none hcon,
    bind_of_some hread]
  rfl

/-! ## Contexts of blocks -/

/-- If the parser succeeds, it leaves `rest`. -/
def Leaves {α : Type} (p : Parser α) (cur : Cursor) (rest : List Char) : Prop :=
  ∀ a cur', p cur = some (a, cur') → cur'.rest = rest

section
variable {α β : Type} {p q : Parser α}

theorem leaves_of_none (h : p cur = none) : Leaves p cur rest := by
  intro a cur' hread
  rw [h] at hread
  cases hread

theorem Leaves.orElse (hp : Leaves p cur rest) (hq : Leaves q cur rest) : Leaves (p <|> q) cur rest := by
  intro a cur' hread
  rw [orElse_run, Option.or_eq_some_iff] at hread
  obtain hread | ⟨-, hread⟩ := hread
  · exact hp a cur' hread
  · exact hq a cur' hread

theorem Leaves.map {f : α → β} (hp : Leaves p cur rest) : Leaves (do return f (← p)) cur rest := by
  intro b cur' hread
  obtain ⟨a, cur'', hread, hpure⟩ := exists_of_bind_eq_some hread
  cases hpure
  exact hp a _ hread

end

/-- A word is read from a word only when the two are the same. -/
theorem keyword_leaves {word : String} (hword : ∀ c ∈ stopChars, c ∉ word.toList) (hcs : ∀ c ∈ cs, isWordChar c = true)
    (hrest : Stops rest) (hcur : cur.At (cs ++ rest)) : Leaves (keyword word) cur rest := by
  cases hstart : startsWithWord word.toList cs with
  | false =>
    refine leaves_of_none ?_
    rw [keyword_eq hcur, startsWithWord_append (fun c hc => hword c (hrest c hc)) hstart]
    rfl
  | true =>
    obtain ⟨⟨tail, htail⟩, hnext⟩ : word.toList <+: cs ∧ (cs.drop word.toList.length).head?.any isWordChar = false := by
      simpa [startsWithWord, List.isPrefixOf_iff_prefix] using hstart
    have hnil : tail = [] := by
      cases tail with
      | nil => rfl
      | cons c tail =>
        have hc := hcs c (by simp [← htail])
        simp [← htail, hc] at hnext
    have htext : cs = word.toList := by rw [← htail, hnil, List.append_nil]
    rw [htext] at hcur
    intro a cur' hread
    rw [keyword_of_append hcur hrest.not_word] at hread
    cases hread
    exact rest_advance_skipGap hcur.rest_eq

theorem typeVar_leaves {part : List Char} (hpart : ∀ d ∈ part, isTypeNameChar d = true) (hrest : Stops rest)
    (hcur : cur.At (c :: part ++ rest)) : Leaves typeVar cur rest := by
  intro name cur' hread
  obtain ⟨-, n, hsize, -, rfl⟩ := named_eq_some hread
  rw [hcur.rest_eq] at hsize
  rw [runShape_typeVar.size_eq hpart hrest hsize]
  exact rest_advance_skipGap hcur.rest_eq

/-- A kind of context. -/
def contextKeyword (kind : ContextKind) : Parser Ty := do
  keyword kind.name
  return .context kind

theorem contextType_eq : contextType = (contextKeyword .topLevel <|> contextKeyword .proofScript <|>
    contextKeyword .setup <|> do return .var (← typeVar)) := rfl

theorem contextKeyword_of_head {kind : ContextKind} (h : ∀ c ∈ cur.skipGap.rest.head?, c ∉ kind.name.toList.head?) :
    contextKeyword kind cur = none :=
  bind_of_none (keyword_of_head rfl h (by cases kind <;> decide))

/-- Where no kind of context starts, the context is a variable. -/
theorem contextType_of_not_kind (h : ∀ kind : ContextKind, ∀ c ∈ cur.skipGap.rest.head?, c ∉ kind.name.toList.head?) :
    contextType cur = (do return Ty.var (← typeVar)) cur := by
  rw [contextType_eq, orElse_of_none (contextKeyword_of_head (h _)), orElse_of_none (contextKeyword_of_head (h _)),
    orElse_of_none (contextKeyword_of_head (h _))]

theorem ContextKind.head_name {kind : ContextKind} (h : c ∈ kind.name.toList.head?) :
    isNameStart c = true ∧ c.isLower = false := by
  cases kind <;> cases h <;> decide

theorem contextKeyword_reads (kind : ContextKind) (hrest : Stops rest) :
    Reads (contextKeyword kind) kind.name.toList (.context kind) rest := by
  intro cur hcur
  refine ⟨_, ?_, rest_advance_skipGap hcur.rest_eq⟩
  rw [contextKeyword, bind_of_some (keyword_of_append hcur hrest.not_word)]
  rfl

theorem contextType_of_head (h : ∀ c ∈ cur.skipGap.rest.head?, isNameStart c = false) : contextType cur = none := by
  refine (contextType_of_not_kind fun kind c hc hmem => ?_).trans (bind_of_none (typeVar_of_head h))
  exact ne_of_class (ContextKind.head_name hmem).1 (h c hc) rfl

theorem isWordChar_of_isTypeNameChar (h : isTypeNameChar c = true) : isWordChar c = true := by
  have hc : (c.isAlphanum || decide (c = '_')) = true := h
  simp [isWordChar, hc]

theorem contextType_leaves {part : List Char} (hc : isTypeNameChar c = true)
    (hpart : ∀ d ∈ part, isTypeNameChar d = true) (hrest : Stops rest) (hcur : cur.At (c :: part ++ rest)) :
    Leaves contextType cur rest := by
  have hword : ∀ d ∈ c :: part, isWordChar d = true := by
    rw [List.forall_mem_cons]
    exact ⟨isWordChar_of_isTypeNameChar hc, fun d hd => isWordChar_of_isTypeNameChar (hpart d hd)⟩
  have hkeyword : ∀ kind : ContextKind, Leaves (contextKeyword kind) cur rest := by
    intro kind
    refine (keyword_leaves ?_ hword hrest hcur).map
    cases kind <;> exact forall_mem_of_all rfl
  exact (hkeyword .topLevel).orElse ((hkeyword .proofScript).orElse ((hkeyword .setup).orElse
    (typeVar_leaves hpart hrest hcur).map))

theorem contextType_kind (kind : ContextKind) (hrest : Stops rest) :
    Reads contextType kind.name.toList (.context kind) rest := by
  intro cur hcur
  obtain ⟨cur', hread, hrest'⟩ := contextKeyword_reads kind hrest cur hcur
  refine ⟨cur', ?_, hrest'⟩
  -- the kinds start with different letters
  have hother : ∀ kind' : ContextKind, kind'.name.toList.head? ≠ kind.name.toList.head? →
      contextKeyword kind' cur = none := by
    intro kind' hne
    refine contextKeyword_of_head fun c hc hmem => hne ?_
    rw [hcur.rest_eq] at hc
    cases kind <;> exact (Option.mem_def.1 hmem).trans (Option.mem_def.1 hc).symm
  cases kind with
  | topLevel => exact orElse_of_some hread
  | proofScript =>
    rw [contextType_eq, orElse_of_none (hother .topLevel (by decide))]
    exact orElse_of_some hread
  | setup =>
    rw [contextType_eq, orElse_of_none (hother .topLevel (by decide)), orElse_of_none (hother .proofScript (by decide))]
    exact orElse_of_some hread

theorem contextType_var (h : IsTypeVar name) (hrest : Stops rest) : Reads contextType name.toList (.var name) rest := by
  intro cur hcur
  obtain ⟨cur', hread, hrest'⟩ := h.reads hrest cur hcur
  obtain ⟨c, part, hname, hc, -⟩ := runShape_typeVar.exists_chars h.isName
  refine ⟨cur', ?_, hrest'⟩
  rw [contextType_of_not_kind, bind_of_some hread]
  · rfl
  · intro kind d hd hmem
    rw [hcur.rest_eq, hname] at hd
    cases hd
    exact ne_of_class hc (ContextKind.head_name hmem).2 rfl

/-! ## Operands -/

theorem operandType_block {context : Ty} (hcontext : Reads contextType cs context (' ' :: (ds ++ rest)))
    (hds : StartsType ds) (hresult : Finds (atomType type) ds Q rest) :
    Finds (operandType type) (cs ++ ' ' :: ds) (fun t => ∃ u, Q u ∧ t = .block context u) rest := by
  intro cur hcur
  rw [List.append_assoc, List.cons_append] at hcur
  obtain ⟨cur1, hread, hrest1⟩ := hcontext cur hcur
  obtain ⟨u, cur2, hread2, hrest2, hu⟩ := hresult cur1 (.of_space hrest1 (hds.opens.solid _))
  refine ⟨.block context u, cur2, orElse_of_some ?_, hrest2, u, hu, rfl⟩
  rw [bind_of_some hread, bind_of_some hread2]
  rfl

theorem operandType_of_atom (hatom : Finds (atomType type) cs Q rest) (hrest : OperandEnd rest)
    (hcontext : ∀ cur : Cursor, cur.At (cs ++ rest) → Leaves contextType cur rest) :
    Finds (operandType type) cs Q rest := by
  intro cur hcur
  obtain ⟨t, cur', hread, hrest', ht⟩ := hatom cur hcur
  refine ⟨t, cur', ?_, hrest', ht⟩
  rw [operandType, orElse_of_none, hread]
  cases hblock : contextType cur with
  | none => exact bind_of_none hblock
  | some r =>
    obtain ⟨context, cur1⟩ := r
    have hrest1 := hcontext cur hcur context cur1 hblock
    rw [bind_of_some hblock]
    exact bind_of_none (atomType_of_head (hrest.not_start hrest1))

theorem typeWith_finds {β : Type} {text : β → List Char} {R : β → Ty → Prop} {x : β} {xs : List β}
    (hstart : ∀ y ∈ x :: xs, StartsType (text y))
    (hoperand : ∀ y ∈ x :: xs, ∀ more, OperandEnd more → Finds (operandType type) (text y) (R y) more)
    (hrest : ItemEnd rest) :
    Finds (typeWith type) (text x ++ xs.flatMap fun y => ' ' :: '-' :: '>' :: ' ' :: text y)
      (fun t => ∃ u us, List.Forall₂ R (x :: xs) (u :: us) ∧ t = arrows u us) rest := by
  intro cur hcur
  rw [List.append_assoc] at hcur
  have hnext : OperandEnd ((xs.flatMap fun y => ' ' :: '-' :: '>' :: ' ' :: text y) ++ rest) := by
    cases xs with
    | nil => exact .inl hrest
    | cons y ys => exact .inr ⟨_, rfl⟩
  obtain ⟨u, cur1, hread, hrest1, hu⟩ := hoperand x List.mem_cons_self _ hnext cur hcur
  have hmany : Continues (many (do literal "->"; operandType type))
      (xs.flatMap fun y => ' ' :: '-' :: '>' :: ' ' :: text y) (List.Forall₂ R xs) rest := by
    refine many_continues (E := OperandEnd) (fun y hy more hmore cur hcur => ?_) (by simp)
      (fun y _ more => .inr ⟨_, rfl⟩) (.inl hrest) (fun cur hcur => ?_)
    · have hskip : cur.skipGap.rest = "->".toList ++ ' ' :: (text y ++ more) :=
        Cursor.rest_skipGap_of_space hcur (solid_cons rfl)
      exact literal_then hskip ((hstart y (List.mem_cons_of_mem _ hy)).opens.solid _)
        (hoperand y (List.mem_cons_of_mem _ hy) more hmore)
    · exact bind_of_none (literal_of_outside "->" (hrest.skipGap hcur) rfl)
  obtain ⟨us, cur2, hreads, hrest2, hus⟩ := hmany cur1 hrest1
  refine ⟨arrows u us, cur2, ?_, hrest2, u, us, .cons hu hus, rfl⟩
  rw [typeWith, bind_of_some hread, bind_of_some hreads]
  rfl

/-! ## Schemas -/

/-- The quantified variables of a schema, in braces. -/
def quantifiers : Parser (List String) := do
  literal "\x7b"
  let vars ← sepBy1 typeVar
  literal "\x7d"
  return vars

theorem schema_eq : schema = (do
    let vars? ← opt quantifiers
    let type ← typeExpr
    return ⟨vars?.getD type.varNames, type⟩) := rfl

theorem quantifiers_of_ne (h : cur.skipGap.rest = c :: cs) (hc : c ≠ '\x7b') : quantifiers cur = none :=
  bind_of_none (literal_of_ne "\x7b" h hc rfl)

theorem quantifiers_empty (hcur : cur.At ('\x7b' :: '\x7d' :: cs)) : quantifiers cur = none := by
  obtain ⟨cur1, hopen, hcur1⟩ := literal_opening (s := "\x7b") hcur (solid_cons rfl) rfl rfl
  have hvar : typeVar cur1 = none := named_of_none hcur1.rest_eq (runShape_typeVar.cons_neg (by decide))
  rw [quantifiers, bind_of_some hopen]
  exact bind_of_none (bind_of_none hvar)

theorem quantifiers_reads {vars : List String} (hne : vars ≠ []) (hvars : ∀ name ∈ vars, IsTypeVar name) :
    Reads quantifiers ('\x7b' :: (commaChars (vars.map String.toList) ++ ['\x7d'])) vars rest := by
  obtain ⟨v, vs, rfl⟩ := List.exists_cons_of_ne_nil hne
  have hopens : ∀ name ∈ v :: vs, Opens name.toList := by
    intro name hname
    exact (hvars name hname).isName.opens runShape_typeVar.nameShape
  have hreads : Finds (sepBy1 typeVar) (commaChars ((v :: vs).map String.toList))
      (List.Forall₂ (fun name a => a = name) (v :: vs)) ('\x7d' :: rest) :=
    sepBy1_finds (fun name hname more => (hopens name hname).solid more)
      (fun name hname more hmore => ((hvars name hname).reads hmore.stops).finds) ⟨_, _, rfl, by decide⟩
  have hsolid : Solid (commaChars ((v :: vs).map String.toList) ++ '\x7d' :: rest) := by
    rw [List.map_cons, commaChars_cons, List.append_assoc]
    exact (hopens v List.mem_cons_self).solid _
  intro cur hcur
  obtain ⟨as, cur', hrun, hrest, has⟩ := brackets_run (β := List String) "\x7b" "\x7d" rfl rfl rfl hsolid
    (hreads.reaches (solid_cons rfl)) hcur
  have hvars' : v :: vs = as := by
    rw [← List.forall₂_eq_eq_eq]
    exact has.imp fun _ _ h => h.symm
  refine ⟨cur', ?_, hrest⟩
  rw [hvars']
  exact hrun _

theorem schema_quantified {vars : List String} (hne : vars ≠ []) (hvars : ∀ name ∈ vars, IsTypeVar name)
    (hcs : StartsType cs) (htype : Finds typeExpr cs Q rest) :
    Finds schema ('\x7b' :: (commaChars (vars.map String.toList) ++ ['\x7d']) ++ ' ' :: cs)
      (fun s => s.vars = vars ∧ Q s.type) rest := by
  intro cur hcur
  rw [List.append_assoc] at hcur
  obtain ⟨cur1, hread, hrest1⟩ := quantifiers_reads hne hvars cur hcur
  obtain ⟨t, cur2, hread2, hrest2, ht⟩ := htype cur1 (.of_space hrest1 (hcs.opens.solid _))
  have hopt : opt quantifiers cur = some (some vars, cur1) := by simp [opt, hread]
  refine ⟨⟨vars, t⟩, cur2, ?_, hrest2, rfl, ht⟩
  rw [schema_eq, bind_of_some hopt, bind_of_some hread2]
  rfl

theorem schema_plain (hnone : ∀ cur : Cursor, cur.At (cs ++ rest) → quantifiers cur = none)
    (htype : Finds typeExpr cs Q rest) : Finds schema cs (fun s => s.vars = s.type.varNames ∧ Q s.type) rest := by
  intro cur hcur
  obtain ⟨t, cur', hread, hrest', ht⟩ := htype cur hcur
  have hopt : opt quantifiers cur = some (none, cur) := by simp [opt, hnone cur hcur]
  refine ⟨⟨t.varNames, t⟩, cur', ?_, hrest', rfl, ht⟩
  rw [schema_eq, bind_of_some hopt, bind_of_some hread]
  rfl

/-- What a variable leaves of the name of a field goes on with an apostrophe, or with the colon behind the name. -/
theorem exists_head_of_typeVar {more : List Char} {var : String} {cur' : Cursor} (hname : IsIdentifier name)
    (hcur : cur.At (name.toList ++ ' ' :: ':' :: more)) (hvar : typeVar cur = some (var, cur')) :
    ∃ c ds, cur'.skipGap.rest = c :: ds ∧ c ≠ ',' ∧ c ≠ '\x7d' := by
  obtain ⟨c, part, htext, -, hpart⟩ := runShape_name.exists_chars hname.isName
  obtain ⟨-, n, hsize, -, rfl⟩ := named_eq_some hvar
  have hrest : cur.skipGap.rest = c :: (part ++ ' ' :: ':' :: more) := by rw [hcur.rest_eq, htext]; rfl
  rw [hrest] at hsize
  have hleft : (cur.skipGap.advance n).rest = (part ++ ' ' :: ':' :: more).dropWhile isTypeNameChar := by
    rw [Cursor.rest_advance, hrest]
    exact runShape_typeVar.drop_size hsize
  rw [List.dropWhile_append] at hleft
  cases hdrop : part.dropWhile isTypeNameChar with
  | nil =>
    have hspace : (' ' :: ':' :: more).dropWhile isTypeNameChar = ' ' :: ':' :: more :=
      List.dropWhile_cons_of_neg (by decide)
    rw [hdrop, List.isEmpty_nil, if_pos rfl, hspace] at hleft
    exact ⟨':', more, Cursor.rest_skipGap_of_space hleft (solid_cons rfl), by decide, by decide⟩
  | cons d ds =>
    rw [hdrop, List.isEmpty_cons, if_neg (by decide)] at hleft
    have hd : isNameChar d = true := hpart d ((List.dropWhile_suffix _).subset (hdrop ▸ List.mem_cons_self))
    have hopens : Opens (d :: ds ++ ' ' :: ':' :: more) := opens_of_class hd rfl
    refine ⟨d, _, Cursor.rest_skipGap_of_solid hleft ?_, ne_of_class hd rfl, ne_of_class hd rfl⟩
    simpa using hopens.solid []

/-- The fields of a record are not quantified variables. -/
theorem quantifiers_field {more : List Char} (hname : IsIdentifier name)
    (hcur : cur.At ('\x7b' :: (name.toList ++ ' ' :: ':' :: more))) : quantifiers cur = none := by
  have hopens : Opens name.toList := hname.isName.opens runShape_name.nameShape
  obtain ⟨cur1, hopen, hcur1⟩ := literal_opening (s := "\x7b") hcur (hopens.solid _) rfl rfl
  rw [quantifiers, bind_of_some hopen]
  cases hvar : typeVar cur1 with
  | none => exact bind_of_none (bind_of_none hvar)
  | some r =>
    obtain ⟨var, cur2⟩ := r
    obtain ⟨c, ds, hskip, hcomma, hbrace⟩ := exists_head_of_typeVar hname hcur1 hvar
    have hmany : many (do literal ","; typeVar) cur2 = some ([], cur2) :=
      many_of_none (bind_of_none (literal_of_ne "," hskip hcomma rfl))
    have hvars : sepBy1 typeVar cur1 = some ([var], cur2) := by
      rw [sepBy1, bind_of_some hvar, bind_of_some hmany]
      rfl
    rw [bind_of_some hvars]
    exact bind_of_none (literal_of_ne "\x7d" hskip hbrace rfl)

end VeriScript.Reading
