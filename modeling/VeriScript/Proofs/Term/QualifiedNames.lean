import VeriScript.Proofs.Reading.DeclaredNames
import VeriScript.Proofs.Reading.Sequences
import VeriScript.Proofs.Term.Declarations

/-!
# Imported names in terms

A declared name is added to an environment behind its qualifier.  A term can mention it there, unless the name has a
qualifier already, or its new qualifier is read as a truth value: then the term ends inside the name.

* `termName_qualified` — a qualifier and one part behind it are read as one name.
* `term_of_atom`, `readAll_leftover` — a term that ends where no operator comes next.
* `UsableUnder` — the names that can be mentioned under a qualifier.
* `readAll_usable`, `readAll_unusable` — how an added name is read.
* `imported_name_usable` — a declared name stands for its last declaration exactly if it is usable.
-/

namespace VeriScript

namespace Reading

open VeriScript.Reading.Parser

/-! ## Parts of names -/

theorem IsIdentifier.isNamePart {name : String} (h : IsIdentifier name) : IsNamePart name.toList := by
  obtain ⟨c, part, hname, hc, hpart⟩ := runShape_name.exists_chars h
  exact ⟨c, part, hname, runShape_name.start hc, hpart⟩

theorem IsNamePart.colon_not_mem {cs : List Char} (h : IsNamePart cs) : ':' ∉ cs :=
  fun hmem => absurd (h.isNameChar _ hmem) (by decide)

/-- A name has one part, or two parts with colons between them. -/
theorem IsTermName.exists_parts {name : String} (h : IsTermName name) : IsNamePart name.toList ∨
    ∃ first second, name.toList = first ++ ':' :: ':' :: second ∧ IsNamePart first ∧ IsNamePart second := by
  have htext := h.isNameText
  generalize name.toList = cs at htext
  cases htext with
  | plain hpart => exact .inl hpart
  | qualified hfirst hsecond => exact .inr ⟨_, _, rfl, hfirst, hsecond⟩

theorem colon_not_mem_termKeywords : ∀ word ∈ termKeywords, ':' ∉ word.toList := by
  decide

theorem termName_qualified {q part rest : List Char} (hq : IsNamePart q)
    (hwords : ∀ word ∈ termKeywords, startsWithWord word.toList q = false) (hpart : IsNamePart part)
    (hrest : ∀ d ∈ rest.head?, isNameChar d = false) :
    Reads termName (q ++ ':' :: ':' :: part) (String.ofList (q ++ ':' :: ':' :: part)) rest := by
  intro cur hcur
  have hnot : notKeyword termKeywords cur = some ((), cur) := by
    refine notKeyword_of_none fun word hword => ?_
    have hnext : ∀ c ∈ (':' :: ':' :: part ++ rest).head?, c ∉ word.toList := by
      intro c hc
      cases hc
      exact colon_not_mem_termKeywords word hword
    rw [keyword_eq hcur, List.append_assoc, startsWithWord_append hnext (hwords word hword)]
    rfl
  have htoken := token_of_some hcur.rest_eq (termNameSize?_qualified hq hpart hrest)
  refine ⟨_, ?_, rest_advance_skipGap hcur.rest_eq⟩
  rw [termName, bind_of_some hnot, bind_of_some htoken, pure_run]

/-! ## Terms of one atom -/

theorem operations_of_none {α ο : Type} {operator : Parser ο} {operand : Parser α} {cur : Cursor}
    (h : operator cur = none) : operations operator operand cur = some ([], cur) := by
  unfold operations
  cases cur.rest.length <;> simp [operationsIn, h]

theorem solid_of_colon {rest : List Char} (h : ∀ c ∈ rest.head?, c = ':' ∨ c = '\'') : Solid rest := by
  cases rest with
  | nil => exact solid_nil
  | cons c rest => rcases h c rfl with rfl | rfl <;> exact solid_cons rfl

theorem term_of_atom {cs rest : List Char} {t : RawTerm} (hcs : ∃ c more, cs = c :: more ∧ isNameStart c = true)
    (hrest : ∀ c ∈ rest.head?, c = ':' ∨ c = '\'') (hatom : ∀ term, Reads (termAtom term) cs t rest) :
    Reads term cs t rest := by
  intro cur hcur
  obtain ⟨c, more, rfl, hc⟩ := hcs
  have hhead : c ≠ '!' ∧ c ≠ '-' := ⟨ne_of_class hc rfl, ne_of_class hc rfl⟩
  obtain ⟨cur', hoperand, hcur'⟩ := termOperand_of_atom (hatom (termAt cur.rest.length)) ⟨c, more, rfl, hhead⟩ cur hcur
  have hnone : binaryTermOp cur' = none := by
    refine binaryTermOp_of_head (Cursor.rest_skipGap_of_solid hcur' (solid_of_colon hrest)) fun d hd => ?_
    exact .inr (.inr (.inr (hrest d hd)))
  refine ⟨cur', ?_, hcur'⟩
  show termWith (termAt cur.rest.length) cur = _
  rw [termWith, bind_of_some hoperand, bind_of_some (operations_of_none hnone)]
  rfl

theorem readAll_leftover {α : Type} {p : Parser α} {file text : String} {cs rest : List Char} {a : α}
    (htext : text.toList = cs ++ rest) (htab : '\t' ∉ text.toList) (hcs : Opens cs) (hrest : rest ≠ [])
    (hsolid : Solid rest) (h : Reads p cs a rest) : ∃ line col, readAll p file text = .leftover line col := by
  have hstart : (Cursor.start file text).At (cs ++ rest) := by
    rw [← htext]
    exact Cursor.at_start htab (htext ▸ hcs.solid rest)
  obtain ⟨cur, hread, hcur⟩ := h _ hstart
  have hskip : cur.skipGap.rest = rest := Cursor.rest_skipGap_of_solid hcur hsolid
  exact ⟨cur.skipGap.line, cur.skipGap.col, by simp [readAll, hread, hskip, hrest]⟩

/-! ## Names under qualifiers -/

/-- The name can be mentioned under the qualifier: the qualifier does not start with the word for a truth value, and the
name has no qualifier of its own. -/
def UsableUnder : Option String → String → Prop
  | none, _ => True
  | some q, name =>
    startsWithWord "True".toList q.toList = false ∧ startsWithWord "False".toList q.toList = false ∧ ':' ∉ name.toList

instance (qualifier : Option String) (name : String) : Decidable (UsableUnder qualifier name) :=
  match qualifier with
  | none => inferInstanceAs (Decidable True)
  | some q => inferInstanceAs (Decidable (startsWithWord "True".toList q.toList = false ∧
      startsWithWord "False".toList q.toList = false ∧ ':' ∉ name.toList))

section
variable {q name : String}

theorem toList_qualifiedName (hq : IsIdentifier q) (name : String) :
    (qualifiedName (some q) name).toList = q.toList ++ ':' :: ':' :: name.toList := by
  have hne : q ≠ "" := by
    rintro rfl
    obtain ⟨c, part, hpart, -⟩ := hq.isNamePart
    cases hpart
  simp [qualifiedName_eq hne]

theorem tab_not_mem_qualifiedName (hq : IsIdentifier q) (hname : IsTermName name) :
    '\t' ∉ (qualifiedName (some q) name).toList := by
  have hpart : '\t' ∉ q.toList := (IsNameText.plain hq.isNamePart).tab_not_mem
  simp [toList_qualifiedName hq, hpart, hname.isNameText.tab_not_mem]

/-- Of the words that are no names of terms, only those for truth values are names of scripts. -/
theorem IsIdentifier.not_termKeyword (hq : IsIdentifier q) (htrue : startsWithWord "True".toList q.toList = false)
    (hfalse : startsWithWord "False".toList q.toList = false) :
    ∀ word ∈ termKeywords, startsWithWord word.toList q.toList = false := by
  have hword := hq.isName.not_keyword runShape_name.nameShape
  intro word hmem
  simp only [termKeywords, List.mem_cons, List.not_mem_nil, or_false] at hmem
  rcases hmem with rfl | rfl | rfl | rfl | rfl
  · exact hword "if" (by decide)
  · exact hword "then" (by decide)
  · exact hword "else" (by decide)
  · exact htrue
  · exact hfalse

theorem readAll_usable {qualifier : Option String} (hq : ∀ q ∈ qualifier, IsIdentifier q) (hname : IsTermName name)
    (h : UsableUnder qualifier name) :
    readAll term "" (qualifiedName qualifier name) = .done (.name (qualifiedName qualifier name)) := by
  cases qualifier with
  | none =>
    have hreads : Reads term name.toList (.name name) [] := by
      exact term_of_atom hname.isNameText.exists_head (by simp) fun term => termAtom_name hname stops_nil
    have hsolid : Solid name.toList := by simpa using hname.isNameText.opens.solid []
    obtain ⟨_, hread, rfl⟩ := readAll_of_finds hreads.finds hname.isNameText.tab_not_mem hsolid
    exact hread
  | some q =>
    have hq := hq q rfl
    obtain ⟨htrue, hfalse, hcolon⟩ := h
    have hpart : IsNamePart name.toList := by
      rcases hname.exists_parts with hpart | ⟨first, second, hsplit, -⟩
      · exact hpart
      · exact absurd (by simp [hsplit]) hcolon
    have htext := toList_qualifiedName hq name
    have hwhole : IsNameText (qualifiedName (some q) name).toList := htext ▸ .qualified hq.isNamePart hpart
    have hreads : Reads term (qualifiedName (some q) name).toList (.name (qualifiedName (some q) name)) [] := by
      refine term_of_atom hwhole.exists_head (by simp) fun term cur hcur => ?_
      rw [htext] at hcur
      obtain ⟨cur', hread, hcur'⟩ :=
        termName_qualified hq.isNamePart (hq.not_termKeyword htrue hfalse) hpart (by simp) cur hcur
      rw [← htext, String.ofList_toList] at hread
      exact ⟨cur', termAtom_of_termName hread, hcur'⟩
    have hsolid : Solid (qualifiedName (some q) name).toList := by simpa using hwhole.opens.solid []
    obtain ⟨_, hread, rfl⟩ := readAll_of_finds hreads.finds hwhole.tab_not_mem hsolid
    exact hread

/-- A qualifier that starts with the word for a truth value is read as that value, and the rest is left over. -/
theorem readAll_truth_value (b : Bool) (hq : IsIdentifier q) (hname : IsTermName name)
    (h : startsWithWord (if b then "True" else "False").toList q.toList = true) :
    ∃ line col, readAll term "" (qualifiedName (some q) name) = .leftover line col := by
  simp only [startsWithWord, Bool.and_eq_true, List.isPrefixOf_iff_prefix] at h
  obtain ⟨⟨more, hmore⟩, hnext⟩ := h
  have htext := toList_qualifiedName hq name
  rw [← hmore, List.append_assoc] at htext
  -- an apostrophe is the only character of names that does not make a word longer
  have hhead : ∀ c ∈ (more ++ ':' :: ':' :: name.toList).head?, c = ':' ∨ c = '\'' := by
    intro c hc
    cases more with
    | nil => exact .inl (Option.some.inj hc).symm
    | cons d more =>
      cases hc
      have hinner : isNameChar c = true := hq.isNamePart.isNameChar c (by simp [← hmore])
      have hword : isWordChar c = false := by simpa [← hmore] using hnext
      simp only [isNameChar, Bool.or_eq_true, decide_eq_true_eq] at hinner
      simp only [isWordChar, Bool.or_eq_false_iff, decide_eq_false_iff_not] at hword
      rcases hinner with (halpha | hunderscore) | hquote
      · exact absurd halpha (by simp [hword.1.1])
      · exact absurd hunderscore hword.1.2
      · exact .inr hquote
  have hstop : (more ++ ':' :: ':' :: name.toList).head?.any isWordChar = false := by
    cases hcs : more ++ ':' :: ':' :: name.toList with
    | nil => rfl
    | cons c cs => rcases hhead c (by simp [hcs]) with rfl | rfl <;> rfl
  have hstart : ∃ c cs, (if b then "True" else "False").toList = c :: cs ∧ isNameStart c = true := by
    cases b
    · exact ⟨'F', _, rfl, by decide⟩
    · exact ⟨'T', _, rfl, by decide⟩
  have hopens : Opens (if b then "True" else "False").toList := by
    obtain ⟨c, cs, hcs, hc⟩ := hstart
    exact hcs ▸ opens_of_class hc rfl
  exact readAll_leftover htext (tab_not_mem_qualifiedName hq hname) hopens (by simp) (solid_of_colon hhead)
    (term_of_atom hstart hhead fun term => termAtom_bool b hstop)

/-- Only one qualifier is read, and the last part of the name is left over. -/
theorem readAll_qualified_twice (hq : IsIdentifier q)
    (hwords : ∀ word ∈ termKeywords, startsWithWord word.toList q.toList = false) (hname : IsTermName name)
    (hcolon : ':' ∈ name.toList) :
    ∃ line col, readAll term "" (qualifiedName (some q) name) = .leftover line col := by
  rcases hname.exists_parts with hpart | ⟨first, second, hsplit, hfirst, hsecond⟩
  · exact absurd hcolon hpart.colon_not_mem
  have htext : (qualifiedName (some q) name).toList =
      (q.toList ++ ':' :: ':' :: first) ++ ':' :: ':' :: second := by
    simp [toList_qualifiedName hq, hsplit]
  have hwhole : IsNameText (q.toList ++ ':' :: ':' :: first) := .qualified hq.isNamePart hfirst
  have hnext : ∀ d ∈ (':' :: ':' :: second).head?, isNameChar d = false := by
    intro d hd
    cases hd
    decide
  have hatom : ∀ term, Reads (termAtom term) (q.toList ++ ':' :: ':' :: first)
      (.name (String.ofList (q.toList ++ ':' :: ':' :: first))) (':' :: ':' :: second) := by
    intro term cur hcur
    obtain ⟨cur', hread, hcur'⟩ := termName_qualified hq.isNamePart hwords hfirst hnext cur hcur
    exact ⟨cur', termAtom_of_termName hread, hcur'⟩
  exact readAll_leftover htext (tab_not_mem_qualifiedName hq hname) hwhole.opens (by simp)
    (solid_cons rfl) (term_of_atom hwhole.exists_head (by simp) hatom)

theorem readAll_unusable {qualifier : Option String} (hq : ∀ q ∈ qualifier, IsIdentifier q) (hname : IsTermName name)
    (h : ¬ UsableUnder qualifier name) :
    ∃ line col, readAll term "" (qualifiedName qualifier name) = .leftover line col := by
  cases qualifier with
  | none => exact absurd trivial h
  | some q =>
    have hq := hq q rfl
    by_cases htrue : startsWithWord "True".toList q.toList = true
    · exact readAll_truth_value true hq hname htrue
    by_cases hfalse : startsWithWord "False".toList q.toList = true
    · exact readAll_truth_value false hq hname hfalse
    rw [Bool.not_eq_true] at htrue hfalse
    have hcolon : ':' ∈ name.toList := Decidable.byContradiction fun hcolon => h ⟨htrue, hfalse, hcolon⟩
    exact readAll_qualified_twice hq (hq.not_termKeyword htrue hfalse) hname hcolon

end

end Reading

open VeriScript.Reading

/-! ## Declared names -/

theorem exists_last_declaration {decls : List (String × RawTerm)} {name : String} (h : name ∈ Table.names decls) :
    ∃ before body after, decls = before ++ (name, body) :: after ∧ name ∉ Table.names after := by
  induction decls with
  | nil => cases h
  | cons d decls ih =>
    by_cases hlater : name ∈ Table.names decls
    · obtain ⟨before, body, after, rfl, hlast⟩ := ih hlater
      exact ⟨d :: before, body, after, rfl, hlast⟩
    · have hd : name = d.1 := (List.mem_cons.1 h).resolve_right hlater
      exact ⟨[], d.2, decls, by rw [hd]; rfl, hlater⟩

/-- Imported names can be used, with two exceptions.  A declared name is added under its qualifier with the term of its
last declaration.  The text it is added under is read as this term, unless the qualifier starts with the word for a
truth value or the name has a qualifier already; then a part of the text is left over. -/
theorem imported_name_usable {env r : TermEnv} {qualifier : Option String} {text : String}
    (hqualifier : ∀ q ∈ qualifier, IsQualifier q) (h : parseTermDecls env qualifier text = .ok r) :
    ∃ decls, readTermText termDecls text = .ok decls ∧
      ∀ name ∈ Table.names decls, ∃ before body after scope t,
        decls = before ++ (name, body) :: after ∧ name ∉ Table.names after ∧
        elaborateDecls none before env env = .ok scope ∧ body.elaborate scope = .ok t ∧
        Table.get? r (qualifiedName qualifier name) = some t ∧
        (UsableUnder qualifier name → parseTerm r (qualifiedName qualifier name) = .ok t) ∧
        (¬ UsableUnder qualifier name →
          ∃ line col, parseTerm r (qualifiedName qualifier name) = .error (.leftover line col)) := by
  have hq : ∀ q ∈ qualifier, IsIdentifier q := fun q hmem => (hqualifier q hmem).isIdentifier
  rcases parseTermDecls_cases env text with ⟨e, herror⟩ | ⟨decls, terms, hread, hterms, hok⟩
  · rw [herror] at h
    cases h
  rw [hok] at h
  cases h
  refine ⟨decls, hread, fun name hname => ?_⟩
  have hterm := isTermName_of_declared hread name hname
  obtain ⟨before, body, after, rfl, hlast⟩ := exists_last_declaration hname
  obtain ⟨ts, t, us, -, hts, ht, hnewest⟩ := declaration_term hterms
  have hget : Table.get? (addTerms (qualifiedName qualifier) env terms) (qualifiedName qualifier name) = some t := by
    rw [get?_addTerms (qualifiedName_injective qualifier), hnewest hlast]
    rfl
  refine ⟨before, body, after, _, t, rfl, hlast, ?_, ht, hget, fun husable => ?_, fun hunusable => ?_⟩
  · rw [elaborateDecls_eq, hts]
    rfl
  · simp [parseTerm, readTermText, readAll_usable hq hterm husable, bind, Except.bind, RawTerm.elaborate, hget]
  · obtain ⟨line, col, hleft⟩ := readAll_unusable hq hterm hunusable
    exact ⟨line, col, by simp [parseTerm, readTermText, hleft, bind, Except.bind]⟩

/-- A name that is declared twice, and one with a qualifier. -/
def qualifiedText : String := "n = 1; a::b = n; n = a::b + 1;"

def qualifiedDecls : List (String × RawTerm) :=
  [("n", .int 1), ("a::b", .name "n"), ("n", .binary .add (.name "a::b") (.int 1))]

/-- What they add under `Q`. -/
def qualifiedEnv : TermEnv :=
  [("Q::n", .binary .integer .add (.ofInt 1) (.ofInt 1)), ("Q::a::b", .ofInt 1)]

theorem imported_name_usable_redeclared :
    IsQualifier "Q" ∧ parseTermDecls [] (some "Q") qualifiedText = .ok qualifiedEnv ∧
      UsableUnder (some "Q") "n" ∧ ¬ UsableUnder (some "Q") "a::b" ∧
      parseTerm qualifiedEnv "Q::n" = .ok (.binary .integer .add (.ofInt 1) (.ofInt 1)) ∧
      ∃ line col, parseTerm qualifiedEnv "Q::a::b" = .error (.leftover line col) := by
  have hq : IsQualifier "Q" := isQualifier_iff.2 rfl
  have hr : parseTermDecls [] (some "Q") qualifiedText = .ok qualifiedEnv := by decide +kernel
  have hread : readTermText termDecls qualifiedText = .ok qualifiedDecls := by decide +kernel
  have hn : UsableUnder (some "Q") "n" := by decide
  have hab : ¬ UsableUnder (some "Q") "a::b" := by decide
  obtain ⟨decls, hdecls, hnames⟩ := imported_name_usable (fun q h => Option.some.inj h ▸ hq) hr
  cases hread.symm.trans hdecls
  obtain ⟨-, -, -, -, t, -, -, -, -, hget, husable, -⟩ := hnames "n" (by decide)
  obtain ⟨-, -, -, -, -, -, -, -, -, -, -, hunusable⟩ := hnames "a::b" (by decide)
  cases hget
  exact ⟨hq, hr, hn, hab, husable hn, hunusable hab⟩

/-- A qualifier that an import accepts, and a name that a declaration accepts, do not make a name that a term accepts:
the name is there, but neither `True::n` nor `Q::a::b` can be read. -/
theorem imported_name_unreadable :
    IsQualifier "True" ∧ IsQualifier "Q" ∧
    (∃ r, parseTermDecls [] (some "True") "n = 1;" = .ok r ∧ Table.get? r "True::n" = some (.ofInt 1) ∧
      parseTerm r "True::n" = .error (.leftover 1 5)) ∧
    ∃ r, parseTermDecls [] (some "Q") "a::b = 1;" = .ok r ∧ Table.get? r "Q::a::b" = some (.ofInt 1) ∧
      parseTerm r "Q::a::b" = .error (.leftover 1 5) := by
  refine ⟨isQualifier_iff.2 rfl, isQualifier_iff.2 rfl, ⟨[("True::n", .ofInt 1)], ?_⟩, ⟨[("Q::a::b", .ofInt 1)], ?_⟩⟩
  · decide +kernel
  · decide +kernel

end VeriScript
