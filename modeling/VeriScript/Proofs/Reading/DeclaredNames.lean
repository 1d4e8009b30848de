import VeriScript.Proofs.Reading.Gaps
import VeriScript.Proofs.Reading.Term
import VeriScript.Reading.Script
import VeriScript.Term.Elaborate

/-!
# Names that declarations and imports introduce

A word that touches a name from the left or from the right can make a keyword look like a name.  No word touches the
name of a declaration or the qualifier of an import, so these names can be read anywhere else.

* `literal_eq_some`, `head_of_literal` — what stands at and in front of the characters of a literal.
* `isTermName_of_declared` — declared names are names of terms.
* `IsQualifier`, `isQualifier_iff` — the qualifiers of imports are the names of scripts.
-/

namespace VeriScript.Reading

open VeriScript.Reading.Parser

section
variable {cur cur' : Cursor}

theorem literal_eq_some {s : String} {u : Unit} (h : literal s cur = some (u, cur')) :
    (∃ rest, cur.skipGap.rest = s.toList ++ rest) ∧ cur' = cur.skipGap.advance s.toList.length := by
  obtain ⟨cs, cur1, htoken, hpure⟩ := exists_of_bind_eq_some h
  cases hpure
  by_cases hstart : s.toList.isPrefixOf cur.skipGap.rest
  · obtain ⟨rest, hrest⟩ := List.isPrefixOf_iff_prefix.1 hstart
    rw [token_of_some hrest.symm (startSize?_append ..)] at htoken
    cases htoken
    exact ⟨⟨rest, hrest.symm⟩, rfl⟩
  · rw [token_of_none rfl (by simp [startSize?, hstart])] at htoken
    cases htoken

theorem head_of_literal {s : String} {u : Unit} (hs : ∃ c more, s.toList = c :: more ∧ isWordChar c = false)
    (h : literal s cur = some (u, cur')) : cur.rest.head?.any isWordChar = false := by
  obtain ⟨c, more, hs, hc⟩ := hs
  obtain ⟨⟨rest, hrest⟩, -⟩ := literal_eq_some h
  by_cases hgap : gapLength cur.rest = 0
  · rw [Cursor.skipGap_of_solid hgap, hs] at hrest
    simpa [hrest] using hc
  · obtain ⟨d, cs, hcs, hd⟩ := head_of_gap hgap
    simpa [hcs] using isWordChar_of_gap hd

/-! ## Declarations of terms -/

/-- A declaration that no word touches declares a name, and no word touches what follows it. -/
theorem termDecl_name {d : String × RawTerm} (hbefore : cur.before.any isWordChar = false)
    (h : termDecl cur = some (d, cur')) : IsTermName d.1 ∧ cur'.before.any isWordChar = false := by
  obtain ⟨name, cur1, hname, h⟩ := exists_of_bind_eq_some h
  obtain ⟨_, cur2, hequals, h⟩ := exists_of_bind_eq_some h
  obtain ⟨t, cur3, -, h⟩ := exists_of_bind_eq_some h
  obtain ⟨_, cur4, hend, h⟩ := exists_of_bind_eq_some h
  cases h
  constructor
  · have hrest : cur.skipGap.rest ≠ [] := by
      intro hnil
      rw [termName_of_none hnil nameShape_termName.size_nil] at hname
      cases hname
    exact isName_of_named nameShape_termName hname (Cursor.apart_skipGap hrest (.inr hbefore))
      (head_of_literal ⟨'=', [], rfl, by decide⟩ hequals)
  · obtain ⟨⟨rest, hrest⟩, rfl⟩ := literal_eq_some hend
    rw [show ";".toList.length = 1 from rfl, Cursor.before_advance_one hrest]
    decide

theorem manyIn_termDecl_names {fuel : Nat} {decls : List (String × RawTerm)}
    (hbefore : cur.before.any isWordChar = false) (h : manyIn termDecl fuel cur = some (decls, cur')) :
    ∀ d ∈ decls, IsTermName d.1 := by
  induction decls generalizing fuel cur with
  | nil => exact List.forall_mem_nil _
  | cons d decls ih =>
    obtain ⟨fuel', cur1, hdecl, hmore⟩ := manyIn_eq_cons h
    obtain ⟨hname, hnext⟩ := termDecl_name hbefore hdecl
    exact List.forall_mem_cons.2 ⟨hname, ih hnext hmore⟩

end

theorem isTermName_of_declared {text : String} {decls : List (String × RawTerm)}
    (h : readTermText termDecls text = .ok decls) : ∀ name ∈ Table.names decls, IsTermName name := by
  intro name hname
  obtain ⟨d, hd, rfl⟩ := List.mem_map.1 hname
  have hdone : readAll termDecls "" text = .done decls := by
    unfold readTermText at h
    split at h <;> simp_all
  obtain ⟨cur, hread, -⟩ := readAll_eq_done.1 hdone
  exact manyIn_termDecl_names rfl hread d hd

/-! ## Imports -/

/-- An import statement, at the top of a script or inside blocks, may name this qualifier. -/
def IsQualifier (q : String) : Prop :=
  ∃ depth cur span file cur', stmtAt depth cur = some (.importTerms span file (some q), cur')

/-- What an import reads behind its keyword, up to the semicolon. -/
theorem statement_import {r : Rules} {cur cur' : Cursor} {span : Span} {file : String} {qualifier : Option String}
    (h : r.statement cur = some (.importTerms span file qualifier, cur')) :
    ∃ cur1 cur2 u, opt (do keyword "as"; identifier) cur1 = some (qualifier, cur2) ∧
      literal ";" cur2 = some (u, cur') := by
  obtain ⟨span', cur0, -, h⟩ := exists_of_bind_eq_some h
  obtain ⟨s, cur2, hs, h⟩ := exists_of_bind_eq_some h
  obtain ⟨u, cur3, hend, h⟩ := exists_of_bind_eq_some h
  cases h
  simp only [orElse_run, Option.or_eq_some_iff] at hs
  -- of the six forms of a statement, the fourth is the import
  rcases hs with hs | ⟨-, hs | ⟨-, hs | ⟨-, hs | ⟨-, hs | ⟨-, hs⟩⟩⟩⟩⟩
  rotate_left 3
  · obtain ⟨_, _, -, hs⟩ := exists_of_bind_eq_some hs
    obtain ⟨_, cur1, -, hs⟩ := exists_of_bind_eq_some hs
    obtain ⟨_, _, hqualifier, hs⟩ := exists_of_bind_eq_some hs
    cases hs
    exact ⟨cur1, cur2, u, hqualifier, hend⟩
  all_goals
    repeat obtain ⟨_, _, -, hs⟩ := exists_of_bind_eq_some hs
    cases hs

theorem opt_eq_some {α : Type} {p : Parser α} {cur cur' : Cursor} {a : α} (h : opt p cur = some (some a, cur')) :
    p cur = some (a, cur') := by
  unfold opt at h
  split at h
  · rename_i hp
    cases h
    exact hp
  · cases h

/-- A name behind a keyword is set apart from it. -/
theorem identifier_behind_keyword {word : String} {cur cur1 cur2 : Cursor} {u : Unit} {name : String}
    (hword : keyword word cur = some (u, cur1)) (hname : identifier cur1 = some (name, cur2)) :
    cur1.skipGap.before.any isWordChar = false := by
  have hnext : cur1.rest.head?.any isWordChar = false := by
    unfold keyword at hword
    dsimp only at hword
    split at hword
    · rename_i htest
      cases hword
      simp_all
    · cases hword
  obtain ⟨-, n, hsize, -⟩ := named_eq_some hname
  refine Cursor.apart_skipGap ?_ (.inl ?_)
  · intro hnil
    rw [hnil, runShape_name.nil] at hsize
    cases hsize
  · intro hsolid
    rw [Cursor.skipGap_of_solid hsolid] at hsize
    cases hrest : cur1.rest with
    | nil =>
      rw [hrest, runShape_name.nil] at hsize
      cases hsize
    | cons c cs =>
      rw [hrest] at hsize
      have hstart := runShape_name.start (runShape_name.starts_of_size hsize).1
      rw [hrest] at hnext
      have hnot : isWordChar c = false := by simpa using hnext
      simp only [isNameStart, Bool.or_eq_true, decide_eq_true_eq] at hstart
      simp only [isWordChar, isAlphanum_eq, Bool.or_eq_false_iff, decide_eq_false_iff_not] at hnot
      rcases hstart with halpha | hunderscore
      · simp [halpha] at hnot
      · exact hnot.1.2 hunderscore

theorem IsQualifier.isIdentifier {q : String} (h : IsQualifier q) : IsIdentifier q := by
  obtain ⟨depth, cur, span, file, cur', h⟩ := h
  cases depth with
  | zero => cases h
  | succ depth =>
    obtain ⟨cur1, cur2, u, hqualifier, hend⟩ := statement_import h
    obtain ⟨v, cur3, hword, hname⟩ := exists_of_bind_eq_some (opt_eq_some hqualifier)
    exact isName_of_named runShape_name.nameShape hname (identifier_behind_keyword hword hname)
      (head_of_literal ⟨';', [], rfl, by decide⟩ hend)

/-- An import of the empty path under the name. -/
def importText (q : String) : List Char :=
  "import".toList ++ ' ' :: ('"' :: '"' :: ' ' :: ("as".toList ++ ' ' :: (q.toList ++ [' ', ';'])))

theorem statement_importText {q : String} (h : IsIdentifier q) {r : Rules} {cur : Cursor}
    (hcur : cur.At (importText q)) :
    ∃ cur', r.statement cur = some (.importTerms cur.skipGap.span "" (some q), cur') := by
  have hname : Solid (q.toList ++ [' ', ';']) := (h.isName.opens runShape_name.nameShape).solid _
  obtain ⟨cur1, himport, hcur1⟩ := keyword_of_space hcur (solid_cons rfl)
  have hquotes : cur1.skipGap.rest = ['"', '"'] ++ ' ' :: ("as".toList ++ ' ' :: (q.toList ++ [' ', ';'])) :=
    hcur1.rest_eq
  have hfile : stringLiteral cur1 = some ("", cur1.skipGap.advance 2) := by
    rw [stringLiteral, bind_of_some (token_of_some hquotes rfl)]
    rfl
  obtain ⟨cur2, has, hcur2⟩ := keyword_of_space (.of_space (rest_advance_skipGap hquotes) (solid_cons rfl)) hname
  have hstops : Stops [' ', ';'] := by simp [Stops, stopChars]
  obtain ⟨cur3, hidentifier, hcur3⟩ := h.reads hstops cur2 hcur2
  have hend : cur3.skipGap.rest = ";".toList ++ [] := Cursor.rest_skipGap_of_space hcur3 (solid_cons rfl)
  have hqualifier : opt (do keyword "as"; identifier) (cur1.skipGap.advance 2) = some (some q, cur3) := by
    have hread : (do keyword "as"; identifier : Parser String) (cur1.skipGap.advance 2) = some (q, cur3) :=
      (bind_of_some has).trans hidentifier
    simp [opt, hread]
  have hhere : here cur = some (cur.skipGap.span, cur) := rfl
  refine ⟨_, (bind_of_some hhere).trans ((bind_of_some ?_).trans (bind_of_some (literal_of_append hend)))⟩
  have hlet := keyword_of_cons "let" hcur.rest_eq rfl
  rw [orElse_bind_of_none hlet, orElse_bind_of_none hlet,
    orElse_bind_of_none (keyword_of_cons "typedef" hcur.rest_eq rfl), orElse_of_some]
  rw [bind_of_some himport, bind_of_some hfile, bind_of_some hqualifier]
  rfl

theorem isQualifier_iff {q : String} : IsQualifier q ↔ IsIdentifier q := by
  refine ⟨IsQualifier.isIdentifier, fun h => ?_⟩
  have hcur : (Cursor.mk "" 1 1 none (importText q)).At (importText q) := .of_solid rfl (solid_cons rfl) rfl
  obtain ⟨cur', hread⟩ := statement_importText (r := ⟨exprAt 0, stmtAt 0⟩) h hcur
  exact ⟨1, _, _, _, cur', hread⟩

end VeriScript.Reading
