import VeriScript.Proofs.Value.RoundTrip

/-!
# Strings read back from their texts

A carriage return is shown as it is, and no string literal holds one.

* `stringSize?_script_of_return` — the text of a string with a carriage return is no string literal.
* `expression_of_quote` — where a quote opens no string literal, no expression can be read.
* `shown_string_reads_back` — a string is read back from its text unless it has a carriage return.
-/

namespace VeriScript

namespace Reading

open VeriScript.Reading.Parser

/-! ## Carriage returns -/

/-- The carriage return comes before the closing quote, as quotes inside the text are escaped. -/
theorem stringRest?_script_of_return {cs rest : List Char} (h : '\r' ∈ cs) :
    stringRest? (cs.flatMap Text.scriptChar ++ rest) = none := by
  induction cs with
  | nil => cases h
  | cons c cs ih =>
    by_cases hc : c = '\r'
    · subst hc
      have htext : Text.scriptChar '\r' = ['\r'] := by decide
      simp [htext, stringRest?]
    · have hcs : '\r' ∈ cs := (List.mem_cons.1 h).resolve_left (Ne.symm hc)
      obtain ⟨d, htext, -, -, -, hd, -⟩ | ⟨htext, hplain⟩ := scriptChar_cases c
      · simp [htext, stringRest?_escape hd, ih hcs]
      · have hclass : c ∉ ['"', '\\', '\n', '\r'] := by simp_all
        simp [htext, stringRest?_plain hclass, ih hcs]

theorem stringSize?_script_of_return {s : String} (h : '\r' ∈ s.toList) :
    stringSize? (Text.scriptText s).toList = none := by
  simp [toList_scriptText, stringSize?, stringRest?_script_of_return h]

/-! ## Quotes without a string literal -/

section
variable {r : Rules} {cur : Cursor} {cs : List Char} (h : cur.skipGap.rest = '"' :: cs)
  (hstring : stringLiteral cur = none)
include h hstring

theorem atom_of_quote : r.atom cur = none := by
  have hbrace : '\x7b' ∉ cur.skipGap.rest.head? := by simp [h]
  have hint : intLiteral cur = none := by
    refine intLiteral_of_head fun c hc => ?_
    rw [h] at hc
    cases hc
    decide
  have hname : identifier cur = none := named_of_none h (runShape_name.size_of_not_start (by decide))
  rw [Rules.atom, bind_of_some (here_run cur), orElse_bind_of_none (codeText_of_not_brace hbrace),
    orElse_bind_of_none (termTypeText_of_not_brace hbrace), orElse_bind_of_none hint, orElse_bind_of_none hstring,
    orElse_bind_of_none (literal_of_cons "(" h rfl), orElse_bind_of_none (literal_of_cons "(" h rfl),
    orElse_bind_of_none (literal_of_cons "[" h rfl), orElse_bind_of_none (keyword_of_cons "do" h rfl),
    orElse_bind_of_none (literal_of_cons "\x7b" h rfl), bind_of_none hname]

theorem expression_of_quote : r.expression cur = none :=
  expression_of_none (keyword_of_cons "let" h rfl) (literal_of_cons "\\" h rfl) (keyword_of_cons "if" h rfl)
    (atom_of_quote h hstring)

end

end Reading

open VeriScript.Reading

/-! ## Shown strings -/

section
variable {s : String}

theorem at_start_scriptText (file s : String) :
    (Cursor.start file (Text.scriptText s)).At (Text.scriptText s).toList := by
  refine Cursor.at_start (Value.tab_not_mem_scriptText s) ?_
  rw [toList_scriptText]
  exact solid_cons rfl

/-- Without a carriage return the text is a string literal, which means the string. -/
theorem parseExpression_of_not_return (file : String) (h : '\r' ∉ s.toList) :
    ∃ span, parseExpression file (Text.scriptText s) = .ok (.string span s) := by
  have hstarts : StartsData (Text.scriptText s).toList := ⟨'"', _, toList_scriptText s, by decide⟩
  have hfinds : Finds Reading.expr (Text.scriptText s).toList (fun e => ∃ span, e = .string span s) [] := by
    intro cur hcur
    exact expression_of_atom hstarts (atom_string h) itemEnd_nil cur hcur
  have hsolid : Solid (Text.scriptText s).toList := by simpa using hstarts.opens.solid []
  obtain ⟨e, hread, span, rfl⟩ : ∃ e, readAll Reading.expr file (Text.scriptText s) = .done e ∧ _ :=
    readAll_of_finds hfinds (Value.tab_not_mem_scriptText s) hsolid
  exact ⟨span, by rw [parseExpression, parseAll, hread]⟩

/-- With a carriage return nothing of the text can be read. -/
theorem parseExpression_of_return (file : String) (h : '\r' ∈ s.toList) :
    parseExpression file (Text.scriptText s) = .error .nothing := by
  have hat := (at_start_scriptText file s).rest_eq
  have hstring : stringLiteral (Cursor.start file (Text.scriptText s)) = none :=
    bind_of_none (token_of_none hat (stringSize?_script_of_return h))
  rw [toList_scriptText] at hat
  have hexpr : Reading.expr (Cursor.start file (Text.scriptText s)) = none := expression_of_quote hat hstring
  simp [parseExpression, parseAll, readAll, hexpr]

end

/-- The text of a string is a string literal that means this string, whatever quotes, backslashes and control characters
the string has, with one exception: where it has a carriage return, its text cannot be read. -/
theorem shown_string_reads_back (file s : String) :
    if '\r' ∈ s.toList then parseExpression file (Text.scriptText s) = .error .nothing
    else ∃ span, parseExpression file (Text.scriptText s) = .ok (.string span s) := by
  split
  · rename_i h
    exact parseExpression_of_return file h
  · rename_i h
    exact parseExpression_of_not_return file h

/-- A carriage return is shown between quotes, and not read back. -/
theorem carriage_return_unreadable :
    Text.scriptText "\r" = "\"\r\"" ∧ parseExpression "" (Text.scriptText "\r") = .error .nothing :=
  ⟨by decide, parseExpression_of_return "" (by decide)⟩

end VeriScript
