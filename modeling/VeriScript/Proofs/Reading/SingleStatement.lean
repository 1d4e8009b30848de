import VeriScript.Proofs.Reading.Statements
import VeriScript.Proofs.Reading.TextEnd
import VeriScript.Reading.Source

/-!
# One statement, read as a script and read as it is typed

A script of one statement and the statement as it is typed are read from the same text, but the typed one is trimmed and
gets a semicolon if its last character is none.  The two readings agree, unless a closed comment ends the text, behind
which the semicolon is one too many, or blanks end it that trimming removes and scripts do not skip.

* `start_eq_append`, `start_push` — the texts that are read, as the trimmed text with a tail behind it.
* `last_of_stmt` — the last character of a trimmed text that starts with a statement.
* `stmt_of_trimmed`, `trimmed_of_stmt` — the blanks at the end do not change the first statement.
* `parseStatement_of_stmt`, `parseProgram_of_stmt` — both readings of a text with one statement.
* `single_statement_agreement` — when they agree, and how the other one fails when they do not.
-/

namespace VeriScript

open VeriScript.Reading VeriScript.Reading.Parser

/-! ## Reading to the end -/

theorem exists_eq_ok {ε α : Type} {e : Except ε α} (h : e.isOk = true) : ∃ a, e = .ok a := by
  cases e with
  | ok a => exact ⟨a, rfl⟩
  | error err => cases h

theorem exists_eq_error {ε α : Type} {e : Except ε α} (h : e.isOk = false) : ∃ err, e = .error err := by
  cases e with
  | ok a => cases h
  | error err => exact ⟨err, rfl⟩

section
variable {α : Type} {p : Parser α} {file text : String} {a : α} {cur cur' : Cursor}

theorem parseAll_eq_ok :
    parseAll p file text = .ok a ↔ ∃ cur, p (.start file text) = some (a, cur) ∧ afterGap cur.rest = [] := by
  simp only [← Cursor.rest_skipGap, ← readAll_eq_done]
  unfold parseAll
  split <;> simp_all

theorem parseAll_leftover (h : p (.start file text) = some (a, cur)) (hrest : afterGap cur.rest ≠ []) :
    ∃ line col, parseAll p file text = .error (.leftover file text line col) := by
  rw [← Cursor.rest_skipGap] at hrest
  exact ⟨cur.skipGap.line, cur.skipGap.col, by simp [parseAll, readAll, h, hrest]⟩

end

/-! ## Trimmed texts -/

section
variable {file text : String} {s : Stmt} {cur cur' : Cursor}

theorem start_eq_append (file text : String) : ∃ col, Cursor.start file text =
    (Cursor.start file (Text.trimRight text)).append (Text.expandTabsFrom col (Text.trailingBlanks text)) := by
  obtain ⟨col, hsplit⟩ := Text.exists_expandTabsFrom_append 0 (Text.trimRight text).toList
  refine ⟨col, ?_⟩
  have htext : Text.expandTabs text.toList =
      Text.expandTabs (Text.trimRight text).toList ++ Text.expandTabsFrom col (Text.trailingBlanks text) := by
    rw [← Text.toList_trimRight_append text]
    exact hsplit _
  rw [Cursor.start, htext]
  rfl

theorem start_push (file text : String) :
    Cursor.start file (text.push ';') = (Cursor.start file text).append [';'] := by
  obtain ⟨col, hsplit⟩ := Text.exists_expandTabsFrom_append 0 text.toList
  have htext : Text.expandTabs (text.push ';').toList = Text.expandTabs text.toList ++ [';'] := by
    rw [String.toList_push, Text.expandTabs, hsplit, Text.expandTabsFrom_singleton (by decide)]
    rfl
  rw [Cursor.start, htext]
  rfl

theorem isBlank_of_mem_expandTabsFrom (col : Nat) (text : String) :
    ∀ c ∈ Text.expandTabsFrom col (Text.trailingBlanks text), Text.isBlank c = true := by
  apply List.all_eq_true.1
  rw [Text.all_expandTabsFrom (by decide) (by decide)]
  exact List.all_eq_true.2 Text.isBlank_of_mem_trailingBlanks

theorem stmt_of_trimmed {tail : List Char} (ht : IsTail tail) (h : stmt cur = some (s, cur')) :
    stmt (cur.append tail) = some (s, cur'.append tail) :=
  ((stmt_completes ht cur).of_some h).1

theorem trimmed_of_stmt {blanks : List Char} (hblank : ∀ c ∈ blanks, Text.isBlank c = true)
    (h : stmt (cur.append blanks) = some (s, cur')) :
    ∃ cur1, stmt cur = some (s, cur1) ∧ cur' = cur1.append blanks := by
  cases stmt_completes (isTail_of_blank hblank) cur with
  | read hp hq hend =>
    cases h.symm.trans hq
    exact ⟨_, hp, rfl⟩
  | failed hp hq => cases h.symm.trans hq
  | completed hp hq htail hsemicolon htoken hbrace => exact absurd (hblank _ hsemicolon) (by decide)

/-- No statement starts behind the blanks and comments that end a text, whatever blanks follow. -/
theorem stmt_of_gap {blanks : List Char} (hblank : ∀ c ∈ blanks, Text.isBlank c = true)
    (hgap : afterGap cur.rest = []) : stmt (cur.append blanks) = none := by
  rw [← Cursor.rest_skipGap] at hgap
  cases stmt_completes (isTail_of_blank hblank) cur with
  | read hp hq hend =>
    obtain ⟨taken, hend⟩ := hend
    simp [hgap] at hend
  | failed hp hq => exact hq
  | completed hp hq htail hsemicolon htoken hbrace => exact absurd hgap htoken

theorem last_of_stmt (h : stmt (.start file (Text.trimRight text)) = some (s, cur)) :
    ∃ c, (Text.trimRight text).toList.getLast? = some c ∧ Text.isBlank c = false ∧
      (cur.rest = [] ∧ c = ';' ∨ cur.rest.getLast? = some c) := by
  obtain ⟨-, taken, hend⟩ := (stmt_completes isTail_nil _).of_some h
  have hrest := Cursor.rest_eq_append_skipGap (Cursor.start file (Text.trimRight text))
  rw [hend] at hrest
  cases hlast : (Text.trimRight text).toList.getLast? with
  | none =>
    rw [Cursor.start, List.getLast?_eq_none_iff.1 hlast] at hrest
    simp [Text.expandTabs, Text.expandTabsFrom] at hrest
  | some c =>
    have hblank := Text.isBlank_last_trimRight hlast
    have htab : c ≠ '\t' := by
      rintro rfl
      exact absurd hblank (by decide)
    have hexpand : (Cursor.start file (Text.trimRight text)).rest.getLast? = some c :=
      Text.getLast?_expandTabs hlast htab
    refine ⟨c, rfl, hblank, ?_⟩
    by_cases hempty : cur.rest = []
    · left
      rw [hrest, hempty] at hexpand
      exact ⟨hempty, by simpa using hexpand.symm⟩
    · right
      rw [hrest] at hexpand
      simpa [List.getLast?_append, List.getLast?_cons_of_ne_nil hempty, hempty] using hexpand

/-! ## Both readings -/

/-- What is left of a text behind its statement does not end with a closed comment. -/
def EndsOpen (rest : List Char) : Prop :=
  rest = [] ∨ InLineComment rest

/-- A last character that ends no comment leaves the comment open. -/
theorem endsOpen_of_semicolon {rest : List Char} (hgap : afterGap rest = [])
    (hlast : rest = [] ∨ rest.getLast? = some ';') : EndsOpen rest := by
  rcases hlast with hempty | hlast
  · exact .inl hempty
  · rcases afterGap_of_gap hgap hlast (by decide) with hopen | ⟨hslash, -⟩
    · exact .inr hopen
    · exact absurd hslash (by decide)

theorem completeStatement_of_last {c : Char} (h : (Text.trimRight text).toList.getLast? = some c) :
    completeStatement text = if c = ';' then Text.trimRight text else (Text.trimRight text).push ';' := by
  simp [completeStatement, h]

/-- The statement as it is typed is read if no closed comment ends its text; behind one, the added semicolon is left. -/
theorem parseStatement_of_stmt (h : stmt (.start file (Text.trimRight text)) = some (s, cur))
    (hgap : afterGap cur.rest = []) :
    (EndsOpen cur.rest → parseStatement file text = .ok s) ∧
    (¬ EndsOpen cur.rest → (Text.trimRight text).toList.getLast? = some '/' ∧ ∃ line col,
      parseStatement file text = .error (.leftover file (completeStatement text) line col)) := by
  obtain ⟨c, hlast, hblank, hrest⟩ := last_of_stmt h
  by_cases hc : c = ';'
  · subst hc
    have hopen : EndsOpen cur.rest := endsOpen_of_semicolon hgap (hrest.imp And.left id)
    refine ⟨fun _ => ?_, fun hclosed => absurd hopen hclosed⟩
    rw [parseStatement, completeStatement_of_last hlast, if_pos rfl]
    exact parseAll_eq_ok.2 ⟨cur, h, hgap⟩
  · have hrest : cur.rest.getLast? = some c := hrest.resolve_left fun hempty => hc hempty.2
    have hcomplete : completeStatement text = (Text.trimRight text).push ';' := by
      rw [completeStatement_of_last hlast, if_neg hc]
    have hread : stmt (.start file (completeStatement text)) = some (s, cur.append [';']) := by
      rw [hcomplete, start_push]
      exact stmt_of_trimmed isTail_semicolon h
    constructor
    · rintro (hempty | hopen)
      · simp [hempty] at hrest
      · refine parseAll_eq_ok.2 ⟨_, hread, ?_⟩
        rw [Cursor.rest_append, afterGap_inLineComment isTail_semicolon hopen (by simp)]
        rfl
    · intro hclosed
      have hc : Text.isGap c = false := Bool.eq_false_iff.2 fun h => by simp [Text.isBlank_of_isGap h] at hblank
      rcases afterGap_of_gap hgap hrest hc with hopen | ⟨rfl, hskip⟩
      · exact absurd (.inr hopen) hclosed
      · have hbehind : afterGap (cur.rest ++ [';']) = [';'] := hskip isTail_semicolon
        exact ⟨hlast, parseAll_leftover hread (by simp [Cursor.rest_append, hbehind])⟩

/-- The blanks at the end of the text that a script does not skip as part of a comment. -/
def blanksBehind (rest : List Char) (text : String) : List Char :=
  if rest = [] then Text.trailingBlanks text else (Text.trailingBlanks text).dropWhile (· ≠ '\n')

theorem afterGap_trailingBlanks {rest : List Char} (hopen : EndsOpen rest) (hlast : rest.getLast? ≠ some '\\')
    (col : Nat) (text : String) :
    afterGap (rest ++ Text.expandTabsFrom col (Text.trailingBlanks text)) = [] ↔
      (blanksBehind rest text).all Text.isGap = true := by
  have hblank := isBlank_of_mem_expandTabsFrom col text
  rcases hopen with rfl | hcomment
  · rw [List.nil_append, afterGap_of_blank hblank, Text.all_expandTabsFrom (by decide) (by decide)]
    rfl
  · have hbehind : ∀ c ∈ (Text.expandTabsFrom col (Text.trailingBlanks text)).dropWhile (· ≠ '\n'),
        Text.isBlank c = true :=
      fun c hc => hblank c ((List.dropWhile_suffix _).subset hc)
    obtain ⟨col', hdrop⟩ := Text.exists_dropWhile_expandTabsFrom col (Text.trailingBlanks text)
    rw [afterGap_inLineComment (isTail_of_blank hblank) hcomment fun _ => hlast, afterGap_of_blank hbehind, hdrop,
      Text.all_expandTabsFrom (by decide) (by decide), blanksBehind, if_neg hcomment.ne_nil]

theorem allBlank_of_last {c : Char} (h : (Text.trimRight text).toList.getLast? = some c)
    (hblank : Text.isBlank c = false) : Text.allBlank text = false := by
  rw [Text.allBlank, ← Text.toList_trimRight_append text, List.all_eq_false]
  exact ⟨c, by simp [List.mem_of_getLast? h], by simp [hblank]⟩

theorem parseProgram_of_stmt (h : stmt (.start file (Text.trimRight text)) = some (s, cur))
    (hgap : afterGap cur.rest = []) (hsemicolon : (Text.trimRight text).toList.getLast? = some ';') :
    ((blanksBehind cur.rest text).all Text.isGap = true → parseProgram file text = .ok [s]) ∧
    (¬ (blanksBehind cur.rest text).all Text.isGap = true → ∃ line col,
      parseProgram file text = .error (.leftover file text line col)) := by
  obtain ⟨c, hlast, hblank, hrest⟩ := last_of_stmt h
  cases hsemicolon.symm.trans hlast
  have hopen : EndsOpen cur.rest := endsOpen_of_semicolon hgap (hrest.imp And.left id)
  have hbackslash : cur.rest.getLast? ≠ some '\\' := by
    rcases hrest with ⟨hempty, -⟩ | hrest
    · simp [hempty]
    · simp [hrest]
  obtain ⟨col, hstart⟩ := start_eq_append file text
  have hblanks := isBlank_of_mem_expandTabsFrom col text
  have hread : stmts (.start file text) =
      some ([s], cur.append (Text.expandTabsFrom col (Text.trailingBlanks text))) := by
    rw [hstart]
    exact many_of_some (fun _ _ _ => stmt_consumes) (stmt_of_trimmed (isTail_of_blank hblanks) h)
      (many_of_none (stmt_of_gap hblanks hgap))
  have hprogram : parseProgram file text = parseAll stmts file text := by
    simp [parseProgram, allBlank_of_last hlast hblank]
  rw [hprogram]
  constructor
  · intro hall
    exact parseAll_eq_ok.2 ⟨_, hread, (afterGap_trailingBlanks hopen hbackslash col text).2 hall⟩
  · intro hall
    exact parseAll_leftover hread (mt (afterGap_trailingBlanks hopen hbackslash col text).1 hall)

/-- What a script of one statement says about the trimmed text. -/
theorem stmt_of_parseProgram (h : parseProgram file text = .ok [s]) :
    ∃ cur, stmt (.start file (Text.trimRight text)) = some (s, cur) ∧ afterGap cur.rest = [] := by
  have hread : parseAll stmts file text = .ok [s] := by
    unfold parseProgram at h
    split at h
    · cases h
    · exact h
  obtain ⟨cur', hstmts, hend⟩ := parseAll_eq_ok.1 hread
  obtain ⟨col, hstart⟩ := start_eq_append file text
  have hblanks := isBlank_of_mem_expandTabsFrom col text
  rw [hstart] at hstmts
  obtain ⟨cur, hstmt, rfl⟩ := trimmed_of_stmt hblanks (many_eq_singleton hstmts)
  refine ⟨cur, hstmt, ?_⟩
  by_contra hne
  rw [Cursor.rest_append, afterGap_tail (isTail_of_blank hblanks) hne] at hend
  exact hne (List.append_eq_nil_iff.1 hend).1

/-- What a typed statement with its semicolon says about the trimmed text. -/
theorem stmt_of_parseStatement (hsemicolon : (Text.trimRight text).toList.getLast? = some ';')
    (h : parseStatement file text = .ok s) :
    ∃ cur, stmt (.start file (Text.trimRight text)) = some (s, cur) ∧ afterGap cur.rest = [] := by
  rw [parseStatement, completeStatement_of_last hsemicolon, if_pos rfl] at h
  exact parseAll_eq_ok.1 h

end

/-- A script of one statement and the statement as it is typed are the same, where both can be read.  A script of one
statement can be typed, unless a closed comment ends it: the semicolon that is added behind the comment is left over.
A typed statement that ends with a semicolon is a script, unless it ends with blanks that are none between tokens: the
first of them is left over. -/
theorem single_statement_agreement (file text : String) (s : Stmt) :
    (parseProgram file text = .ok [s] →
      ∃ cur, stmt (.start file (Text.trimRight text)) = some (s, cur) ∧
        (EndsOpen cur.rest → parseStatement file text = .ok s) ∧
        (¬ EndsOpen cur.rest → (Text.trimRight text).toList.getLast? = some '/' ∧ ∃ line col,
          parseStatement file text = .error (.leftover file (completeStatement text) line col))) ∧
    ((Text.trimRight text).toList.getLast? = some ';' → parseStatement file text = .ok s →
      ∃ cur, stmt (.start file (Text.trimRight text)) = some (s, cur) ∧
        ((blanksBehind cur.rest text).all Text.isGap = true → parseProgram file text = .ok [s]) ∧
        (¬ (blanksBehind cur.rest text).all Text.isGap = true → ∃ line col,
          parseProgram file text = .error (.leftover file text line col))) := by
  constructor
  · intro hprogram
    obtain ⟨cur, hread, hgap⟩ := stmt_of_parseProgram hprogram
    exact ⟨cur, hread, parseStatement_of_stmt hread hgap⟩
  · intro hsemicolon hstatement
    obtain ⟨cur, hread, hgap⟩ := stmt_of_parseStatement hsemicolon hstatement
    exact ⟨cur, hread, parseProgram_of_stmt hread hgap hsemicolon⟩

/-- A semicolon in a string and one in a comment, with a line feed behind it. -/
theorem single_statement_agreement_comment :
    ∃ s, (Text.trimRight "\";\"; /* b */ // c;\n").toList.getLast? = some ';' ∧
      parseStatement "" "\";\"; /* b */ // c;\n" = .ok s ∧
      parseProgram "" "\";\"; /* b */ // c;\n" = .ok [s] ∧
      ∃ cur, stmt (.start "" (Text.trimRight "\";\"; /* b */ // c;\n")) = some (s, cur) ∧ EndsOpen cur.rest := by
  have hsemicolon : (Text.trimRight "\";\"; /* b */ // c;\n").toList.getLast? = some ';' := by decide +kernel
  have hread : (parseStatement "" "\";\"; /* b */ // c;\n").isOk = true := by decide +kernel
  have hblanks : Text.trailingBlanks "\";\"; /* b */ // c;\n" = ['\n'] := by decide +kernel
  obtain ⟨s, hstatement⟩ := exists_eq_ok hread
  obtain ⟨script, typed⟩ := single_statement_agreement "" "\";\"; /* b */ // c;\n" s
  obtain ⟨cur, -, hprogram, -⟩ := typed hsemicolon hstatement
  have hprogram : parseProgram "" "\";\"; /* b */ // c;\n" = .ok [s] := by
    apply hprogram
    rw [blanksBehind, hblanks]
    split <;> decide
  obtain ⟨cur, hstmt, -, hclosed⟩ := script hprogram
  refine ⟨s, hsemicolon, hstatement, hprogram, cur, hstmt, ?_⟩
  by_contra hopen
  obtain ⟨hslash, -⟩ := hclosed hopen
  simp [hsemicolon] at hslash

/-- A closed comment behind the statement, and a blank that is none between tokens. -/
theorem single_statement_disagreement :
    (∃ s, parseProgram "" "1; /* c */" = .ok [s]) ∧ (∃ e, parseStatement "" "1; /* c */" = .error e) ∧
    (∃ s, parseStatement "" "1;\u00a0" = .ok s) ∧ ∃ e, parseProgram "" "1;\u00a0" = .error e := by
  refine ⟨?_, exists_eq_error (by decide +kernel), exists_eq_ok (by decide +kernel),
    exists_eq_error (by decide +kernel)⟩
  have hone : (parseProgram "" "1; /* c */").toOption.map List.length = some 1 := by decide +kernel
  obtain ⟨ss, hss⟩ : ∃ ss, parseProgram "" "1; /* c */" = .ok ss := exists_eq_ok (by decide +kernel)
  rw [hss] at hone
  obtain ⟨s, rfl⟩ := List.length_eq_one_iff.1 (Option.some.inj hone)
  exact ⟨s, hss⟩

end VeriScript
