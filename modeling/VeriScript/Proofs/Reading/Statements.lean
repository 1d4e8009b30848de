import VeriScript.Proofs.Reading.Appending
import VeriScript.Proofs.Reading.Expression

/-!
# Statements and their semicolons

A tail behind a text can complete a statement, but only a statement that ends the text.

* `Completes` — how the reading of a statement changes with a tail behind the text.
* `block_ignores` — a block is not read differently: no closing brace follows a statement that the tail completes.
* `Rules.Alike` — rules that agree up to tails; `Rules.Alike.expression`, `Rules.statement_completes` — what is read
  with them.
* `exprAt_stmtAt_alike`, `stmt_completes` — expressions and statements.
-/

namespace VeriScript.Reading

open VeriScript.Reading.Parser

/-! ## Statements -/

/-- Reading from a text and from the text with a tail behind it: both read the same up to a semicolon in the text, or
both fail, or the tail brings the semicolon that the text lacks at its end. -/
inductive Completes {α : Type} (tail : List Char) (p q : Parser α) (cur : Cursor) : Prop where
  | read {a : α} {cur' : Cursor} (hp : p cur = some (a, cur')) (hq : q (cur.append tail) = some (a, cur'.append tail))
    (hend : ∃ taken, cur.skipGap.rest = taken ++ ';' :: cur'.rest)
  | failed (hp : p cur = none) (hq : q (cur.append tail) = none)
  | completed {a : α} {cur' : Cursor} (hp : p cur = none) (hq : q (cur.append tail) = some (a, cur'))
    (htail : IsTail cur'.rest) (hsemicolon : ';' ∈ tail) (htoken : cur.skipGap.rest ≠ [])
    (hbrace : '\x7d' ∉ cur.skipGap.rest.head?)

section
variable {α β : Type} {tail : List Char} {p q : Parser α} {n : Nat} {cur : Cursor}

/-- What takes tokens takes nothing from a tail. -/
theorem Ignores.eq_none_of_tail (h : Ignores cur.rest true (n + 1) p q) : q cur = none := by
  have hempty : p { cur with rest := [] } = none := h.eq_none (Nat.succ_pos n) rfl
  have hq : q (Cursor.append { cur with rest := [] } cur.rest) = none := h.run_none (Nat.succ_pos n) hempty
  exact hq

theorem Completes.eq_none_of_tail (h : Completes cur.rest p q { cur with rest := [] }) : q cur = none := by
  cases h with
  | read hp hq hend =>
    obtain ⟨taken, hend⟩ := hend
    have hnil : [] = taken ++ ';' :: _ := hend
    simp at hnil
  | failed hp hq => exact hq
  | completed hp hq htail hsemicolon htoken hbrace => exact absurd rfl htoken

theorem Completes.of_some (h : Completes tail p q cur) {a : α} {cur' : Cursor} (hp : p cur = some (a, cur')) :
    q (cur.append tail) = some (a, cur'.append tail) ∧ ∃ taken, cur.skipGap.rest = taken ++ ';' :: cur'.rest := by
  cases h with
  | read hread hq hend =>
    cases hp.symm.trans hread
    exact ⟨hq, hend⟩
  | failed hread hq => cases hp.symm.trans hread
  | completed hread hq htail hsemicolon htoken hbrace => cases hp.symm.trans hread

theorem took_of_semicolon {cur' : Cursor} (h : ∃ taken, cur.skipGap.rest = taken ++ ';' :: cur'.rest) :
    cur.Took true cur' := by
  obtain ⟨taken, hend⟩ := h
  exact .inl ⟨taken ++ [';'], by simp, by simp [hend]⟩

section
variable (hp : ∀ {tail}, IsTail tail → ∀ {cur : Cursor}, cur.rest.length < n → Completes tail p q cur)
  (ht : IsTail tail)
include hp ht

/-- Where no statement is read, none is with a tail either, or the tail completes one, which is then the last, and no
closing brace follows in either case. -/
theorem manyIn_of_none (fuel : Nat) (hn : cur.rest.length < n) (hnone : p cur = none) :
    manyIn q fuel (cur.append tail) = some ([], cur.append tail) ∨
      literal "\x7d" cur = none ∧
        ∃ bs cur1, manyIn q fuel (cur.append tail) = some (bs, cur1) ∧ literal "\x7d" cur1 = none := by
  cases fuel with
  | zero => exact .inl rfl
  | succ fuel =>
    cases hp ht hn with
    | read hread hq hend => cases hnone.symm.trans hread
    | failed hread hq => exact .inl (by simp [manyIn, hq])
    | completed hread hq htail hsemicolon htoken hbrace =>
      rename_i a cur1
      have hempty : (Cursor.rest { cur1 with rest := [] }).length < n := Nat.zero_lt_of_lt hn
      have hnext : q cur1 = none := (hp htail hempty).eq_none_of_tail
      have hmore : manyIn q fuel cur1 = some ([], cur1) := by cases fuel <;> simp [manyIn, hnext]
      refine .inr ⟨literal_of_head rfl ?_ (by decide), [a], cur1, by simp [manyIn, hq, hmore],
        (literal_ignores htail (n := 1) (by decide)).eq_none_of_tail⟩
      intro c hc hmem
      cases hmem
      exact hbrace hc

theorem block_ignores (f : List α → β) :
    Ignores tail true n (do let as ← many p; literal "\x7d"; return f as)
      (do let as ← many q; literal "\x7d"; return f as) := by
  refine .of_cases fun cur hn => ?_
  have hclose : ∀ as, Ignores tail true n (do literal "\x7d"; return f as) (do literal "\x7d"; return f as) :=
    fun as => (literal_ignores ht (by decide)).taking fun _ => .done _
  have hstep : ∀ {cur a cur'}, cur.rest.length < n → p cur = some (a, cur') →
      q (cur.append tail) = some (a, cur'.append tail) ∧ cur.Took true cur' :=
    fun hn hread => ((hp ht hn).of_some hread).imp_right took_of_semicolon
  obtain ⟨as, cur1, more, hmany, htook, hnone, hmany'⟩ := manyIn_append hstep hn (Nat.le_refl _)
    (show cur.rest.length ≤ (cur.append tail).rest.length by simp [Cursor.rest_append])
  have hmany : many p cur = some (as, cur1) := hmany
  have hmany' : many q (cur.append tail) = _ := hmany'
  have hn1 : cur1.rest.length < n := Nat.lt_of_le_of_lt htook.length_le hn
  rw [bind_of_some hmany]
  rcases manyIn_of_none hp ht more hn1 hnone with hrest | ⟨hbrace, bs, cur2, hrest, hbrace'⟩
  · rw [hrest, Option.map_some, List.append_nil] at hmany'
    rw [bind_of_some hmany']
    refine ((hclose as).cases_at hn1).imp_right ?_
    rintro ⟨b, cur2, hread, hread', htook'⟩
    exact ⟨b, cur2, hread, hread', htook.trans htook'⟩
  · rw [hrest, Option.map_some] at hmany'
    rw [bind_of_some hmany']
    exact .inl ⟨bind_of_none hbrace, bind_of_none hbrace'⟩

end

end

/-! ## Rules -/

/-- Rules that read texts of less than `n` characters alike, the second ones with a tail behind the text. -/
structure Rules.Alike (n : Nat) (r r' : Rules) : Prop where
  expr : ∀ {tail}, IsTail tail → Ignores tail true n r.expr r'.expr
  stmt : ∀ {tail}, IsTail tail → ∀ {cur : Cursor}, cur.rest.length < n → Completes tail r.stmt r'.stmt cur

section
variable {tail : List Char} {n : Nat} (ht : IsTail tail)
include ht

theorem symbol_ignores {s : String} {stops : List Char}
    (hs : s.toList ≠ [] ∧ s.toList.any tailChars.contains = false) (hstops : tailChars.any stops.contains = false) :
    Ignores tail true n (symbol s stops) (symbol s stops) :=
  (token_ignores ht (ignoresTail_symbol hs.1 hs.2 hstops)).taking fun _ => .done _

theorem binaryOp_ignores : Ignores tail true n binaryOp binaryOp := by
  refine .here_bind (fun span => Ignores.taking ?_ fun _ => .done _) ht
  refine .orElse ?_ (.orElse ?_ (.orElse ?_ (.orElse ?_ (.orElse ?_ (.orElse ?_ (.orElse ?_ (.orElse ?_ (.orElse ?_
    (.orElse ?_ (.orElse ?_ (.orElse ?_ ?_)))))))))))
  all_goals exact (symbol_ignores ht (by decide) (by decide)).taking fun _ => .done _

theorem codeText_ignores : Ignores tail true n codeText codeText :=
  (token_ignores ht (ignoresTail_between (by decide) (by decide) rfl)).map _

theorem termTypeText_ignores : Ignores tail true n termTypeText termTypeText :=
  (token_ignores ht (ignoresTail_between (by decide) (by decide) rfl)).map _

theorem intLiteral_ignores : Ignores tail true n intLiteral intLiteral :=
  (token_ignores ht (ignoresTail_int _)).taking fun _ => .readable _

theorem stringLiteral_ignores : Ignores tail true n stringLiteral stringLiteral :=
  (token_ignores ht ignoresTail_string).map _

end

namespace Rules.Alike

variable {tail : List Char} {n : Nat} {r r' : Rules} (h : Alike n r r') (ht : IsTail tail)
include h ht

/-! ### Declarations -/

theorem functionDecl : Ignores tail true (n + 1) r.functionDecl r'.functionDecl := by
  refine .here_bind (fun span => (identifier_ignores ht).taking_succ fun name => ?_) ht
  refine (pattern_ignores ht).many1.andThen fun params => (typing_ignores ht).andThen fun type? => ?_
  exact (literal_ignores ht (by decide)).andThen fun _ => (h.expr ht).andThen fun body => .done _

theorem patternDecl : Ignores tail true (n + 1) r.patternDecl r'.patternDecl := by
  refine .here_bind (fun span => (typedPattern_ignores ht).taking_succ fun p => ?_) ht
  exact (literal_ignores ht (by decide)).andThen fun _ => ((h.expr ht).map _).weaken

theorem decl : Ignores tail true (n + 1) r.decl r'.decl :=
  (h.functionDecl ht).orElse (h.patternDecl ht)

theorem group : Ignores tail true (n + 1) r.group r'.group := by
  have hdecl := h.decl ht
  refine .here_bind (fun span => .orElse ?_ (hdecl.map _)) ht
  exact (keyword_ignores ht (by decide)).taking fun _ => hdecl.taking fun _ =>
    (Ignores.many ((keyword_ignores ht (by decide)).taking fun _ => hdecl)).andThen fun _ => .done _

/-! ### Expressions -/

theorem field : Ignores tail true (n + 1) r.field r'.field :=
  (identifier_ignores ht).taking_succ fun _ => (literal_ignores ht (by decide)).andThen fun _ =>
    ((h.expr ht).map _).weaken

theorem atom : Ignores tail true (n + 1) r.atom r'.atom := by
  have hexpr := h.expr ht
  have hfield : Ignores tail true n r.field r'.field := (h.field ht).mono (Nat.le_succ n)
  refine .here_bind (fun span => ?_) ht
  refine .orElse ((codeText_ignores ht).map _) (.orElse ((termTypeText_ignores ht).map _)
    (.orElse ((intLiteral_ignores ht).map _) (.orElse ((stringLiteral_ignores ht).map _)
    (.orElse ?unit (.orElse ?paren (.orElse ?array (.orElse ?block (.orElse ?record
    ((identifier_ignores ht).map _)))))))))
  case unit =>
    exact (literal_ignores ht (by decide)).taking fun _ => (literal_ignores ht (by decide)).taking fun _ => .done _
  case paren =>
    refine (literal_ignores ht (by decide)).taking_succ fun _ => (sepBy1_ignores ht hexpr).andThen fun es => ?_
    refine (literal_ignores ht (by decide)).andThen fun _ => ?_
    split <;> exact .done _
  case array =>
    exact (literal_ignores ht (by decide)).taking_succ fun _ => (sepBy_ignores ht hexpr).andThen fun _ =>
      (literal_ignores ht (by decide)).andThen fun _ => .done _
  case block =>
    exact (keyword_ignores ht (by decide)).taking_succ fun _ => (literal_ignores ht (by decide)).andThen fun _ =>
      (block_ignores h.stmt ht _).weaken
  case record =>
    exact (literal_ignores ht (by decide)).taking_succ fun _ => (sepBy_ignores ht hfield).andThen fun _ =>
      (literal_ignores ht (by decide)).andThen fun _ => .done _

theorem selector (span : Span) : Ignores tail true (n + 1) (r.selector span) (r'.selector span) := by
  refine .orElse ?_ (.orElse ?_ ?_)
  · exact (literal_ignores ht (by decide)).taking fun _ =>
      (token_ignores ht ignoresTail_decimal).taking fun _ => (Ignores.readable _).andThen fun _ => .done _
  · exact (literal_ignores ht (by decide)).taking fun _ => (identifier_ignores ht).taking fun _ => .done _
  · exact (literal_ignores ht (by decide)).taking fun _ => (h.atom ht).taking fun _ => .done _

theorem selection : Ignores tail true (n + 1) r.selection r'.selection :=
  .here_bind (fun span => (h.atom ht).taking fun _ => (h.selector ht span).many.andThen fun _ => .done _) ht

theorem application : Ignores tail true (n + 1) r.application r'.application :=
  .here_bind (fun _ => (h.selection ht).taking fun _ => (h.selection ht).many.andThen fun _ => .done _) ht

theorem operation : Ignores tail true (n + 1) r.operation r'.operation :=
  (h.application ht).taking fun _ => ((binaryOp_ignores ht).operations (h.application ht)).andThen fun _ => .done _

theorem expression : Ignores tail true (n + 1) r.expression r'.expression := by
  have hexpr := h.expr ht
  have hgroup : Ignores tail true n r.group r'.group := (h.group ht).mono (Nat.le_succ n)
  refine .here_bind (fun span => .orElse ?letIn (.orElse ?lambda (.orElse ?ite ?typed))) ht
  case letIn =>
    exact (keyword_ignores ht (by decide)).taking_succ fun _ => hgroup.andThen fun _ =>
      (keyword_ignores ht (by decide)).andThen fun _ => (hexpr.map _).weaken
  case lambda =>
    exact (literal_ignores ht (by decide)).taking_succ fun _ => (pattern_ignores ht).many1.andThen fun _ =>
      (literal_ignores ht (by decide)).andThen fun _ => (hexpr.map _).weaken
  case ite =>
    exact (keyword_ignores ht (by decide)).taking_succ fun _ => hexpr.andThen fun _ =>
      (keyword_ignores ht (by decide)).andThen fun _ => hexpr.andThen fun _ =>
      (keyword_ignores ht (by decide)).andThen fun _ => (hexpr.map _).weaken
  case typed =>
    refine (h.operation ht).taking fun e => (typing_ignores ht).andThen fun type? => ?_
    cases type? <;> exact .done _

end Rules.Alike

/-! ## Statements up to their semicolons -/

namespace Rules

section
variable {tail : List Char} {n : Nat} {r r' : Rules} {cur : Cursor}

/-- A semicolon stands in the text, or nowhere, or comes from the tail. -/
theorem semicolon_cases (ht : IsTail tail) (cur : Cursor) :
    (∃ cur', literal ";" cur = some ((), cur') ∧ literal ";" (cur.append tail) = some ((), cur'.append tail) ∧
      cur.skipGap.rest = ';' :: cur'.rest) ∨
    literal ";" cur = none ∧ (literal ";" (cur.append tail) = none ∨
      ∃ cur', literal ";" (cur.append tail) = some ((), cur') ∧ IsTail cur'.rest ∧ ';' ∈ tail) := by
  cases hrest : cur.skipGap.rest with
  | cons c cs =>
    have hskip : (cur.append tail).skipGap = cur.skipGap.append tail := Cursor.skipGap_append ht (by simp [hrest])
    have hskip' : (cur.append tail).skipGap.rest = c :: (cs ++ tail) := by
      rw [hskip, Cursor.rest_append, hrest]
      rfl
    by_cases hc : c = ';'
    · subst hc
      have hend : cur.skipGap.rest = ";".toList ++ cs := hrest
      have hend' : (cur.append tail).skipGap.rest = ";".toList ++ (cs ++ tail) := hskip'
      refine .inl ⟨cur.skipGap.advance 1, literal_of_append hend, ?_, by simp [hrest]⟩
      rw [literal_of_append hend', hskip, ← Cursor.advance_append (by simp [hrest])]
      rfl
    · exact .inr ⟨literal_of_ne ";" hrest hc rfl, .inl (literal_of_ne ";" hskip' hc rfl)⟩
  | nil =>
    have hnone : literal ";" cur = none := literal_of_head hrest (by simp) (by decide)
    have hsuffix := Cursor.suffix_skipGap_append ht hrest
    refine .inr ⟨hnone, ?_⟩
    cases hrest' : (cur.append tail).skipGap.rest with
    | nil => exact .inl (literal_of_head hrest' (by simp) (by decide))
    | cons c cs =>
      rw [hrest'] at hsuffix
      by_cases hc : c = ';'
      · subst hc
        have hend : (cur.append tail).skipGap.rest = ";".toList ++ cs := hrest'
        refine .inr ⟨_, literal_of_append hend, ?_, hsuffix.subset (by simp)⟩
        rw [rest_advance_skipGap hend]
        exact ht.of_suffix ((List.suffix_cons ';' cs).trans hsuffix)
      · exact .inl (literal_of_ne ";" hrest' hc rfl)

/-- The semicolon of a statement stands in the text, or the tail brings it. -/
theorem semicolon_completes {form form' : Span → Parser Stmt} (ht : IsTail tail) (hn : cur.rest.length < n)
    (hform : ∀ span, Ignores tail true n (form span) (form' span))
    (hnone : ItemEnd cur.skipGap.rest → ∀ span, form span cur = none) :
    Completes tail (do let span ← here; let s ← form span; literal ";"; return s)
      (do let span ← here; let s ← form' span; literal ";"; return s) cur := by
  have hrun : ∀ (form : Span → Parser Stmt) (cur : Cursor),
      (do let span ← here; let s ← form span; literal ";"; return s : Parser Stmt) cur =
        (do let s ← form cur.skipGap.span; literal ";"; return s : Parser Stmt) cur :=
    fun _ cur => bind_of_some (here_run cur)
  have hp := hrun form cur
  have hq := hrun form' (cur.append tail)
  by_cases hrest : cur.skipGap.rest = []
  · have hempty := fun span => (hform span).eq_none hn hrest
    exact .failed (hp.trans (bind_of_none (hempty _))) (hq.trans (bind_of_none ((hform _).run_none hn (hempty _))))
  rw [Cursor.skipGap_append ht hrest] at hq
  rcases (hform cur.skipGap.span).cases_at hn with ⟨hread, hread'⟩ | ⟨s, cur1, hread, hread', htook⟩
  · exact .failed (hp.trans (bind_of_none hread)) (hq.trans (bind_of_none hread'))
  · rw [bind_of_some hread] at hp
    rw [show (cur.skipGap.append tail).span = cur.skipGap.span from rfl, bind_of_some hread'] at hq
    rcases semicolon_cases ht cur1 with ⟨cur2, hend, hend', hrest2⟩ | ⟨hend, hend' | ⟨cur2, hend', htail, hmem⟩⟩
    · refine .read (hp.trans (bind_of_some hend)) (hq.trans (bind_of_some hend')) ?_
      rcases htook with ⟨taken, -, htaken⟩ | ⟨hfalse, -⟩
      · refine ⟨taken ++ cur1.rest.take (gapLength cur1.rest), ?_⟩
        rw [htaken, List.append_assoc, ← hrest2, ← Cursor.rest_eq_append_skipGap]
      · cases hfalse
    · exact .failed (hp.trans (bind_of_none hend)) (hq.trans (bind_of_none hend'))
    · refine .completed (hp.trans (bind_of_none hend)) (hq.trans (bind_of_some hend')) htail hmem hrest ?_
      intro hbrace
      have hitem : ItemEnd cur.skipGap.rest := by
        intro c hc
        cases (Option.mem_unique hc hbrace)
        simp
      rw [hnone hitem] at hread
      cases hread

theorem typedPattern_of_end (hend : ItemEnd cur.skipGap.rest) : typedPattern cur = none := by
  refine bind_of_none ((bind_of_some (here_run cur)).trans ?_)
  have hwildcard : token wildcardSize? cur = none := by
    refine token_of_none rfl ?_
    cases hrest : cur.skipGap.rest with
    | nil => rfl
    | cons c cs =>
      have hc : (c == '_') = false := hend.head (p := (· == '_')) (by decide) c (by simp [hrest])
      simp only [beq_eq_false_iff_ne] at hc
      simp [wildcardSize?, hc]
  have hname : identifier cur = none := named_of_none rfl (runShape_name.size_of_head (hend.head (by decide)))
  rw [orElse_bind_of_none hwildcard, orElse_bind_of_none hname, bind_of_none (literal_of_outside "(" hend rfl)]

theorem statement_completes (ht : IsTail tail) (hn : cur.rest.length < n)
    (hgroup : Ignores tail true n r.group r'.group) (hexpr : Ignores tail true n r.expr r'.expr)
    (hnone : ItemEnd cur.skipGap.rest → r.expr cur = none) : Completes tail r.statement r'.statement cur := by
  refine semicolon_completes ht hn (fun span => .orElse ?code (.orElse ?define (.orElse ?typedef
    (.orElse ?importTerms (.orElse ?bind (hexpr.map _)))))) fun hend span => ?ends
  case code => exact (keyword_ignores ht (by decide)).taking fun _ => (codeText_ignores ht).map _
  case define =>
    exact (keyword_ignores ht (by decide)).taking fun _ => hgroup.taking fun _ =>
      (notKeyword_ignores ht (by decide)).andThen fun _ => .done _
  case typedef =>
    exact (keyword_ignores ht (by decide)).taking fun _ => (typeName_ignores ht).taking fun _ =>
      (literal_ignores ht (by decide)).taking fun _ => (typeExpr_ignores ht).map _
  case importTerms =>
    exact (keyword_ignores ht (by decide)).taking fun _ => (stringLiteral_ignores ht).taking fun _ =>
      ((keyword_ignores ht (by decide)).taking fun _ => identifier_ignores ht).opt.andThen fun _ => .done _
  case bind =>
    exact (typedPattern_ignores ht).taking fun _ => (literal_ignores ht (by decide)).taking fun _ => hexpr.map _
  case ends =>
    rw [orElse_bind_of_none (keyword_of_outside "let" hend rfl),
      orElse_bind_of_none (keyword_of_outside "let" hend rfl),
      orElse_bind_of_none (keyword_of_outside "typedef" hend rfl),
      orElse_bind_of_none (keyword_of_outside "import" hend rfl),
      orElse_bind_of_none (typedPattern_of_end hend), bind_of_none (hnone hend)]

end

end Rules

/-! ## Expressions and statements -/

theorem exprAt_stmtAt_alike (n : Nat) (ht : IsTail tail) :
    (∀ {d d'}, 2 * n ≤ d + 1 → 2 * n ≤ d' + 1 → Ignores tail true n (exprAt d) (exprAt d')) ∧
      ∀ {d d'}, 2 * n ≤ d → 2 * n ≤ d' → ∀ {cur : Cursor}, cur.rest.length < n →
        Completes tail (stmtAt d) (stmtAt d') cur := by
  induction n generalizing tail with
  | zero =>
    refine ⟨fun _ _ => .of_cases fun cur hn => absurd hn (Nat.not_lt_zero _), ?_⟩
    intro d d' _ _ cur hn
    exact absurd hn (Nat.not_lt_zero _)
  | succ n ih =>
    have hrules : ∀ {d d'}, 2 * n ≤ d → 2 * n ≤ d' →
        Rules.Alike n ⟨exprAt d, stmtAt d⟩ ⟨exprAt d', stmtAt d'⟩ := by
      intro d d' hd hd'
      exact ⟨fun ht => (ih ht).1 (by omega) (by omega), fun ht => (ih ht).2 hd hd'⟩
    have hexpr : ∀ {d d'}, 2 * (n + 1) ≤ d + 1 → 2 * (n + 1) ≤ d' + 1 →
        Ignores tail true (n + 1) (exprAt d) (exprAt d') := by
      intro d d' hd hd'
      obtain ⟨d, rfl⟩ := Nat.exists_eq_succ_of_ne_zero (show d ≠ 0 by omega)
      obtain ⟨d', rfl⟩ := Nat.exists_eq_succ_of_ne_zero (show d' ≠ 0 by omega)
      exact (hrules (by omega) (by omega)).expression ht
    refine ⟨hexpr, ?_⟩
    intro d d' hd hd' cur hn
    obtain ⟨d, rfl⟩ := Nat.exists_eq_succ_of_ne_zero (show d ≠ 0 by omega)
    obtain ⟨d', rfl⟩ := Nat.exists_eq_succ_of_ne_zero (show d' ≠ 0 by omega)
    have hgroup : Ignores tail true (n + 1) (Rules.group ⟨exprAt d, stmtAt d⟩) (Rules.group ⟨exprAt d', stmtAt d'⟩) :=
      (hrules (by omega) (by omega)).group ht
    exact Rules.statement_completes ht hn hgroup (hexpr (by omega) (by omega)) fun hend => exprAt_of_end hend

theorem stmt_completes (ht : IsTail tail) (cur : Cursor) : Completes tail stmt stmt cur := by
  have hdepth : cur.rest.length ≤ (cur.append tail).rest.length := by simp [Cursor.rest_append]
  have h : Completes tail (stmtAt (2 * cur.rest.length + 2)) (stmtAt (2 * (cur.append tail).rest.length + 2)) cur :=
    (exprAt_stmtAt_alike (cur.rest.length + 1) ht).2 (by omega) (by omega) (Nat.lt_succ_self _)
  cases h with
  | read hp hq hend => exact .read hp hq hend
  | failed hp hq => exact .failed hp hq
  | completed hp hq htail hsemicolon htoken hbrace => exact .completed hp hq htail hsemicolon htoken hbrace

theorem stmt_consumes {cur cur' : Cursor} {s : Stmt} (h : stmt cur = some (s, cur')) :
    cur'.rest.length < cur.rest.length :=
  (took_of_semicolon ((stmt_completes isTail_nil cur).of_some h).2).length_lt

end VeriScript.Reading
