import VeriScript.Proofs.Session.Statements

/-!
# What declarations leave alone

A declaration at the top level is a statement other than an expression: it runs no action.  So when it fails it has
changed nothing yet, and when it succeeds it has changed the entries of the names that it declares.

* `Group.Binds` — the variables that a group of declarations binds, with their parts of the values.
* `Session.Bound`, `TermsDeclared`, `Stmt.Changes` — the entries that a declaration changes.
* `runStmt_framed` — a declaration changes these entries or nothing.
* `repeated_name_keeps_term` — a pattern that has a name twice leaves a term under a name that is bound to another
  value.
-/

namespace VeriScript

open Run (Ends Silent)

/-! ## Sessions with names bound -/

def Value.NoTerm (v : Value) : Prop := ∀ t, v ≠ .term t

/-- The second session is the first with the parts bound one after another. -/
structure Session.Bound (s : Session) (parts : List Part) (s' : Session) : Prop where
  rest : s' = { s with values := s'.values, types := s'.types, terms := s'.terms }
  values : ∀ x, x ∉ parts.map (·.name) → Table.get? s'.values x = Table.get? s.values x
  types : ∀ x, x ∉ parts.map (·.name) → Table.get? s'.types x = Table.get? s.types x
  terms : ∀ x, (∀ p ∈ parts, p.name = x → p.value.NoTerm) → Table.get? s'.terms x = Table.get? s.terms x
  bound : ∀ x ∈ parts.map (·.name), (Table.get? s'.values x).isSome
  /-- With distinct names, the terms of names that are bound to other values stay. -/
  distinct : (parts.map (·.name)).Nodup → ∀ x, (∀ v ∈ Table.get? s'.values x, v.NoTerm) →
    Table.get? s'.terms x = Table.get? s.terms x

namespace Session

variable {s : Session} {x : String}

theorem get?_types_extend {name : String} {schema? : Option Schema} {v : Value} (h : x ≠ name) :
    Table.get? (s.extend name schema? v).types x = Table.get? s.types x := by
  cases schema? with
  | none => rfl
  | some schema => exact Table.get?_insert_of_ne h

theorem get?_terms_extend {name : String} {schema? : Option Schema} {v : Value} (h : name = x → v.NoTerm) :
    Table.get? (s.extend name schema? v).terms x = Table.get? s.terms x := by
  unfold Session.extend
  dsimp only
  split
  · rename_i t
    exact Table.get?_insert_of_ne fun hx => h hx.symm t rfl
  · rfl

theorem bindParts_cons (p : Part) (parts : List Part) :
    s.bindParts (p :: parts) = (s.extend p.name p.schema? p.value).bindParts parts := rfl

variable {parts : List Part}

theorem get?_values_bindParts (h : x ∉ parts.map (·.name)) :
    Table.get? (s.bindParts parts).values x = Table.get? s.values x := by
  induction parts generalizing s with
  | nil => rfl
  | cons p parts ih =>
    rw [List.map_cons, List.mem_cons, not_or] at h
    rw [bindParts_cons, ih h.2]
    exact Table.get?_insert_of_ne h.1

theorem get?_types_bindParts (h : x ∉ parts.map (·.name)) :
    Table.get? (s.bindParts parts).types x = Table.get? s.types x := by
  induction parts generalizing s with
  | nil => rfl
  | cons p parts ih =>
    rw [List.map_cons, List.mem_cons, not_or] at h
    rw [bindParts_cons, ih h.2, get?_types_extend h.1]

theorem get?_terms_bindParts (h : ∀ p ∈ parts, p.name = x → p.value.NoTerm) :
    Table.get? (s.bindParts parts).terms x = Table.get? s.terms x := by
  induction parts generalizing s with
  | nil => rfl
  | cons p parts ih =>
    obtain ⟨hp, hparts⟩ := List.forall_mem_cons.1 h
    rw [bindParts_cons, ih hparts, get?_terms_extend hp]

theorem get?_values_of_mem (hnodup : (parts.map (·.name)).Nodup) {p : Part} (hp : p ∈ parts) :
    Table.get? (s.bindParts parts).values p.name = some p.value := by
  induction parts generalizing s with
  | nil => cases hp
  | cons q parts ih =>
    rw [List.map_cons, List.nodup_cons] at hnodup
    rw [bindParts_cons]
    obtain rfl | hp := List.mem_cons.1 hp
    · rw [get?_values_bindParts hnodup.1]
      exact Table.get?_insert_self ..
    · exact ih hnodup.2 hp

theorem bindParts_rest (parts : List Part) : s.bindParts parts =
    { s with
      values := (s.bindParts parts).values
      types := (s.bindParts parts).types
      terms := (s.bindParts parts).terms } := by
  induction parts generalizing s with
  | nil => rfl
  | cons p parts ih => exact ih

theorem bindParts_bound (parts : List Part) : s.Bound parts (s.bindParts parts) where
  rest := bindParts_rest parts
  values _ := get?_values_bindParts
  types _ := get?_types_bindParts
  terms _ := get?_terms_bindParts
  bound _ h := isSome_bindParts (.inr h)
  distinct hnodup x hx := by
    refine get?_terms_bindParts fun p hp hname => ?_
    subst hname
    exact hx _ (get?_values_of_mem hnodup hp)

end Session

/-! ## Environments with terms declared -/

/-- The terms that a text declares are added under their names, and all other names keep their terms. -/
def TermsDeclared (qualifier : Option String) (text : String) (env env' : TermEnv) : Prop :=
  ∃ decls, readTermText Reading.termDecls text = .ok decls ∧
    (∀ d ∈ decls, (Table.get? env' (qualifiedName qualifier d.1)).isSome) ∧
      ∀ x, (∀ d ∈ decls, x ≠ qualifiedName qualifier d.1) → Table.get? env' x = Table.get? env x

theorem elaborateDecls_declares {qualifier : Option String} {decls : List (String × RawTerm)}
    {scope env env' : TermEnv} (h : elaborateDecls qualifier decls scope env = .ok env') :
    (∀ x, (∃ d ∈ decls, x = qualifiedName qualifier d.1) ∨ (Table.get? env x).isSome → (Table.get? env' x).isSome) ∧
      ∀ x, (∀ d ∈ decls, x ≠ qualifiedName qualifier d.1) → Table.get? env' x = Table.get? env x := by
  induction decls generalizing scope env with
  | nil =>
    cases h
    simp
  | cons d decls ih =>
    obtain ⟨t, -, h⟩ := exists_ok_of_bind h
    obtain ⟨hsome, hsame⟩ := ih h
    refine ⟨fun x hx => hsome x ?_, fun x hx => ?_⟩
    · by_cases hd : x = qualifiedName qualifier d.1
      · exact .inr (by rw [hd, Table.get?_insert_self]; rfl)
      · rw [Table.get?_insert_of_ne hd]
        simpa [hd] using hx
    · obtain ⟨hd, hdecls⟩ := List.forall_mem_cons.1 hx
      rw [hsame x hdecls, Table.get?_insert_of_ne hd]

theorem parseTermDecls_declares {qualifier : Option String} {text : String} {env env' : TermEnv}
    (h : parseTermDecls env qualifier text = .ok env') : TermsDeclared qualifier text env env' := by
  obtain ⟨decls, hread, h⟩ := exists_ok_of_bind h
  obtain ⟨hsome, hsame⟩ := elaborateDecls_declares h
  exact ⟨decls, hread, fun d hd => hsome _ (.inl ⟨d, hd, rfl⟩), hsame⟩

/-! ## Groups -/

/-- The variables that a group binds at the top level, from left to right, with their parts of the values.  Functions
that may call each other are bound as they are. -/
inductive Group.Binds (ctx : Context) (w : World) : Group → List Part → Prop
  | single {span dspan : Span} {p : Pattern} {e : Expr} {schema? : Option Schema} {v : Value} {parts : List Part}
      (value : ctx.eval [] e w = .ok v w) (parts_eq : p.destructure schema? v = .ok parts) :
    Binds ctx w (.single span (.mk dspan p e)) parts
  | recursive {span : Span} {ds : List Decl} {schemas : List (Option Schema)} {members : List Member}
      (members_of : MembersOf ds schemas members) : Binds ctx w (.recursive span ds) (memberParts members)

theorem Group.Binds.names_eq {ctx : Context} {w : World} {g : Group} {parts : List Part} (h : g.Binds ctx w parts) :
    parts.map (·.name) = g.names := by
  cases h with
  | single _ parts_eq => exact Pattern.group_names parts_eq _ _ _
  | recursive members_of => exact members_of.group_names _

section
variable {ctx : Context} (hdebug : ctx.options.debug = false)
include hdebug

theorem check_silent {α : Type} (x : Check α) : Silent (ctx.check x) := by
  unfold Context.check
  simp only [hdebug, Bool.false_eq_true, if_false]
  split
  · exact .bind (.pure _) fun _ => .pure _
  · exact .bind (.pure _) fun _ => .fail _

theorem evalGroup_binds (schemas : List Schema) (g : Group) (w : World) :
    Ends (evalGroup ctx.call ctx [] schemas g) w
      (fun env w' => w' = w ∧ ∃ parts, g.Binds ctx w parts ∧ ∀ s : Session, s.merge env = s.bindParts parts)
      (fun _ w' => w' = w) := by
  cases g with
  | single span d =>
    obtain ⟨dspan, p, e⟩ := d
    rw [evalGroup, evalDecl, Run.ends_bind]
    refine ((Context.eval_silent hdebug [] e).ends w).imp (fun v w' hv => ?_) (fun _ _ h => h)
    obtain ⟨rfl, hv⟩ := hv
    refine Run.ends_orRuntimeError (fun env henv => ⟨rfl, ?_⟩) (fun _ _ => rfl)
    obtain ⟨parts, hparts, rfl⟩ := exists_ok_of_map henv
    exact ⟨parts, .single hv hparts, fun s => s.merge_bindParts [] parts⟩
  | recursive span ds =>
    rw [evalGroup, Run.ends_bind]
    refine Run.ends_orRuntimeError (fun ms hms => ⟨rfl, ?_⟩) (fun _ _ => rfl)
    exact ⟨_, .recursive (membersOf_of_ok hms (by simp)), fun s => s.merge_recursive ms⟩

end

/-! ## Statements -/

/-- A statement other than an expression. -/
def Stmt.isDeclaration : Stmt → Bool
  | .bind _ _ _ => false
  | .define _ _ | .code _ _ | .importTerms _ _ _ | .typedef _ _ _ => true

/-- What a declaration that succeeds in the world `w` changes of the session. -/
def Stmt.Changes (ctx : Context) (w : World) (s' : Session) : Stmt → Prop
  | .bind _ _ _ => False
  | .define _ g => ∃ parts, g.Binds ctx w parts ∧ parts.map (·.name) = g.names ∧ w.session.Bound parts s'
  | .code _ text =>
    s' = { w.session with terms := s'.terms } ∧ TermsDeclared none text w.session.terms s'.terms
  | .importTerms _ file qualifier =>
    s' = { w.session with terms := s'.terms } ∧
      ∃ text, w.disk.read w.cwd file = .ok (.ok text) ∧ TermsDeclared qualifier text w.session.terms s'.terms
  | .typedef _ name t =>
    s' = { w.session with aliases := s'.aliases } ∧
      (∃ t', t.resolve w.session.aliases = .ok t' ∧ Table.get? s'.aliases name = some t') ∧
        ∀ x, x ≠ name → Table.get? s'.aliases x = Table.get? w.session.aliases x

theorem importTerms_changes (ctx : Context) (span : Span) (file : String) (qualifier : Option String) (w : World) :
    Ends (importTerms span file qualifier) w
      (fun s' w' => w' = w ∧ (Stmt.importTerms span file qualifier).Changes ctx w s') (fun _ w' => w' = w) := by
  unfold importTerms
  rw [Run.ends_bind, Run.ends_get]
  split
  · rename_i text hread
    rw [Run.ends_bind]
    refine Run.ends_orTermError (fun terms hterms => ⟨rfl, rfl, text, hread, ?_⟩) (fun _ _ => rfl)
    exact parseTermDecls_declares hterms
  · exact rfl
  · exact rfl
  · exact rfl

section
variable {ctx : Context} (hdebug : ctx.options.debug = false) {stmt : Stmt} (hstmt : stmt.isDeclaration = true)
include hdebug hstmt

theorem stmtSession_changes (run : RunAction) (printBinds : Bool) (w : World) :
    Ends (stmtSession run ctx printBinds stmt) w (fun s' w' => w' = w ∧ stmt.Changes ctx w s')
      (fun _ w' => w' = w) := by
  cases stmt with
  | bind span p e => cases hstmt
  | define span g =>
    rw [stmtSession, Run.ends_bind, Run.ends_session, Run.ends_bind]
    refine ((check_silent hdebug _).ends w).imp (fun schemas w' h => ?_) (fun _ _ h => h)
    obtain ⟨rfl, -⟩ := h
    rw [Run.ends_bind]
    refine (evalGroup_binds hdebug schemas g w').imp (fun env w'' h => ?_) (fun _ _ h => h)
    obtain ⟨rfl, parts, hbinds, hmerge⟩ := h
    refine ⟨rfl, parts, hbinds, hbinds.names_eq, ?_⟩
    rw [hmerge]
    exact Session.bindParts_bound parts
  | code span text =>
    rw [stmtSession, Run.ends_bind, Run.ends_session, Run.ends_bind]
    refine Run.ends_orTermError (fun terms hterms => ⟨rfl, rfl, ?_⟩) (fun _ _ => rfl)
    exact parseTermDecls_declares hterms
  | importTerms span file qualifier => exact importTerms_changes ctx span file qualifier w
  | typedef span name t =>
    rw [stmtSession, Run.ends_bind, Run.ends_session]
    split
    · rename_i t' ht
      refine ⟨rfl, rfl, ⟨t', ht, Table.get?_insert_self ..⟩, fun x hx => ?_⟩
      exact Table.get?_insert_of_ne hx
    · exact rfl

/-- A declaration that fails leaves the world as it was.  One that succeeds changes the session only, and there the
entries of the names that it declares. -/
theorem runStmt_framed (run : RunAction) (printBinds : Bool) (w : World) :
    Ends (runStmt run ctx printBinds stmt) w
      (fun _ w' => w' = { w with session := w'.session } ∧ stmt.Changes ctx w w'.session)
      (fun _ w' => w' = w) := by
  refine Run.ends_guardDepth ?_ fun _ h => h
  rw [nextSession, Run.ends_bind, Run.ends_bind]
  refine ((Run.trace_silent hdebug _).ends w).imp (fun _ w' h => ?_) (fun _ _ h => h)
  obtain ⟨rfl, -⟩ := h
  refine (stmtSession_changes hdebug hstmt run printBinds w').imp (fun s' w'' h => ?_) (fun _ _ h => h)
  obtain ⟨rfl, hchanges⟩ := h
  exact ⟨rfl, hchanges⟩

end

/-- `let (x, y) = ({{ 1 }}, 2);` in a new session. -/
theorem runStmt_framed_pair :
    let pos := Span.point "" 1 1
    let stmt : Stmt := .define pos (.single pos (.mk pos (.tuple pos [.var pos "x" none, .var pos "y" none] none)
      (.tuple pos [.code pos " 1 ", .int pos 2])))
    let w := World.blank
    ∃ w', runStmt perform .standard false stmt w = .ok () w' ∧ w' = { w with session := w'.session } ∧
      stmt.Changes .standard w w'.session := by
  intro pos stmt w
  have hpasses : Run.passes (fun _ _ => true) (runStmt perform .standard false stmt w) = true := by
    decide +kernel
  obtain ⟨⟨⟩, w', hrun, -⟩ := Run.exists_ok_of_passes hpasses
  exact ⟨w', hrun, (runStmt_framed rfl rfl perform false w).of_ok hrun⟩

/-! ### Names that a pattern has twice -/

/-- The name is bound to a value that is no term, and stands for a term in inline terms. -/
def Session.Divides (s : Session) (x : String) : Prop :=
  ∃ v t, Table.get? s.values x = some v ∧ v.NoTerm ∧ Table.get? s.terms x = some t

/-- The name is bound to a number, and stands for a term in inline terms. -/
def Session.hasTermBesideNumber (s : Session) (x : String) : Bool :=
  match Table.get? s.values x, Table.get? s.terms x with
  | some (.int _), some _ => true
  | _, _ => false

theorem Session.divides_of_hasTermBesideNumber {s : Session} {x : String} (h : s.hasTermBesideNumber x = true) :
    s.Divides x := by
  unfold Session.hasTermBesideNumber at h
  split at h
  · rename_i hvalue hterm
    refine ⟨_, _, hvalue, fun t ht => ?_, hterm⟩
    cases ht
  · cases h

/-- The variables of a pattern are bound one after another.  So a name that a pattern has twice, first for a term and
then for another value, is bound to the other value and gets the term all the same. -/
theorem repeated_name_keeps_term :
    Table.get? (Session.initial .standard).terms "x" = none ∧
      ∃ w, runProgramText .standard typedFile false "let (x, x) = (\x7b\x7b 1 \x7d\x7d, 2);"
        .blank = .ok () w ∧ w.session.Divides "x" := by
  have hpasses : Run.passes (fun _ w => w.session.hasTermBesideNumber "x")
      (runProgramText .standard typedFile false "let (x, x) = (\x7b\x7b 1 \x7d\x7d, 2);"
        .blank) = true := by decide +kernel
  obtain ⟨⟨⟩, w, hrun, hw⟩ := Run.exists_ok_of_passes hpasses
  exact ⟨rfl, w, hrun, Session.divides_of_hasTermBesideNumber hw⟩

end VeriScript
