import Mathlib.Logic.Function.Basic
import VeriScript.Proofs.Term.Elaboration

/-!
# Declarations of terms

Declarations are elaborated one after another.  Each sees those before it by their plain names, whatever names they are
added under, and a name that it mentions is replaced by the whole term.

* `declaredTerms` — the terms of declarations; `addTerms` puts them into an environment.
* `elaborateDecls_eq` — the qualifier has no part in what is declared, it chooses the names only.
* `declaration_term` — the term of one declaration.
* `RawTerm.eval`, `meaningsAfter` — the value of a term as it is written, where names have values, and the values that
  names have behind declarations.
* `RawTerm.eval_elaborate`, `meanings_declared` — inlining keeps values, for one term and along declarations.
* `qualifier_renames` — what a qualifier changes, and what declared terms mean.
-/

namespace VeriScript

/-! ## The terms of declarations -/

/-- The terms that declarations give, the newest first; each is read with those before it. -/
def declaredTerms : List (String × RawTerm) → TermEnv → Except TermFault TermEnv
  | [], _ => .ok []
  | (name, raw) :: decls, scope => do
    let t ← raw.elaborate scope
    return (← declaredTerms decls (Table.insert scope name t)) ++ [(name, t)]

/-- The environment with the terms added, the newest last, each under the key of its name. -/
def addTerms (key : String → String) (env terms : TermEnv) : TermEnv :=
  terms.foldr (fun d env => Table.insert env (key d.1) d.2) env

theorem addTerms_append (key : String → String) (env terms terms' : TermEnv) :
    addTerms key env (terms ++ terms') = addTerms key (addTerms key env terms') terms :=
  List.foldr_append

section
variable {decls before after : List (String × RawTerm)} {scope terms : TermEnv} {name : String} {raw : RawTerm}

theorem declaredTerms_cons_ok : declaredTerms ((name, raw) :: decls) scope = .ok terms ↔
    ∃ t rest, raw.elaborate scope = .ok t ∧ declaredTerms decls (Table.insert scope name t) = .ok rest ∧
      terms = rest ++ [(name, t)] := by
  simp only [declaredTerms, bind, Except.bind, pure, Except.pure]
  cases raw.elaborate scope with
  | error e => simp
  | ok t => cases hrest : declaredTerms decls (Table.insert scope name t) <;> simp [hrest, eq_comm]

theorem elaborateDecls_eq (qualifier : Option String) (decls : List (String × RawTerm)) (scope result : TermEnv) :
    elaborateDecls qualifier decls scope result =
      (declaredTerms decls scope).map (addTerms (qualifiedName qualifier) result) := by
  induction decls generalizing scope result with
  | nil => rfl
  | cons d decls ih =>
    obtain ⟨name, raw⟩ := d
    simp only [elaborateDecls, declaredTerms]
    cases raw.elaborate scope with
    | error e => rfl
    | ok t =>
      show elaborateDecls qualifier decls _ _ = _
      rw [ih]
      cases hrest : declaredTerms decls (Table.insert scope name t) with
      | error e => simp [bind, Except.bind, Except.map, hrest]
      | ok terms => simp [bind, Except.bind, Except.map, pure, Except.pure, hrest, addTerms]

theorem mem_names_declaredTerms (h : declaredTerms decls scope = .ok terms) :
    name ∈ Table.names terms ↔ name ∈ Table.names decls := by
  induction decls generalizing scope terms with
  | nil =>
    cases h
    rfl
  | cons d decls ih =>
    obtain ⟨t, rest, -, hrest, rfl⟩ := declaredTerms_cons_ok.1 h
    have hnames := ih hrest
    simp only [Table.names, List.map_append, List.map_cons, List.map_nil, List.mem_append, List.mem_cons,
      List.not_mem_nil, or_false] at hnames ⊢
    rw [hnames, or_comm]

theorem declaredTerms_append_ok : declaredTerms (before ++ after) scope = .ok terms ↔
    ∃ ts us, declaredTerms before scope = .ok ts ∧ declaredTerms after (addTerms id scope ts) = .ok us ∧
      terms = us ++ ts := by
  induction before generalizing scope terms with
  | nil => simp [declaredTerms, addTerms]
  | cons d before ih =>
    obtain ⟨name, raw⟩ := d
    rw [List.cons_append, declaredTerms_cons_ok]
    constructor
    · rintro ⟨t, rest, ht, hrest, rfl⟩
      obtain ⟨ts, us, hts, hus, rfl⟩ := ih.1 hrest
      refine ⟨ts ++ [(name, t)], us, declaredTerms_cons_ok.2 ⟨t, ts, ht, hts, rfl⟩, ?_, by simp⟩
      rw [addTerms_append]
      exact hus
    · rintro ⟨ts, us, hts, hus, rfl⟩
      obtain ⟨t, rest, ht, hrest, rfl⟩ := declaredTerms_cons_ok.1 hts
      rw [addTerms_append] at hus
      exact ⟨t, us ++ rest, ht, ih.2 ⟨rest, us, hrest, hus, rfl⟩, by simp⟩

/-- The term of one declaration: it is read with those before it, and counts if the name is not declared again. -/
theorem declaration_term (h : declaredTerms (before ++ (name, raw) :: after) scope = .ok terms) :
    ∃ ts t us, terms = us ++ (name, t) :: ts ∧ declaredTerms before scope = .ok ts ∧
      raw.elaborate (addTerms id scope ts) = .ok t ∧ (name ∉ Table.names after → Table.get? terms name = some t) := by
  obtain ⟨ts, us, hts, hus, rfl⟩ := declaredTerms_append_ok.1 h
  obtain ⟨t, rest, ht, hrest, rfl⟩ := declaredTerms_cons_ok.1 hus
  refine ⟨ts, t, rest, by simp, hts, ht, fun hlast => ?_⟩
  -- no later term of the name stands in the way
  have hnone : Table.get? rest name = none := by
    refine Option.eq_none_iff_forall_ne_some.2 fun u hu => hlast ((mem_names_declaredTerms hrest).1 ?_)
    exact List.mem_map.2 ⟨_, Table.mem_of_get? hu, rfl⟩
  simp [Table.get?_append, Table.get?, hnone]

end

/-! ## Names in the environment -/

theorem get?_addTerms {key : String → String} (hkey : Function.Injective key) (env terms : TermEnv) (name : String) :
    Table.get? (addTerms key env terms) (key name) = (Table.get? terms name).or (Table.get? env (key name)) := by
  induction terms with
  | nil => rfl
  | cons d terms ih =>
    rw [addTerms, List.foldr_cons, ← addTerms]
    by_cases h : d.1 = name
    · subst h
      simp [Table.get?_insert_self, Table.get?]
    · have hne : key name ≠ key d.1 := fun heq => h (hkey heq).symm
      simp [Table.get?_insert_of_ne hne, Table.get?, h, ih]

theorem get?_addTerms_of_ne {key : String → String} {env terms : TermEnv} {other : String}
    (h : ∀ name ∈ Table.names terms, other ≠ key name) :
    Table.get? (addTerms key env terms) other = Table.get? env other := by
  induction terms with
  | nil => rfl
  | cons d terms ih =>
    obtain ⟨hd, hterms⟩ := List.forall_mem_cons.1 h
    rw [addTerms, List.foldr_cons, ← addTerms, Table.get?_insert_of_ne hd, ih hterms]

theorem qualifiedName_eq {q : String} (hq : q ≠ "") (name : String) :
    qualifiedName (some q) name = q ++ "::" ++ name := by
  simp [qualifiedName, hq]

theorem qualifiedName_injective (qualifier : Option String) : Function.Injective (qualifiedName qualifier) := by
  intro name name' h
  cases qualifier with
  | none => exact h
  | some q =>
    by_cases hq : q = ""
    · simpa [qualifiedName, hq] using h
    · rw [qualifiedName_eq hq, qualifiedName_eq hq, ← String.toList_inj] at h
      exact String.toList_inj.1 (by simpa using h)

variable {decls : List (String × RawTerm)}

/-- Declarations replace the terms of their names and leave others alone. -/
theorem elaborateDecls_declaredTerms {scope env env' : TermEnv} (h : elaborateDecls none decls scope env = .ok env') :
    ∃ given, declaredTerms decls scope = .ok given ∧
      ∀ x, Table.get? env' x = (Table.get? given x).or (Table.get? env x) := by
  rw [elaborateDecls_eq] at h
  cases hgiven : declaredTerms decls scope with
  | error e =>
    rw [hgiven] at h
    cases h
  | ok given =>
    rw [hgiven] at h
    cases h
    exact ⟨given, rfl, fun x => get?_addTerms (qualifiedName_injective none) env given x⟩

/-! ## Meanings -/

/-- What a name stands for when terms are evaluated: a value, or the error that its evaluation ends in. -/
abbrev Meanings := String → Except TermFault Scalar

/-- The value of a term as it is written, where names stand for `ρ`. -/
def RawTerm.eval (ρ : Meanings) : RawTerm → Except TermFault Scalar
  | .int n => .ok (.int n)
  | .bool b => .ok (.bit b)
  | .name x => ρ x
  | .ite test yes no => do if (← test.eval ρ).isTrue then yes.eval ρ else no.eval ρ
  | .unary op arg => do return op.apply (← arg.eval ρ)
  | .binary op left right => do
    let a ← left.eval ρ
    let b ← right.eval ρ
    op.apply a b

/-- Names stand for the values of their terms. -/
def TermEnv.meanings (env : TermEnv) (assignment : Assignment) : Meanings := fun name =>
  match Table.get? env name with
  | some t => t.eval assignment
  | none => .error (.unboundName name)

/-- What names stand for behind declarations: behind each of them its name stands for the value of its body, and all
other names for what they stood for. -/
def meaningsAfter (ρ : Meanings) : List (String × RawTerm) → Meanings
  | [] => ρ
  | (name, body) :: decls => meaningsAfter (Function.update ρ name (body.eval ρ)) decls

theorem RawTerm.eval_elaborate {env : TermEnv} {raw : RawTerm} {t : Term} (h : raw.elaborate env = .ok t)
    (assignment : Assignment) : t.eval assignment = raw.eval (env.meanings assignment) := by
  induction raw generalizing t with
  | int n =>
    cases h
    rfl
  | bool b =>
    cases h
    rfl
  | name x => simp [RawTerm.eval, TermEnv.meanings, elaborate_name_ok.1 h]
  | ite test yes no iht ihy ihn =>
    obtain ⟨c, y, n, hc, hy, hn, -, -, rfl⟩ := elaborate_ite_ok.1 h
    rw [Term.eval, RawTerm.eval, iht hc, ihy hy, ihn hn]
  | unary op arg ih =>
    obtain ⟨x, hx, -, rfl⟩ := elaborate_unary_ok.1 h
    rw [Term.eval, RawTerm.eval, ih hx]
  | binary op left right ihl ihr =>
    obtain ⟨l, r, hl, hr, -, -, rfl⟩ := elaborate_binary_ok.1 h
    rw [Term.eval, RawTerm.eval, ihl hl, ihr hr]

theorem TermEnv.meanings_insert (env : TermEnv) (name : String) (t : Term) (assignment : Assignment) :
    TermEnv.meanings (Table.insert env name t) assignment =
      Function.update (env.meanings assignment) name (t.eval assignment) := by
  funext other
  by_cases h : other = name
  · subst h
    simp [TermEnv.meanings, Table.get?_insert_self]
  · simp [TermEnv.meanings, Table.get?_insert_of_ne h, Function.update_of_ne h]

theorem meanings_declared {scope terms : TermEnv}
    (h : declaredTerms decls scope = .ok terms) (assignment : Assignment) :
    (addTerms id scope terms).meanings assignment = meaningsAfter (scope.meanings assignment) decls := by
  induction decls generalizing scope terms with
  | nil =>
    cases h
    rfl
  | cons d decls ih =>
    obtain ⟨name, raw⟩ := d
    obtain ⟨t, rest, ht, hrest, rfl⟩ := declaredTerms_cons_ok.1 h
    rw [meaningsAfter, ← RawTerm.eval_elaborate ht, ← TermEnv.meanings_insert, addTerms_append]
    exact ih hrest

/-- The term of a declaration has the value of its body where names stand for what the declarations before it make of
them. -/
theorem eval_declared {env ts : TermEnv} {before : List (String × RawTerm)} {body : RawTerm} {t : Term}
    (hts : declaredTerms before env = .ok ts) (ht : body.elaborate (addTerms id env ts) = .ok t)
    (assignment : Assignment) :
    t.eval assignment = body.eval (meaningsAfter (env.meanings assignment) before) := by
  rw [RawTerm.eval_elaborate ht, meanings_declared hts]

/-! ## Qualifiers -/

theorem parseTermDecls_eq (env : TermEnv) (qualifier : Option String) {text : String}
    (h : readTermText Reading.termDecls text = .ok decls) : parseTermDecls env qualifier text =
      (declaredTerms decls env).map (addTerms (qualifiedName qualifier) env) := by
  rw [parseTermDecls, h, ← elaborateDecls_eq]
  rfl

/-- Whatever the qualifier, the same texts are accepted, and declare the same terms. -/
theorem parseTermDecls_cases (env : TermEnv) (text : String) :
    (∃ e, ∀ qualifier, parseTermDecls env qualifier text = .error e) ∨
    ∃ decls terms, readTermText Reading.termDecls text = .ok decls ∧ declaredTerms decls env = .ok terms ∧
      ∀ qualifier, parseTermDecls env qualifier text = .ok (addTerms (qualifiedName qualifier) env terms) := by
  cases hread : readTermText Reading.termDecls text with
  | error e => exact .inl ⟨e, fun qualifier => by rw [parseTermDecls, hread]; rfl⟩
  | ok decls =>
    cases hterms : declaredTerms decls env with
    | error e => exact .inl ⟨e, fun qualifier => by rw [parseTermDecls_eq env qualifier hread, hterms]; rfl⟩
    | ok terms =>
      refine .inr ⟨decls, terms, rfl, hterms, fun qualifier => ?_⟩
      rw [parseTermDecls_eq env qualifier hread, hterms]
      rfl

theorem exists_declared {scope terms : TermEnv} {name : String}
    (h : declaredTerms decls scope = .ok terms) (hname : name ∈ Table.names decls) :
    ∃ t, Table.get? terms name = some t := by
  obtain ⟨d, hd, rfl⟩ := List.mem_map.1 ((mem_names_declaredTerms h).2 hname)
  exact Table.exists_get?_of_mem hd

/-- A qualifier only renames.  Declarations are accepted with it if they are accepted without it, and fail with the same
error; the term of a declared name is the same under both names, and no other name is touched.  The term of a
declaration has the value of its body where each name declared before stands for the value of its latest declaration,
and every other name for the value of its term. -/
theorem qualifier_renames (env : TermEnv) (q text : String) :
    (q ≠ "" → ∀ name, qualifiedName (some q) name = q ++ "::" ++ name) ∧
    ((∃ r, parseTermDecls env (some q) text = .ok r) ↔ ∃ r, parseTermDecls env none text = .ok r) ∧
    (∀ e, parseTermDecls env (some q) text = .error e ↔ parseTermDecls env none text = .error e) ∧
    ∀ r r', parseTermDecls env (some q) text = .ok r → parseTermDecls env none text = .ok r' →
      ∃ decls, readTermText Reading.termDecls text = .ok decls ∧
        (∀ name ∈ Table.names decls, ∃ t,
          Table.get? r (qualifiedName (some q) name) = some t ∧ Table.get? r' name = some t) ∧
        (∀ other, (∀ name ∈ Table.names decls, other ≠ qualifiedName (some q) name) →
          Table.get? r other = Table.get? env other) ∧
        (∀ other, other ∉ Table.names decls → Table.get? r' other = Table.get? env other) ∧
        ∀ before name body after, decls = before ++ (name, body) :: after →
          ∃ t s, elaborateDecls (some q) (before ++ [(name, body)]) env env = .ok s ∧
            Table.get? s (qualifiedName (some q) name) = some t ∧
            (name ∉ Table.names after → Table.get? r (qualifiedName (some q) name) = some t) ∧
            ∀ assignment, t.eval assignment = body.eval (meaningsAfter (env.meanings assignment) before) := by
  refine ⟨qualifiedName_eq, ?_⟩
  rcases parseTermDecls_cases env text with ⟨e, herror⟩ | ⟨decls, terms, hread, hterms, hok⟩
  · simp [herror]
  refine ⟨by simp [hok], by simp [hok], fun r r' hr hr' => ⟨decls, hread, ?_⟩⟩
  rw [hok] at hr hr'
  cases hr
  cases hr'
  have hget := fun terms name => get?_addTerms (qualifiedName_injective (some q)) env terms name
  refine ⟨fun name hname => ?same, fun other hother => ?touched, fun other hother => ?plain, ?value⟩
  case same =>
    obtain ⟨t, ht⟩ := exists_declared hterms hname
    have hplain := get?_addTerms (qualifiedName_injective none) env terms name
    refine ⟨t, by rw [hget, ht]; rfl, ?_⟩
    rw [ht] at hplain
    exact hplain
  case touched => exact get?_addTerms_of_ne fun name hname => hother name ((mem_names_declaredTerms hterms).1 hname)
  case plain =>
    refine get?_addTerms_of_ne fun name hname heq => hother ?_
    rw [heq]
    exact (mem_names_declaredTerms hterms).1 hname
  case value =>
    rintro before name body after rfl
    obtain ⟨ts, t, us, rfl, hts, ht, hlast⟩ := declaration_term hterms
    have hbefore : declaredTerms (before ++ [(name, body)]) env = .ok ((name, t) :: ts) :=
      declaredTerms_append_ok.2 ⟨ts, [(name, t)], hts, declaredTerms_cons_ok.2 ⟨t, [], ht, rfl, rfl⟩, rfl⟩
    refine ⟨t, _, by rw [elaborateDecls_eq, hbefore]; rfl, by rw [hget]; simp [Table.get?], fun hnot => ?_,
      eval_declared hts ht⟩
    rw [hget, hlast hnot]
    rfl

/-- Declarations that shadow a variable of the environment and declare it once more. -/
def redeclaredText : String := "x = x + 1; y = x * x; x = 2;"

/-- The body of `y` in them. -/
def redeclaredBody : RawTerm := .binary .mul (.name "x") (.name "x")

def redeclaredEnv : TermEnv := [("x", .var .integer "x")]

/-- The first declaration of `x` counts in `y`, and the last one behind the declarations. -/
theorem qualifier_renames_redeclared :
    ∃ r r' t, parseTermDecls redeclaredEnv (some "Q") redeclaredText = .ok r ∧
      parseTermDecls redeclaredEnv none redeclaredText = .ok r' ∧
      Table.get? r "Q::y" = some t ∧ Table.get? r' "y" = some t ∧
      Table.get? r "x" = some (.var .integer "x") ∧ Table.get? r' "x" = some (.ofInt 2) ∧
      ∀ n, t.eval [("x", .int n)] = .ok (.int ((n + 1) * (n + 1))) := by
  let next : Term := .binary .integer .add (.var .integer "x") (.ofInt 1)
  have hr : parseTermDecls redeclaredEnv (some "Q") redeclaredText =
      .ok [("Q::x", .ofInt 2), ("Q::y", .binary .integer .mul next next), ("x", .var .integer "x")] := by
    decide +kernel
  have hr' : parseTermDecls redeclaredEnv none redeclaredText =
      .ok [("x", .ofInt 2), ("y", .binary .integer .mul next next)] := by decide +kernel
  have hread : readTermText Reading.termDecls redeclaredText =
      .ok [("x", .binary .add (.name "x") (.int 1)), ("y", redeclaredBody), ("x", .int 2)] := by decide +kernel
  obtain ⟨hname, -, -, hrest⟩ := qualifier_renames redeclaredEnv "Q" redeclaredText
  obtain ⟨decls, hdecls, hsame, hother, -, hvalue⟩ := hrest _ _ hr hr'
  cases hread.symm.trans hdecls
  obtain ⟨t, -, -, -, hlast, heval⟩ := hvalue [("x", .binary .add (.name "x") (.int 1))] "y" redeclaredBody _ rfl
  obtain ⟨u, hu, hu'⟩ := hsame "y" (by decide)
  cases hu.symm.trans (hlast (by decide))
  rw [hname (by decide)] at hu
  refine ⟨_, _, t, hr, hr', hu, hu', (hother "x" ?_).trans rfl, rfl, fun n => ?_⟩
  · simp only [hname (by decide)]
    decide
  · rw [heval]
    rfl

end VeriScript
