import VeriScript.Proofs.Session.Typing
import VeriScript.Proofs.Typing.Splitting

/-!
# Binding the variables of a pattern

A pattern binds its variables in a local environment, in a session, and in the types of a script that is checked.  All
three take it apart in the same order and at the same places.

* `Pattern.thread` — binding one variable after another, on the way through a pattern.
* `Pattern.Meets`, `Pattern.Refuses` — the part of a value that a part of the pattern stands against, and the tuples
  that stand against something else.
* `Pattern.destructure_error_iff` — when taking a value apart fails, and how.
* `destructuring_agrees` — the three together.
-/

namespace VeriScript

/-- Tuples and the unit value are what has components. -/
theorem Value.shape_eq_tuple_iff {v : Value} {n : Nat} :
    v.shape = .tuple n ↔ ∃ items, v.components? = some items ∧ items.length = n := by
  cases v with
  | unit => simp [Value.shape, Value.components?]
  | tuple elems => simp [Value.shape, Value.components?]
  | _ => simp [Value.shape, Value.components?]

namespace Pattern

/-! ## One variable after another -/

mutual

/-- Go through a pattern from left to right and bind each variable by `step` on the way. -/
def thread {σ : Type} (step : σ → Part → σ) : Pattern → Option Schema → Value → σ → Except RuntimeError σ
  | .wildcard _ _, _, _, st => .ok st
  | .var _ name _, schema?, v, st => .ok (step st ⟨name, schema?, v⟩)
  | .paren _ inner _, schema?, v, st => inner.thread step schema? v st
  | .tuple span elems _, schema?, v, st =>
    match v.components? with
    | some items =>
      if items.length = elems.length then
        threadList step elems (Schema.parts schema? elems.length) items st
      else .error (mismatch span elems.length v)
    | none => .error (mismatch span elems.length v)

def threadList {σ : Type} (step : σ → Part → σ) : List Pattern → List (Option Schema) → List Value → σ →
    Except RuntimeError σ
  | p :: ps, s :: ss, v :: vs, st => do
    let st ← p.thread step s v st
    threadList step ps ss vs st
  | _, _, _, st => .ok st

end

section Thread

variable {σ : Type} (step : σ → Part → σ)

mutual

/-- A failure leaves nothing bound, so that all variables can be found before the first one is bound. -/
theorem thread_eq : ∀ (p : Pattern) (schema? : Option Schema) (v : Value) (st : σ),
    p.thread step schema? v st = (p.destructure schema? v).map (List.foldl step st)
  | .wildcard _ _, _, _, _ => rfl
  | .var _ _ _, _, _, _ => rfl
  | .paren _ inner _, schema?, v, st => thread_eq inner schema? v st
  | .tuple span elems _, schema?, v, st => by
    rw [thread, destructure]
    cases v.components? with
    | none => rfl
    | some items =>
      by_cases h : items.length = elems.length
      · simp only [h, if_true]
        exact threadList_eq elems _ items st
      · simp only [h, if_false]
        rfl

theorem threadList_eq : ∀ (ps : List Pattern) (ss : List (Option Schema)) (vs : List Value) (st : σ),
    threadList step ps ss vs st = (destructureList ps ss vs).map (List.foldl step st)
  | p :: ps, s :: ss, v :: vs, st => by
    rw [threadList, destructureList, thread_eq p s v st]
    cases p.destructure s v with
    | error e => rfl
    | ok parts =>
      have hrest := threadList_eq ps ss vs (parts.foldl step st)
      simp only [Bind.bind, Except.bind, Except.map]
      rw [hrest]
      cases destructureList ps ss vs with
      | error e => rfl
      | ok more => simp [Except.map, pure, Except.pure]
  | [], _, _, _ | _ :: _, [], _, _ | _ :: _, _ :: _, [], _ => by
    rw [threadList, destructureList] <;> simp [Except.map]

end

end Thread

/-! ## Values that a pattern does not take -/

/-- Taking a value apart by a pattern brings a part of the pattern against a part of the value. -/
inductive Meets : Pattern → Value → Pattern → Value → Prop
  | self {p : Pattern} {v : Value} : Meets p v p v
  | paren {span : Span} {inner q : Pattern} {type? : Option Ty} {v u : Value} (within : Meets inner v q u) :
    Meets (.paren span inner type?) v q u
  | tuple {span : Span} {elems : List Pattern} {type? : Option Ty} {v u : Value} {items : List Value} {q : Pattern}
    {e : Pattern × Value} (components : v.components? = some items) (length : items.length = elems.length)
    (elem : e ∈ elems.zip items) (within : Meets e.1 e.2 q u) : Meets (.tuple span elems type?) v q u

/-- A tuple of the pattern meets something that is no tuple of its size; the error tells which. -/
def Refuses (p : Pattern) (v : Value) (e : RuntimeError) : Prop :=
  ∃ span elems type? u, p.Meets v (.tuple span elems type?) u ∧ u.shape ≠ .tuple elems.length ∧
    e = mismatch span elems.length u

theorem destructure_of_shape_ne {span : Span} {elems : List Pattern} {type? : Option Ty} {u : Value}
    (h : u.shape ≠ .tuple elems.length) (schema? : Option Schema) :
    (Pattern.tuple span elems type?).destructure schema? u = .error (mismatch span elems.length u) := by
  rw [destructure]
  cases hitems : u.components? with
  | none => rfl
  | some items =>
    have hlength : ¬ items.length = elems.length := by
      intro hlength
      exact h (Value.shape_eq_tuple_iff.2 ⟨items, hitems, hlength⟩)
    simp only [hlength, if_false]

mutual

theorem refuses_of_destructure {schema? : Option Schema} {v : Value} {e : RuntimeError} : ∀ p : Pattern,
    p.destructure schema? v = .error e → p.Refuses v e
  | .wildcard _ _, h => by cases h
  | .var _ _ _, h => by cases h
  | .paren _ inner _, h => by
    obtain ⟨span, elems, type?, u, hmeets, hrest⟩ := refuses_of_destructure inner h
    exact ⟨span, elems, type?, u, .paren hmeets, hrest⟩
  | .tuple span elems type?, h => by
    by_cases hshape : v.shape = .tuple elems.length
    · obtain ⟨items, hitems, hlength⟩ := Value.shape_eq_tuple_iff.1 hshape
      rw [destructure, hitems] at h
      simp only [hlength, if_true] at h
      obtain ⟨elem, helem, span', elems', type', u, hmeets, hrest⟩ := refuses_of_destructureList elems h
      exact ⟨span', elems', type', u, .tuple hitems hlength helem hmeets, hrest⟩
    · rw [destructure_of_shape_ne hshape] at h
      cases h
      exact ⟨span, elems, type?, v, .self, hshape, rfl⟩

theorem refuses_of_destructureList :
    ∀ (ps : List Pattern) {ss : List (Option Schema)} {vs : List Value} {e : RuntimeError},
    destructureList ps ss vs = .error e → ∃ elem ∈ ps.zip vs, elem.1.Refuses elem.2 e
  | p :: ps, s :: ss, v :: vs, e, h => by
    rw [destructureList] at h
    cases hfirst : p.destructure s v with
    | error e' =>
      rw [hfirst] at h
      cases h
      exact ⟨(p, v), List.mem_cons_self, refuses_of_destructure p hfirst⟩
    | ok parts =>
      cases hrest : destructureList ps ss vs with
      | error e' =>
        rw [hfirst, hrest] at h
        cases h
        obtain ⟨elem, helem, hrefuses⟩ := refuses_of_destructureList ps hrest
        exact ⟨elem, List.mem_cons_of_mem _ helem, hrefuses⟩
      | ok more =>
        rw [hfirst, hrest] at h
        cases h
  | [], _, _, _, h | _ :: _, [], _, _, h | _ :: _, _ :: _, [], _, h => by
    rw [destructureList] at h <;> simp_all

end

theorem destructureList_error {elem : Pattern × Value} (hfails : ∀ s, ∃ e, elem.1.destructure s elem.2 = .error e) :
    ∀ {ps : List Pattern} {ss : List (Option Schema)} {vs : List Value}, ss.length = ps.length →
      elem ∈ ps.zip vs → ∃ e, destructureList ps ss vs = .error e
  | p :: ps, s :: ss, v :: vs, hlength, helem => by
    rw [destructureList]
    cases hfirst : p.destructure s v with
    | error e => exact ⟨e, rfl⟩
    | ok parts =>
      rcases List.mem_cons.1 helem with rfl | helem
      · obtain ⟨e, he⟩ := hfails s
        rw [hfirst] at he
        cases he
      · obtain ⟨e, he⟩ := destructureList_error hfails (Nat.succ.inj hlength) helem
        exact ⟨e, by rw [he]; rfl⟩

/-- A tuple that meets something else is noticed, wherever it stands. -/
theorem Meets.destructure_error {p q : Pattern} {v u : Value} (h : p.Meets v q u)
    (hq : ∀ s, ∃ e, q.destructure s u = .error e) : ∀ s, ∃ e, p.destructure s v = .error e := by
  induction h with
  | self => exact hq
  | paren _ ih => exact ih hq
  | tuple components length elem _ ih =>
    intro s
    rw [destructure, components]
    simp only [length, if_true]
    exact destructureList_error (ih hq) (Schema.length_parts _ _) elem

theorem destructure_error_iff {p : Pattern} {schema? : Option Schema} {v : Value} :
    (∃ e, p.destructure schema? v = .error e) ↔
      ∃ span elems type? u, p.Meets v (.tuple span elems type?) u ∧ u.shape ≠ .tuple elems.length := by
  constructor
  · rintro ⟨e, he⟩
    obtain ⟨span, elems, type?, u, hmeets, hshape, -⟩ := refuses_of_destructure p he
    exact ⟨span, elems, type?, u, hmeets, hshape⟩
  · rintro ⟨span, elems, type?, u, hmeets, hshape⟩
    exact hmeets.destructure_error (fun s => ⟨_, destructure_of_shape_ne hshape s⟩) schema?

end Pattern

/-! ## The three ways to bind -/

namespace Session

variable {s s' : Session} {p : Pattern} {schema? : Option Schema} {v : Value}

theorem bindPattern_eq_error_iff {e : RuntimeError} :
    s.bindPattern p schema? v = .error e ↔ p.destructure schema? v = .error e := by
  unfold bindPattern
  cases p.destructure schema? v with
  | error e => simp [Except.map]
  | ok parts => simp [Except.map]

/-- The types of a session are extended by those that the parts have. -/
theorem typeEnv_bindParts (s : Session) (parts : List Part) :
    (s.bindParts parts).typeEnv = s.typeEnv.bindAll
      ((parts.map fun q => (q.name, q.schema?)).filterMap fun e => e.2.map fun schema => (e.1, schema)) := by
  induction parts generalizing s with
  | nil => rfl
  | cons q parts ih =>
    obtain ⟨name, schema?, v⟩ := q
    cases schema? with
    | none => exact ih (s.extend name none v)
    | some schema => exact ih (s.extend name (some schema) v)

/-- Behind a pattern the types are those that inference records for it. -/
theorem typeEnv_bindPattern {schema : Schema} (h : s.bindPattern p (some schema) v = .ok s') :
    s'.typeEnv = Check.bindPattern s.typeEnv p schema := by
  obtain ⟨parts, hparts, rfl⟩ := bindPattern_eq_ok_iff.1 h
  rw [typeEnv_bindParts, p.destructure_distribute hparts, Check.bindPattern]

end Session

/-- Binding a pattern in a session comes to the same as binding it locally and merging, errors included; both bind one
variable after another.  It fails just where a tuple of the pattern meets something that is no tuple of its size.
Otherwise variables have their parts of the schema, in order, and these are the types that a check of the declaration
has recorded for them. -/
theorem destructuring_agrees (p : Pattern) (schema? : Option Schema) (v : Value) (s : Session) :
    Env.bindPattern [] p schema? v = p.thread (fun env q => .value q.name q.schema? q.value :: env) schema? v [] ∧
      s.bindPattern p schema? v = p.thread (fun s q => s.extend q.name q.schema? q.value) schema? v s ∧
      s.bindPattern p schema? v = (Env.bindPattern [] p schema? v).map s.merge ∧
      ((∃ e, s.bindPattern p schema? v = .error e) ↔
        ∃ span elems type? u, p.Meets v (.tuple span elems type?) u ∧ u.shape ≠ .tuple elems.length) ∧
      (∀ e, s.bindPattern p schema? v = .error e → p.Refuses v e) ∧
      (∀ s', s.bindPattern p schema? v = .ok s' → ∃ parts : List Part,
        Env.bindPattern [] p schema? v = .ok (Env.bindParts [] parts) ∧ s' = s.bindParts parts ∧
          parts.map (fun q => (q.name, q.schema?)) = p.distribute schema?) ∧
      ∀ gspan dspan e schemas env st st', Ty.Layered st.bindings →
        Check.inferGroup s.typeEnv (.single gspan (.mk dspan p e)) st = .ok (schemas, env) st' →
        ∃ schema recorded, schemas = [schema] ∧
          p.distribute (some schema) = recorded.map (fun b => (b.1, some b.2)) ∧ env = s.typeEnv.bindAll recorded ∧
          ∀ s', s.bindPattern p (some schema) v = .ok s' → s'.typeEnv = env := by
  have hmerge : s.bindPattern p schema? v = (Env.bindPattern [] p schema? v).map s.merge := by
    unfold Session.bindPattern Env.bindPattern
    cases p.destructure schema? v with
    | error e => rfl
    | ok parts => exact congrArg Except.ok (s.merge_bindParts [] parts).symm
  refine ⟨(p.thread_eq _ schema? v []).symm, (p.thread_eq _ schema? v s).symm, hmerge, ?_, ?_, ?_, ?_⟩
  · simp only [Session.bindPattern_eq_error_iff]
    exact Pattern.destructure_error_iff
  · intro e he
    exact p.refuses_of_destructure (Session.bindPattern_eq_error_iff.1 he)
  · intro s' hs'
    obtain ⟨parts, hparts, rfl⟩ := Session.bindPattern_eq_ok_iff.1 hs'
    exact ⟨parts, by rw [Env.bindPattern, hparts]; rfl, rfl, p.destructure_distribute hparts⟩
  · intro gspan dspan e schemas env st st' hst hinfer
    obtain ⟨schema, recorded, hschemas, hrecorded, henv⟩ := Check.inferGroup_records hst hinfer
    refine ⟨schema, recorded, hschemas, hrecorded, henv, fun s' hs' => ?_⟩
    rw [Session.typeEnv_bindPattern hs', henv, Check.bindPattern_eq_bindAll hrecorded]

/-- `(x, ((x, _)))`: the second `x` hides the first. -/
def repeatedName : Pattern :=
  let at1 := Span.point "script" 1 1
  .tuple at1 [.var at1 "x" none, .paren at1 (.tuple at1 [.var at1 "x" none, .wildcard at1 none] none) none] none

/-- `let (x, ((x, _))) = (1, ("a", true))` records an integer and a string under one name, and the session has the
second of them behind the declaration. -/
theorem destructuring_agrees_repeatedName :
    let at1 := Span.point "script" 1 1
    let e := Expr.tuple at1 [.int at1 1, .tuple at1 [.string at1 "a", .bool at1 true]]
    let v := Value.tuple [.int 1, .tuple [.string "a", .bool true]]
    let s : Session := ⟨[], [], [], [], [], [], [], ⟨false, 10, false⟩⟩
    let env := s.typeEnv.bindAll [("x", ⟨[], .int⟩), ("x", ⟨[], .string⟩)]
    Ty.Layered CheckState.initial.bindings ∧ ∃ schema st' s',
      Check.inferGroup s.typeEnv (.single at1 (.mk at1 repeatedName e)) .initial = .ok ([schema], env) st' ∧
      s.bindPattern repeatedName (some schema) v = .ok s' ∧ s'.typeEnv = env ∧ env.types = [("x", ⟨[], .string⟩)] := by
  intro at1 e v s env
  have hinitial : Ty.Layered CheckState.initial.bindings := trivial
  have hinfer : Check.inferGroup s.typeEnv (.single at1 (.mk at1 repeatedName e)) .initial =
      .ok ([⟨[], .tuple [.int, .tuple [.string, .bool]]⟩], env) _ := rfl
  obtain ⟨schema, recorded, hschema, -, -, htypes⟩ :=
    (destructuring_agrees repeatedName none v s).2.2.2.2.2.2 _ _ _ _ _ _ _ hinitial hinfer
  obtain ⟨rfl, -⟩ := List.cons.inj hschema
  exact ⟨hinitial, _, _, _, hinfer, rfl, htypes _ rfl, rfl⟩

end VeriScript
