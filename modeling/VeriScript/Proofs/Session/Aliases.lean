import VeriScript.Proofs.Session.Growth
import VeriScript.Proofs.Typing.Saturation

/-!
# Definitions of aliases in sessions and blocks

A definition reaches the table of aliases in two ways: a statement at the top level changes the table of the session,
and a statement of a block changes the table that the rest of the block is checked under.

* `aliases_enter` — the table behind definitions at the top level.
* `Check.inferBody_definitions` — the table that the rest of a block is checked under.
* `aliases_expanded` — what all tables have in common that start out empty.
-/

namespace VeriScript

open Aliases (define defineAll Accepts)

def TypeDefinition.stmt (d : TypeDefinition) : Stmt :=
  .typedef d.span d.name d.type

/-! ## At the top level -/

/-- What holds however a run ends, holds of the world behind it. -/
theorem Run.Ends.after {α : Type} {x : Run α} {w : World} {P : World → Prop}
    (h : Run.Ends x w (fun _ w' => P w') (fun _ w' => P w')) : P (x.after w) := by
  unfold Run.Ends at h
  unfold Run.after
  split at h <;> simp_all

/-- A definition at the top level, accepted or not, leaves the table that it leads to. -/
theorem aliases_runStmt (run : RunAction) (ctx : Context) (printBinds : Bool) (d : TypeDefinition) (w : World) :
    ((runStmt run ctx printBinds d.stmt).after w).session.aliases = define w.session.aliases d := by
  apply Run.Ends.after (P := fun w' => w'.session.aliases = define w.session.aliases d)
  refine Run.ends_guardDepth ?_ fun _ h => h
  rw [nextSession, Run.ends_bind, Run.ends_bind]
  refine Run.ends_trace fun w' hprinted => ?_
  have hsession : w'.session = w.session := hprinted.session_eq
  unfold TypeDefinition.stmt stmtSession
  rw [Run.ends_bind, Run.ends_session, hsession]
  cases hresolve : d.type.resolve w.session.aliases with
  | ok t => exact (Aliases.define_of_ok hresolve).symm
  | error fault =>
    show w'.session.aliases = define w.session.aliases d
    rw [hsession, Aliases.define_of_error hresolve]

theorem aliases_enter {defs : List TypeDefinition} {entered : List Entered}
    (h : entered.map (·.stmt) = defs.map (·.stmt)) (w : World) :
    (w.enter entered).session.aliases = defineAll w.session.aliases defs := by
  induction entered generalizing defs w with
  | nil =>
    obtain rfl : defs = [] := by simpa [eq_comm] using h
    rfl
  | cons e entered ih =>
    cases defs with
    | nil => simp at h
    | cons d defs =>
      obtain ⟨hstmt, hrest⟩ : e.stmt = d.stmt ∧ entered.map (·.stmt) = defs.map (·.stmt) := by simpa using h
      have hfirst := aliases_runStmt perform e.ctx e.printBinds d w
      rw [← hstmt] at hfirst
      rw [Aliases.defineAll_cons, ← hfirst]
      exact ih hrest _

/-! ## In a block -/

namespace Check

variable {env : TypeEnv} {context : Ty} {rest : List Stmt} {st : CheckState}

/-- A definition in a block: the rest is checked under the table that it leads to, if it is accepted. -/
theorem inferBody_typedef (d : TypeDefinition) (hrest : rest ≠ []) :
    inferBody env context (d.stmt :: rest) st =
      match d.type.resolve env.aliases with
      | .ok _ => inferBody { env with aliases := define env.aliases d } context rest st
      | .error fault => .error ⟨fault, d.span⟩ st := by
  have hempty : rest.isEmpty = false := by simpa using hrest
  rw [TypeDefinition.stmt, inferBody, hempty]
  simp only [Bool.false_eq_true, if_false, bind, EStateM.bind, resolve]
  cases hresolve : d.type.resolve env.aliases with
  | ok t =>
    rw [Aliases.define_of_ok hresolve]
    rfl
  | error fault =>
    simp only [fail, TypeFault.raised, Ty.textFault?_of_resolve_error hresolve]
    rfl

theorem inferBody_definitions (inner : List TypeDefinition) (hrest : rest ≠ []) :
    (Accepts env.aliases inner →
      inferBody env context (inner.map (·.stmt) ++ rest) st =
        inferBody { env with aliases := defineAll env.aliases inner } context rest st) ∧
    (¬ Accepts env.aliases inner →
      ∃ fault, ∃ d ∈ inner, inferBody env context (inner.map (·.stmt) ++ rest) st = .error ⟨fault, d.span⟩ st) := by
  induction inner generalizing env with
  | nil => exact ⟨fun _ => rfl, fun h => absurd trivial h⟩
  | cons d inner ih =>
    have hne : inner.map (·.stmt) ++ rest ≠ [] := by simp [hrest]
    have hcons : (d :: inner).map (·.stmt) ++ rest = d.stmt :: (inner.map (·.stmt) ++ rest) := rfl
    rw [hcons, inferBody_typedef d hne]
    cases hresolve : d.type.resolve env.aliases with
    | ok t =>
      have hnamed : d.type.Named env.aliases := Ty.resolve_accepts_iff.1 ⟨t, hresolve⟩
      obtain ⟨haccepted, hrefused⟩ := @ih { env with aliases := define env.aliases d }
      constructor
      · rintro ⟨-, hinner⟩
        exact haccepted hinner
      · intro hnot
        obtain ⟨fault, d', hd', herror⟩ := hrefused fun hinner => hnot ⟨hnamed, hinner⟩
        exact ⟨fault, d', List.mem_cons_of_mem _ hd', herror⟩
    | error fault =>
      constructor
      · rintro ⟨hnamed, -⟩
        obtain ⟨t, ht⟩ := Ty.resolve_accepts_iff.2 hnamed
        rw [hresolve] at ht
        cases ht
      · intro _
        exact ⟨fault, d, List.mem_cons_self, rfl⟩

end Check

/-! ## Tables that start out empty -/

theorem Aliases.expanded_nil : Aliases.Expanded [] :=
  List.forall_mem_nil _

/-- Definitions of aliases, accepted or not, at the top level of a session without aliases; or, the last ones of them,
in front of a block of such a session.  Both lead to one table.  No entry of this table has an alias in it.  So
a type is accepted under it if and only if every name in the type is the language's own or an alias without
parameters; what it stands for is the type with the entries in the places of the aliases, which has no alias in it and
stands for itself, now and whatever is defined later.  And definitions that come later leave the entries of all names
but their own, and the meaning of all types that do not mention their names. -/
theorem aliases_expanded (defs : List TypeDefinition) :
    let al := defineAll [] defs
    (∀ (w : World) (entered : List Entered), w.session.aliases = [] →
      entered.map (·.stmt) = defs.map (·.stmt) → (w.enter entered).session.aliases = al) ∧
    (∀ (outer inner : List TypeDefinition) (env : TypeEnv) (context : Ty) (rest : List Stmt) (st : CheckState),
      defs = outer ++ inner → env.aliases = defineAll [] outer → rest ≠ [] →
      let checked := Check.inferBody env context (inner.map (·.stmt) ++ rest) st
      (Accepts env.aliases inner → checked = Check.inferBody { env with aliases := al } context rest st) ∧
        (¬ Accepts env.aliases inner → ∃ fault, ∃ d ∈ inner, checked = .error ⟨fault, d.span⟩ st)) ∧
    al.Expanded ∧
    (∀ t : Ty, (∃ u, t.resolve al = .ok u) ↔ t.Named al) ∧
    (∀ t u : Ty, t.resolve al = .ok u → u = t.expand al ∧ u.Expanded ∧ u.resolve al = .ok u) ∧
    ∀ later : List TypeDefinition,
      (∀ name, (∀ d ∈ later, d.name ≠ name) → Table.get? (defineAll al later) name = Table.get? al name) ∧
      (∀ t : Ty, (∀ d ∈ later, ∀ c ∈ t.constructors, d.name ≠ c.1) →
        t.resolve (defineAll al later) = t.resolve al) ∧
      ∀ t u : Ty, t.resolve al = .ok u → u.resolve (defineAll al later) = .ok u := by
  intro al
  have hal : al.Expanded := Aliases.expanded_nil.defineAll defs
  refine ⟨?_, ?_, hal, fun t => Ty.resolve_accepts_iff, ?_, ?_⟩
  · intro w entered hempty hstmts
    rw [aliases_enter hstmts, hempty]
  · intro outer inner env context rest st hdefs henv hrest
    have htable : al = defineAll env.aliases inner := by
      rw [henv, ← Aliases.defineAll_append, ← hdefs]
    rw [htable]
    exact Check.inferBody_definitions inner hrest
  · intro t u h
    obtain ⟨hexpanded, hself⟩ := Ty.resolve_expanded hal h
    exact ⟨(Ty.resolve_eq_ok_iff.1 h).2, hexpanded, hself al⟩
  · intro later
    refine ⟨fun name h => Aliases.get?_defineAll_of_ne h, fun t h => Aliases.resolve_defineAll h, ?_⟩
    intro t u h
    exact (Ty.resolve_expanded hal h).2 _

/-- `typedef A = Int; typedef B = [A]; typedef C = D; typedef A = String;` -/
def shadowedDefinitions : List TypeDefinition :=
  let pos := Span.point "" 1 1
  [⟨pos, "A", .int⟩, ⟨pos, "B", .list (.con "A" [])⟩, ⟨pos, "C", .con "D" []⟩, ⟨pos, "A", .string⟩]

/-- The third definition is refused, and the last one leaves `B` as it was. -/
theorem aliases_expanded_shadowed :
    let entered := shadowedDefinitions.map fun d => Entered.mk .standard false d.stmt
    let al := (World.blank.enter entered).session.aliases
    al = [("A", .string), ("B", .list .int)] ∧
      ∃ u, (Ty.tuple [.con "A" [], .con "B" []]).resolve al = .ok u ∧ u = .tuple [.string, .list .int] ∧
        u.Expanded ∧ u.resolve (defineAll al shadowedDefinitions) = .ok u := by
  intro entered al
  obtain ⟨htop, -, -, -, hresult, hlater⟩ := aliases_expanded shadowedDefinitions
  have htable : al = defineAll [] shadowedDefinitions := htop _ entered rfl rfl
  have hal : defineAll [] shadowedDefinitions = [("A", .string), ("B", .list .int)] := rfl
  have hpair : (Ty.tuple [.con "A" [], .con "B" []]).resolve (defineAll [] shadowedDefinitions) =
      .ok (.tuple [.string, .list .int]) := rfl
  rw [htable]
  exact ⟨hal, _, hpair, rfl, (hresult _ _ hpair).2.1, (hlater shadowedDefinitions).2.2 _ _ hpair⟩

end VeriScript
