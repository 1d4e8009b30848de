import VeriScript.Run.Eval

/-!
# Local environments and the session behind them

A name is looked up in the local environment first, from the newest entry on, and then in the session.  Adding the
local environment to the session, from the oldest entry on, gives a session in which every name has just that value.

* `LocalEntry`, `Env.entries` — a local environment name by name, the newest entry first.
* `Session.add`, `Session.merge_eq` — adding entries one after another.
* `lookup_foldr` — a table behind such a sequence has the newest entry that concerns it.
* `lookup_agrees_with_merge` — what each table of the merged session has under a name.
-/

namespace VeriScript

/-! ## Entries -/

/-- What a local environment says about one name: a value, or a type that the name stands for. -/
inductive LocalEntry where
  | bound (part : Part)
  | typedef (name : String) (t : Ty)

/-- The entries of a local environment, the newest first.  The functions of a recursive group are entries of their
own, the last of them the newest. -/
def Env.entries : Env → List LocalEntry
  | [] => []
  | .value name schema? v :: env => .bound ⟨name, schema?, v⟩ :: entries env
  | .typedef name t :: env => .typedef name t :: entries env
  | .recursive members :: env =>
    members.reverse.map (fun m => .bound ⟨m.name, m.schema?, m.value (.recursive members :: env)⟩) ++ entries env

def Value.term? : Value → Option Term
  | .term t => some t
  | _ => none

namespace LocalEntry

/-- The value that an entry gives to a name. -/
def value? (x : String) : LocalEntry → Option Value
  | .bound p => if p.name = x then some p.value else none
  | .typedef _ _ => none

/-- The schema that an entry gives to a name; a value may come without one. -/
def schema? (x : String) : LocalEntry → Option Schema
  | .bound p => if p.name = x then p.schema? else none
  | .typedef _ _ => none

/-- The term that an entry gives to a name: its value, if that is a term. -/
def term? (x : String) : LocalEntry → Option Term
  | .bound p => if p.name = x then p.value.term? else none
  | .typedef _ _ => none

/-- The type that a name stands for by an entry. -/
def alias? (x : String) : LocalEntry → Option Ty
  | .bound _ => none
  | .typedef name t => if name = x then some t else none

end LocalEntry

theorem memberOf_eq {α : Type} (members : List Member) (x : String) (f : Member → α) :
    (memberOf members x).map f = members.reverse.findSome? fun m => if m.name = x then some (f m) else none := by
  unfold memberOf
  induction members.reverse with
  | nil => rfl
  | cons m ms ih =>
    by_cases h : m.name = x
    · simp [h]
    · simp [h, ih]

theorem Env.lookup_eq (env : Env) (x : String) : env.lookup x = env.entries.findSome? (LocalEntry.value? x) := by
  induction env with
  | nil => rfl
  | cons b env ih =>
    cases b with
    | value name schema? v =>
      by_cases h : name = x
      · simp [Env.lookup, Env.entries, LocalEntry.value?, h]
      · simp [Env.lookup, Env.entries, LocalEntry.value?, h, ih]
    | typedef name t => exact ih
    | recursive members =>
      have hgroup := memberOf_eq members x fun m => m.value (.recursive members :: env)
      rw [Env.entries, List.findSome?_append, List.findSome?_map, Env.lookup, ih]
      change _ = (members.reverse.findSome? fun m =>
        if m.name = x then some (m.value (.recursive members :: env)) else none).or _
      rw [← hgroup]
      cases memberOf members x <;> rfl

/-! ## Adding entries to a session -/

namespace Session

/-- The session with an entry added. -/
def add (s : Session) : LocalEntry → Session
  | .bound p => s.extend p.name p.schema? p.value
  | .typedef name t => s.addAlias name t

theorem merge_eq (s : Session) (env : Env) : s.merge env = env.entries.foldr (fun e s => s.add e) s := by
  induction env with
  | nil => rfl
  | cons b env ih =>
    cases b with
    | value name schema? v => rw [merge, ih]; rfl
    | typedef name t => rw [merge, ih]; rfl
    | recursive members =>
      rw [merge, ih, Env.entries, List.foldr_append, List.foldr_map, List.foldr_reverse]
      rfl

/-- Something that each entry either replaces or leaves alone is, in the end, what the newest entry to replace it has
put there. -/
theorem lookup_foldr {α : Type} (look : Session → Option α) (f : LocalEntry → Option α)
    (hadd : ∀ s e, look (s.add e) = (f e).or (look s)) (entries : List LocalEntry) (s : Session) :
    look (entries.foldr (fun e s => s.add e) s) = (entries.findSome? f).or (look s) := by
  induction entries with
  | nil => rfl
  | cons e entries ih =>
    rw [List.foldr_cons, hadd, ih, List.findSome?_cons]
    cases f e <;> rfl

theorem get?_insert_eq {α : Type} (t : List (String × α)) (name : String) (v : α) (x : String) :
    Table.get? (Table.insert t name v) x = (if name = x then some v else none).or (Table.get? t x) := by
  by_cases h : name = x
  · rw [if_pos h, ← h, Table.get?_insert_self]
    rfl
  · rw [if_neg h, Table.get?_insert_of_ne (Ne.symm h)]
    rfl

variable (s : Session) (e : LocalEntry) (x : String)

theorem get?_values_add : Table.get? (s.add e).values x = (e.value? x).or (Table.get? s.values x) := by
  cases e with
  | bound p => exact get?_insert_eq s.values p.name p.value x
  | typedef name t => rfl

theorem get?_types_add : Table.get? (s.add e).types x = (e.schema? x).or (Table.get? s.types x) := by
  cases e with
  | bound p =>
    obtain ⟨name, schema?, v⟩ := p
    cases schema? with
    | none => simp [add, extend, LocalEntry.schema?]
    | some schema => exact get?_insert_eq s.types name schema x
  | typedef name t => rfl

theorem get?_terms_add : Table.get? (s.add e).terms x = (e.term? x).or (Table.get? s.terms x) := by
  cases e with
  | bound p =>
    obtain ⟨name, schema?, v⟩ := p
    cases v with
    | term t => exact get?_insert_eq s.terms name t x
    | _ => simp [add, extend, LocalEntry.term?, Value.term?]
  | typedef name t => rfl

theorem get?_aliases_add : Table.get? (s.add e).aliases x = (e.alias? x).or (Table.get? s.aliases x) := by
  cases e with
  | bound p => rfl
  | typedef name t => exact get?_insert_eq s.aliases name t x

/-- Entries leave everything alone that is not about names of scripts. -/
theorem foldr_add_rest (entries : List LocalEntry) :
    let s' := entries.foldr (fun e s => s.add e) s
    s'.docs = s.docs ∧ s'.proofs = s.proofs ∧ s'.lifecycles = s.lifecycles ∧ s'.display = s.display := by
  induction entries with
  | nil => exact ⟨rfl, rfl, rfl, rfl⟩
  | cons e entries ih => cases e <;> exact ih

end Session

/-- The value of a variable: what looking its name up finds, in the local environment or else in the session. -/
theorem evalName_eq (env : Env) (x : String) (span : Span) (w : World) :
    evalName env x span w = ((env.lookup x).or (Table.get? w.session.values x)).elim
      (.error (.error (.runtime ⟨.unknownVariable x, span, []⟩)) w) fun v => .ok (v.called x) w := by
  have hsession : Run.session w = .ok w.session w := rfl
  unfold evalName
  simp only [bind, EStateM.bind, hsession]
  cases (env.lookup x).or (Table.get? w.session.values x) <;> rfl

/-- A name has the value in the merged session that looking it up finds, in the local environment or else in the
session, so that a variable stands for what the merged session has under its name.  Its schema, its term and the type
that it stands for are those of the newest entry that has one, or else of the session, and everything else is as in the
session. -/
theorem lookup_agrees_with_merge (env : Env) (s : Session) (x : String) :
    Table.get? (s.merge env).values x = (env.lookup x).or (Table.get? s.values x) ∧
      (∀ (span : Span) (w : World), evalName env x span { w with session := s } =
        (Table.get? (s.merge env).values x).elim
          (.error (.error (.runtime ⟨.unknownVariable x, span, []⟩)) { w with session := s })
          fun v => .ok (v.called x) { w with session := s }) ∧
      Table.get? (s.merge env).types x = (env.entries.findSome? (LocalEntry.schema? x)).or (Table.get? s.types x) ∧
      Table.get? (s.merge env).terms x = (env.entries.findSome? (LocalEntry.term? x)).or (Table.get? s.terms x) ∧
      Table.get? (s.merge env).aliases x = (env.entries.findSome? (LocalEntry.alias? x)).or (Table.get? s.aliases x) ∧
      (s.merge env).docs = s.docs ∧ (s.merge env).proofs = s.proofs ∧
      (s.merge env).lifecycles = s.lifecycles ∧ (s.merge env).display = s.display := by
  have hvalues : Table.get? (s.merge env).values x = (env.lookup x).or (Table.get? s.values x) := by
    rw [s.merge_eq, env.lookup_eq]
    exact Session.lookup_foldr (Table.get? ·.values x) (LocalEntry.value? x) (·.get?_values_add · x) env.entries s
  refine ⟨hvalues, fun span w => ?_, ?_⟩
  · rw [hvalues]
    exact evalName_eq env x span { w with session := s }
  · rw [s.merge_eq]
    refine ⟨?_, ?_, ?_, s.foldr_add_rest env.entries⟩
    · exact Session.lookup_foldr (Table.get? ·.types x) (LocalEntry.schema? x) (·.get?_types_add · x) env.entries s
    · exact Session.lookup_foldr (Table.get? ·.terms x) (LocalEntry.term? x) (·.get?_terms_add · x) env.entries s
    · exact Session.lookup_foldr (Table.get? ·.aliases x) (LocalEntry.alias? x) (·.get?_aliases_add · x) env.entries s

end VeriScript
