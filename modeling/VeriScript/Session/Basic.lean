import VeriScript.Display
import VeriScript.Typing.Checker
import VeriScript.Value.Basic
import VeriScript.Value.Error

/-!
# Sessions

A session is what the statements at the top level work on.

* `Session.extend` — bind a name (`extend_env`); a term becomes visible to inline terms too.  No name that a script
  binds gets a documentation, so none is passed.
* `Session.merge` — the session as seen from within a local environment (`merge_local`).
* `Pattern.destructure` — the variables of a pattern with their parts of a value (`bind_pattern_env`).
-/

namespace VeriScript

structure Session where
  values : List (String × Value)
  types : List (String × Schema)
  aliases : List (String × Ty)
  docs : List (String × String)
  /-- The lifecycles whose primitives are available. -/
  lifecycles : List Lifecycle
  /-- The names that inline terms can use. -/
  terms : TermEnv
  /-- The proofs so far, the first one first. -/
  proofs : List ProofRecord
  display : Display

namespace Session

/-- Bind a name.  Without a schema the name keeps the schema it had. -/
def extend (s : Session) (name : String) (schema? : Option Schema) (v : Value) : Session :=
  { s with
    values := Table.insert s.values name v
    types := match schema? with
      | some schema => Table.insert s.types name schema
      | none => s.types
    terms := match v with
      | .term t => Table.insert s.terms name t
      | _ => s.terms }

def addAlias (s : Session) (name : String) (t : Ty) : Session :=
  { s with aliases := Table.insert s.aliases name t }

/-- The types that a script is checked against. -/
def typeEnv (s : Session) : TypeEnv := ⟨s.types, s.aliases⟩

/-- Add an entry to the history of proofs. -/
def record (s : Session) (r : ProofRecord) : Session :=
  { s with proofs := s.proofs ++ [r] }

/-- The name of the next goal. -/
def nextGoalName (s : Session) : String :=
  "goal " ++ Text.decimalNat (s.proofs.length + 1)

/-- Add the entries of a local environment to a session, the oldest first. -/
def merge (s : Session) : Env → Session
  | [] => s
  | .value name schema? v :: env => (merge s env).extend name schema? v
  | .typedef name t :: env => (merge s env).addAlias name t
  | .recursive members :: env =>
    members.foldl (fun s m => s.extend m.name m.schema? (m.value (.recursive members :: env))) (merge s env)

end Session

/-! ## Patterns against values -/

/-- What a value looks like to a tuple pattern. -/
def Value.shape : Value → Shape
  | .unit => .tuple 0
  | .tuple elems => .tuple elems.length
  | v => .other v.tag

/-- A variable with its part of a schema and its part of a value. -/
structure Part where
  name : String
  schema? : Option Schema
  value : Value

namespace Pattern

/-- The value does not have the shape of a tuple pattern. -/
def mismatch (span : Span) (size : Nat) (v : Value) : RuntimeError :=
  ⟨.patternMismatch size v.shape, some span, []⟩

mutual

/-- The variables of a pattern with their parts of a schema and of a value, from left to right. -/
def destructure : Pattern → Option Schema → Value → Except RuntimeError (List Part)
  | .wildcard _ _, _, _ => .ok []
  | .var _ name _, schema?, v => .ok [⟨name, schema?, v⟩]
  | .paren _ inner _, schema?, v => inner.destructure schema? v
  | .tuple span elems _, schema?, v =>
    match v.components? with
    | some items =>
      if items.length = elems.length then
        destructureList elems (Schema.parts schema? elems.length) items
      else .error (mismatch span elems.length v)
    | none => .error (mismatch span elems.length v)

def destructureList : List Pattern → List (Option Schema) → List Value → Except RuntimeError (List Part)
  | p :: ps, s :: ss, v :: vs => do
    let parts ← p.destructure s v
    let more ← destructureList ps ss vs
    return parts ++ more
  | _, _, _ => .ok []

end

end Pattern

/-- Bind parts one after another. -/
def Env.bindParts (env : Env) (parts : List Part) : Env :=
  parts.foldl (fun env p => .value p.name p.schema? p.value :: env) env

@[inherit_doc Env.bindParts]
def Session.bindParts (s : Session) (parts : List Part) : Session :=
  parts.foldl (fun s p => s.extend p.name p.schema? p.value) s

/-- Bind the variables of a pattern in a local environment. -/
def Env.bindPattern (env : Env) (p : Pattern) (schema? : Option Schema) (v : Value) :
    Except RuntimeError Env :=
  (p.destructure schema? v).map env.bindParts

/-- Bind the variables of a pattern in a session. -/
def Session.bindPattern (s : Session) (p : Pattern) (schema? : Option Schema) (v : Value) :
    Except RuntimeError Session :=
  (p.destructure schema? v).map s.bindParts

end VeriScript
