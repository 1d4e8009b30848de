import VeriScript.Span
import VeriScript.Ty.Basic

/-!
# Scripts

The abstract syntax of scripts.  Every node knows the position it was read at.

* `Pattern` — what a name or a tuple of names is bound by, with an optional type on each part.
* `Expr`, `Decl`, `Group`, `Stmt` — expressions, declarations, groups of declarations, statements.
* `Pattern.distribute` — the names of a pattern with their parts of a schema (`distribute_schema`).
-/

namespace VeriScript

inductive Pattern where
  | wildcard (span : Span) (type? : Option Ty)
  | var (span : Span) (name : String) (type? : Option Ty)
  | tuple (span : Span) (elems : List Pattern) (type? : Option Ty)
  | paren (span : Span) (inner : Pattern) (type? : Option Ty)
  deriving Repr

mutual

inductive Expr where
  | bool (span : Span) (value : Bool)
  | int (span : Span) (value : Nat)
  | string (span : Span) (value : String)
  /-- An inline term, still as text. -/
  | code (span : Span) (text : String)
  /-- A term type, still as text. -/
  | termType (span : Span) (text : String)
  | array (span : Span) (elems : List Expr)
  | tuple (span : Span) (elems : List Expr)
  | record (span : Span) (fields : List (String × Expr))
  | index (span : Span) (array index : Expr)
  | field (span : Span) (record : Expr) (name : String)
  | proj (span : Span) (tuple : Expr) (index : Nat)
  | var (span : Span) (name : String)
  | lam (span : Span) (param : Pattern) (body : Expr)
  | app (span : Span) (fn arg : Expr)
  | letIn (span : Span) (group : Group) (body : Expr)
  | typed (span : Span) (expr : Expr) (type : Ty)
  | ite (span : Span) (test yes no : Expr)
  | block (span : Span) (stmts : List Stmt)
  | paren (span : Span) (inner : Expr)

inductive Decl where
  | mk (span : Span) (pattern : Pattern) (body : Expr)

inductive Group where
  | single (span : Span) (decl : Decl)
  | recursive (span : Span) (decls : List Decl)

inductive Stmt where
  | bind (span : Span) (pattern : Pattern) (expr : Expr)
  | define (span : Span) (group : Group)
  /-- Declarations of terms, still as text. -/
  | code (span : Span) (text : String)
  | typedef (span : Span) (name : String) (type : Ty)
  | importTerms (span : Span) (file : String) (qualifier : Option String)

end

namespace Decl

def span : Decl → Span
  | .mk s _ _ => s

def pattern : Decl → Pattern
  | .mk _ p _ => p

def body : Decl → Expr
  | .mk _ _ e => e

end Decl

def Group.decls : Group → List Decl
  | .single _ d => [d]
  | .recursive _ ds => ds

def Expr.span : Expr → Span
  | .bool s _ | .int s _ | .string s _ | .code s _ | .termType s _ | .array s _ | .tuple s _
  | .record s _ | .index s _ _ | .field s _ _ | .proj s _ _ | .var s _ | .lam s _ _ | .app s _ _
  | .letIn s _ _ | .typed s _ _ | .ite s _ _ _ | .block s _ | .paren s _ => s

def Stmt.span : Stmt → Span
  | .bind s _ _ | .define s _ | .code s _ | .typedef s _ _ | .importTerms s _ _ => s

/-- The name of a kind of statement in tree dumps and traces. -/
def Stmt.kind : Stmt → String
  | .bind _ _ _ => "STMT_BIND"
  | .define _ _ => "STMT_LET"
  | .code _ _ => "STMT_CODE"
  | .typedef _ _ _ => "STMT_TYPEDEF"
  | .importTerms _ _ _ => "STMT_IMPORT"

/-! ## Patterns -/

/-- The parts of a schema for a tuple of `n` patterns: a tuple type of that length is split, any other
schema gives no part a schema. -/
def Schema.parts (schema? : Option Schema) (n : Nat) : List (Option Schema) :=
  match schema? with
  | some ⟨vars, .con "Tuple" args⟩ =>
    if args.length = n then args.map fun t => some ⟨vars, t⟩ else List.replicate n none
  | _ => List.replicate n none

namespace Pattern

/-- The pattern with a type written behind it. -/
def withType (t : Ty) : Pattern → Pattern
  | .wildcard s _ => .wildcard s (some t)
  | .var s n _ => .var s n (some t)
  | .tuple s ps _ => .tuple s ps (some t)
  | .paren s p _ => .paren s p (some t)

mutual

/-- Every variable of a pattern with its part of a schema, from left to right. -/
def distribute : Pattern → Option Schema → List (String × Option Schema)
  | .wildcard _ _, _ => []
  | .var _ name _, schema? => [(name, schema?)]
  | .paren _ inner _, schema? => inner.distribute schema?
  | .tuple _ elems _, schema? => distributeList elems (Schema.parts schema? elems.length)

def distributeList : List Pattern → List (Option Schema) → List (String × Option Schema)
  | p :: ps, s :: ss => p.distribute s ++ distributeList ps ss
  | _, _ => []

end

/-- The variables of a pattern, from left to right. -/
def names (p : Pattern) : List String :=
  (p.distribute none).map (·.1)

/-- The type written on a pattern, also within parentheses that carry none themselves. -/
def declaredType : Pattern → Option Ty
  | .paren _ inner none => inner.declaredType
  | .paren _ _ (some t) => some t
  | .wildcard _ t | .var _ _ t | .tuple _ _ t => t

def isWildcard : Pattern → Bool
  | .wildcard _ _ => true
  | .paren _ inner _ => inner.isWildcard
  | _ => false

/-- A tuple that no parentheses of its own surround. -/
def isTuple : Pattern → Bool
  | .tuple _ _ _ => true
  | _ => false

end Pattern

end VeriScript
