import VeriScript.Script.Basic

/-!
# The parts of a script

* `Expr.AllParts` — a property of all expressions in a script and another of all groups of declarations.
* `Expr.isLookup`, `Group.BindsNames` — the properties that the theory of type inference asks about.
-/

namespace VeriScript

mutual

/-- The expression and all expressions within it have one property, the groups within it another. -/
def Expr.AllParts (P : Expr → Prop) (Q : Group → Prop) : Expr → Prop
  | .bool span b => P (.bool span b)
  | .int span n => P (.int span n)
  | .string span s => P (.string span s)
  | .code span text => P (.code span text)
  | .termType span text => P (.termType span text)
  | .var span x => P (.var span x)
  | .array span es => P (.array span es) ∧ Expr.AllPartsList P Q es
  | .tuple span es => P (.tuple span es) ∧ Expr.AllPartsList P Q es
  | .record span fields => P (.record span fields) ∧ Expr.AllPartsFields P Q fields
  | .index span a i => P (.index span a i) ∧ a.AllParts P Q ∧ i.AllParts P Q
  | .field span e name => P (.field span e name) ∧ e.AllParts P Q
  | .proj span e i => P (.proj span e i) ∧ e.AllParts P Q
  | .lam span p e => P (.lam span p e) ∧ e.AllParts P Q
  | .app span f a => P (.app span f a) ∧ f.AllParts P Q ∧ a.AllParts P Q
  | .letIn span g e => P (.letIn span g e) ∧ g.AllParts P Q ∧ e.AllParts P Q
  | .typed span e t => P (.typed span e t) ∧ e.AllParts P Q
  | .ite span c y n => P (.ite span c y n) ∧ c.AllParts P Q ∧ y.AllParts P Q ∧ n.AllParts P Q
  | .block span body => P (.block span body) ∧ Stmt.AllPartsList P Q body
  | .paren span e => P (.paren span e) ∧ e.AllParts P Q

def Expr.AllPartsList (P : Expr → Prop) (Q : Group → Prop) : List Expr → Prop
  | [] => True
  | e :: es => e.AllParts P Q ∧ Expr.AllPartsList P Q es

def Expr.AllPartsFields (P : Expr → Prop) (Q : Group → Prop) : List (String × Expr) → Prop
  | [] => True
  | (_, e) :: fields => e.AllParts P Q ∧ Expr.AllPartsFields P Q fields

def Decl.AllParts (P : Expr → Prop) (Q : Group → Prop) : Decl → Prop
  | .mk _ _ e => e.AllParts P Q

def Decl.AllPartsList (P : Expr → Prop) (Q : Group → Prop) : List Decl → Prop
  | [] => True
  | d :: ds => d.AllParts P Q ∧ Decl.AllPartsList P Q ds

def Group.AllParts (P : Expr → Prop) (Q : Group → Prop) : Group → Prop
  | .single span d => Q (.single span d) ∧ d.AllParts P Q
  | .recursive span ds => Q (.recursive span ds) ∧ Decl.AllPartsList P Q ds

def Stmt.AllParts (P : Expr → Prop) (Q : Group → Prop) : Stmt → Prop
  | .bind _ _ e => e.AllParts P Q
  | .define _ g => g.AllParts P Q
  | .typedef _ _ _ | .code _ _ | .importTerms _ _ _ => True

def Stmt.AllPartsList (P : Expr → Prop) (Q : Group → Prop) : List Stmt → Prop
  | [] => True
  | s :: ss => s.AllParts P Q ∧ Stmt.AllPartsList P Q ss

end

/-- A part of a record or of a tuple is looked up. -/
def Expr.isLookup : Expr → Bool
  | .field _ _ _ | .proj _ _ _ => true
  | _ => false

/-- No part of a record or of a tuple is looked up in the expression. -/
abbrev Expr.LookupFree (e : Expr) : Prop :=
  e.AllParts (fun e => e.isLookup = false) fun _ => True

/-- The pattern is a name, perhaps in parentheses. -/
def Pattern.isName : Pattern → Bool
  | .var _ _ _ => true
  | .paren _ inner _ => inner.isName
  | _ => false

/-- Every member of a recursive group is a name. -/
def Group.BindsNames : Group → Prop
  | .single _ _ => True
  | .recursive _ ds => ∀ d ∈ ds, d.pattern.isName

end VeriScript
