import VeriScript.Table
import VeriScript.Text.Numeral

/-!
# Types and schemas

* `Ty` — types: constructors applied to types, named variables, holes of type inference, records.
* `Schema` — a type quantified over named variables.
* `Ty.substVars`, `Ty.fill` — replace named variables, or one hole.
* `Ty.varNames`, `Ty.holes` (`type_var_names`, `free_metas`) — the named variables and the holes of a type in order of
  first occurrence; the fields of a record are visited in the order of their names.
-/

namespace VeriScript

/-- The kinds of context in which an action can run. -/
inductive ContextKind where
  | topLevel
  | proofScript
  | setup
  deriving DecidableEq, Repr

def ContextKind.name : ContextKind → String
  | .topLevel => "TopLevel"
  | .proofScript => "ProofScript"
  | .setup => "Setup"

inductive Ty where
  | con (name : String) (args : List Ty)
  | var (name : String)
  | hole (id : Nat)
  | record (fields : List (String × Ty))
  deriving Repr

structure Schema where
  vars : List String
  type : Ty
  deriving Repr

/-- A schema without quantified variables. -/
def Schema.mono (t : Ty) : Schema := ⟨[], t⟩

namespace Ty

/-! ## The types of the language -/

@[match_pattern]
abbrev bool : Ty := .con "Bool" []

@[match_pattern]
abbrev int : Ty := .con "Int" []

@[match_pattern]
abbrev string : Ty := .con "String" []

@[match_pattern]
abbrev term : Ty := .con "Term" []

/-- The type of term types. -/
@[match_pattern]
abbrev termType : Ty := .con "Type" []

@[match_pattern]
abbrev tuple (elems : List Ty) : Ty := .con "Tuple" elems

@[match_pattern]
abbrev unit : Ty := .con "Tuple" []

@[match_pattern]
abbrev list (elem : Ty) : Ty := .con "List" [elem]

@[match_pattern]
abbrev fn (arg result : Ty) : Ty := .con "Function" [arg, result]

/-- The type of actions that run in a context and yield a result. -/
@[match_pattern]
abbrev block (context result : Ty) : Ty := .con "Block" [context, result]

/-- The type that stands for a kind of context. -/
abbrev context (kind : ContextKind) : Ty := .con kind.name []

/-- The names of the contexts. -/
def contextNames : List String := ["TopLevel", "ProofScript", "Setup"]

/-- Type names that always have a meaning. -/
def builtinNames : List String :=
  ["Int", "Bool", "String", "Term", "Type", "Theorem", "ProofResult", "Spec",
   "Function", "Tuple", "List", "Block"] ++ contextNames

def isBlock : Ty → Bool
  | .con "Block" _ => true
  | _ => false

/-- A block type in a context of a kind; a block type without parameters has no context to look at. -/
def isBlockIn (kind : String) : Ty → Except Text.Fault Bool
  | .con "Block" [] => .error .missing
  | .con "Block" (.con name _ :: _) => .ok (name == kind)
  | _ => .ok false

def isFunction : Ty → Bool
  | .con "Function" _ => true
  | _ => false

/-! ## Substitution -/

mutual

/-- Replace the named variables that have an entry. -/
def substVars (m : List (String × Ty)) : Ty → Ty
  | .con name args => .con name (substVarsList m args)
  | .var name => (Table.get? m name).getD (.var name)
  | .hole id => .hole id
  | .record fields => .record (substVarsFields m fields)

def substVarsList (m : List (String × Ty)) : List Ty → List Ty
  | [] => []
  | t :: ts => substVars m t :: substVarsList m ts

def substVarsFields (m : List (String × Ty)) : List (String × Ty) → List (String × Ty)
  | [] => []
  | (k, t) :: fs => (k, substVars m t) :: substVarsFields m fs

end

mutual

/-- Fill the hole `id` with the type `u`. -/
def fill (id : Nat) (u : Ty) : Ty → Ty
  | .con name args => .con name (fillList id u args)
  | .var name => .var name
  | .hole i => if i = id then u else .hole i
  | .record fields => .record (fillFields id u fields)

def fillList (id : Nat) (u : Ty) : List Ty → List Ty
  | [] => []
  | t :: ts => fill id u t :: fillList id u ts

def fillFields (id : Nat) (u : Ty) : List (String × Ty) → List (String × Ty)
  | [] => []
  | (k, t) :: fs => (k, fill id u t) :: fillFields id u fs

end

/-! ## Variables and holes -/

mutual

/-- All occurrences of named variables. -/
def varOccurrences : Ty → List String
  | .con _ args => varOccurrencesList args
  | .var name => [name]
  | .hole _ => []
  | .record fields => (Table.sortByName (varOccurrencesFields fields)).flatMap (·.2)

def varOccurrencesList : List Ty → List String
  | [] => []
  | t :: ts => varOccurrences t ++ varOccurrencesList ts

def varOccurrencesFields : List (String × Ty) → List (String × List String)
  | [] => []
  | (k, t) :: fs => (k, varOccurrences t) :: varOccurrencesFields fs

end

mutual

/-- All occurrences of holes. -/
def holeOccurrences : Ty → List Nat
  | .con _ args => holeOccurrencesList args
  | .var _ => []
  | .hole id => [id]
  | .record fields => (Table.sortByName (holeOccurrencesFields fields)).flatMap (·.2)

def holeOccurrencesList : List Ty → List Nat
  | [] => []
  | t :: ts => holeOccurrences t ++ holeOccurrencesList ts

def holeOccurrencesFields : List (String × Ty) → List (String × List Nat)
  | [] => []
  | (k, t) :: fs => (k, holeOccurrences t) :: holeOccurrencesFields fs

end

/-- The named variables of a type in order of first occurrence. -/
def varNames (t : Ty) : List String := t.varOccurrences.eraseDups

/-- The holes of a type in order of first occurrence. -/
def holes (t : Ty) : List Nat := t.holeOccurrences.eraseDups

end Ty

end VeriScript
