import VeriScript.Ty.Basic

/-!
# Types in surface syntax

The printer of types (`pretty_type`, `pretty_schema`): types the way scripts spell them.  Holes, which scripts cannot
spell, are written with a question mark.

* `Ty.fault?` — what keeps a type from being written: `Function`, `List` and `Block` need their parameters.
* `Ty.render`, `Schema.render` — the text of a type that nothing keeps from being written.
* `Ty.shown`, `Schema.shown` — the text, or what keeps it from being written.
-/

namespace VeriScript

namespace Ty

/-- Parentheses around the argument of a function type. -/
def argText (t : Ty) (text : String) : String :=
  if t.isFunction then "(" ++ text ++ ")" else text

/-- Parentheses around the result type of a block. -/
def atomText (t : Ty) (text : String) : String :=
  if t.isFunction || t.isBlock then "(" ++ text ++ ")" else text

mutual

/-- What keeps a type from being written, at the first place of its text. -/
def fault? : Ty → Option Text.Fault
  | .var _ | .hole _ => none
  | .record fields => (Table.sortByName (faultFields fields)).findSome? (·.2)
  | .con "Function" [arg, result] => (fault? arg).or (fault? result)
  | .con "Function" args => some (.parameters args.length)
  | .con "Tuple" elems => faultList elems
  | .con "List" (elem :: _) => fault? elem
  | .con "Block" (context :: result :: _) => (fault? context).or (fault? result)
  | .con "Block" [context] => (fault? context).or (some .missing)
  | .con "List" [] | .con "Block" [] => some .missing
  | .con _ _ => none

def faultList : List Ty → Option Text.Fault
  | [] => none
  | t :: ts => (fault? t).or (faultList ts)

def faultFields : List (String × Ty) → List (String × Option Text.Fault)
  | [] => []
  | (k, t) :: fs => (k, fault? t) :: faultFields fs

end

mutual

/-- A type in surface syntax; the fields of a record in the order of their names. -/
def render : Ty → String
  | .var name => name
  | .hole id => "?" ++ Text.decimalNat id
  | .record fields =>
    let texts := (Table.sortByName (renderFields fields)).map fun f => f.1 ++ " : " ++ f.2
    "\x7b" ++ String.intercalate ", " texts ++ "\x7d"
  | .con "Function" [arg, result] => argText arg (render arg) ++ " -> " ++ render result
  | .con "Tuple" elems => "(" ++ String.intercalate ", " (renderList elems) ++ ")"
  | .con "List" (elem :: _) => "[" ++ render elem ++ "]"
  | .con "Block" (context :: result :: _) => render context ++ " " ++ atomText result (render result)
  | .con name _ => name

def renderList : List Ty → List String
  | [] => []
  | t :: ts => render t :: renderList ts

def renderFields : List (String × Ty) → List (String × String)
  | [] => []
  | (k, t) :: fs => (k, render t) :: renderFields fs

end

/-- A type in surface syntax, if it can be written. -/
def shown (t : Ty) : Except Text.Fault String :=
  match t.fault? with
  | some f => .error f
  | none => .ok t.render

end Ty

/-- A schema in surface syntax, its quantified variables in braces. -/
def Schema.render (s : Schema) : String :=
  if s.vars.isEmpty then s.type.render
  else "\x7b" ++ String.intercalate ", " s.vars ++ "\x7d " ++ s.type.render

/-- A schema in surface syntax, if it can be written. -/
def Schema.shown (s : Schema) : Except Text.Fault String :=
  match s.type.fault? with
  | some f => .error f
  | none => .ok s.render

end VeriScript
