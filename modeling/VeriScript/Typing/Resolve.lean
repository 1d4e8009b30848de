import VeriScript.Typing.Error

/-!
# Resolving type names

`Ty.resolve` (`resolve_type`) replaces the aliases in a type by what they stand for; a name that is neither an alias nor
one of the language's own is an error.
-/

namespace VeriScript.Ty

/-- What a type constructor with resolved arguments stands for. -/
def resolveName (aliases : List (String × Ty)) (name : String) (args : List Ty) : Except TypeFault Ty :=
  if builtinNames.contains name then .ok (.con name args)
  else match Table.get? aliases name with
    | some t => if args.isEmpty then .ok t else .error (.aliasParameters name)
    | none => .error (.unboundType name)

mutual

/-- The type with its aliases replaced. -/
def resolve (aliases : List (String × Ty)) : Ty → Except TypeFault Ty
  | .con name args => do resolveName aliases name (← resolveList aliases args)
  | .var name => .ok (.var name)
  | .hole id => .ok (.hole id)
  | .record fields => do return .record (← resolveFields aliases fields)

def resolveList (aliases : List (String × Ty)) : List Ty → Except TypeFault (List Ty)
  | [] => .ok []
  | t :: ts => do
    let t ← resolve aliases t
    let ts ← resolveList aliases ts
    return t :: ts

def resolveFields (aliases : List (String × Ty)) :
    List (String × Ty) → Except TypeFault (List (String × Ty))
  | [] => .ok []
  | (name, t) :: fields => do
    let t ← resolve aliases t
    let fields ← resolveFields aliases fields
    return (name, t) :: fields

end

end VeriScript.Ty
