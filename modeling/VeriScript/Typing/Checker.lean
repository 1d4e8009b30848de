import VeriScript.Ty.Unify
import VeriScript.Typing.Resolve

/-!
# The state of type inference

Inference introduces holes for types it does not know yet and fills them as it meets constraints.

* `TypeEnv` — the schemas of the names and the type aliases in scope.
* `Check` — computations on the state of inference; the state reached before an error is kept.
* `Check.fresh`, `Check.unify`, `Check.instantiate`, `Check.generalize` — the steps of inference (`fresh_meta`,
  `unify`, `instantiate`, `generalize`).
-/

namespace VeriScript

/-- The schemas of the names in scope and the type aliases; the newest entry of a name is its only one. -/
structure TypeEnv where
  types : List (String × Schema)
  aliases : List (String × Ty)

namespace TypeEnv

def bind (env : TypeEnv) (name : String) (s : Schema) : TypeEnv :=
  { env with types := Table.insert env.types name s }

/-- Bind names one after another, the last one first to be seen. -/
def bindAll (env : TypeEnv) (entries : List (String × Schema)) : TypeEnv :=
  entries.foldl (fun env e => env.bind e.1 e.2) env

def bindAlias (env : TypeEnv) (name : String) (t : Ty) : TypeEnv :=
  { env with aliases := Table.insert env.aliases name t }

end TypeEnv

structure CheckState where
  bindings : Bindings
  /-- The number of holes introduced so far, which is also the next hole. -/
  nextHole : Nat
  /-- The kinds of the expressions visited, the last one first. -/
  visited : List String
  deriving Repr

/-- No hole yet. -/
def CheckState.initial : CheckState := ⟨[], 0, []⟩

abbrev Check (α : Type) := EStateM TypeError CheckState α

/-- The names that generalisation gives to holes: the letters, then the letters with a number. -/
def variableName (n : Nat) : String :=
  let letter := Char.ofNat (97 + n % 26)
  if n < 26 then String.singleton letter else String.singleton letter ++ Text.decimalNat (n / 26)

/-- The first `count` names from the `start`-th on that are not `used`, looking at no more than `fuel`
names. -/
def freshNames (used : List String) : Nat → Nat → Nat → List String
  | 0, _, _ => []
  | _ + 1, 0, _ => []
  | fuel + 1, count + 1, start =>
    let name := variableName start
    if used.contains name then freshNames used fuel (count + 1) (start + 1)
    else name :: freshNames used fuel count (start + 1)

/-- The holes of a type that are not among `kept`, with the names that generalisation gives to them; no name is
that of a variable of the type. -/
def Ty.holeNames (kept : List Nat) (t : Ty) : List (Nat × String) :=
  let rigid := t.varNames
  let holes := t.holes.filter fun id => !kept.contains id
  holes.zip (freshNames rigid (rigid.length + holes.length) holes.length 0)

/-- Bind holes to named variables, one after another. -/
def Bindings.install (bindings : Bindings) (names : List (Nat × String)) : Bindings :=
  names.foldl (fun bs h => (h.1, .var h.2) :: bs) bindings

/-- Take the newest bindings of holes out again, the last one first. -/
def Bindings.uninstall (bindings : Bindings) (names : List (Nat × String)) : Bindings :=
  names.foldr (fun h bs => bs.eraseP (·.1 == h.1)) bindings

namespace Check

/-- Raise a type error, if its message can be written. -/
def fail {α : Type} (fault : TypeFault) (span : Option Span) : Check α :=
  throw ⟨fault.raised, span⟩

/-- Note that an expression is visited. -/
def visit (kind : String) : Check Unit :=
  modify fun st => { st with visited := kind :: st.visited }

/-- A new hole. -/
def fresh : Check Ty :=
  modifyGet fun st => (.hole st.nextHole, { st with nextHole := st.nextHole + 1 })

/-- The type with the bindings made so far applied. -/
def zonk (t : Ty) : Check Ty := do
  return Ty.applyBindings (← get).bindings t

/-- Make two types equal; bindings made before a fault stay. -/
def unify (expected actual : Ty) (span : Option Span) : Check Unit := do
  let st ← get
  let (bindings, fault?) := Ty.unify st.bindings expected actual
  set { st with bindings := bindings }
  match fault? with
  | none => return
  | some (.mismatch a b) => fail (.mismatch a b) span
  | some (.infinite t) => fail (.infiniteType t) span

/-- The holes of a type under the bindings made so far. -/
def holes (t : Ty) : Check (List Nat) := do
  return (← zonk t).holes

/-- The type of a schema with new holes for its quantified variables. -/
def instantiate (s : Schema) : Check Ty := do
  let holes ← s.vars.mapM fun name => do return (name, ← fresh)
  return s.type.substVars holes.reverse

/-- The schema of a type: its named variables are quantified, and the holes that the environment does not share.
These holes are bound to their new names while the bindings are applied. -/
def generalize (env : TypeEnv) (t : Ty) : Check Schema := do
  let zonked ← zonk t
  let bindings := (← get).bindings
  let kept := env.types.flatMap fun e => (Ty.applyBindings bindings e.2.type).holes
  let names := zonked.holeNames kept
  modify fun st => { st with bindings := st.bindings.install names }
  let generalized ← zonk t
  modify fun st => { st with bindings := st.bindings.uninstall names }
  return ⟨zonked.varNames ++ names.map (·.2), generalized⟩

/-- Resolve the aliases in a type. -/
def resolve (env : TypeEnv) (t : Ty) (span : Option Span) : Check Ty :=
  match t.resolve env.aliases with
  | .ok t => return t
  | .error fault => fail fault span

end Check

end VeriScript
