import VeriScript.Proofs.Typing.Rules
import VeriScript.Session.Basic

/-!
# The types of values

The types that values have, apart from how they came about.  A function of a script keeps names of the session
open: they are looked up when it is called.  So values have types in a scope, which stands for the session, and
only the types of the names matter.

* `Op.Typed`, `Command.Typed` — the types of the primitives.
* `HasTy` — the types of a value, over the commands that actions may consist of.
* `EnvTy` — a local environment provides a scope.
-/

namespace VeriScript

/-! ## Primitives -/

abbrev Mono.context (kind : ContextKind) : Mono := .con kind.name []

/-- The types of the arguments of a function, and that of its value. -/
inductive Op.Typed : Op → List Mono → Mono → Prop
  | yield {a m} : Typed .yield [a] (.block m a)
  | forEach {a b m} : Typed .forEach [.list a, .fn a (.block m b)] (.block m (.list b))
  | null {a} : Typed .null [.list a] .bool
  | nth {a} : Typed .nth [.list a, .int] a
  | head {a} : Typed .head [.list a] a
  | tail {a} : Typed .tail [.list a] (.list a)
  | concat {a} : Typed .concat [.list a, .list a] (.list a)
  | length {a} : Typed .length [.list a] .int
  | strConcat : Typed .strConcat [.string, .string] .string
  | arith {op} : Typed (.arith op) [.int, .int] .int
  | order {op} : Typed (.order op) [.int, .int] .bool
  | eq {a} : Typed .eq [a, a] .bool
  | neq {a} : Typed .neq [a, a] .bool
  | not : Typed .not [.bool] .bool
  | showValue {a} : Typed .showValue [a] .string
  | evalInt : Typed .evalInt [.term] .int
  | evalBool : Typed .evalBool [.term] .bool
  | showTerm : Typed .showTerm [.term] .string
  | termType : Typed .termType [.term] .termType
  | termSize : Typed .termSize [.term] .int

/-- The types of the arguments of a command, and that of what it gives when it is run. -/
inductive Command.Typed : Command → List Mono → Mono → Prop
  | print {a} : Typed .print [a] .unit
  | env : Typed .env [] .unit
  | help : Typed .help [.string] .unit
  | includeFile : Typed .includeFile [.string] .unit
  | enable {life} : Typed (.enable life) [] .unit
  | setAscii : Typed .setAscii [.bool] .unit
  | setBase : Typed .setBase [.int] .unit
  | setColor : Typed .setColor [.bool] .unit
  | fails {a} : Typed .fails [.block (.context .topLevel) a] .unit
  | time {a} : Typed .time [.block (.context .topLevel) a] a
  | exit : Typed .exit [.int] .unit
  | dumpFile : Typed .dumpFile [.string] .unit
  | freshSymbolic : Typed .freshSymbolic [.string, .termType] .term
  | printTerm : Typed .printTerm [.term] .unit
  | printType : Typed .printType [.term] .unit
  | define : Typed .define [.string, .term] .term
  | prove : Typed .prove [.block (.context .proofScript) .unit, .term] (.con "ProofResult" [])
  | provePrint : Typed .provePrint [.block (.context .proofScript) .unit, .term] (.con "Theorem" [])
  | verifySpec : Typed .verifySpec
      [.string, .block (.context .setup) .unit, .block (.context .proofScript) .unit] (.con "Spec" [])
  | assumeSpec : Typed .assumeSpec [.string, .block (.context .setup) .unit] (.con "Spec" [])
  | summarize : Typed .summarize [] .unit
  | writeCoq : Typed .writeCoq [.string, .term, .string] .unit
  | trivial : Typed .trivial [] .unit
  | concede : Typed .concede [.string] .unit
  | assumeValid : Typed .assumeValid [] .unit
  | goalEval : Typed .goalEval [] .unit
  | printGoal : Typed .printGoal [] .unit
  | quickcheck : Typed .quickcheck [.int] .unit
  | specVar : Typed .specVar [.string, .termType] .term
  | specPre : Typed .specPre [.term] .unit
  | specPost : Typed .specPost [.term] .unit

/-- The types of the arguments of a primitive, and that of its value: a command gives an action. -/
inductive Primitive.Typed (allowed : Command → Prop) : Primitive → List Mono → Mono → Prop
  | op {o params τ} (typed : Op.Typed o params τ) : Typed allowed (.op o) params τ
  | command {c params τ} (typed : Command.Typed c params τ) (may : allowed c) :
    Typed allowed (.command c) params (.block (.context c.context) τ)

variable {params : List Mono} {τ : Mono}

theorem Op.Typed.length_eq {o : Op} (h : o.Typed params τ) : params.length = o.arity := by
  cases h <;> rfl

theorem Command.Typed.length_eq {c : Command} (h : c.Typed params τ) : params.length = c.arity := by
  cases h <;> rfl

theorem Primitive.Typed.length_eq {allowed : Command → Prop} {prim : Primitive}
    (h : prim.Typed allowed params τ) : params.length = prim.arity := by
  cases h with
  | op typed => exact typed.length_eq
  | command typed may => exact typed.length_eq

/-! ## Values -/

/-- The type of a function of several arguments. -/
def Mono.fns : List Mono → Mono → Mono
  | [], τ => τ
  | σ :: σs, τ => .fn σ (fns σs τ)

/-- The members of a recursive group are functions of the types. -/
inductive MembersTyped (al : Aliases) (Γ : Scope) : List Member → Typings → Prop
  | nil : MembersTyped al Γ [] []
  | cons {m ms τ σ bs bs'} (param : m.param.Takes al τ bs') (body : HasType al (Γ.bind bs') m.body σ)
      (rest : MembersTyped al Γ ms bs) : MembersTyped al Γ (m :: ms) ((m.name, .fn τ σ) :: bs)

mutual

/-- The value has the type, in a session whose names have the types of `G`. -/
inductive HasTy (allowed : Command → Prop) (G : Scope) : Value → Mono → Prop
  | unit : HasTy allowed G .unit .unit
  | bool {b} : HasTy allowed G (.bool b) .bool
  | int {n} : HasTy allowed G (.int n) .int
  | string {s} : HasTy allowed G (.string s) .string
  | term {t} : HasTy allowed G (.term t) .term
  | termType {t} : HasTy allowed G (.termType t) .termType
  | proved {t status} : HasTy allowed G (.proved t status) (.con "Theorem" [])
  | proofResult {valid cex} : HasTy allowed G (.proofResult valid cex) (.con "ProofResult" [])
  | spec {s} : HasTy allowed G (.spec s) (.con "Spec" [])
  | array {vs τ} (elems : ∀ v ∈ vs, HasTy allowed G v τ) : HasTy allowed G (.array vs) (.list τ)
  | tuple {v vs τs} (elems : HasTys allowed G (v :: vs) τs) : HasTy allowed G (.tuple (v :: vs)) (.tuple τs)
  | record {fields fs} (same : ∀ name, (Table.get? fields name).isSome = (fs name).isSome)
      (typed : ∀ name v τ, Table.get? fields name = some v → fs name = some τ → HasTy allowed G v τ) :
    HasTy allowed G (.record fields) (.record fs)
  | closure {p env body name al Γ τ σ bs} (scope : EnvTy allowed G env Γ) (param : p.Takes al τ bs)
      (typed : HasType al (Γ.bind bs) body σ) : HasTy allowed G (.closure p env body name) (.fn τ σ)
  | builtin {prim args name params σ rest τ} (typed : prim.Typed allowed (params ++ σ :: rest) τ)
      (given : HasTys allowed G args params) : HasTy allowed G (.builtin prim args name) (.fns (σ :: rest) τ)
  | block {env body al Γ c τ} (scope : EnvTy allowed G env Γ) (stmts : HasBody al Γ c body τ) :
    HasTy allowed G (.action (.block env body)) (.block c τ)
  | yield {v c τ} (result : HasTy allowed G v τ) : HasTy allowed G (.action (.yield v)) (.block c τ)
  | forEach {vs f c τ σ} (items : ∀ v ∈ vs, HasTy allowed G v τ) (fn : HasTy allowed G f (.fn τ (.block c σ))) :
    HasTy allowed G (.action (.forEach vs f)) (.block c (.list σ))
  | command {c args params τ} (typed : c.Typed params τ) (may : allowed c) (given : HasTys allowed G args params) :
    HasTy allowed G (.action (.command c args)) (.block (.context c.context) τ)

inductive HasTys (allowed : Command → Prop) (G : Scope) : List Value → List Mono → Prop
  | nil : HasTys allowed G [] []
  | cons {v vs τ τs} (head : HasTy allowed G v τ) (tail : HasTys allowed G vs τs) :
    HasTys allowed G (v :: vs) (τ :: τs)

/-- The environment provides the names of a scope, or leaves them to the session. -/
inductive EnvTy (allowed : Command → Prop) (G : Scope) : Env → Scope → Prop
  | nil {Γ} (below : Γ.Below G) : EnvTy allowed G [] Γ
  | value {name schema? v env Γ Δ} {types : Mono → Prop} (typed : ∀ τ, types τ → HasTy allowed G v τ)
      (rest : EnvTy allowed G env Γ) (below : ∀ x τ, Δ x τ → if x = name then types τ else Γ x τ) :
    EnvTy allowed G (.value name schema? v :: env) Δ
  | typedef {name t env Γ} (rest : EnvTy allowed G env Γ) : EnvTy allowed G (.typedef name t :: env) Γ
  | recursive {members env Γ Δ al} {ι : Type} {bs : ι → Typings}
      (typed : ∀ i, MembersTyped al (Γ.bind (bs i)) members (bs i)) (rest : EnvTy allowed G env Γ)
      (below : Δ.Below (Γ.bindAny bs)) : EnvTy allowed G (.recursive members :: env) Δ

end

end VeriScript
