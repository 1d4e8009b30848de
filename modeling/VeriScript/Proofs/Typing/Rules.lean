import VeriScript.Proofs.Ty.Mono
import VeriScript.Script.Basic
import VeriScript.Typing.Resolve

/-!
# The typing rules

The rules of the language, apart from how types are found.  Types are monotypes; a name may have many of
them, which is how a name that was generalised is used.

* `Scope` — the monotypes that names can have.
* `Pattern.Takes` — the values a pattern takes, and the types it gives its names.
* `HasType` — the types of an expression.
* `HasBody` — blocks: all statements that bind run in one context, and the last one gives the result.
* `Declares` — groups of declarations.  A group gives its names the types of any number of typings of the group
  at once; the members of a recursive group have one type each while their own bodies are typed.
-/

namespace VeriScript

/-- The monotypes that names can have. -/
abbrev Scope := String → Mono → Prop

/-- Names with a type each; the last type of a name counts. -/
abbrev Typings := List (String × Mono)

namespace Scope

/-- The scope in which names have a type each. -/
def bind (Γ : Scope) (bs : Typings) : Scope := fun x τ =>
  match Table.get? bs.reverse x with
  | some σ => τ = σ
  | none => Γ x τ

/-- The scope in which names have the types that any of some typings gives them. -/
def bindAny {ι : Type} (Γ : Scope) (bs : ι → Typings) : Scope := fun x τ =>
  ∃ i, Γ.bind (bs i) x τ

/-- Every type that a name has in one scope, it has in the other. -/
def Below (Γ Δ : Scope) : Prop :=
  ∀ x τ, Γ x τ → Δ x τ

end Scope

abbrev Aliases := List (String × Ty)

/-- A type as it is written stands for a monotype. -/
def Ascribes (al : Aliases) (t : Ty) (τ : Mono) : Prop :=
  ∃ u, t.resolve al = .ok u ∧ ∀ θ ρ, u.denote θ ρ = τ

mutual

/-- The pattern takes values of a type and gives its names types, from left to right. -/
inductive Pattern.Takes (al : Aliases) : Pattern → Mono → Typings → Prop
  | wildcard {span type? τ} (written : ∀ t ∈ type?, Ascribes al t τ) : Takes al (.wildcard span type?) τ []
  | var {span name type? τ} (written : ∀ t ∈ type?, Ascribes al t τ) :
    Takes al (.var span name type?) τ [(name, τ)]
  | paren {span p type? τ bs} (written : ∀ t ∈ type?, Ascribes al t τ) (inner : Takes al p τ bs) :
    Takes al (.paren span p type?) τ bs
  | tuple {span ps type? τs bs} (written : ∀ t ∈ type?, Ascribes al t (.tuple τs)) (elems : TakesAll al ps τs bs) :
    Takes al (.tuple span ps type?) (.tuple τs) bs

inductive Pattern.TakesAll (al : Aliases) : List Pattern → List Mono → Typings → Prop
  | nil : TakesAll al [] [] []
  | cons {p ps τ τs bs bs'} (head : Takes al p τ bs) (tail : TakesAll al ps τs bs') :
    TakesAll al (p :: ps) (τ :: τs) (bs ++ bs')

end

theorem Pattern.TakesAll.length_eq {al : Aliases} {ps : List Pattern} {τs : List Mono} {bs : Typings}
    (h : Pattern.TakesAll al ps τs bs) : τs.length = ps.length := by
  induction ps generalizing τs bs with
  | nil => cases h; rfl
  | cons p ps ih =>
    cases h with
    | cons head tail => simp [ih tail]

mutual

/-- The expression has the type. -/
inductive HasType : Aliases → Scope → Expr → Mono → Prop
  | bool {al Γ span b} : HasType al Γ (.bool span b) .bool
  | int {al Γ span n} : HasType al Γ (.int span n) .int
  | string {al Γ span s} : HasType al Γ (.string span s) .string
  | code {al Γ span text} : HasType al Γ (.code span text) .term
  | termType {al Γ span text} : HasType al Γ (.termType span text) .termType
  | array {al Γ span es τ} (elems : ∀ e ∈ es, HasType al Γ e τ) : HasType al Γ (.array span es) (.list τ)
  | tuple {al Γ span es τs} (elems : HasTypes al Γ es τs) : HasType al Γ (.tuple span es) (.tuple τs)
  | record {al Γ span fields bs} (distinct : (Table.names fields).Nodup) (typed : HasFields al Γ fields bs) :
    HasType al Γ (.record span fields) (.record (Table.get? bs))
  | index {al Γ span a i τ} (array : HasType al Γ a (.list τ)) (index : HasType al Γ i .int) :
    HasType al Γ (.index span a i) τ
  | field {al Γ span e name fs τ} (record : HasType al Γ e (.record fs)) (has : fs name = some τ) :
    HasType al Γ (.field span e name) τ
  | proj {al Γ span e i τs τ} (tuple : HasType al Γ e (.tuple τs)) (has : τs[i]? = some τ) :
    HasType al Γ (.proj span e i) τ
  | var {al Γ span x τ} (scope : Γ x τ) : HasType al Γ (.var span x) τ
  | lam {al Γ span p e τ σ bs} (param : p.Takes al τ bs) (body : HasType al (Γ.bind bs) e σ) :
    HasType al Γ (.lam span p e) (.fn τ σ)
  | app {al Γ span f e τ σ} (fn : HasType al Γ f (.fn τ σ)) (arg : HasType al Γ e τ) :
    HasType al Γ (.app span f e) σ
  | letIn {al Γ Δ span g e τ} (group : Declares al Γ g Δ) (body : HasType al Δ e τ) :
    HasType al Γ (.letIn span g e) τ
  | typed {al Γ span e t τ} (written : Ascribes al t τ) (inner : HasType al Γ e τ) :
    HasType al Γ (.typed span e t) τ
  | ite {al Γ span c y n τ} (test : HasType al Γ c .bool) (yes : HasType al Γ y τ) (no : HasType al Γ n τ) :
    HasType al Γ (.ite span c y n) τ
  | block {al Γ span body c τ} (stmts : HasBody al Γ c body τ) : HasType al Γ (.block span body) (.block c τ)
  | paren {al Γ span e τ} (inner : HasType al Γ e τ) : HasType al Γ (.paren span e) τ

inductive HasTypes : Aliases → Scope → List Expr → List Mono → Prop
  | nil {al Γ} : HasTypes al Γ [] []
  | cons {al Γ e es τ τs} (head : HasType al Γ e τ) (tail : HasTypes al Γ es τs) :
    HasTypes al Γ (e :: es) (τ :: τs)

inductive HasFields : Aliases → Scope → List (String × Expr) → Typings → Prop
  | nil {al Γ} : HasFields al Γ [] []
  | cons {al Γ name e fields τ bs} (head : HasType al Γ e τ) (tail : HasFields al Γ fields bs) :
    HasFields al Γ ((name, e) :: fields) ((name, τ) :: bs)

/-- The statements run in the context and give a result of the type. -/
inductive HasBody : Aliases → Scope → Mono → List Stmt → Mono → Prop
  | last {al Γ c span p e τ bs} (action : HasType al Γ e (.block c τ)) (result : p.Takes al τ bs)
      (ignored : p.isWildcard) : HasBody al Γ c [.bind span p e] τ
  | bind {al Γ c span p e σ τ bs stmt rest} (action : HasType al Γ e (.block c σ)) (result : p.Takes al σ bs)
      (next : HasBody al (Γ.bind bs) c (stmt :: rest) τ) : HasBody al Γ c (.bind span p e :: stmt :: rest) τ
  | define {al Γ Δ c span g rest τ} (group : Declares al Γ g Δ) (next : HasBody al Δ c rest τ) :
    HasBody al Γ c (.define span g :: rest) τ
  | typedef {al Γ c span name t u rest τ} (written : t.resolve al = .ok u)
      (next : HasBody (Table.insert al name u) Γ c rest τ) : HasBody al Γ c (.typedef span name t :: rest) τ
  | code {al Γ c span text rest τ} (next : HasBody al Γ c rest τ) : HasBody al Γ c (.code span text :: rest) τ
  | importTerms {al Γ c span file qualifier rest τ} (next : HasBody al Γ c rest τ) :
    HasBody al Γ c (.importTerms span file qualifier :: rest) τ

/-- The group leaves a scope behind, or any scope below it. -/
inductive Declares : Aliases → Scope → Group → Scope → Prop
  | single {al Γ Δ span dspan p e} {ι : Type} {bs : ι → Typings} {τ : ι → Mono} (some : Nonempty ι)
      (typed : ∀ i, HasType al Γ e (τ i)) (takes : ∀ i, p.Takes al (τ i) (bs i))
      (below : Δ.Below (Γ.bindAny bs)) : Declares al Γ (.single span (.mk dspan p e)) Δ
  | recursive {al Γ Δ span ds} {ι : Type} {bs : ι → Typings} (some : Nonempty ι)
      (typed : ∀ i, HasMembers al (Γ.bind (bs i)) ds (bs i)) (below : Δ.Below (Γ.bindAny bs)) :
    Declares al Γ (.recursive span ds) Δ

/-- The members of a recursive group have the types, in a scope where they already have them. -/
inductive HasMembers : Aliases → Scope → List Decl → Typings → Prop
  | nil {al Γ} : HasMembers al Γ [] []
  | cons {al Γ span p e ds name τ bs bs'} (named : p.names = [name]) (takes : p.Takes al τ bs')
      (body : HasType al Γ e τ) (rest : HasMembers al Γ ds bs) :
    HasMembers al Γ (.mk span p e :: ds) ((name, τ) :: bs)

end

end VeriScript
