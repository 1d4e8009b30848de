import VeriScript.Proofs.Ty.Subst
import VeriScript.Proofs.Typing.State

/-!
# The declarative type system

The Hindley–Milner rules of the language, over monotypes and generalised monotypes.

* `Poly` — a monotype quantified over variables; its instances put any monotypes in their places.
* `Assumptions` — the generalised monotypes of the names in scope.
* `Derives` — the types of an expression.
* `DerivesBody` — blocks: all statements that bind run in one context, and the last one binds nothing.
* `DerivesGroup` — groups of declarations.  What is declared is generalised over variables that are not free in
  the assumptions, and a tuple pattern shares the variables among its components.  The members of a recursive group
  have one type each until the whole group is typed.
* `Pattern.Takes.subst` — a pattern takes what is left of a type with monotypes in the places of its variables.
-/

namespace VeriScript

/-- A monotype quantified over variables. -/
structure Poly where
  vars : List String
  type : Mono

namespace Poly

/-- The monotype with monotypes in the places of the quantified variables. -/
def Instance (σ : Poly) (τ : Mono) : Prop :=
  ∃ ρ : String → Mono, (∀ x, x ∉ σ.vars → ρ x = .var x) ∧ τ = σ.type.subst ρ

/-- The variable occurs and is not quantified. -/
def Free (σ : Poly) (x : String) : Prop :=
  σ.type.Occurs x ∧ x ∉ σ.vars

end Poly

/-- The generalised monotypes of names, the newest first. -/
abbrev Assumptions := List (String × Poly)

namespace Assumptions

/-- The assumptions with names bound one after another, the last one first to be seen. -/
def bind (Γ : Assumptions) (entries : List (String × Poly)) : Assumptions :=
  entries.reverse ++ Γ

theorem get?_bind (Γ : Assumptions) (entries : List (String × Poly)) (x : String) :
    Table.get? (Γ.bind entries) x = (Table.get? entries.reverse x).or (Table.get? Γ x) :=
  Table.get?_append _ _ _

/-- The variable is free in the type of a name. -/
def Free (Γ : Assumptions) (x : String) : Prop :=
  ∃ y σ, Table.get? Γ y = some σ ∧ σ.Free x

end Assumptions

/-- Names with a type each, quantified over variables. -/
def quantify (vars : List String) (bs : Typings) : List (String × Poly) :=
  bs.map fun b => (b.1, ⟨vars, b.2⟩)

mutual

/-- The expression has the type. -/
inductive Derives : Aliases → Assumptions → Expr → Mono → Prop
  | bool {al Γ span b} : Derives al Γ (.bool span b) .bool
  | int {al Γ span n} : Derives al Γ (.int span n) .int
  | string {al Γ span s} : Derives al Γ (.string span s) .string
  | code {al Γ span text} : Derives al Γ (.code span text) .term
  | termType {al Γ span text} : Derives al Γ (.termType span text) .termType
  | array {al Γ span es τ} (elems : ∀ e ∈ es, Derives al Γ e τ) : Derives al Γ (.array span es) (.list τ)
  | tuple {al Γ span es τs} (elems : DerivesAll al Γ es τs) : Derives al Γ (.tuple span es) (.tuple τs)
  | record {al Γ span fields bs} (distinct : (Table.names fields).Nodup) (typed : DerivesFields al Γ fields bs) :
    Derives al Γ (.record span fields) (.record (Table.get? bs))
  | index {al Γ span a i τ} (array : Derives al Γ a (.list τ)) (index : Derives al Γ i .int) :
    Derives al Γ (.index span a i) τ
  | field {al Γ span e name fs τ} (record : Derives al Γ e (.record fs)) (has : fs name = some τ) :
    Derives al Γ (.field span e name) τ
  | proj {al Γ span e i τs τ} (tuple : Derives al Γ e (.tuple τs)) (has : τs[i]? = some τ) :
    Derives al Γ (.proj span e i) τ
  | var {al Γ span x σ τ} (scope : Table.get? Γ x = some σ) (inst : σ.Instance τ) : Derives al Γ (.var span x) τ
  | lam {al Γ span p e τ υ bs} (param : p.Takes al τ bs) (body : Derives al (Γ.bind (quantify [] bs)) e υ) :
    Derives al Γ (.lam span p e) (.fn τ υ)
  | app {al Γ span f e τ υ} (fn : Derives al Γ f (.fn τ υ)) (arg : Derives al Γ e τ) :
    Derives al Γ (.app span f e) υ
  | letIn {al Γ Δ span g e τ} (group : DerivesGroup al Γ g Δ) (body : Derives al Δ e τ) :
    Derives al Γ (.letIn span g e) τ
  | typed {al Γ span e t τ} (written : Ascribes al t τ) (inner : Derives al Γ e τ) :
    Derives al Γ (.typed span e t) τ
  | ite {al Γ span c y n τ} (test : Derives al Γ c .bool) (yes : Derives al Γ y τ) (no : Derives al Γ n τ) :
    Derives al Γ (.ite span c y n) τ
  | block {al Γ span body c τ} (stmts : DerivesBody al Γ c body τ) : Derives al Γ (.block span body) (.block c τ)
  | paren {al Γ span e τ} (inner : Derives al Γ e τ) : Derives al Γ (.paren span e) τ

inductive DerivesAll : Aliases → Assumptions → List Expr → List Mono → Prop
  | nil {al Γ} : DerivesAll al Γ [] []
  | cons {al Γ e es τ τs} (head : Derives al Γ e τ) (tail : DerivesAll al Γ es τs) :
    DerivesAll al Γ (e :: es) (τ :: τs)

inductive DerivesFields : Aliases → Assumptions → List (String × Expr) → Typings → Prop
  | nil {al Γ} : DerivesFields al Γ [] []
  | cons {al Γ name e fields τ bs} (head : Derives al Γ e τ) (tail : DerivesFields al Γ fields bs) :
    DerivesFields al Γ ((name, e) :: fields) ((name, τ) :: bs)

/-- The statements run in the context of the given type and give a result of the other type. -/
inductive DerivesBody : Aliases → Assumptions → Mono → List Stmt → Mono → Prop
  | last {al Γ c span p e τ bs} (action : Derives al Γ e (.block c τ)) (result : p.Takes al τ bs)
      (ignored : p.isWildcard) : DerivesBody al Γ c [.bind span p e] τ
  | bind {al Γ c span p e υ τ bs stmt rest} (action : Derives al Γ e (.block c υ)) (result : p.Takes al υ bs)
      (next : DerivesBody al (Γ.bind (quantify [] bs)) c (stmt :: rest) τ) :
    DerivesBody al Γ c (.bind span p e :: stmt :: rest) τ
  | define {al Γ Δ c span g rest τ} (group : DerivesGroup al Γ g Δ) (next : DerivesBody al Δ c rest τ) :
    DerivesBody al Γ c (.define span g :: rest) τ
  | typedef {al Γ c span name t u rest τ} (written : t.resolve al = .ok u)
      (next : DerivesBody (Table.insert al name u) Γ c rest τ) : DerivesBody al Γ c (.typedef span name t :: rest) τ
  | code {al Γ c span text rest τ} (next : DerivesBody al Γ c rest τ) :
    DerivesBody al Γ c (.code span text :: rest) τ
  | importTerms {al Γ c span file qualifier rest τ} (next : DerivesBody al Γ c rest τ) :
    DerivesBody al Γ c (.importTerms span file qualifier :: rest) τ

/-- The group leaves assumptions behind. -/
inductive DerivesGroup : Aliases → Assumptions → Group → Assumptions → Prop
  | single {al Γ span dspan p e vars τ bs} (body : Derives al Γ e τ) (takes : p.Takes al τ bs)
      (generalized : ∀ x ∈ vars, ¬ Γ.Free x) :
    DerivesGroup al Γ (.single span (.mk dspan p e)) (Γ.bind (quantify vars bs))
  | recursive {al Γ span ds} {members : List (String × Poly)}
      (typed : DerivesMembers al (Γ.bind (quantify [] (members.map fun m => (m.1, m.2.type)))) ds
        (members.map fun m => (m.1, m.2.type)))
      (generalized : ∀ m ∈ members, ∀ x ∈ m.2.vars, ¬ Γ.Free x) :
    DerivesGroup al Γ (.recursive span ds) (Γ.bind members)

/-- The members of a recursive group, each of them a name, have the types under assumptions that already give
them. -/
inductive DerivesMembers : Aliases → Assumptions → List Decl → Typings → Prop
  | nil {al Γ} : DerivesMembers al Γ [] []
  | cons {al Γ span p e ds name τ bs} (takes : p.Takes al τ [(name, τ)]) (body : Derives al Γ e τ)
      (rest : DerivesMembers al Γ ds bs) : DerivesMembers al Γ (.mk span p e :: ds) ((name, τ) :: bs)

end

/-- The schemas of an environment without holes as generalised monotypes. -/
def TypeEnv.assumptions (env : TypeEnv) : Assumptions :=
  env.types.map fun e => (e.1, ⟨e.2.vars, e.2.at .var⟩)

/-! ## Monotypes in the places of variables -/

/-- Names with the types that they have when monotypes stand in the places of variables. -/
def substTypings (ρ : String → Mono) (bs : Typings) : Typings :=
  bs.map fun b => (b.1, b.2.subst ρ)

section
variable {ρ ρ' : String → Mono} {al : Aliases} {p : Pattern} {τ : Mono} {bs : Typings}

/-- A type that is written has no variables. -/
theorem Ascribes.subst (ρ : String → Mono) {t : Ty} (h : Ascribes al t τ) : Ascribes al t (τ.subst ρ) := by
  obtain ⟨u, hu, hτ⟩ := h
  refine ⟨u, hu, fun θ ρ' => ?_⟩
  rw [← hτ (fun _ => .unit) .var, Ty.denote_subst, hτ, hτ]

mutual

theorem Pattern.Takes.subst (ρ : String → Mono) {τ : Mono} {bs : Typings} : ∀ {p : Pattern}, p.Takes al τ bs →
    p.Takes al (τ.subst ρ) (substTypings ρ bs)
  | .wildcard _ _, h => by
    cases h with
    | wildcard written => exact .wildcard fun t ht => (written t ht).subst ρ
  | .var _ _ _, h => by
    cases h with
    | var written => exact .var fun t ht => (written t ht).subst ρ
  | .paren _ p _, h => by
    cases h with
    | paren written inner => exact .paren (fun t ht => (written t ht).subst ρ) (inner.subst ρ)
  | .tuple _ ps _, h => by
    cases h with
    | @tuple _ _ _ τs _ written elems =>
      have htuple : (Mono.tuple τs).subst ρ = .tuple (τs.map (Mono.subst ρ)) := by simp [Mono.subst]
      rw [htuple]
      refine .tuple (fun t ht => ?_) (elems.subst ρ)
      rw [← htuple]
      exact (written t ht).subst ρ

theorem Pattern.TakesAll.subst (ρ : String → Mono) {τs : List Mono} {bs : Typings} : ∀ {ps : List Pattern},
    Pattern.TakesAll al ps τs bs → Pattern.TakesAll al ps (τs.map (Mono.subst ρ)) (substTypings ρ bs)
  | [], h => by
    cases h
    exact .nil
  | p :: ps, h => by
    cases h with
    | cons head tail =>
      rw [substTypings, List.map_append, List.map_cons]
      exact .cons (head.subst ρ) (tail.subst ρ)

end

mutual

/-- The names of a pattern have parts of the type that it takes. -/
theorem Pattern.Takes.part {τ : Mono} {bs : Typings} : ∀ {p : Pattern}, p.Takes al τ bs →
    ∀ b ∈ bs, Relation.ReflTransGen Mono.Part b.2 τ
  | .wildcard _ _, h => by
    cases h
    exact List.forall_mem_nil _
  | .var _ _ _, h => by
    cases h
    intro b hb
    obtain rfl := List.mem_singleton.1 hb
    exact .refl
  | .paren _ p _, h => by
    cases h with
    | paren written inner => exact inner.part
  | .tuple _ ps _, h => by
    cases h with
    | tuple written elems =>
      intro b hb
      obtain ⟨τ, hτ, hpart⟩ := elems.part b hb
      exact hpart.tail (.arg hτ)

theorem Pattern.TakesAll.part {τs : List Mono} {bs : Typings} : ∀ {ps : List Pattern}, Pattern.TakesAll al ps τs bs →
    ∀ b ∈ bs, ∃ τ ∈ τs, Relation.ReflTransGen Mono.Part b.2 τ
  | [], h => by
    cases h
    exact List.forall_mem_nil _
  | p :: ps, h => by
    cases h with
    | cons head tail =>
      refine List.forall_mem_append.2 ⟨fun b hb => ⟨_, List.mem_cons_self, head.part b hb⟩, fun b hb => ?_⟩
      obtain ⟨τ, hτ, hpart⟩ := tail.part b hb
      exact ⟨τ, List.mem_cons_of_mem _ hτ, hpart⟩

end

/-- A tuple pattern gives no name the type of the whole tuple. -/
theorem Pattern.Takes.not_isTuple {name : String} (h : p.Takes al τ [(name, τ)]) : p.isTuple = false := by
  cases p with
  | tuple span ps type? =>
    cases h with
    | tuple written elems =>
      obtain ⟨υ, hυ, hpart⟩ := elems.part _ List.mem_cons_self
      exact absurd (Relation.TransGen.tail' hpart (.arg hυ)) (Mono.not_part_self _)
  | _ => rfl

theorem get?_substTypings (ρ : String → Mono) (bs : Typings) (x : String) :
    Table.get? (substTypings ρ bs).reverse x = (Table.get? bs.reverse x).map (Mono.subst ρ) := by
  rw [substTypings, ← List.map_reverse, Table.get?_map]

theorem get?_quantify (vars : List String) (bs : Typings) (x : String) :
    Table.get? (quantify vars bs).reverse x = (Table.get? bs.reverse x).map (Poly.mk vars) := by
  rw [quantify, ← List.map_reverse, Table.get?_map]

/-- The parts of an instance of a schema, by the names of the pattern. -/
theorem get?_parts {al : Aliases} {p : Pattern} {s : Schema} {parts : List (String × Schema)} {θ : Nat → Mono}
    {ρ ρ' : String → Mono} {τ : Mono} {bs : Typings}
    (hparts : ∀ θ ρ bs, p.Takes al (s.type.denote θ ρ) bs → bs = parts.map fun e => (e.1, e.2.type.denote θ ρ))
    (htakes : p.Takes al τ bs) (h : s.type.denote θ ρ = τ.subst ρ') (x : String) :
    (Table.get? bs.reverse x).map (Mono.subst ρ') =
      (Table.get? parts.reverse x).map fun part => part.type.denote θ ρ := by
  have hsame := hparts θ ρ _ (h ▸ htakes.subst ρ')
  rw [← get?_substTypings, hsame, ← List.map_reverse, Table.get?_map fun part : Schema => part.type.denote θ ρ]

end

end VeriScript
