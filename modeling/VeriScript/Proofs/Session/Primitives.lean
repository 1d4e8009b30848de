import VeriScript.Primitive.Table
import VeriScript.Proofs.Typing.State
import VeriScript.Proofs.Value.Typing

/-!
# The table of primitives

* `primitives_typed` — every primitive has all the instances of the schema that the table gives it.
* `primitives_complete` — the schemas of the table are complete.
-/

namespace VeriScript

/-- The value of the entry has every instance of its schema, if the command of that name is allowed. -/
def EntryTyped (allowed : Command → Prop) (G : Scope) (e : PrimitiveEntry) : Prop :=
  (∀ c : Command, e.name = c.name → allowed c) → ∀ ρ, HasTy allowed G e.value (e.schema.at ρ)

def Ty.fns : List Ty → Ty → Ty
  | [], t => t
  | u :: us, t => .fn u (fns us t)

theorem Ty.denote_fns (θ : Nat → Mono) (ρ : String → Mono) (us : List Ty) (t : Ty) :
    (Ty.fns us t).denote θ ρ = .fns (us.map (·.denote θ ρ)) (t.denote θ ρ) := by
  induction us with
  | nil => rfl
  | cons u us ih => simp [Ty.fns, Mono.fns, Ty.denote, ih]

namespace EntryTyped

variable {allowed : Command → Prop} {G : Scope} {vars : List String} {r : Ty}

theorem builtin {prim : Primitive} {params : List Mono} {τ : Mono} (hparams : params ≠ [])
    (h : prim.Typed allowed params τ) : HasTy allowed G (.builtin prim [] none) (.fns params τ) := by
  cases params with
  | nil => exact absurd rfl hparams
  | cons σ rest => exact @HasTy.builtin allowed G prim [] none [] σ rest τ h .nil

theorem op {op : Op} {doc : String} (params : List Ty) (hparams : params ≠ [])
    (h : ∀ ρ, op.Typed (params.map (·.denote (fun _ => .unit) ρ)) (r.denote (fun _ => .unit) ρ)) :
    EntryTyped allowed G (.ofOp op vars (.fns params r) doc) := by
  intro _ ρ
  show HasTy allowed G _ ((Ty.fns params r).denote _ ρ)
  rw [Ty.denote_fns]
  exact builtin (by simpa using hparams) (.op (h ρ))

theorem command {c : Command} {life : Lifecycle} {doc : List String} (params : List Ty)
    (h : ∀ ρ, c.Typed (params.map (·.denote (fun _ => .unit) ρ)) (r.denote (fun _ => .unit) ρ)) :
    EntryTyped allowed G (.ofCommand c vars (.fns params (.block (.context c.context) r)) life doc) := by
  intro hallowed ρ
  have harity : params.length = c.arity := by simpa using (h ρ).length_eq
  have hcontext : (Ty.block (.context c.context) r).denote (fun _ => .unit) ρ =
      .block (.context c.context) (r.denote (fun _ => .unit) ρ) := by simp [Ty.denote]
  show HasTy allowed G (.ofCommand c) ((Ty.fns params _).denote _ ρ)
  rw [Ty.denote_fns, hcontext, Value.ofCommand, ← harity]
  cases params with
  | nil => exact .command (h ρ) (hallowed c rfl) .nil
  | cons u us => exact builtin (by simp) (.command (h ρ) (hallowed c rfl))

end EntryTyped

section

variable (allowed : Command → Prop) (G : Scope)

open EntryTyped Primitive

theorem general_typed : ∀ e ∈ general, EntryTyped allowed G e := by
  simp only [general, List.forall_mem_cons]
  exact ⟨op [a] nofun fun _ => .yield, fun _ _ => .bool, fun _ _ => .bool,
    op [.list a, .fn a (.block m b)] nofun fun _ => .forEach, op [.list a] nofun fun _ => .null,
    op [.list a, .int] nofun fun _ => .nth, op [.list a] nofun fun _ => .head, op [.list a] nofun fun _ => .tail,
    op [.list a, .list a] nofun fun _ => .concat, op [.list a] nofun fun _ => .length,
    op [.string, .string] nofun fun _ => .strConcat, op [.int, .int] nofun fun _ => .arith,
    op [.int, .int] nofun fun _ => .arith, op [.int, .int] nofun fun _ => .arith,
    op [.int, .int] nofun fun _ => .arith, op [.int, .int] nofun fun _ => .arith,
    op [.int, .int] nofun fun _ => .order, op [.int, .int] nofun fun _ => .order,
    op [.int, .int] nofun fun _ => .order, op [.int, .int] nofun fun _ => .order,
    op [a, a] nofun fun _ => .eq, op [a, a] nofun fun _ => .neq, op [.bool] nofun fun _ => .not,
    op [a] nofun fun _ => .showValue, command [a] fun _ => .print, command [] fun _ => .env,
    command [.string] fun _ => .help, command [.string] fun _ => .includeFile, command [] fun _ => .enable,
    command [] fun _ => .enable, command [.bool] fun _ => .setAscii, command [.int] fun _ => .setBase,
    command [.bool] fun _ => .setColor, command [topLevel a] fun _ => .fails, command [topLevel a] fun _ => .time,
    command [.int] fun _ => .exit, command [.string] fun _ => .dumpFile, nofun⟩

theorem forTerms_typed : ∀ e ∈ forTerms, EntryTyped allowed G e := by
  simp only [forTerms, List.forall_mem_cons]
  exact ⟨command [.string, .termType] fun _ => .freshSymbolic, op [.term] nofun fun _ => .evalInt,
    op [.term] nofun fun _ => .evalBool, op [.term] nofun fun _ => .showTerm, command [.term] fun _ => .printTerm,
    command [.term] fun _ => .printType, op [.term] nofun fun _ => .termType, op [.term] nofun fun _ => .termSize,
    command [.string, .term] fun _ => .define, nofun⟩

theorem forProofs_typed : ∀ e ∈ forProofs, EntryTyped allowed G e := by
  simp only [forProofs, List.forall_mem_cons]
  exact ⟨command [] fun _ => .trivial, command [.string] fun _ => .concede, command [] fun _ => .assumeValid,
    command [] fun _ => .goalEval, command [] fun _ => .printGoal, command [.int] fun _ => .quickcheck,
    command [proofScript .unit, .term] fun _ => .prove, command [proofScript .unit, .term] fun _ => .provePrint,
    command [.string, .termType] fun _ => .specVar, command [.term] fun _ => .specPre,
    command [.term] fun _ => .specPost,
    command [.string, setup .unit, proofScript .unit] fun _ => .verifySpec,
    command [.string, setup .unit] fun _ => .assumeSpec, command [] fun _ => .summarize,
    command [.string, .term, .string] fun _ => .writeCoq, nofun⟩

theorem primitives_typed : ∀ e ∈ primitives, EntryTyped allowed G e := by
  unfold primitives
  simp only [List.forall_mem_append]
  exact ⟨⟨general_typed allowed G, forTerms_typed allowed G⟩, forProofs_typed allowed G⟩

end

theorem primitives_complete : ∀ e ∈ primitives, e.schema.Complete := by
  have h : ∀ e ∈ primitives, (∀ x ∈ e.schema.type.varNames, x ∈ e.schema.vars) ∧ e.schema.type.holes = [] := by
    decide
  exact fun e he => ⟨(h e he).1, fun i hi => by rw [(h e he).2] at hi; cases hi⟩

/-! ## Sessions with primitives -/

theorem get?_entries {α : Type} (f : PrimitiveEntry → α) (entries : List PrimitiveEntry) (x : String) :
    Table.get? (entries.map fun e => (e.name, f e)) x = (entries.find? (·.name == x)).map f := by
  induction entries with
  | nil => rfl
  | cons e entries ih =>
    by_cases h : e.name = x
    · simp [Table.get?, h]
    · simp [Table.get?, h, ih]

theorem mem_primitives_of_find? {lives : List Lifecycle} {x : String} {e : PrimitiveEntry}
    (h : (available lives).find? (·.name == x) = some e) : e ∈ primitives ∧ e.name = x :=
  ⟨(List.mem_filter.1 (List.mem_of_find?_eq_some h)).1, by simpa using List.find?_some h⟩

theorem primitiveTypes_complete (lives : List Lifecycle) : ∀ e ∈ primitiveTypes lives, e.2.Complete := by
  intro e he
  obtain ⟨entry, hentry, rfl⟩ := List.mem_map.1 he
  exact primitives_complete entry (List.mem_filter.1 hentry).1

theorem initial_complete (options : Options) : (Session.initial options).typeEnv.Complete :=
  ⟨primitiveTypes_complete [.current], nofun⟩

theorem get?_addMissing {α : Type} (table new : List (String × α)) (x : String) :
    Table.get? (Session.addMissing table new) x = (Table.get? table x).or (Table.get? new x) := by
  rw [Session.addMissing, Table.get?_append]
  cases htable : Table.get? table x with
  | some a => rfl
  | none =>
    rw [Option.none_or, Option.none_or]
    induction new with
    | nil => rfl
    | cons e new ih =>
      by_cases hx : e.1 = x
      · simp [Table.get?, Table.has, hx, htable]
      · cases hhas : Table.has table e.1 with
        | true => simp [Table.get?, hhas, hx, ih]
        | false => simp [Table.get?, hhas, hx, ih]

end VeriScript
