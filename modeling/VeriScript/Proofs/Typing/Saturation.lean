import VeriScript.Proofs.Reading.Shape
import VeriScript.Proofs.Ty.Spelling
import VeriScript.Proofs.Typing.Invariant

/-!
# Constructors and their parameters in inference

* `Check.Builds` — a computation makes saturated types from saturated types, however it ends; one rule for each step
  of inference.
* `Check.building`, `Check.inferExpr_builds` — inference does so.
* `resolve_saturated_iff` — which of the types that are read and accepted have every constructor with the parameters
  it takes.
-/

namespace VeriScript

/-! ## Types that are built -/

namespace Ty

variable {t u : Ty}

/-! ### Aliases -/

theorem fits_of_not_builtin {name : String} (h : name ∉ builtinNames) : Fits (name, 0) := by
  apply Decidable.byContradiction
  intro hnot
  have hform := not_fits_zero_iff.1 hnot
  have hbuiltin : ∀ name ∈ formNames, name ∈ builtinNames := by decide
  exact h (hbuiltin name hform)

theorem bind_eq_error_iff {ε α β : Type} {x : Except ε α} {f : α → Except ε β} {e : ε} :
    (x >>= f) = .error e ↔ x = .error e ∨ ∃ a, x = .ok a ∧ f a = .error e := by
  cases x <;> simp [bind, Except.bind]

variable {al : Aliases} {fault : TypeFault}

theorem resolveName_error {name : String} {args : List Ty}
    (h : resolveName al name args = .error fault) : fault = .unboundType name ∨ fault = .aliasParameters name := by
  unfold resolveName at h
  split at h
  · cases h
  · split at h
    · split at h <;> cases h
      exact .inr rfl
    · cases h
      exact .inl rfl

theorem resolveList_error {ts : List Ty} (h : resolveList al ts = .error fault) :
    ∃ t ∈ ts, t.resolve al = .error fault := by
  induction ts with
  | nil => cases h
  | cons t ts ih =>
    rw [resolveList, bind_eq_error_iff] at h
    rcases h with h | ⟨u, -, h⟩
    · exact ⟨t, List.mem_cons_self, h⟩
    · rw [bind_eq_error_iff] at h
      rcases h with h | ⟨us, -, h⟩
      · obtain ⟨t', ht', h⟩ := ih h
        exact ⟨t', List.mem_cons_of_mem _ ht', h⟩
      · cases h

theorem resolveFields_error {fs : List (String × Ty)}
    (h : resolveFields al fs = .error fault) : ∃ f ∈ fs, f.2.resolve al = .error fault := by
  induction fs with
  | nil => cases h
  | cons f fs ih =>
    rw [resolveFields, bind_eq_error_iff] at h
    rcases h with h | ⟨u, -, h⟩
    · exact ⟨f, List.mem_cons_self, h⟩
    · rw [bind_eq_error_iff] at h
      rcases h with h | ⟨us, -, h⟩
      · obtain ⟨f', hf', h⟩ := ih h
        exact ⟨f', List.mem_cons_of_mem _ hf', h⟩
      · cases h

theorem resolve_error (h : t.resolve al = .error fault) :
    ∃ c ∈ t.constructors, fault = .unboundType c.1 ∨ fault = .aliasParameters c.1 := by
  induction t using induct with
  | con name args ih =>
    rw [resolve, bind_eq_error_iff] at h
    rcases h with h | ⟨us, -, h⟩
    · obtain ⟨a, ha, h⟩ := resolveList_error h
      obtain ⟨c, hc, hfault⟩ := ih a ha h
      exact ⟨c, mem_constructors_con.2 (.inr ⟨a, ha, hc⟩), hfault⟩
    · exact ⟨(name, args.length), mem_constructors_con.2 (.inl rfl), resolveName_error h⟩
  | var name => cases h
  | hole id => cases h
  | record fields ih =>
    rw [resolve, bind_eq_error_iff] at h
    rcases h with h | ⟨gs, -, h⟩
    · obtain ⟨f, hf, h⟩ := resolveFields_error h
      obtain ⟨c, hc, hfault⟩ := ih f hf h
      exact ⟨c, mem_constructors_record.2 ⟨f, hf, hc⟩, hfault⟩
    · cases h

/-- The message for a type that is refused names no type. -/
theorem textFault?_of_resolve_error (h : t.resolve al = .error fault) : fault.textFault? = none := by
  obtain ⟨c, -, rfl | rfl⟩ := resolve_error h
  · rfl
  · rfl

/-- What a type stands for is saturated if and only if the type is. -/
theorem saturated_of_resolve (hal : ∀ e ∈ al, e.2.Saturated) (h : t.resolve al = .ok u) :
    u.Saturated ↔ t.Saturated := by
  obtain ⟨hnamed, rfl⟩ := resolve_eq_ok_iff.1 h
  clear h
  induction t using induct with
  | con name args ih =>
    obtain ⟨hname, hargs⟩ := named_con.1 hnamed
    by_cases hbuiltin : name ∈ builtinNames
    · simp only [expand, hbuiltin, if_true, expandList_eq, saturated_con, List.length_map, List.forall_mem_map]
      apply and_congr_right
      intro _
      exact forall₂_congr fun a ha => ih a ha (hargs a ha)
    · obtain ⟨hhas, rfl⟩ := hname.resolve_left hbuiltin
      obtain ⟨v, hget⟩ := Option.isSome_iff_exists.1 hhas
      have hv : v.Saturated := hal _ (Table.mem_of_get? hget)
      have hplain : Fits (name, 0) := fits_of_not_builtin hbuiltin
      simp [expand, hbuiltin, hget, hv, hplain]
  | var name => simp [expand]
  | hole id => simp [expand]
  | record fields ih =>
    simp only [expand, expandFields_eq, saturated_record, List.forall_mem_map]
    exact forall₂_congr fun f hf => ih f hf (named_record.1 hnamed f hf)

/-- What a type that is read stands for has every constructor with the parameters it takes, or with none. -/
theorem readable_of_resolve (hal : ∀ e ∈ al, e.2.Saturated) (ht : t.Readable)
    (h : t.resolve al = .ok u) : u.Readable := by
  obtain ⟨-, rfl⟩ := resolve_eq_ok_iff.1 h
  clear h
  have hal : ∀ e ∈ al, e.2.Readable := fun e he c hc => .inl (hal e he c hc)
  induction t using induct with
  | con name args ih =>
    have hname := ht _ (mem_constructors_con.2 (.inl rfl))
    refine expand_con_holds hal (readable_con ?_ (List.forall_mem_map.2 fun a ha => ih a ha fun c hc => ?_))
    · simpa using hname
    · exact ht c (mem_constructors_con.2 (.inr ⟨a, ha, hc⟩))
  | var name => exact ht
  | hole id => exact ht
  | record fields ih =>
    rw [expand, expandFields_eq]
    refine readable_record (List.forall_mem_map.2 fun f hf => ih f hf fun c hc => ?_)
    exact ht c (mem_constructors_record.2 ⟨f, hf, hc⟩)

/-- A type that is read and cannot be written lacks parameters. -/
theorem Readable.fault?_eq_none_iff (h : t.Readable) : t.fault? = none ↔ t.Saturated := by
  refine ⟨fun hnone => ?_, Saturated.fault?_eq_none⟩
  induction t using induct with
  | con name args ih =>
    have hargs : ∀ a ∈ args, a.Readable := fun a ha c hc => h c (mem_constructors_con.2 (.inr ⟨a, ha, hc⟩))
    by_cases hfits : Fits (name, args.length)
    · refine saturated_con.2 ⟨hfits, fun a ha => ih a ha (hargs a ha) ?_⟩
      exact (fault?_con_eq_none_iff hfits).1 hnone a ha
    · -- one of the forms that need parameters, without any
      obtain rfl : args = [] :=
        List.length_eq_zero_iff.1 ((h _ (mem_constructors_con.2 (.inl rfl))).resolve_left hfits)
      have hform := not_fits_zero_iff.1 hfits
      simp only [formNames, List.mem_cons, List.not_mem_nil, or_false] at hform
      rcases hform with rfl | rfl | rfl <;> cases hnone
  | var name => exact saturated_var
  | hole id => exact saturated_hole
  | record fields ih =>
    refine saturated_record.2 fun f hf => ih f hf ?_ (fault?_record_eq_none_iff.1 hnone f hf)
    exact fun c hc => h c (mem_constructors_record.2 ⟨f, hf, hc⟩)

end Ty

/-- Where the types that a fault is about are saturated, its message can be written, unless a number in it is too
long. -/
theorem TypeFault.raised_cases {fault : TypeFault} (h : ∀ t ∈ fault.types, t.Saturated) :
    fault.raised = fault ∨ fault.raised = .unwritable .digits := by
  have hnone : ∀ t ∈ fault.types, t.fault? = none := fun t ht => (h t ht).fault?_eq_none
  have hbare : ¬ (Ty.con "Block" []).Saturated := by decide
  cases fault with
  | tupleRange n t | notTuple n t | unknownTuple n =>
    cases hn : Text.hasDecimal n <;>
      simp_all [TypeFault.types, TypeFault.raised, TypeFault.textFault?, numberFault?]
  | _ => simp_all [TypeFault.types, TypeFault.raised, TypeFault.textFault?]

theorem TypeFault.textFault?_of_raised {fault : TypeFault} (h : fault.raised = fault)
    (hother : ∀ f, fault ≠ .unwritable f) : fault.textFault? = none := by
  unfold TypeFault.raised at h
  split at h
  · exact absurd h.symm (hother _)
  · assumption

/-- Every hole is bound to a saturated type. -/
def CheckState.Saturated (st : CheckState) : Prop :=
  ∀ b ∈ st.bindings, b.2.Saturated

/-- The types of all schemas and aliases are saturated. -/
structure TypeEnv.Saturated (env : TypeEnv) : Prop where
  types : ∀ e ∈ env.types, e.2.type.Saturated
  aliases : ∀ e ∈ env.aliases, e.2.Saturated

namespace TypeEnv.Saturated

variable {env : TypeEnv} {name : String} {s : Schema} {t : Ty}

theorem bind (h : env.Saturated) (hs : s.type.Saturated) : (env.bind name s).Saturated := by
  refine ⟨fun e he => ?_, h.aliases⟩
  rcases List.mem_cons.1 he with rfl | he
  · exact hs
  · exact h.types e (Table.mem_of_mem_erase he)

end TypeEnv.Saturated

/-! ## Computations -/

namespace Check

open Ty (Saturated)

variable {α β : Type}

/-- The types that the message of the fault spells out are saturated; there is no message only if a number is too long
for it. -/
def Spelled (fault : TypeFault) : Prop :=
  fault = .unwritable .digits ∨ ∀ t ∈ fault.types, t.Saturated

/-- From a state with saturated types the computation leads to such a state.  If it succeeds, its result satisfies `Q`,
and if it fails, the types that the message spells out are saturated. -/
def Builds (x : Check α) (Q : α → Prop) : Prop :=
  ∀ st : CheckState, st.Saturated →
    match x st with
    | .ok a st' => st'.Saturated ∧ Q a
    | .error e st' => st'.Saturated ∧ Spelled e.fault

variable {x : Check α} {f : α → Check β} {Q : α → Prop} {Q' : β → Prop} {env : TypeEnv} {t u : Ty}
  {span : Option Span}

/-- The same from one state, and with what is known of the state behind a result. -/
def BuildsFrom (x : Check α) (st : CheckState) (Q : α → CheckState → Prop) : Prop :=
  match x st with
  | .ok a st' => st'.Saturated ∧ Q a st'
  | .error e st' => st'.Saturated ∧ Spelled e.fault

theorem spelled_raised {fault : TypeFault} (h : ∀ t ∈ fault.types, t.Saturated) : Spelled fault.raised := by
  rcases TypeFault.raised_cases h with hsame | hdigits
  · rw [hsame]
    exact .inr h
  · exact .inl hdigits

theorem BuildsFrom.bind {st : CheckState} {Q : α → CheckState → Prop} {Q' : β → CheckState → Prop}
    (hx : BuildsFrom x st Q) (hf : ∀ a st', st'.Saturated → Q a st' → BuildsFrom (f a) st' Q') :
    BuildsFrom (x >>= f) st Q' := by
  unfold BuildsFrom at hx
  simp only [BuildsFrom, Bind.bind, EStateM.bind]
  cases h : x st with
  | ok a st' =>
    rw [h] at hx
    exact hf a st' hx.1 hx.2
  | error e st' =>
    rw [h] at hx
    exact hx

theorem Builds.bind (hx : Builds x Q) (hf : ∀ a, Q a → Builds (f a) Q') : Builds (x >>= f) Q' :=
  fun st hst => BuildsFrom.bind (Q := fun a _ => Q a) (hx st hst) fun a st' hst' ha => hf a ha st' hst'

theorem builds_pure {a : α} (h : Q a) : Builds (pure a) Q :=
  fun _ hst => ⟨hst, h⟩

theorem builds_fail {fault : TypeFault} (h : ∀ t ∈ fault.types, t.Saturated) : Builds (fail fault span : Check α) Q :=
  fun _ hst => ⟨hst, spelled_raised h⟩

theorem visit_builds (kind : String) : Builds (visit kind) fun _ => True :=
  fun _ hst => ⟨hst, trivial⟩

theorem fresh_builds : Builds fresh Saturated :=
  fun _ hst => ⟨hst, Ty.saturated_hole⟩

theorem zonk_builds (ht : t.Saturated) : Builds (zonk t) Saturated :=
  fun _ hst => ⟨hst, ht.applyBindings hst⟩

theorem unify_builds (ht : t.Saturated) (hu : u.Saturated) : Builds (unify t u span) fun _ => True := by
  intro st hst
  obtain ⟨hbindings, hfault⟩ := Ty.unify_saturated hst ht hu
  simp only [unify, Bind.bind, EStateM.bind, get_eq, set_eq]
  cases hunify : Ty.unify st.bindings t u with
  | mk bs fault? =>
    rw [hunify] at hbindings hfault
    cases fault? with
    | none => exact ⟨hbindings, trivial⟩
    | some fault =>
      have htypes := hfault fault rfl
      cases fault with
      | mismatch a b => exact ⟨hbindings, spelled_raised htypes⟩
      | infinite t => exact ⟨hbindings, spelled_raised htypes⟩

theorem freshFor_builds (vars : List String) :
    Builds (vars.mapM fun name => do return (name, ← fresh)) fun m => ∀ e ∈ m, e.2.Saturated := by
  induction vars with
  | nil => exact builds_pure (List.forall_mem_nil _)
  | cons name vars ih =>
    rw [List.mapM_cons]
    have hfirst : Builds (do return (name, ← fresh)) fun e => e.2.Saturated :=
      fresh_builds.bind fun t ht => builds_pure ht
    exact hfirst.bind fun e he => ih.bind fun m hm => builds_pure (List.forall_mem_cons.2 ⟨he, hm⟩)

theorem instantiate_builds {s : Schema} (hs : s.type.Saturated) : Builds (instantiate s) Saturated := by
  refine (freshFor_builds s.vars).bind fun m hm => builds_pure ?_
  exact hs.substVars fun e he => hm e (List.mem_reverse.1 he)

theorem nameHoles_saturated {pairs : List (Nat × String)} (h : t.Saturated) :
    (pairs.foldl (fun t h => Ty.fill h.1 (.var h.2) t) t).Saturated := by
  induction pairs generalizing t with
  | nil => exact h
  | cons p pairs ih => exact ih (h.fill Ty.saturated_var)

theorem generalize_builds (ht : t.Saturated) : Builds (generalize env t) fun s => s.type.Saturated := by
  intro st hst
  rw [generalize_eq]
  exact ⟨hst, nameHoles_saturated (ht.applyBindings hst)⟩

theorem resolve_builds (henv : env.Saturated) (ht : t.Saturated) : Builds (resolve env t span) Saturated := by
  unfold resolve
  cases h : t.resolve env.aliases with
  | ok u => exact builds_pure ((Ty.saturated_of_resolve henv.aliases h).2 ht)
  | error fault =>
    apply builds_fail
    obtain ⟨c, -, rfl | rfl⟩ := Ty.resolve_error h
    · exact List.forall_mem_nil _
    · exact List.forall_mem_nil _

/-- Saturated types, and computations that make such types only. -/
def building : Discipline where
  Sound := CheckState.Saturated
  Fits _ := Saturated
  Written := Saturated
  Later _ _ := True
  Follows := BuildsFrom
  later _ ht := ht
  written ht := ht
  con hfits hargs := Ty.saturated_con.2 ⟨hfits, hargs⟩
  args h := (Ty.saturated_con.1 h).2
  fields := Ty.saturated_record.1
  pure hst h := ⟨hst, h⟩
  fail hst h := ⟨hst, spelled_raised h⟩
  bind hx hf := hx.bind fun a st' hst' => hf a st' hst' trivial
  visit := visit_builds _ _
  fresh := fresh_builds _
  zonk hst ht := zonk_builds ht _ hst
  unify hst ht hu := unify_builds ht hu _ hst
  instantiate hst hs := instantiate_builds hs _ hst
  generalize hst _ ht := generalize_builds ht _ hst
  resolve hst henv ht := resolve_builds ⟨henv.types, henv.aliases⟩ ht _ hst

theorem inferExpr_builds (e : Expr) (he : e.AllTypes Saturated) (henv : env.Saturated) :
    Builds (inferExpr env e) Saturated := by
  have hrecords : building.AllowsRecords := fun _ => Ty.saturated_record.2
  exact fun st hst => Discipline.inferExpr hrecords e he ⟨hst, henv.types, henv.aliases⟩

end Check

/-! ## Types that are read and accepted -/

/-- A block type with the parameters it takes has a context and a result. -/
theorem Ty.Saturated.block_args {args : List Ty} (h : (Ty.con "Block" args).Saturated) :
    ∃ context result, args = [context, result] := by
  have hlength : args.length = 2 := (saturated_con.1 h).1 2 rfl
  exact List.length_eq_two.1 hlength

/-- A type that is read from a text and accepted, where all aliases stand for saturated types of the language.  What it
stands for is saturated if and only if the text names none of the forms that need parameters alone, and it can be
written if and only if it is saturated.  If so, whatever is checked with names of this type makes saturated types
only: in the result, in the holes, and in the messages of errors.  Every saturated type can be written, and if it is a
block type, it has a context and a result. -/
theorem resolve_saturated_iff {al : Aliases} (hexpanded : al.Expanded) (hsaturated : ∀ e ∈ al, e.2.Saturated)
    {file text : String} {t u : Ty} (hread : parseType file text = .ok t) (haccepted : t.resolve al = .ok u) :
    u.Expanded ∧
    (u.Saturated ↔ ∀ name ∈ Ty.formNames, (name, 0) ∉ t.constructors) ∧
    ((∃ s, u.shown = .ok s) ↔ u.Saturated) ∧
    (u.Saturated → ∀ (env : TypeEnv) (name : String) (vars : List String) (e : Expr), env.Saturated →
      e.AllTypes Ty.Saturated → Check.Builds (Check.inferExpr (env.bind name ⟨vars, u⟩) e) Ty.Saturated) ∧
    ∀ v : Ty, v.Saturated →
      v.shown = .ok v.render ∧ ∀ args, v = .con "Block" args → ∃ context result, args = [context, result] := by
  have hreadable : t.Readable := parseType_readable hread
  refine ⟨(Ty.resolve_expanded hexpanded haccepted).1, ?_, ?_, ?_, ?_⟩
  · rw [Ty.saturated_of_resolve hsaturated haccepted]
    exact hreadable.saturated_iff
  · rw [← (Ty.readable_of_resolve hsaturated hreadable haccepted).fault?_eq_none_iff]
    exact Ty.exists_shown_iff
  · intro hu env name vars e henv he
    exact Check.inferExpr_builds e he (henv.bind hu)
  · intro v hv
    refine ⟨hv.shown, ?_⟩
    rintro args rfl
    exact hv.block_args

/-- The text is read as a type that is accepted, and the type and what it stands for pass a test. -/
def acceptsType (al : Aliases) (file text : String) (test : Ty → Ty → Bool) : Bool :=
  match parseType file text with
  | .ok t =>
    match t.resolve al with
    | .ok u => test t u
    | .error _ => false
  | .error _ => false

theorem exists_of_acceptsType {al : Aliases} {file text : String} {test : Ty → Ty → Bool}
    (h : acceptsType al file text test = true) :
    ∃ t u, parseType file text = .ok t ∧ t.resolve al = .ok u ∧ test t u = true := by
  unfold acceptsType at h
  split at h
  · rename_i t hread
    split at h
    · rename_i u haccepted
      exact ⟨t, u, hread, haccepted, h⟩
    · cases h
  · cases h

/-- `[Pair] -> TopLevel (Pair, a)`, where `Pair` stands for `(Int, String)`. -/
theorem resolve_saturated_iff_pair :
    ∃ t u, parseType "" "[Pair] -> TopLevel (Pair, a)" = .ok t ∧
      t.resolve [("Pair", .tuple [.int, .string])] = .ok u ∧
      u.render = "[(Int, String)] -> TopLevel ((Int, String), a)" ∧ u.Saturated ∧ u.shown = .ok u.render := by
  have htest : acceptsType [("Pair", .tuple [.int, .string])] "" "[Pair] -> TopLevel (Pair, a)" (fun t u =>
      decide (u.render = "[(Int, String)] -> TopLevel ((Int, String), a)") &&
        decide (∀ name ∈ Ty.formNames, (name, 0) ∉ t.constructors)) = true := by
    decide +kernel
  obtain ⟨t, u, hread, haccepted, hpasses⟩ := exists_of_acceptsType htest
  obtain ⟨hrender, hforms⟩ : u.render = _ ∧ ∀ name ∈ Ty.formNames, (name, 0) ∉ t.constructors := by
    simpa only [Bool.and_eq_true, decide_eq_true_eq] using hpasses
  have hexpanded : Aliases.Expanded [("Pair", .tuple [.int, .string])] := by decide
  have hsaturated : ∀ e ∈ [("Pair", Ty.tuple [.int, .string])], e.2.Saturated := by decide
  obtain ⟨-, hiff, -, -, hprinted⟩ := resolve_saturated_iff hexpanded hsaturated hread haccepted
  have hu := hiff.2 hforms
  exact ⟨t, u, hread, haccepted, hrender, hu, (hprinted u hu).1⟩

/-- The name of a form that needs parameters is accepted alone; what it stands for cannot be written. -/
theorem bareForm_unspelled :
    ∃ t u, parseType "" "Function" = .ok t ∧ t.resolve [] = .ok u ∧ ¬ u.Saturated ∧ ¬ ∃ s, u.shown = .ok s := by
  have htest : acceptsType [] "" "Function" (fun _ u => decide (¬ u.Saturated ∧ u.fault? ≠ none)) = true := by
    decide +kernel
  obtain ⟨t, u, hread, haccepted, hpasses⟩ := exists_of_acceptsType htest
  obtain ⟨hnot, hfault⟩ : ¬ u.Saturated ∧ u.fault? ≠ none := of_decide_eq_true hpasses
  refine ⟨t, u, hread, haccepted, hnot, ?_⟩
  rw [Ty.exists_shown_iff]
  exact hfault

end VeriScript
