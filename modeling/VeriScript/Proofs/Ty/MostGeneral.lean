import VeriScript.Proofs.Ty.Equality
import VeriScript.Proofs.Ty.Principal
import VeriScript.Proofs.Ty.Spelling

/-!
# Unification finds the most general solution

Types for the holes may agree with bindings and make two types the same, all up to the order of the fields of
records.  If there are such types, unification succeeds, and they agree with its bindings too: these ask for
nothing that could have been left open.

* `assign` — the type with types in the places of its holes, all at once.
* `Satisfies`, `Unifies` — types for the holes that agree with bindings, and that make two types the same as well.
* `alike_iff_shape_eq` — types are the same up to the order of fields exactly if they stand for one monotype when
  each hole has a monotype of its own, so that what is known about monotypes carries over.
* `unify_of_unifies`, `unifies_of_unify` — unification succeeds exactly if some types for the holes do.
* `Check.unify_error` — a step of unification that fails met a mismatch or an infinite type, and raises it if its types
  can be written.
* `Check.unify_most_general` — when a step of unification succeeds, from any state of inference.
-/

namespace VeriScript

/-- A monotype for a hole that stays open.  It has a field for every name, as no record that can be written has. -/
def Mono.unknown (i : Nat) : Mono :=
  .record fun _ => some (.tuple (List.replicate i .unit))

theorem Mono.unknown_injective : Function.Injective Mono.unknown := by
  intro i j h
  have hfield := congrFun (Mono.record.inj h) ""
  simpa using congrArg List.length (Mono.con.inj (Option.some.inj hfield)).2

namespace Ty

variable {σ : Nat → Ty} {bs bs' : Bindings} {a b t : Ty}

/-! ## Types for the holes -/

mutual

/-- The type with types in the places of its holes, all at once. -/
def assign (σ : Nat → Ty) : Ty → Ty
  | .con name args => .con name (assignList σ args)
  | .var name => .var name
  | .hole id => σ id
  | .record fields => .record (assignFields σ fields)

def assignList (σ : Nat → Ty) : List Ty → List Ty
  | [] => []
  | t :: ts => assign σ t :: assignList σ ts

def assignFields (σ : Nat → Ty) : List (String × Ty) → List (String × Ty)
  | [] => []
  | (k, t) :: fs => (k, assign σ t) :: assignFields σ fs

end

@[simp] theorem assignList_eq (ts : List Ty) : assignList σ ts = ts.map (assign σ) := by
  induction ts with
  | nil => rfl
  | cons t ts ih => simp [assignList, ih]

@[simp] theorem assignFields_eq (fs : List (String × Ty)) :
    assignFields σ fs = fs.map fun f => (f.1, assign σ f.2) := by
  induction fs with
  | nil => rfl
  | cons f fs ih => simp [assignFields, ih]

/-- The types for the holes agree with every binding. -/
def Satisfies (σ : Nat → Ty) (bs : Bindings) : Prop :=
  ∀ b ∈ bs, (σ b.1).Alike (b.2.assign σ)

/-- The types for the holes agree with every binding and make two types the same. -/
structure Unifies (σ : Nat → Ty) (bs : Bindings) (a b : Ty) : Prop where
  satisfies : Satisfies σ bs
  equates : (a.assign σ).Alike (b.assign σ)

/-! ## Types and the monotypes they stand for -/

/-- The monotype that a type stands for when its holes stay open. -/
def shape (t : Ty) : Mono :=
  t.under Mono.unknown

/-- A record has no field for some name. -/
theorem record_ne_unknown {θ : Nat → Mono} {ρ : String → Mono} (fields : List (String × Ty)) (i : Nat) :
    (Ty.record fields).denote θ ρ ≠ Mono.unknown i := by
  intro h
  obtain ⟨name, hname⟩ := Infinite.exists_notMem_finset (Table.names fields).toFinset
  have hnone : Table.get? fields name = none := by
    cases hget : Table.get? fields name with
    | none => rfl
    | some u => exact absurd (List.mem_toFinset.2 (List.mem_map_of_mem (Table.mem_of_get? hget))) hname
  rw [denote, denoteFields_eq] at h
  have hfield := congrFun (Mono.record.inj h) name
  rw [hnone] at hfield
  cases hfield

theorem alike_of_shape_eq (h : a.shape = b.shape) : Alike a b := by
  unfold shape under at h
  induction a using induct generalizing b with
  | con name args ih =>
    cases b with
    | con name' args' =>
      simp only [denote, denoteList_eq, Mono.con.injEq] at h
      obtain ⟨rfl, hargs⟩ := h
      have hlength : args.length = args'.length := by simpa using congrArg List.length hargs
      refine .con hlength fun p hp => ih p.1 (List.of_mem_zip hp).1 ?_
      exact (map_eq_map_iff_zip hlength).1 hargs p hp
    | var y => simp [denote] at h
    | hole j => simp [denote, Mono.unknown] at h
    | record gs => simp [denote] at h
  | var x =>
    cases b with
    | var y =>
      obtain rfl : x = y := Mono.var.inj h
      exact .var
    | con name' args' => simp [denote] at h
    | hole j => simp [denote, Mono.unknown] at h
    | record gs => simp [denote] at h
  | hole i =>
    cases b with
    | hole j =>
      obtain rfl : i = j := Mono.unknown_injective h
      exact .hole
    | con name' args' => simp [denote, Mono.unknown] at h
    | var y => simp [denote, Mono.unknown] at h
    | record gs => exact absurd h.symm (record_ne_unknown gs i)
  | record fs ih =>
    cases b with
    | record gs =>
      refine .record (sameNames_of_denote_eq h) fun name a b ha hb => ih _ (Table.mem_of_get? ha) ?_
      rw [denote, denote, denoteFields_eq, denoteFields_eq] at h
      have hfield := congrFun (Mono.record.inj h) name
      rw [ha, hb] at hfield
      exact Option.some.inj hfield
    | con name' args' => simp [denote] at h
    | var y => simp [denote] at h
    | hole j => exact absurd h (record_ne_unknown fs j)

theorem alike_iff_shape_eq : Alike a b ↔ a.shape = b.shape :=
  ⟨Alike.denote_eq, alike_of_shape_eq⟩

theorem Alike.symm (h : Alike a b) : Alike b a :=
  alike_iff_shape_eq.2 (alike_iff_shape_eq.1 h).symm

/-- Types in the places of holes give the holes the monotypes that these types stand for. -/
theorem shape_assign (σ : Nat → Ty) (t : Ty) : (t.assign σ).shape = t.under fun i => (σ i).shape := by
  unfold shape under
  induction t using induct with
  | con name args ih =>
    simp only [assign, denote, assignList_eq, denoteList_eq, List.map_map, Mono.con.injEq, true_and]
    exact List.map_congr_left ih
  | var name => rfl
  | hole id => rfl
  | record fields ih =>
    simp only [assign, denote, assignFields_eq, denoteFields_eq, Table.get?_map, Mono.record.injEq]
    funext name
    rw [Option.map_map]
    exact Option.map_congr fun t ht => ih _ (Table.mem_of_get? ht)

theorem satisfies_iff : Satisfies σ bs ↔ Solves (fun i => (σ i).shape) bs := by
  refine forall₂_congr fun b _ => ?_
  rw [alike_iff_shape_eq, shape_assign]

/-! ## Success -/

/-- Types for the holes that agree with the bindings and make two types the same: unification succeeds, and they
agree with its bindings too. -/
theorem unify_of_unifies (hbs : ∀ b ∈ bs, b.2.Distinct) (ha : a.Distinct) (hb : b.Distinct)
    (h : Unifies σ bs a b) : ∃ bs', unify bs a b = (bs', none) ∧ Satisfies σ bs' := by
  have hequal := alike_iff_shape_eq.1 h.equates
  rw [shape_assign, shape_assign] at hequal
  obtain ⟨bs', hunify, hsolves⟩ := unify_complete hbs ha hb (satisfies_iff.1 h.satisfies) hequal
  exact ⟨bs', hunify, satisfies_iff.2 hsolves⟩

/-- Applying bindings gives every hole the type that they make of it. -/
theorem assign_applyBindings (bs : Bindings) (t : Ty) :
    t.assign (fun i => applyBindings bs (.hole i)) = applyBindings bs t := by
  induction t using induct with
  | con name args ih =>
    rw [assign, assignList_eq, applyBindings_con]
    exact congrArg (Ty.con name) (List.map_congr_left ih)
  | var name => rw [assign, applyBindings_var]
  | hole id => rw [assign]
  | record fields ih =>
    rw [assign, assignFields_eq, applyBindings_record]
    refine congrArg Ty.record (List.map_congr_left fun f hf => ?_)
    rw [ih f hf]

theorem unifies_of_unify (hbs : Layered bs) (h : unify bs a b = (bs', none)) :
    Unifies (fun i => applyBindings bs' (.hole i)) bs a b := by
  have hlayered := hbs.unify a b
  have hsuffix := suffix_unify bs a b
  rw [h] at hlayered hsuffix
  refine ⟨fun c hc => ?_, ?_⟩
  · rw [assign_applyBindings, applyBindings_hole hlayered (hsuffix.subset hc)]
    exact .refl _
  · rw [assign_applyBindings, assign_applyBindings]
    exact unify_alike hbs h

theorem Satisfies.of_subset (h : Satisfies σ bs) (hsub : bs' ⊆ bs) : Satisfies σ bs' :=
  fun b hb => h b (hsub hb)

theorem Unifies.of_subset (h : Unifies σ bs a b) (hsub : bs' ⊆ bs) : Unifies σ bs' a b :=
  ⟨h.satisfies.of_subset hsub, h.equates⟩

theorem Unifies.symm (h : Unifies σ bs a b) : Unifies σ bs b a :=
  ⟨h.satisfies, h.equates.symm⟩

end Ty

namespace Check

variable {a b : Ty} {span : Option Span} {st : CheckState}

/-- The type error for what stopped unification. -/
def faultOf : UnifyFault → TypeFault
  | .mismatch a b => .mismatch a b
  | .infinite t => .infiniteType t

/-- A step of unification ends with the bindings that were found, or with the fault that was met. -/
theorem unify_cases (a b : Ty) (span : Option Span) (st : CheckState) :
    (∃ bs, Ty.unify st.bindings a b = (bs, none) ∧ unify a b span st = .ok () { st with bindings := bs }) ∨
      ∃ bs fault, Ty.unify st.bindings a b = (bs, some fault) ∧
        unify a b span st = .error ⟨(faultOf fault).raised, span⟩ { st with bindings := bs } := by
  cases hunify : Ty.unify st.bindings a b with
  | mk bs fault? =>
    simp only [unify, Bind.bind, EStateM.bind, get_eq, set_eq, hunify]
    cases fault? with
    | none => exact .inl ⟨bs, rfl, rfl⟩
    | some fault =>
      refine .inr ⟨bs, fault, rfl, ?_⟩
      cases fault with
      | mismatch c d => rfl
      | infinite t => rfl

/-- What stopped unification, and what a failing step raises for it.  Where all types have the parameters they take,
that is a mismatch or an infinite type. -/
theorem unify_error {e : TypeError} {st' : CheckState} (h : unify a b span st = .error e st') :
    ∃ fault : TypeFault, ((∃ c d, fault = .mismatch c d) ∨ ∃ t, fault = .infiniteType t) ∧ e = ⟨fault.raised, span⟩ ∧
      ((∀ c ∈ st.bindings, c.2.Saturated) → a.Saturated → b.Saturated → fault.raised = fault) := by
  obtain ⟨bs, -, hok⟩ | ⟨bs, fault, hunify, herror⟩ := unify_cases a b span st
  · rw [hok] at h
    cases h
  · obtain ⟨rfl, -⟩ : ⟨(faultOf fault).raised, span⟩ = e ∧ _ := EStateM.Result.error.inj (herror.symm.trans h)
    refine ⟨faultOf fault, ?_, rfl, fun hst ha hb => ?_⟩
    · cases fault with
      | mismatch c d => exact .inl ⟨c, d, rfl⟩
      | infinite t => exact .inr ⟨t, rfl⟩
    · have htypes := (Ty.unify_saturated hst ha hb).2 fault (by rw [hunify]; rfl)
      cases fault with
      | mismatch c d =>
        have hc := (htypes c (by simp [Ty.faultTypes])).fault?_eq_none
        have hd := (htypes d (by simp [Ty.faultTypes])).fault?_eq_none
        simp [faultOf, TypeFault.raised, TypeFault.textFault?, hc, hd]
      | infinite t =>
        have ht := (htypes t (by simp [Ty.faultTypes])).fault?_eq_none
        simp [faultOf, TypeFault.raised, TypeFault.textFault?, ht]

section
variable (hdistinct : ∀ c ∈ st.bindings, c.2.Distinct) (ha : a.Distinct) (hb : b.Distinct)
include hdistinct ha hb

theorem unify_ok_of_unifies {σ : Nat → Ty} (hσ : Ty.Unifies σ st.bindings a b) :
    ∃ st', unify a b span st = .ok () st' ∧ Ty.Satisfies σ st'.bindings := by
  obtain ⟨bs, hbs, hsatisfies⟩ := Ty.unify_of_unifies hdistinct ha hb hσ
  obtain ⟨bs', hbs', hunify⟩ | ⟨bs', fault, hfault, -⟩ := unify_cases a b span st
  · obtain rfl : bs' = bs := congrArg Prod.fst (hbs'.symm.trans hbs)
    exact ⟨_, hunify, hsatisfies⟩
  · rw [hbs] at hfault
    cases hfault

theorem unify_ok_iff (span : Option Span) (hst : Ty.Layered st.bindings) :
    (∃ st', unify a b span st = .ok () st') ↔ ∃ σ, Ty.Unifies σ st.bindings a b := by
  constructor
  · rintro ⟨st', hunify⟩
    exact ⟨_, Ty.unifies_of_unify hst (unify_ok hunify)⟩
  · rintro ⟨σ, hσ⟩
    obtain ⟨st', hunify, -⟩ := unify_ok_of_unifies hdistinct ha hb hσ
    exact ⟨st', hunify⟩

theorem unify_error_iff (hst : Ty.Layered st.bindings) :
    (∃ e st', unify a b span st = .error e st') ↔ ¬ ∃ σ, Ty.Unifies σ st.bindings a b := by
  rw [← unify_ok_iff hdistinct ha hb span hst]
  constructor
  · rintro ⟨e, st', herror⟩ ⟨st'', hok⟩
    rw [herror] at hok
    cases hok
  · intro hfails
    obtain ⟨bs, -, hok⟩ | ⟨bs, fault, -, herror⟩ := unify_cases a b span st
    · exact absurd ⟨_, hok⟩ hfails
    · exact ⟨_, _, herror⟩

end

/-- Bindings without a cycle can be listed in the order in which unification adds them.  Where they are, and
records have each of their fields once: types for the holes that agree with the bindings and make two types the
same, up to the order of fields, make a step of unification succeed and agree with the bindings behind it.  So the
step fails exactly if there are no such types, and it does not matter which of the two types is named first.  A step
that fails met a mismatch or an infinite type.  It raises this as a type error where all types have the parameters
they take; in general it does so if the types that the message names can be written. -/
theorem unify_most_general {known : Bindings} (hkeys : (known.map Prod.fst).Nodup) (hacyclic : Ty.Acyclic known)
    (hdistinct : ∀ c ∈ known, c.2.Distinct) :
    (∃ bs : Bindings, bs.Perm known ∧ Ty.Layered bs) ∧
      ∀ (st : CheckState) (a b : Ty) (span : Option Span), st.bindings.Perm known → Ty.Layered st.bindings →
        a.Distinct → b.Distinct →
          (∀ σ, Ty.Unifies σ known a b → ∃ st', unify a b span st = .ok () st' ∧ Ty.Satisfies σ st'.bindings) ∧
          ((∃ e st', unify a b span st = .error e st') ↔ ¬ ∃ σ, Ty.Unifies σ known a b) ∧
          (∀ e st', unify a b span st = .error e st' →
            ∃ fault : TypeFault, ((∃ c d, fault = .mismatch c d) ∨ ∃ t, fault = .infiniteType t) ∧
              e = ⟨fault.raised, span⟩ ∧
              ((∀ c ∈ known, c.2.Saturated) → a.Saturated → b.Saturated → fault.raised = fault)) ∧
          ((∃ st', unify a b span st = .ok () st') ↔ ∃ st', unify b a span st = .ok () st') := by
  refine ⟨hacyclic.exists_layered hkeys, fun st a b span hperm hst ha hb => ?_⟩
  have hknown : ∀ c ∈ st.bindings, c.2.Distinct := fun c hc => hdistinct c (hperm.subset hc)
  have hunifies : ∀ σ, Ty.Unifies σ known a b ↔ Ty.Unifies σ st.bindings a b := fun σ =>
    ⟨fun h => h.of_subset hperm.subset, fun h => h.of_subset hperm.symm.subset⟩
  simp only [hunifies]
  refine ⟨fun σ hσ => unify_ok_of_unifies hknown ha hb hσ, unify_error_iff hknown ha hb hst, fun e st' herror => ?_, ?_⟩
  · obtain ⟨fault, hfault, hraised, hsaturated⟩ := unify_error herror
    exact ⟨fault, hfault, hraised, fun h => hsaturated fun c hc => h c (hperm.subset hc)⟩
  rw [unify_ok_iff hknown ha hb span hst, unify_ok_iff hknown hb ha span hst]
  exact exists_congr fun σ => ⟨Ty.Unifies.symm, Ty.Unifies.symm⟩

/-- Where hole 0 is hole 1 and hole 1 is a number, two records with their fields in different orders can be made the
same, here with truth values for hole 3, and unification leaves room for that.  Nothing makes a type and the lists
of its elements the same. -/
theorem unify_most_general_records :
    (∃ st', unify (.record [("x", .hole 2), ("y", .hole 0)]) (.record [("y", .hole 1), ("x", Ty.list (.hole 3))]) none
        ⟨[(1, Ty.int), (0, .hole 1)], 4, []⟩ = .ok () st' ∧
      Ty.Satisfies (fun i => if i = 2 then Ty.list Ty.bool else if i = 3 then Ty.bool else Ty.int) st'.bindings) ∧
    ¬ ∃ σ, Ty.Unifies σ [(0, .hole 1), (1, Ty.int)] (.hole 2) (Ty.list (.hole 2)) := by
  have hlayered : Ty.Layered [(1, Ty.int), (0, .hole 1)] := by
    simp [Ty.Layered, Ty.FreeOf]
  have hperm : List.Perm [(1, Ty.int), (0, .hole 1)] [(0, .hole 1), (1, Ty.int)] := .swap _ _ _
  have hint : Ty.int.Distinct := .con (List.forall_mem_nil _)
  have hhole : ∀ i, (Ty.hole i).Distinct := fun i => .hole trivial
  have hlist : ∀ i, (Ty.list (.hole i)).Distinct := fun i => .con (List.forall_mem_singleton.2 (hhole i))
  have hknown : ∀ c ∈ [(0, Ty.hole 1), (1, Ty.int)], c.2.Distinct :=
    List.forall_mem_cons.2 ⟨hhole 1, List.forall_mem_singleton.2 hint⟩
  have hgeneral := (unify_most_general (by decide) (hlayered.acyclic.of_subset hperm.symm.subset) hknown).2
    ⟨[(1, Ty.int), (0, .hole 1)], 4, []⟩
  constructor
  · refine (hgeneral _ _ none hperm hlayered ?_ ?_).1 _ ⟨?_, ?_⟩
    · exact .record (by decide) (List.forall_mem_cons.2 ⟨hhole 2, List.forall_mem_singleton.2 (hhole 0)⟩)
    · exact .record (by decide) (List.forall_mem_cons.2 ⟨hhole 1, List.forall_mem_singleton.2 (hlist 3)⟩)
    · exact List.forall_mem_cons.2 ⟨.refl _, List.forall_mem_singleton.2 (.refl _)⟩
    · -- nothing is left of the two records once they are taken apart
      have hsplit : Ty.split (.record [("x", Ty.list Ty.bool), ("y", Ty.int)])
          (.record [("y", Ty.int), ("x", Ty.list Ty.bool)]) = [] := by cbv
      exact Ty.split_alike [] _ _ (hsplit ▸ List.forall_mem_nil _)
  · have hfault : Ty.unify [(1, Ty.int), (0, .hole 1)] (.hole 2) (Ty.list (.hole 2)) =
        ([(1, Ty.int), (0, .hole 1)], some (.infinite (Ty.list (.hole 2)))) := by
      cbv
    refine (hgeneral _ _ none hperm hlayered (hhole 2) (hlist 2)).2.1.1 ?_
    obtain ⟨bs, hok, -⟩ | ⟨bs, fault, -, herror⟩ :=
      unify_cases (.hole 2) (Ty.list (.hole 2)) none ⟨[(1, Ty.int), (0, .hole 1)], 4, []⟩
    · rw [hfault] at hok
      cases hok
    · exact ⟨_, _, herror⟩

/-- A list type without its parameter and one with it cannot be made the same.  The message would name both, and the
first cannot be written. -/
theorem unify_bareList_unwritable :
    unify (.con "List" []) (Ty.list Ty.int) none .initial = .error ⟨.unwritable .missing, none⟩ .initial := by
  rfl

end Check

end VeriScript
