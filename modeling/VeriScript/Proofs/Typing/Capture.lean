import VeriScript.Proofs.Term.Meaning
import VeriScript.Proofs.Ty.Equality
import VeriScript.Proofs.Typing.Rigid

/-!
# The holes that generalisation names

Generalisation replaces the holes that the environment does not share by new names.  Nothing is lost on the way:
with the holes put back in the places of their names, the type is what it was.

* `Ty.nameHoles` — names in the places of holes.
* `Ty.substVars_nameHoles` — the holes put back again.
* `TypeEnv.FreeHole` — a hole that the environment shares.
* `Check.generalize_captures` — what is named, what is left, and how the type comes back.
-/

namespace VeriScript

namespace Ty

variable {bs bs' : Bindings} {pairs : List (Nat × String)} {i : Nat} {t u : Ty}

/-! ## Names in the places of holes -/

/-- The type with names in the places of holes, one hole after another. -/
def nameHoles (pairs : List (Nat × String)) (t : Ty) : Ty :=
  pairs.foldl (fun t h => fill h.1 (.var h.2) t) t

@[simp] theorem nameHoles_nil (t : Ty) : nameHoles [] t = t := rfl

@[simp] theorem nameHoles_cons (p : Nat × String) (pairs : List (Nat × String)) (t : Ty) :
    nameHoles (p :: pairs) t = nameHoles pairs (fill p.1 (.var p.2) t) := rfl

@[simp] theorem nameHoles_con (pairs : List (Nat × String)) (name : String) (args : List Ty) :
    nameHoles pairs (.con name args) = .con name (args.map (nameHoles pairs)) := by
  induction pairs generalizing args with
  | nil => exact congrArg (Ty.con name) (List.map_id _).symm
  | cons p pairs ih => simp [fill, ih]

@[simp] theorem nameHoles_var (pairs : List (Nat × String)) (name : String) :
    nameHoles pairs (.var name) = .var name := by
  induction pairs with
  | nil => rfl
  | cons p pairs ih => exact ih

@[simp] theorem nameHoles_record (pairs : List (Nat × String)) (fields : List (String × Ty)) :
    nameHoles pairs (.record fields) = .record (fields.map fun f => (f.1, nameHoles pairs f.2)) := by
  induction pairs generalizing fields with
  | nil => simp
  | cons p pairs ih => simp [fill, ih]

/-- A hole gets the first name that is meant for it, or it stays. -/
theorem nameHoles_hole_cases (pairs : List (Nat × String)) (i : Nat) :
    (∃ x, (i, x) ∈ pairs ∧ nameHoles pairs (.hole i) = .var x) ∨
      i ∉ pairs.map Prod.fst ∧ nameHoles pairs (.hole i) = .hole i := by
  induction pairs with
  | nil => simp
  | cons p pairs ih =>
    obtain ⟨j, x⟩ := p
    by_cases hj : i = j
    · left
      exact ⟨x, by simp [hj], by simp [fill, hj]⟩
    · rcases ih with ⟨y, hy, hname⟩ | ⟨hi, hstays⟩
      · left
        exact ⟨y, List.mem_cons_of_mem _ hy, by simpa [fill, hj] using hname⟩
      · right
        simpa [fill, hj, hstays] using hi

theorem mem_holes_nameHoles_of_not_mem (h : i ∈ t.holes) (hpairs : i ∉ pairs.map Prod.fst) :
    i ∈ (nameHoles pairs t).holes := by
  induction t using induct with
  | con name args ih =>
    obtain ⟨a, ha, hi⟩ := mem_holes_con.1 h
    rw [nameHoles_con, mem_holes_con]
    exact ⟨_, List.mem_map_of_mem ha, ih a ha hi⟩
  | var name => exact absurd h mem_holes_var
  | hole j =>
    obtain rfl := mem_holes_hole.1 h
    rcases nameHoles_hole_cases pairs i with ⟨x, hx, -⟩ | ⟨-, hstays⟩
    · exact absurd (List.mem_map_of_mem hx) hpairs
    · rw [hstays]
      exact h
  | record fields ih =>
    obtain ⟨f, hf, hi⟩ := mem_holes_record.1 h
    rw [nameHoles_record, mem_holes_record]
    exact ⟨_, List.mem_map_of_mem hf, ih f hf hi⟩

theorem substVars_nameHoles (hnodup : (pairs.map Prod.snd).Nodup) (hnew : ∀ x ∈ pairs.map Prod.snd, x ∉ t.varNames) :
    substVars (pairs.map fun p => (p.2, .hole p.1)) (nameHoles pairs t) = t := by
  have hnames : Table.names (pairs.map fun p => (p.2, Ty.hole p.1)) = pairs.map Prod.snd := by
    simp [Table.names, Function.comp_def]
  induction t using induct with
  | con name args ih =>
    have hargs : ∀ a ∈ args, substVars (pairs.map fun p => (p.2, .hole p.1)) (nameHoles pairs a) = a := by
      intro a ha
      refine ih a ha fun x hx hmem => hnew x hx ?_
      exact mem_varNames_con.2 ⟨a, ha, hmem⟩
    simp only [nameHoles_con, substVars, substVarsList_eq, List.map_map]
    exact congrArg (Ty.con name) ((List.map_congr_left hargs).trans (List.map_id _))
  | var name =>
    have hnone : Table.get? (pairs.map fun p => (p.2, Ty.hole p.1)) name = none := by
      cases hget : Table.get? (pairs.map fun p => (p.2, Ty.hole p.1)) name with
      | none => rfl
      | some u =>
        have hmem : name ∈ pairs.map Prod.snd := hnames ▸ List.mem_map_of_mem (Table.mem_of_get? hget)
        exact absurd (mem_varNames_var.2 rfl) (hnew name hmem)
    simp [substVars, hnone]
  | hole i =>
    rcases nameHoles_hole_cases pairs i with ⟨x, hx, hname⟩ | ⟨-, hstays⟩
    · have hmem : (x, Ty.hole i) ∈ pairs.map fun p => (p.2, Ty.hole p.1) := List.mem_map.2 ⟨_, hx, rfl⟩
      have hget := Table.get?_of_mem (hnames ▸ hnodup) hmem
      simp [hname, substVars, hget]
    · simp [hstays, substVars]
  | record fields ih =>
    have hfields : ∀ f ∈ fields,
        (f.1, substVars (pairs.map fun p => (p.2, .hole p.1)) (nameHoles pairs f.2)) = f := by
      intro f hf
      have heq := ih f hf fun x hx hmem => hnew x hx (mem_varNames_record.2 ⟨f, hf, hmem⟩)
      rw [heq]
    simp only [nameHoles_record, substVars, substVarsFields_eq, List.map_map]
    exact congrArg Ty.record ((List.map_congr_left hfields).trans (List.map_id _))

/-! ## Bindings in any order -/

/-- Replacing holes one by one does not depend on the order of the bindings. -/
theorem Zonks.of_perm (h : Zonks bs t u) (hperm : bs.Perm bs') : Zonks bs' t u := by
  induction h with
  | con _ ih => exact .con ih
  | var => exact .var
  | bound mem _ ih => exact .bound (hperm.subset mem) ih
  | free none => exact .free fun b hb => none b (hperm.symm.subset hb)
  | record _ ih => exact .record ih

theorem Layered.zonks_of_perm (h : Layered bs) (hperm : bs.Perm bs') : Zonks bs' t u ↔ u = applyBindings bs t := by
  rw [← h.zonks_iff]
  exact ⟨fun hz => hz.of_perm hperm.symm, fun hz => hz.of_perm hperm⟩

end Ty

/-- The hole occurs in the environment, with all bindings followed. -/
def TypeEnv.FreeHole (env : TypeEnv) (known : Bindings) (i : Nat) : Prop :=
  ∃ e ∈ env.types, ∃ u, Ty.Zonks known e.2.type u ∧ i ∈ u.holes

namespace Check

variable {env : TypeEnv} {bs known : Bindings} {t : Ty} {i : Nat}

theorem mem_keptHoles_iff (hbs : Ty.Layered bs) (hperm : bs.Perm known) :
    i ∈ keptHoles env bs ↔ env.FreeHole known i := by
  simp only [keptHoles, List.mem_flatMap, TypeEnv.FreeHole, hbs.zonks_of_perm hperm, exists_eq_left]

/-- A schema names the holes that are not kept: as many different names as there are holes, none of them in the
type. -/
theorem exists_namedHoles (env : TypeEnv) (bs : Bindings) (t : Ty) :
    ∃ pairs : List (Nat × String),
      schemaOf env bs t =
          ⟨(Ty.applyBindings bs t).varNames ++ pairs.map Prod.snd, (Ty.applyBindings bs t).nameHoles pairs⟩ ∧
        pairs.map Prod.fst = (Ty.applyBindings bs t).holes.filter (fun id => !(keptHoles env bs).contains id) ∧
        (pairs.map Prod.snd).Nodup ∧ ∀ x ∈ pairs.map Prod.snd, x ∉ (Ty.applyBindings bs t).varNames := by
  generalize hz : Ty.applyBindings bs t = z
  generalize hholes : z.holes.filter (fun id => !(keptHoles env bs).contains id) = holes
  generalize hnames : freshNames z.varNames (z.varNames.length + holes.length) holes.length 0 = names
  have hlength : names.length = holes.length := hnames ▸ length_freshNames
  have hsecond : (holes.zip names).map Prod.snd = names := List.map_snd_zip (Nat.le_of_eq hlength)
  have hfirst : (holes.zip names).map Prod.fst = holes := List.map_fst_zip (Nat.le_of_eq hlength.symm)
  refine ⟨holes.zip names, ?_, hfirst, ?_, ?_⟩
  · simp only [schemaOf, Ty.generalizeOver, hz, hholes, hnames, hsecond]
    rfl
  · rw [hsecond, ← hnames]
    exact freshNames_nodup
  · intro x hx
    rw [hsecond, ← hnames] at hx
    exact (mem_freshNames hx).1

/-- Bindings without a cycle can be listed in the order in which unification adds them.  Where they are, and whatever
is generalised in whatever environment: the state stays as it is; the schema quantifies different variables, those of
the type and a new one for each hole that the environment does not share; the holes put back in the places of the new
variables give the type with all its holes replaced; and the holes that are left are those that the environment
shares. -/
theorem generalize_captures {known : Bindings} (hkeys : (known.map Prod.fst).Nodup) (hacyclic : Ty.Acyclic known) :
    (∃ bs : Bindings, bs.Perm known ∧ Ty.Layered bs) ∧
      ∀ (st : CheckState) (env : TypeEnv) (t : Ty), st.bindings.Perm known → Ty.Layered st.bindings →
        ∃ (s : Schema) (z : Ty) (pairs : List (Nat × String)), generalize env t st = .ok s st ∧ Ty.Zonks known t z ∧
          s.vars = z.varNames ++ pairs.map Prod.snd ∧ s.vars.Nodup ∧
          (pairs.map Prod.fst).Nodup ∧ (∀ i, i ∈ pairs.map Prod.fst ↔ i ∈ z.holes ∧ ¬ env.FreeHole known i) ∧
          s.type.substVars (pairs.map fun p => (p.2, .hole p.1)) = z ∧
          Ty.Zonks known s.type s.type ∧ ∀ i, i ∈ s.type.holes ↔ i ∈ z.holes ∧ env.FreeHole known i := by
  constructor
  · exact hacyclic.exists_layered hkeys
  intro st env t hperm hst
  obtain ⟨pairs, hschema, hfirst, hnodup, hnew⟩ := exists_namedHoles env st.bindings t
  have hnamed : ∀ i, i ∈ pairs.map Prod.fst ↔
      i ∈ (Ty.applyBindings st.bindings t).holes ∧ ¬ env.FreeHole known i := by
    intro i
    rw [hfirst, ← mem_keptHoles_iff hst hperm]
    simp
  have hleft : ∀ i, i ∈ (schemaOf env st.bindings t).type.holes ↔
      i ∈ (Ty.applyBindings st.bindings t).holes ∧ env.FreeHole known i := by
    intro i
    rw [← mem_keptHoles_iff hst hperm]
    constructor
    · exact mem_holes_generalizeOver
    · rintro ⟨hi, hkept⟩
      rw [hschema]
      refine Ty.mem_holes_nameHoles_of_not_mem hi fun hmem => ?_
      exact ((hnamed i).1 hmem).2 ((mem_keptHoles_iff hst hperm).1 hkept)
  refine ⟨_, _, pairs, generalize_eq env st t, (hst.zonks_of_perm hperm).2 rfl, congrArg Schema.vars hschema, ?vars,
    ?holes, hnamed, ?back, ?ends, hleft⟩
  case vars =>
    rw [hschema]
    refine List.nodup_append.2 ⟨Term.nodup_eraseDups _, hnodup, ?_⟩
    intro x hx y hy hxy
    exact hnew y hy (hxy ▸ hx)
  case holes =>
    rw [hfirst]
    exact (Term.nodup_eraseDups _).filter _
  case back =>
    rw [hschema]
    exact Ty.substVars_nameHoles hnodup hnew
  case ends =>
    rw [hst.zonks_of_perm hperm]
    refine (Ty.applyBindings_of_freeOf fun i hi => ?_).symm
    exact Ty.freeOf_applyBindings hst t i ((hleft i).1 hi).1

/-- Hole 0 is hole 1, and hole 1 is a list. -/
def listState : CheckState := ⟨[(1, .list (.hole 2)), (0, .hole 1)], 5, []⟩

/-- The environment shares hole 3. -/
def sharedEnv : TypeEnv := ⟨[("x", .mono (.hole 3))], []⟩

/-- The variables `b` and `a` are taken, so that the holes 2 and 4 are called `c` and `d`. -/
theorem generalize_captures_taken :
    generalize sharedEnv (.tuple [.var "b", .hole 0, .hole 3, .hole 4, .var "a"]) listState =
        .ok ⟨["b", "a", "c", "d"], .tuple [.var "b", .list (.var "c"), .hole 3, .var "d", .var "a"]⟩ listState ∧
      ∃ pairs : List (Nat × String), ["b", "a", "c", "d"] = ["b", "a"] ++ pairs.map Prod.snd ∧
        (Ty.tuple [.var "b", .list (.var "c"), .hole 3, .var "d", .var "a"]).substVars
            (pairs.map fun p => (p.2, .hole p.1)) =
          .tuple [.var "b", .list (.hole 2), .hole 3, .hole 4, .var "a"] := by
  have hlayered : Ty.Layered listState.bindings := by
    simp [listState, Ty.Layered, Ty.FreeOf]
  have hrun : generalize sharedEnv (.tuple [.var "b", .hole 0, .hole 3, .hole 4, .var "a"]) listState =
      .ok ⟨["b", "a", "c", "d"], .tuple [.var "b", .list (.var "c"), .hole 3, .var "d", .var "a"]⟩ listState := rfl
  have hzonk : Ty.applyBindings listState.bindings (.tuple [.var "b", .hole 0, .hole 3, .hole 4, .var "a"]) =
      .tuple [.var "b", .list (.hole 2), .hole 3, .hole 4, .var "a"] := rfl
  obtain ⟨s, z, pairs, hs, hz, hvars, -, -, -, hback, -⟩ :=
    (generalize_captures hlayered.nodup_keys hlayered.acyclic).2 listState sharedEnv _ (.refl _) hlayered
  cases hrun.symm.trans hs
  rw [hlayered.zonks_of_perm (.refl _), hzonk] at hz
  subst hz
  exact ⟨hrun, pairs, hvars, hback⟩

end Check

end VeriScript
