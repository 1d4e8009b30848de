import VeriScript.Proofs.Ty.MostGeneral

/-!
# The numbers of holes

Unification compares the numbers of holes and does nothing else with them.  So it goes the same way when every hole
has the next number, which leaves the first number to a hole that takes no part.

* `Ty.shift` — a type with the next number for each of its holes.
* `Ty.shift_applyBindings`, `Ty.holes_shift` — what bindings and types come to.
* `Ty.split_shift`, `Ty.solve_shift`, `Ty.unify_shift` — the steps of unification.
-/

namespace VeriScript

/-- What the holes of a list are does not depend on the numbers, as long as different holes keep different ones. -/
theorem eraseDups_map_succ (ns : List Nat) : (ns.map (· + 1)).eraseDups = ns.eraseDups.map (· + 1) := by
  induction h : ns.length using Nat.strongRecOn generalizing ns with
  | ind k ih =>
    cases ns with
    | nil => rfl
    | cons n ns =>
      have hshorter : (ns.filter fun m => !m == n).length < k := by
        have := List.length_filter_le (fun m => !m == n) ns
        simp only [List.length_cons] at h
        omega
      have hfilter : (ns.map (· + 1)).filter (fun m => !m == n + 1) = (ns.filter fun m => !m == n).map (· + 1) := by
        rw [List.filter_map]
        congr 2
        funext m
        simp
      rw [List.map_cons, List.eraseDups_cons, hfilter, ih _ hshorter _ rfl, List.eraseDups_cons, List.map_cons]

namespace Ty

variable {t u : Ty} {i : Nat}

/-- The type with the next number for each of its holes. -/
def shift (t : Ty) : Ty :=
  t.assign fun i => .hole (i + 1)

@[simp] theorem shift_con (name : String) (args : List Ty) : (Ty.con name args).shift = .con name (args.map shift) := by
  rw [shift, assign, assignList_eq]
  rfl

@[simp] theorem shift_var (name : String) : (Ty.var name).shift = .var name := rfl

@[simp] theorem shift_hole (i : Nat) : (Ty.hole i).shift = .hole (i + 1) := rfl

@[simp] theorem shift_record (fields : List (String × Ty)) :
    (Ty.record fields).shift = .record (fields.map fun f => (f.1, f.2.shift)) := by
  rw [shift, assign, assignFields_eq]
  rfl

/-! ## Holes and variables -/

theorem holeOccurrences_shift (t : Ty) : t.shift.holeOccurrences = t.holeOccurrences.map (· + 1) := by
  induction t using induct with
  | con name args ih =>
    simp only [shift_con, holeOccurrences, holeOccurrencesList_eq, List.flatMap_map, List.map_flatMap]
    exact List.flatMap_congr ih
  | var name => rfl
  | hole id => rfl
  | record fields ih =>
    have hfields : (fields.map fun f => (f.1, f.2.shift)).map (fun f => (f.1, f.2.holeOccurrences)) =
        (fields.map fun f => (f.1, f.2.holeOccurrences)).map fun f => (f.1, f.2.map (· + 1)) := by
      simp only [List.map_map]
      exact List.map_congr_left fun f hf => Prod.ext rfl (ih f hf)
    simp only [shift_record, holeOccurrences, holeOccurrencesFields_eq]
    rw [hfields, Table.sortByName_map, List.flatMap_map, List.map_flatMap]

theorem holes_shift (t : Ty) : t.shift.holes = t.holes.map (· + 1) := by
  rw [holes, holeOccurrences_shift, eraseDups_map_succ, holes]

theorem mem_holes_shift : i + 1 ∈ t.shift.holes ↔ i ∈ t.holes := by
  simp [holes_shift]

theorem zero_not_mem_holes_shift (t : Ty) : 0 ∉ t.shift.holes := by
  simp [holes_shift]

theorem varOccurrences_shift (t : Ty) : t.shift.varOccurrences = t.varOccurrences := by
  induction t using induct with
  | con name args ih =>
    simp only [shift_con, varOccurrences, varOccurrencesList_eq, List.flatMap_map]
    exact List.flatMap_congr ih
  | var name => rfl
  | hole id => rfl
  | record fields ih =>
    have hfields : (fields.map fun f => (f.1, f.2.shift)).map (fun f => (f.1, f.2.varOccurrences)) =
        fields.map fun f => (f.1, f.2.varOccurrences) := by
      simp only [List.map_map]
      exact List.map_congr_left fun f hf => Prod.ext rfl (ih f hf)
    simp only [shift_record, varOccurrences, varOccurrencesFields_eq, hfields]

theorem varNames_shift (t : Ty) : t.shift.varNames = t.varNames := by
  rw [varNames, varOccurrences_shift, varNames]

theorem shift_of_not_mem_holes (h : ∀ i, i ∉ t.holes) : t.shift = t := by
  induction t using induct with
  | con name args ih =>
    rw [shift_con]
    have hargs : args.map shift = args.map id :=
      List.map_congr_left fun a ha => ih a ha fun i hi => h i (mem_holes_con.2 ⟨a, ha, hi⟩)
    rw [hargs, List.map_id]
  | var name => rfl
  | hole id => exact absurd (mem_holes_hole.2 rfl) (h id)
  | record fields ih =>
    rw [shift_record]
    have hfields : fields.map (fun f => (f.1, f.2.shift)) = fields.map id :=
      List.map_congr_left fun f hf => Prod.ext rfl (ih f hf fun i hi => h i (mem_holes_record.2 ⟨f, hf, hi⟩))
    rw [hfields, List.map_id]

/-! ## Substitution -/

theorem shift_fill (i : Nat) (u t : Ty) : (fill i u t).shift = fill (i + 1) u.shift t.shift := by
  induction t using induct with
  | con name args ih =>
    simp only [fill, fillList_eq, shift_con, List.map_map]
    exact congrArg (Ty.con name) (List.map_congr_left ih)
  | var name => rfl
  | hole id => by_cases h : id = i <;> simp [fill, h]
  | record fields ih =>
    simp only [fill, fillFields_eq, shift_record, List.map_map]
    exact congrArg Ty.record (List.map_congr_left fun f hf => Prod.ext rfl (ih f hf))

theorem shift_substVars (m : List (String × Ty)) (t : Ty) :
    (substVars m t).shift = substVars (m.map fun e => (e.1, e.2.shift)) t.shift := by
  induction t using induct with
  | con name args ih =>
    simp only [substVars, substVarsList_eq, shift_con, List.map_map]
    exact congrArg (Ty.con name) (List.map_congr_left ih)
  | var name =>
    simp only [substVars, shift_var, Table.get?_map]
    cases Table.get? m name <;> rfl
  | hole id => rfl
  | record fields ih =>
    simp only [substVars, substVarsFields_eq, shift_record, List.map_map]
    exact congrArg Ty.record (List.map_congr_left fun f hf => Prod.ext rfl (ih f hf))

end Ty

def Bindings.shift (bs : Bindings) : Bindings :=
  bs.map fun b => (b.1 + 1, b.2.shift)

namespace Ty

variable {t u : Ty} {i : Nat}

theorem shift_applyBindings (bs : Bindings) (t : Ty) :
    (applyBindings bs t).shift = applyBindings bs.shift t.shift := by
  induction bs with
  | nil => rfl
  | cons b bs ih =>
    rw [applyBindings_cons, shift_fill, ih]
    rfl

/-- The hole that has the first number is not bound. -/
theorem freeOf_shift_hole_zero (bs : Bindings) : FreeOf bs.shift (.hole 0) := by
  intro i hi b hb
  obtain ⟨c, -, rfl⟩ := List.mem_map.1 hb
  rw [mem_holes_hole.1 hi]
  exact Nat.succ_ne_zero c.1

/-! ## Unification -/

def shiftEqs (eqs : List (Ty × Ty)) : List (Ty × Ty) :=
  eqs.map fun e => (e.1.shift, e.2.shift)

@[simp] theorem has_shift (fields : List (String × Ty)) :
    Table.has (fields.map fun f => (f.1, f.2.shift)) = Table.has fields := by
  funext name
  rw [Table.has, Table.get?_map, Option.isSome_map, Table.has]

theorem sameNames_shift (fs gs : List (String × Ty)) :
    Table.sameNames (fs.map fun f => (f.1, f.2.shift)) (gs.map fun g => (g.1, g.2.shift)) = Table.sameNames fs gs := by
  simp only [Table.sameNames, names_map, has_shift]

theorem splitList_shift {as : List Ty} (ih : ∀ a ∈ as, ∀ b, split a.shift b.shift = shiftEqs (split a b))
    (bs : List Ty) : splitList (as.map shift) (bs.map shift) = shiftEqs (splitList as bs) := by
  induction as generalizing bs with
  | nil => rfl
  | cons a as ihas =>
    cases bs with
    | nil => rfl
    | cons b bs =>
      have hhead := ih a List.mem_cons_self b
      have htail := ihas (fun a ha => ih a (List.mem_cons_of_mem _ ha)) bs
      simp only [List.map_cons, splitList, hhead, htail, shiftEqs, List.map_append]

theorem splitField_shift {f : String × Ty} (ih : ∀ b, split f.2.shift b.shift = shiftEqs (split f.2 b))
    (gs : List (String × Ty)) :
    splitField (gs.map fun g => (g.1, g.2.shift)) (f.1, f.2.shift) = shiftEqs (splitField gs f) := by
  simp only [splitField, Table.get?_map]
  cases Table.get? gs f.1 with
  | none => rfl
  | some b => exact ih b

theorem split_shift (a b : Ty) : split a.shift b.shift = shiftEqs (split a b) := by
  induction a using induct generalizing b with
  | con n as ih =>
    cases b with
    | con m bs =>
      simp only [shift_con, split, List.length_map]
      by_cases h : n = m ∧ as.length = bs.length
      · simp only [h, and_self, if_true, splitList_shift ih]
      · simp only [h, if_false, shiftEqs, List.map_cons, List.map_nil, shift_con]
    | _ => simp [split, shiftEqs]
  | var x =>
    cases b with
    | var y => by_cases h : x = y <;> simp [split, shiftEqs, h]
    | _ => simp [split, shiftEqs]
  | hole i =>
    cases b with
    | hole j => by_cases h : i = j <;> simp [split, shiftEqs, h]
    | _ => simp [split, shiftEqs]
  | record fs ih =>
    cases b with
    | record gs =>
      have hfields : (fs.map fun f => (f.1, f.2.shift)).map
          (fun f => (f.1, splitField (gs.map fun g => (g.1, g.2.shift)) f)) =
            (fs.map fun f => (f.1, splitField gs f)).map fun f => (f.1, shiftEqs f.2) := by
        simp only [List.map_map]
        exact List.map_congr_left fun f hf => Prod.ext rfl (splitField_shift (ih f hf) gs)
      simp only [shift_record, split, sameNames_shift, splitFields_eq]
      rw [hfields, Table.sortByName_map, List.flatMap_map]
      by_cases h : Table.sameNames fs gs
      · simp only [h, if_true, shiftEqs, List.map_flatMap]
      · simp [h, shiftEqs]
    | _ => simp [split, shiftEqs]

theorem splitFilled_shift (i : Nat) (u : Ty) (eqs : List (Ty × Ty)) :
    splitFilled (i + 1) u.shift (shiftEqs eqs) = shiftEqs (splitFilled i u eqs) := by
  simp only [splitFilled, shiftEqs, List.flatMap_map, List.map_flatMap]
  refine List.flatMap_congr fun e _ => ?_
  rw [← shift_fill, ← shift_fill, split_shift, shiftEqs]

end Ty

def UnifyFault.shift : UnifyFault → UnifyFault
  | .mismatch expected actual => .mismatch expected.shift actual.shift
  | .infinite t => .infinite t.shift

namespace Ty

theorem solve_shift (fuel : Nat) (eqs : List (Ty × Ty)) (done : Bindings) :
    solve fuel (shiftEqs eqs) done.shift =
      ((solve fuel eqs done).1.shift, (solve fuel eqs done).2.map UnifyFault.shift) := by
  induction fuel generalizing eqs done with
  | zero => cases eqs <;> rfl
  | succ fuel ih =>
    cases eqs with
    | nil => rfl
    | cons e eqs =>
      -- A hole is filled, on whichever side it stands.
      have hfill : ∀ (i : Nat) (t : Ty),
          (if i + 1 ∈ t.shift.holes then (done.shift, some (.infinite t.shift))
            else solve fuel (splitFilled (i + 1) t.shift (shiftEqs eqs)) ((i + 1, t.shift) :: done.shift)) =
          let r := if i ∈ t.holes then (done, some (.infinite t))
            else solve fuel (splitFilled i t eqs) ((i, t) :: done)
          (r.1.shift, r.2.map UnifyFault.shift) := by
        intro i t
        by_cases hi : i ∈ t.holes
        · simp [mem_holes_shift, hi, UnifyFault.shift]
        · simp only [mem_holes_shift, hi, if_false, splitFilled_shift]
          exact ih (splitFilled i t eqs) ((i, t) :: done)
      obtain ⟨a, b⟩ := e
      cases a with
      | hole i => exact hfill i b
      | con n as =>
        cases b with
        | hole j => exact hfill j (.con n as)
        | _ => rfl
      | var x =>
        cases b with
        | hole j => exact hfill j (.var x)
        | _ => rfl
      | record fs =>
        cases b with
        | hole j => exact hfill j (.record fs)
        | _ => rfl

theorem unify_shift (bs : Bindings) (a b : Ty) :
    unify bs.shift a.shift b.shift = ((unify bs a b).1.shift, (unify bs a b).2.map UnifyFault.shift) := by
  simp only [unify]
  rw [← shift_applyBindings, ← shift_applyBindings, holes_shift, holes_shift, List.length_map, List.length_map,
    split_shift, solve_shift]

end Ty

end VeriScript
