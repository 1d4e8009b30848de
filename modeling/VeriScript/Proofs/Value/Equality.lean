import Mathlib.Data.List.Zip
import VeriScript.Proofs.Primitive.Operations

/-!
# Equality and the order of its arguments

Values are compared part by part until two parts differ, and a function that is met before ends the comparison with an
error.  The fields of records are met in the order of the first record, so the order of the arguments matters when
fields that differ and fields that are functions come in different orders.

* `Value.Distinct` — no record has a field twice.
* `Value.Plain` — no functions and no actions.
* `Value.Aligned` — records that are compared with each other have their fields in the same order.
* `Value.equal_true_symm` — values that are equal are equal the other way round.
* `Value.equal_comm_of_aligned` — the outcome for aligned values, errors included.
* `Value.equal_exchange` — what the order of the arguments can change.
* `Value.equal_field_order` — what it does change.
-/

namespace VeriScript

/-! ## Scalars and terms -/

theorem Scalar.same_comm (a b : Scalar) : a.same b = b.same a :=
  Bool.beq_comm

theorem Term.same_comm (t u : Term) : t.same u = u.same t := by
  induction t generalizing u with
  | const t a =>
    cases u with
    | const u b => simp only [Term.same, Scalar.same_comm a b, BEq.comm (a := t)]
    | _ => rfl
  | var t a =>
    cases u with
    | var u b => simp only [Term.same, BEq.comm (a := t), BEq.comm (a := a)]
    | _ => rfl
  | unary t op a ih =>
    cases u with
    | unary u op' b => simp only [Term.same, ih b, BEq.comm (a := t), BEq.comm (a := op)]
    | _ => rfl
  | binary t op a b iha ihb =>
    cases u with
    | binary u op' c d => simp only [Term.same, iha c, ihb d, BEq.comm (a := t), BEq.comm (a := op)]
    | _ => rfl
  | ite a b c iha ihb ihc =>
    cases u with
    | ite d e f => simp only [Term.same, iha d, ihb e, ihc f]
    | _ => rfl

theorem Term.sameAll_comm (ts us : List Term) : Term.sameAll ts us = Term.sameAll us ts := by
  induction ts generalizing us with
  | nil => cases us <;> rfl
  | cons t ts ih =>
    cases us with
    | nil => rfl
    | cons u us => simp only [Term.sameAll, Term.same_comm t u, ih us]

theorem Counterexample.same_comm (cex cex' : Counterexample) :
    Counterexample.same cex cex' = Counterexample.same cex' cex := by
  induction cex generalizing cex' with
  | nil => cases cex' <;> rfl
  | cons e cex ih =>
    cases cex' with
    | nil => rfl
    | cons e' cex' => simp only [Counterexample.same, Scalar.same_comm e.2 e'.2, ih cex', BEq.comm (a := e.1)]

theorem Spec.same_comm (s s' : Spec) : s.same s' = s'.same s := by
  simp only [Spec.same, Term.sameAll_comm s.draft.vars, Term.sameAll_comm s.draft.pre,
    Term.sameAll_comm s.draft.post, BEq.comm (a := s.name), BEq.comm (a := s.status)]

/-! ## Comparing part by part -/

namespace Value

/-- The values agree in everything but their parts. -/
def sameHead : Value → Value → Bool
  | .array as, .array bs | .tuple as, .tuple bs => as.length == bs.length
  | .record fs, .record gs => Table.sameNames fs gs
  | .unit, .unit => true
  | .bool x, .bool y => x == y
  | .int x, .int y => x == y
  | .string x, .string y => x == y
  | .term x, .term y => x.same y
  | .termType x, .termType y => x == y
  | .proved x s, .proved y t => x.same y && s == t
  | .proofResult x s, .proofResult y t => x == y && Counterexample.same s t
  | .spec x, .spec y => x.same y
  | .foreign x, .foreign y => x == y
  | _, _ => false

/-- The parts that are compared with each other, in the order in which that happens. -/
def compared : Value → Value → List (Value × Value)
  | .array as, .array bs | .tuple as, .tuple bs => as.zip bs
  | .record fs, .record gs => fs.filterMap fun f => (Table.get? gs f.1).map fun b => (f.2, b)
  | _, _ => []

/-- Compare pair by pair until the values of one differ. -/
def allEqual : List (Value × Value) → Except RuntimeFault Bool
  | [] => .ok true
  | p :: ps => do if ← p.1.equal p.2 then allEqual ps else return false

theorem equalList_eq {as bs : List Value} (h : as.length = bs.length) : equalList as bs = allEqual (as.zip bs) := by
  induction as generalizing bs with
  | nil => simp [equalList, allEqual]
  | cons a as ih =>
    cases bs with
    | nil => simp at h
    | cons b bs => rw [equalList, List.zip_cons_cons, allEqual, ih (by simpa using h)]

theorem equalFields_eq {fs gs : List (String × Value)} (h : ∀ f ∈ fs, Table.has gs f.1) :
    equalFields fs gs = allEqual (fs.filterMap fun f => (Table.get? gs f.1).map fun b => (f.2, b)) := by
  induction fs with
  | nil => rfl
  | cons f fs ih =>
    obtain ⟨hf, hfs⟩ := List.forall_mem_cons.1 h
    obtain ⟨b, hb⟩ := Option.isSome_iff_exists.1 hf
    rw [equalFields, List.filterMap_cons, hb, ih hfs]
    rfl

theorem ok_eq_ite (c : Bool) : (.ok c : Except RuntimeFault Bool) = if c then .ok true else .ok false := by
  cases c <;> rfl

/-- Values are compared head first, and then part by part. -/
theorem equal_eq (a b : Value) : a.equal b =
    if a.isFunctional || b.isFunctional then .error .incomparable
    else if a.sameHead b then allEqual (a.compared b) else .ok false := by
  cases a with
  | array as | tuple as =>
    cases b with
    | array bs | tuple bs =>
      by_cases h : as.length = bs.length
      · simp [equal, isFunctional, sameHead, compared, h, equalList_eq h]
      · simp [equal, isFunctional, sameHead, h]
    | _ => simp [equal, isFunctional, sameHead]
  | record fs =>
    cases b with
    | record gs =>
      by_cases h : Table.sameNames fs gs
      · have hhas := List.all_eq_true.1 (Bool.and_eq_true_iff.1 h).1
        have hfields : ∀ f ∈ fs, Table.has gs f.1 := fun f hf => hhas f.1 (List.mem_map.2 ⟨f, hf, rfl⟩)
        simp [equal, isFunctional, sameHead, compared, h, equalFields_eq hfields]
      · simp [equal, isFunctional, sameHead, h]
    | _ => simp [equal, isFunctional, sameHead]
  -- a value without parts is its head, so comparing heads settles it
  | _ => cases b <;> first | rfl | exact ok_eq_ite _

variable {ps : List (Value × Value)} {a b : Value}

theorem allEqual_eq_true : allEqual ps = .ok true ↔ ∀ p ∈ ps, p.1.equal p.2 = .ok true := by
  induction ps with
  | nil => simp [allEqual]
  | cons p ps ih =>
    rw [allEqual, List.forall_mem_cons, ← ih]
    rcases p.1.equal p.2 with _ | _ | _ <;> simp [bind, Except.bind, pure, Except.pure]

theorem exists_allEqual_eq_ok (h : ∀ p ∈ ps, ∃ r, p.1.equal p.2 = .ok r) : ∃ r, allEqual ps = .ok r := by
  induction ps with
  | nil => exact ⟨true, rfl⟩
  | cons p ps ih =>
    obtain ⟨⟨r, hr⟩, hps⟩ := List.forall_mem_cons.1 h
    rw [allEqual, hr]
    cases r with
    | true => exact ih hps
    | false => exact ⟨false, rfl⟩

theorem allEqual_map_swap (h : ∀ p ∈ ps, p.1.equal p.2 = p.2.equal p.1) :
    allEqual (ps.map Prod.swap) = allEqual ps := by
  induction ps with
  | nil => rfl
  | cons p ps ih =>
    obtain ⟨hp, hps⟩ := List.forall_mem_cons.1 h
    rw [List.map_cons, allEqual, allEqual, ih hps, hp]
    rfl

theorem sameHead_comm (a b : Value) : a.sameHead b = b.sameHead a := by
  cases a <;> cases b <;> first
    | rfl
    | exact BEq.comm
    | exact Term.same_comm _ _
    | exact Spec.same_comm _ _
    | exact Bool.and_comm ((Table.names _).all _) _
    | exact congrArg₂ and (Term.same_comm _ _) BEq.comm
    | exact congrArg₂ and BEq.comm (Counterexample.same_comm _ _)

/-! ## Conditions on values -/

/-- The values a value is made of and that comparing it looks at. -/
def parts : Value → List Value
  | .array vs | .tuple vs => vs
  | .record fields => fields.map (·.2)
  | _ => []

/-- No record in the value has a field twice. -/
inductive Distinct : Value → Prop
  | mk {a : Value} (names : ∀ fields, a = .record fields → (Table.names fields).Nodup)
      (parts : ∀ u ∈ a.parts, Distinct u) : Distinct a

/-- There are no functions and no actions in the value. -/
inductive Plain : Value → Prop
  | mk {a : Value} (head : a.isFunctional = false) (parts : ∀ u ∈ a.parts, Plain u) : Plain a

/-- Records that are compared with each other have their fields in the same order. -/
inductive Aligned : Value → Value → Prop
  | mk {a b : Value}
      (order : ∀ fs gs, a = .record fs → b = .record gs → Table.sameNames fs gs → Table.names fs = Table.names gs)
      (parts : ∀ p ∈ a.compared b, Aligned p.1 p.2) : Aligned a b

theorem distinct_iff {a : Value} :
    a.Distinct ↔ (∀ fields, a = .record fields → (Table.names fields).Nodup) ∧ ∀ u ∈ a.parts, u.Distinct :=
  ⟨fun ⟨names, parts⟩ => ⟨names, parts⟩, fun ⟨names, parts⟩ => ⟨names, parts⟩⟩

theorem plain_iff {a : Value} : a.Plain ↔ a.isFunctional = false ∧ ∀ u ∈ a.parts, u.Plain :=
  ⟨fun ⟨head, parts⟩ => ⟨head, parts⟩, fun ⟨head, parts⟩ => ⟨head, parts⟩⟩

theorem Distinct.of_no_parts {a : Value} (h : a.parts = []) : a.Distinct := by
  refine .mk (fun fields hrec => ?_) (by simp [h])
  subst hrec
  have hnil : fields = [] := List.map_eq_nil_iff.1 h
  simp [hnil, Table.names]

theorem Plain.of_no_parts {a : Value} (hfun : a.isFunctional = false) (h : a.parts = []) : a.Plain :=
  .mk hfun (by simp [h])

theorem distinct_record {fields : List (String × Value)} (hnames : (Table.names fields).Nodup)
    (h : ∀ f ∈ fields, f.2.Distinct) : (record fields).Distinct :=
  .mk (fun _ heq => Value.record.inj heq ▸ hnames) (List.forall_mem_map.2 h)

theorem mem_parts_of_mem_compared {p : Value × Value} (h : p ∈ a.compared b) : p.1 ∈ a.parts ∧ p.2 ∈ b.parts := by
  unfold compared at h
  split at h
  · exact List.of_mem_zip h
  · exact List.of_mem_zip h
  · rename_i fs gs
    obtain ⟨f, hf, hp⟩ := List.mem_filterMap.1 h
    obtain ⟨v, hv, rfl⟩ := Option.map_eq_some_iff.1 hp
    exact ⟨List.mem_map.2 ⟨f, hf, rfl⟩, List.mem_map.2 ⟨_, Table.mem_of_get? hv, rfl⟩⟩
  · cases h

/-- What is compared one way is compared the other way. -/
theorem swap_mem_compared (ha : a.Distinct) {p : Value × Value} (h : p ∈ a.compared b) : p.swap ∈ b.compared a := by
  unfold compared at h
  split at h
  · rw [compared, ← List.zip_swap]
    exact List.mem_map_of_mem h
  · rw [compared, ← List.zip_swap]
    exact List.mem_map_of_mem h
  · rename_i fs gs
    obtain ⟨⟨name, v⟩, hf, hp⟩ := List.mem_filterMap.1 h
    obtain ⟨w, hw, rfl⟩ := Option.map_eq_some_iff.1 hp
    have hget := Table.get?_of_mem ((distinct_iff.1 ha).1 fs rfl) hf
    exact List.mem_filterMap.2 ⟨(name, w), Table.mem_of_get? hw, by simp [hget]⟩
  · cases h

theorem compared_of_names {fs gs all : List (String × Value)} (hnames : Table.names fs = Table.names gs)
    (hall : ∀ g ∈ gs, Table.get? all g.1 = some g.2) :
    (fs.filterMap fun f => (Table.get? all f.1).map fun b => (f.2, b)) = (fs.map (·.2)).zip (gs.map (·.2)) := by
  induction fs generalizing gs with
  | nil => rfl
  | cons f fs ih =>
    cases gs with
    | nil => simp [Table.names] at hnames
    | cons g gs =>
      obtain ⟨hname, hrest⟩ := List.cons_eq_cons.1 hnames
      obtain ⟨hg, hgs⟩ := List.forall_mem_cons.1 hall
      rw [List.filterMap_cons, show f.1 = g.1 from hname, hg, ih hrest hgs]
      rfl

/-- Aligned values have their parts compared in the same order both ways. -/
theorem compared_swap (ha : a.Distinct) (hb : b.Distinct) (h : a.Aligned b) (hhead : a.sameHead b) :
    b.compared a = (a.compared b).map Prod.swap := by
  unfold compared
  split
  · rw [List.zip_swap]
  · rw [List.zip_swap]
  · rename_i gs fs
    obtain ⟨hfs, -⟩ := distinct_iff.1 ha
    obtain ⟨hgs, -⟩ := distinct_iff.1 hb
    obtain ⟨order, -⟩ := h
    have hnames := order fs gs rfl rfl hhead
    rw [compared_of_names hnames fun g hg => Table.get?_of_mem (hgs gs rfl) hg,
      compared_of_names hnames.symm fun f hf => Table.get?_of_mem (hfs fs rfl) hf, List.zip_swap]
  · split <;> simp_all

/-! ## Exchanging the arguments -/

theorem equal_eq_true : a.equal b = .ok true ↔
    (a.isFunctional || b.isFunctional) = false ∧ a.sameHead b ∧ ∀ p ∈ a.compared b, p.1.equal p.2 = .ok true := by
  rw [equal_eq, ← allEqual_eq_true]
  by_cases hfun : (a.isFunctional || b.isFunctional) = true
  · simp only [hfun, if_true, reduceCtorEq, Bool.true_eq_false, false_and]
  · by_cases hhead : a.sameHead b <;> simp [hfun, hhead]

theorem equal_true_symm (ha : a.Distinct) (hb : b.Distinct) (h : a.equal b = .ok true) : b.equal a = .ok true := by
  induction ha generalizing b with
  | @mk a names _ ih =>
    obtain ⟨hfun, hhead, hparts⟩ := equal_eq_true.1 h
    rw [equal_eq_true, Bool.or_comm, sameHead_comm]
    refine ⟨hfun, hhead, fun p hp => ?_⟩
    have hswap := swap_mem_compared hb hp
    have hmem := mem_parts_of_mem_compared hswap
    exact ih p.2 hmem.1 ((distinct_iff.1 hb).2 p.1 hmem.2) (hparts p.swap hswap)

theorem equal_comm_of_aligned (ha : a.Distinct) (hb : b.Distinct) (h : a.Aligned b) : a.equal b = b.equal a := by
  induction h with
  | @mk a b order hparts ih =>
    have hswap := compared_swap ha hb (.mk order hparts)
    obtain ⟨-, has⟩ := distinct_iff.1 ha
    obtain ⟨-, hbs⟩ := distinct_iff.1 hb
    rw [equal_eq a b, equal_eq b a, sameHead_comm b a, Bool.or_comm b.isFunctional]
    by_cases hhead : a.sameHead b
    · rw [hswap hhead, allEqual_map_swap fun p hp => ?_]
      have hmem := mem_parts_of_mem_compared hp
      exact ih p hp (has _ hmem.1) (hbs _ hmem.2)
    · simp only [hhead, Bool.false_eq_true, if_false]

theorem exists_equal_eq_ok (ha : a.Plain) (hb : b.Plain) : ∃ r, a.equal b = .ok r := by
  induction ha generalizing b with
  | @mk a hfa _ ih =>
    obtain ⟨hfb, hbs⟩ := plain_iff.1 hb
    rw [equal_eq, hfa, hfb]
    by_cases hhead : a.sameHead b
    · obtain ⟨r, hr⟩ := exists_allEqual_eq_ok fun p (hp : p ∈ a.compared b) =>
        ih p.1 (mem_parts_of_mem_compared hp).1 (hbs p.2 (mem_parts_of_mem_compared hp).2)
      exact ⟨r, by simp [hhead, hr]⟩
    · exact ⟨false, by simp [hhead]⟩

theorem equal_cases (a b : Value) :
    a.equal b = .ok true ∨ a.equal b = .ok false ∨ a.equal b = .error .incomparable := by
  have h := equal_meets a b
  rcases hab : a.equal b with e | _ | _
  · rw [hab] at h
    exact .inr (.inr (congrArg _ h))
  · exact .inr (.inl rfl)
  · exact .inl rfl

/-- The order of the arguments changes the outcome in one way only: a comparison that ends with a difference one way
may meet a function first the other way.  It cannot where fields come in the same order, nor where there are no
functions. -/
theorem equal_exchange {a b : Value} (ha : a.Distinct) (hb : b.Distinct) :
    (a.equal b = b.equal a ∨
      a.equal b = .ok false ∧ b.equal a = .error .incomparable ∨
      a.equal b = .error .incomparable ∧ b.equal a = .ok false) ∧
    (a.Aligned b → a.equal b = b.equal a) ∧
    (a.Plain → b.Plain → ∃ r, a.equal b = .ok r ∧ b.equal a = .ok r) := by
  have hsymm : a.equal b = .ok true ↔ b.equal a = .ok true := ⟨equal_true_symm ha hb, equal_true_symm hb ha⟩
  refine ⟨?_, equal_comm_of_aligned ha hb, fun hpa hpb => ?_⟩
  · rcases equal_cases a b with hab | hab | hab <;> rcases equal_cases b a with hba | hba | hba <;> simp_all
  · obtain ⟨r, hr⟩ := exists_equal_eq_ok hpa hpb
    obtain ⟨r', hr'⟩ := exists_equal_eq_ok hpb hpa
    cases r <;> cases r' <;> simp_all

/-- Records with their fields in two orders. -/
theorem equal_exchange_record :
    let a : Value := .record [("x", .int 1), ("y", .bool true)]
    let b : Value := .record [("y", .bool true), ("x", .int 2)]
    a.Distinct ∧ b.Distinct ∧ a.Plain ∧ b.Plain ∧ ∃ r, a.equal b = .ok r ∧ b.equal a = .ok r := by
  intro a b
  have ha : a.Distinct := distinct_record (by decide) (by
    simpa using ⟨.of_no_parts rfl, .of_no_parts rfl⟩)
  have hb : b.Distinct := distinct_record (by decide) (by
    simpa using ⟨.of_no_parts rfl, .of_no_parts rfl⟩)
  have hpa : a.Plain := .mk rfl (by simpa [a, parts] using ⟨.of_no_parts rfl rfl, .of_no_parts rfl rfl⟩)
  have hpb : b.Plain := .mk rfl (by simpa [b, parts] using ⟨.of_no_parts rfl rfl, .of_no_parts rfl rfl⟩)
  exact ⟨ha, hb, hpa, hpb, (equal_exchange ha hb).2.2 hpa hpb⟩

/-- A number that differs and a function, in both orders of the fields. -/
theorem equal_field_order :
    let f : Value := .builtin (.op .not) [] none
    let a : Value := .record [("a", .int 1), ("f", f)]
    let b : Value := .record [("f", f), ("a", .int 2)]
    a.Distinct ∧ b.Distinct ∧ a.equal b = .ok false ∧ b.equal a = .error .incomparable := by
  intro f a b
  refine ⟨distinct_record (by decide) ?_, distinct_record (by decide) ?_, ?_, ?_⟩
  · simpa using ⟨.of_no_parts rfl, .of_no_parts rfl⟩
  · simpa using ⟨.of_no_parts rfl, .of_no_parts rfl⟩
  · rfl
  · rfl

end Value

end VeriScript
