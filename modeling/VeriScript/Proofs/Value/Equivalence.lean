import Mathlib.Logic.Relation
import VeriScript.Proofs.Value.Equality

/-!
# Equality of data

Values without functions and actions can always be compared, and being equal is an equivalence relation on them that
respects the way values are put together.

* `Value.PlainData`, `Value.Comparable` — such values; no record in them has a field twice.
* `Value.Frame`, `Value.plug` — a value with one part missing, at any depth, and the part put in.
* `Value.Rearranged` — the fields of records inside a value come in other orders.
* `Value.equal_self`, `Value.equal_true_trans` — reflexivity and transitivity, by one step of the comparison.
* `Value.equal_plug` — a part may be exchanged for an equal one.
* `Value.equal_equivalence` — all laws together.
-/

namespace VeriScript

/-! ## Scalars and terms -/

/-- The term with its scalars as numbers. -/
def Term.numeric : Term → Term
  | .const t a => .const t (.int a.toInt)
  | .var t x => .var t x
  | .unary t op a => .unary t op a.numeric
  | .binary t op a b => .binary t op a.numeric b.numeric
  | .ite a b c => .ite a.numeric b.numeric c.numeric

theorem Term.same_iff {t u : Term} : t.same u = true ↔ t.numeric = u.numeric := by
  induction t generalizing u with
  | const t a => cases u <;> simp [Term.same, Term.numeric, Scalar.same]
  | var t x => cases u <;> simp [Term.same, Term.numeric]
  | unary t op a ih => cases u <;> simp [Term.same, Term.numeric, ih, and_assoc]
  | binary t op a b iha ihb => cases u <;> simp [Term.same, Term.numeric, iha, ihb, and_assoc]
  | ite a b c iha ihb ihc => cases u <;> simp [Term.same, Term.numeric, iha, ihb, ihc, and_assoc]

theorem Term.sameAll_iff {ts us : List Term} :
    Term.sameAll ts us = true ↔ ts.map Term.numeric = us.map Term.numeric := by
  induction ts generalizing us with
  | nil => cases us <;> simp [Term.sameAll]
  | cons t ts ih => cases us <;> simp [Term.sameAll, Term.same_iff, ih]

theorem Counterexample.same_iff {cex cex' : Counterexample} : Counterexample.same cex cex' = true ↔
    (cex.map fun e => (e.1, e.2.toInt)) = cex'.map fun e => (e.1, e.2.toInt) := by
  induction cex generalizing cex' with
  | nil => cases cex' <;> simp [Counterexample.same]
  | cons e cex ih => cases cex' <;> simp [Counterexample.same, Scalar.same, ih]

theorem Spec.same_iff {s s' : Spec} : s.same s' = true ↔
    s.name = s'.name ∧ s.status = s'.status ∧ s.draft.vars.map Term.numeric = s'.draft.vars.map Term.numeric ∧
      s.draft.pre.map Term.numeric = s'.draft.pre.map Term.numeric ∧
      s.draft.post.map Term.numeric = s'.draft.post.map Term.numeric := by
  simp [Spec.same, Term.sameAll_iff, and_assoc]

namespace Value

variable {a b c : Value}

/-! ## One step of the comparison -/

theorem sameHead_self (h : a.isFunctional = false) : a.sameHead a = true := by
  cases a <;> simp_all [sameHead, isFunctional, Term.same_iff, Spec.same_iff, Counterexample.same_iff,
    Table.sameNames_iff]

theorem sameHead_trans (hab : a.sameHead b = true) (hbc : b.sameHead c = true) : a.sameHead c = true := by
  cases b <;> cases a <;> simp only [sameHead, Bool.false_eq_true] at hab <;>
    cases c <;> simp only [sameHead, Bool.false_eq_true] at hbc <;>
    simp_all [sameHead, Term.same_iff, Spec.same_iff, Counterexample.same_iff, Table.sameNames_iff]

theorem eq_of_mem_zip_self {α : Type} {xs : List α} {p : α × α} (h : p ∈ xs.zip xs) : p.1 = p.2 := by
  induction xs with
  | nil => cases h
  | cons x xs ih =>
    rcases List.mem_cons.1 h with rfl | h
    · rfl
    · exact ih h

theorem eq_of_mem_compared_self (ha : a.Distinct) {p : Value × Value} (h : p ∈ a.compared a) : p.1 = p.2 := by
  cases a with
  | array as => exact eq_of_mem_zip_self h
  | tuple as => exact eq_of_mem_zip_self h
  | record fs =>
    obtain ⟨f, hf, hp⟩ := List.mem_filterMap.1 h
    rw [Table.get?_of_mem ((distinct_iff.1 ha).1 fs rfl) hf] at hp
    cases hp
    rfl
  | _ => cases h

theorem exists_zip_between {α : Type} {xs ys zs : List α} (hlen : xs.length = ys.length) {p : α × α}
    (h : p ∈ xs.zip zs) (hlen' : ys.length = zs.length) : ∃ y, (p.1, y) ∈ xs.zip ys ∧ (y, p.2) ∈ ys.zip zs := by
  induction xs generalizing ys zs with
  | nil => cases h
  | cons x xs ih =>
    rcases ys with _ | ⟨y, ys⟩
    · cases hlen
    rcases zs with _ | ⟨z, zs⟩
    · cases hlen'
    rcases List.mem_cons.1 h with rfl | h
    · exact ⟨y, List.mem_cons_self, List.mem_cons_self⟩
    · obtain ⟨y', hxy, hyz⟩ := ih (by simpa using hlen) h (by simpa using hlen')
      exact ⟨y', List.mem_cons_of_mem _ hxy, List.mem_cons_of_mem _ hyz⟩

/-- What is compared in two values is compared with a part of any value between them. -/
theorem exists_compared_between (hab : a.sameHead b = true) (hbc : b.sameHead c = true) {p : Value × Value}
    (h : p ∈ a.compared c) : ∃ v, (p.1, v) ∈ a.compared b ∧ (v, p.2) ∈ b.compared c := by
  unfold compared at h
  split at h
  case h_1 | h_2 =>
    cases b <;> simp only [sameHead, Bool.false_eq_true] at hab
    rename_i bs
    exact exists_zip_between (by simpa using hab) h (by simpa [sameHead] using hbc)
  · rename_i fs hs
    cases b <;> simp only [sameHead, Bool.false_eq_true] at hab
    rename_i gs
    obtain ⟨f, hf, hp⟩ := List.mem_filterMap.1 h
    obtain ⟨w, hw, rfl⟩ := Option.map_eq_some_iff.1 hp
    -- the record between the two has the field as well
    have hhas : Table.has gs f.1 = true := by
      rw [← Table.sameNames_iff.1 hab, Table.has_iff_mem_names]
      exact List.mem_map_of_mem hf
    obtain ⟨v, hv⟩ := Option.isSome_iff_exists.1 hhas
    refine ⟨v, List.mem_filterMap.2 ⟨f, hf, by simp [hv]⟩, List.mem_filterMap.2 ⟨(f.1, v), Table.mem_of_get? hv, ?_⟩⟩
    simp [hw]
  · cases h

/-! ## Data -/

/-- A value without functions and actions in which no record has a field twice. -/
structure PlainData (a : Value) : Prop where
  plain : a.Plain
  distinct : a.Distinct

theorem plainData_iff : a.PlainData ↔ a.isFunctional = false ∧
    (∀ fields, a = .record fields → (Table.names fields).Nodup) ∧ ∀ u ∈ a.parts, u.PlainData := by
  constructor
  · rintro ⟨hplain, hdistinct⟩
    obtain ⟨hfun, hplains⟩ := plain_iff.1 hplain
    obtain ⟨hnames, hdistincts⟩ := distinct_iff.1 hdistinct
    exact ⟨hfun, hnames, fun u hu => ⟨hplains u hu, hdistincts u hu⟩⟩
  · rintro ⟨hfun, hnames, hparts⟩
    exact ⟨.mk hfun fun u hu => (hparts u hu).plain, .mk hnames fun u hu => (hparts u hu).distinct⟩

theorem PlainData.of_no_parts (hfun : a.isFunctional = false) (h : a.parts = []) : a.PlainData :=
  ⟨.of_no_parts hfun h, .of_no_parts h⟩

theorem equal_self (ha : a.PlainData) : a.equal a = .ok true := by
  obtain ⟨hplain, hdistinct⟩ := ha
  induction hplain with
  | @mk a hfun _ ih =>
    rw [equal_eq_true]
    refine ⟨by simp [hfun], sameHead_self hfun, fun p hp => ?_⟩
    have hmem := (mem_parts_of_mem_compared hp).1
    rw [← eq_of_mem_compared_self hdistinct hp]
    exact ih p.1 hmem ((distinct_iff.1 hdistinct).2 p.1 hmem)

theorem equal_true_trans (ha : a.Plain) (hab : a.equal b = .ok true) (hbc : b.equal c = .ok true) :
    a.equal c = .ok true := by
  induction ha generalizing b c with
  | @mk a hfun _ ih =>
    obtain ⟨-, hhead, hparts⟩ := equal_eq_true.1 hab
    obtain ⟨hfuns, hhead', hparts'⟩ := equal_eq_true.1 hbc
    rw [equal_eq_true]
    refine ⟨by simp_all, sameHead_trans hhead hhead', fun p hp => ?_⟩
    obtain ⟨v, hv, hv'⟩ := exists_compared_between hhead hhead' hp
    exact ih p.1 (mem_parts_of_mem_compared hp).1 (hparts (p.1, v) hv) (hparts' (v, p.2) hv')

/-- Equal values compare alike with everything. -/
theorem equal_congr {a' b' : Value} (ha : a.PlainData) (hb : b.PlainData) (ha' : a'.PlainData) (hb' : b'.PlainData)
    (haa' : a.equal a' = .ok true) (hbb' : b.equal b' = .ok true) : a.equal b = a'.equal b' := by
  have haa := equal_true_symm ha.distinct ha'.distinct haa'
  have hbb := equal_true_symm hb.distinct hb'.distinct hbb'
  have hiff : a.equal b = .ok true ↔ a'.equal b' = .ok true := by
    constructor
    · intro h
      exact equal_true_trans ha'.plain haa (equal_true_trans ha.plain h hbb')
    · intro h
      exact equal_true_trans ha.plain haa' (equal_true_trans ha'.plain h hbb)
  obtain ⟨r, hr⟩ := exists_equal_eq_ok ha.plain hb.plain
  obtain ⟨r', hr'⟩ := exists_equal_eq_ok ha'.plain hb'.plain
  rw [hr, hr'] at hiff ⊢
  cases r <;> cases r' <;> simp_all

/-! ## Parts exchanged for equal ones -/

/-- A value with one part missing. -/
inductive Frame where
  | array (before after : List Value)
  | tuple (before after : List Value)
  | record (before : List (String × Value)) (name : String) (after : List (String × Value))

namespace Frame

/-- The value with the part put in. -/
def plug : Frame → Value → Value
  | .array before after, v => .array (before ++ v :: after)
  | .tuple before after, v => .tuple (before ++ v :: after)
  | .record before name after, v => .record (before ++ (name, v) :: after)

def siblings : Frame → List Value
  | .array before after | .tuple before after => before ++ after
  | .record before _ after => (before ++ after).map (·.2)

variable {frame : Frame} {u w : Value}

theorem mem_parts_plug {u v : Value} : v ∈ (frame.plug u).parts ↔ v = u ∨ v ∈ frame.siblings := by
  cases frame <;> simp only [plug, siblings, parts, List.map_append, List.map_cons, List.mem_append, List.mem_cons] <;>
    tauto

theorem isFunctional_plug (frame : Frame) (u : Value) : (frame.plug u).isFunctional = false := by
  cases frame <;> rfl

theorem nodup_plug (h : ∀ fields, frame.plug u = .record fields → (Table.names fields).Nodup) :
    ∀ fields, frame.plug w = .record fields → (Table.names fields).Nodup := by
  intro fields hw
  cases frame with
  | array before after => cases hw
  | tuple before after => cases hw
  | record before name after =>
    cases hw
    simpa [Table.names] using h _ rfl

theorem plainData_plug_iff {u : Value} : (frame.plug u).PlainData ↔ u.PlainData ∧
    (∀ fields, frame.plug u = .record fields → (Table.names fields).Nodup) ∧ ∀ v ∈ frame.siblings, v.PlainData := by
  simp only [plainData_iff (a := frame.plug u), isFunctional_plug, mem_parts_plug, forall_eq_or_imp, true_and]
  tauto

theorem plainData_part {u : Value} (h : (frame.plug u).PlainData) : u.PlainData :=
  (plainData_plug_iff.1 h).1

theorem plainData_exchange (h : (frame.plug u).PlainData) (hw : w.PlainData) : (frame.plug w).PlainData := by
  obtain ⟨-, hnames, hsiblings⟩ := plainData_plug_iff.1 h
  exact plainData_plug_iff.2 ⟨hw, nodup_plug hnames, hsiblings⟩

theorem sameHead_plug (frame : Frame) (u w : Value) : (frame.plug u).sameHead (frame.plug w) = true := by
  cases frame with
  | array before after => simp [plug, sameHead]
  | tuple before after => simp [plug, sameHead]
  | record before name after =>
    refine Table.sameNames_iff.2 fun other => ?_
    by_cases h : name = other <;> simp [Table.has, Table.get?_append, Table.get?, h]

theorem mem_zip_exchange {before after : List Value} {p : Value × Value}
    (h : p ∈ (before ++ u :: after).zip (before ++ w :: after)) : p = (u, w) ∨ p.1 = p.2 ∧ p.1 ∈ before ++ after := by
  rw [List.zip_append rfl, List.mem_append, List.zip_cons_cons, List.mem_cons] at h
  rcases h with h | h | h
  · exact .inr ⟨eq_of_mem_zip_self h, List.mem_append_left _ (List.of_mem_zip h).1⟩
  · exact .inl h
  · exact .inr ⟨eq_of_mem_zip_self h, List.mem_append_right _ (List.of_mem_zip h).1⟩

/-- The part that was put in is compared with the other one, and every other part with itself. -/
theorem mem_compared_plug (hw : (frame.plug w).PlainData) {p : Value × Value}
    (h : p ∈ (frame.plug u).compared (frame.plug w)) : p = (u, w) ∨ p.1 = p.2 ∧ p.1 ∈ frame.siblings := by
  cases frame with
  | array before after => exact mem_zip_exchange h
  | tuple before after => exact mem_zip_exchange h
  | record before name after =>
    obtain ⟨-, hnames, -⟩ := plainData_plug_iff.1 hw
    have hget : ∀ g ∈ before ++ (name, w) :: after, Table.get? (before ++ (name, w) :: after) g.1 = some g.2 :=
      fun g hg => Table.get?_of_mem (hnames _ rfl) hg
    obtain ⟨f, hf, hp⟩ := List.mem_filterMap.1 h
    rcases List.mem_append.1 hf with hf | hf
    · rw [hget f (List.mem_append_left _ hf)] at hp
      cases hp
      exact .inr ⟨rfl, List.mem_map_of_mem (List.mem_append_left _ hf)⟩
    rcases List.mem_cons.1 hf with rfl | hf
    · rw [hget (name, w) (by simp)] at hp
      cases hp
      exact .inl rfl
    · rw [hget f (List.mem_append_right _ (List.mem_cons_of_mem _ hf))] at hp
      cases hp
      exact .inr ⟨rfl, List.mem_map_of_mem (List.mem_append_right _ hf)⟩

theorem equal_plug_frame (hu : (frame.plug u).PlainData) (hw : w.PlainData)
    (h : u.equal w = .ok true) : (frame.plug u).equal (frame.plug w) = .ok true := by
  have hdata := plainData_exchange hu hw
  obtain ⟨-, -, hsiblings⟩ := plainData_plug_iff.1 hu
  rw [equal_eq_true]
  refine ⟨by simp [isFunctional_plug], sameHead_plug frame u w, fun p hp => ?_⟩
  rcases mem_compared_plug hdata hp with rfl | ⟨hsame, hmem⟩
  · exact h
  · rw [← hsame]
    exact equal_self (hsiblings p.1 hmem)

end Frame

/-- The part put in at some depth, the outermost frame first. -/
def plug : List Frame → Value → Value
  | [], v => v
  | frame :: path, v => frame.plug (plug path v)

variable {path : List Frame}

theorem plainData_of_plug {u : Value} (h : (plug path u).PlainData) : u.PlainData := by
  induction path with
  | nil => exact h
  | cons frame path ih => exact ih (Frame.plainData_part h)

theorem plainData_plug_exchange {u w : Value} (h : (plug path u).PlainData) (hw : w.PlainData) :
    (plug path w).PlainData := by
  induction path with
  | nil => exact hw
  | cons frame path ih => exact Frame.plainData_exchange h (ih (Frame.plainData_part h))

theorem equal_plug {u w : Value} (hu : (plug path u).PlainData) (hw : w.PlainData)
    (h : u.equal w = .ok true) : (plug path u).equal (plug path w) = .ok true := by
  induction path with
  | nil => exact h
  | cons frame path ih =>
    have hinner := Frame.plainData_part hu
    exact Frame.equal_plug_frame hu (plainData_plug_exchange hinner hw) (ih hinner)

/-! ## Fields in another order -/

/-- The fields of one record in the value, at any depth, come in another order. -/
inductive RearrangedOnce : Value → Value → Prop
  | mk (path : List Frame) {fs gs : List (String × Value)} (order : fs.Perm gs) :
    RearrangedOnce (plug path (.record fs)) (plug path (.record gs))

/-- The fields of records in the value come in other orders. -/
def Rearranged : Value → Value → Prop :=
  Relation.ReflTransGen RearrangedOnce

theorem plainData_record_perm {fs gs : List (String × Value)} (order : fs.Perm gs) (h : (record fs).PlainData) :
    (record gs).PlainData := by
  obtain ⟨-, hnames, hparts⟩ := plainData_iff.1 h
  refine plainData_iff.2 ⟨rfl, fun fields heq => ?_, fun u hu => hparts u ?_⟩
  · cases heq
    exact (order.map _).nodup (hnames fs rfl)
  · exact (order.map _).mem_iff.2 hu

theorem equal_record_perm {fs gs : List (String × Value)} (order : fs.Perm gs) (h : (record fs).PlainData) :
    (record fs).equal (record gs) = .ok true := by
  obtain ⟨-, hnames, -⟩ := plainData_iff.1 (plainData_record_perm order h)
  obtain ⟨-, -, hparts⟩ := plainData_iff.1 h
  have hget : ∀ f ∈ fs, Table.get? gs f.1 = some f.2 :=
    fun f hf => Table.get?_of_mem (hnames gs rfl) (order.mem_iff.1 hf)
  rw [equal_eq_true]
  refine ⟨rfl, Table.sameNames_iff.2 fun name => ?_, fun p hp => ?_⟩
  · rw [Bool.eq_iff_iff, Table.has_iff_mem_names, Table.has_iff_mem_names]
    exact (order.map _).mem_iff
  · obtain ⟨f, hf, hp⟩ := List.mem_filterMap.1 hp
    rw [hget f hf] at hp
    cases hp
    exact equal_self (hparts f.2 (List.mem_map_of_mem hf))

theorem RearrangedOnce.plainData_and_equal (h : RearrangedOnce a b) (ha : a.PlainData) :
    b.PlainData ∧ a.equal b = .ok true := by
  obtain ⟨path, order⟩ := h
  have hdata := plainData_record_perm order (plainData_of_plug ha)
  exact ⟨plainData_plug_exchange ha hdata, equal_plug ha hdata (equal_record_perm order (plainData_of_plug ha))⟩

/-- Other orders of fields make no difference. -/
theorem Rearranged.plainData_and_equal (h : Rearranged a b) (ha : a.PlainData) :
    b.PlainData ∧ a.equal b = .ok true := by
  induction h with
  | refl => exact ⟨ha, equal_self ha⟩
  | tail _ hstep ih =>
    obtain ⟨hb, hab⟩ := ih
    obtain ⟨hc, hbc⟩ := hstep.plainData_and_equal hb
    exact ⟨hc, equal_true_trans ha.plain hab hbc⟩

/-! ## The laws of equality -/

/-- The values without functions and actions. -/
abbrev Comparable := { a : Value // a.PlainData }

/-- On data, comparing ends with an answer, being equal is an equivalence relation, the order of the fields of records
inside does not matter, and a part at any depth may be exchanged for an equal one. -/
theorem equal_equivalence :
    (∀ a b : Comparable, ∃ r, a.val.equal b.val = .ok r) ∧
    Equivalence (fun a b : Comparable => a.val.equal b.val = .ok true) ∧
    (∀ (a b : Comparable) (a' b' : Value), Rearranged a a' → Rearranged b b' →
      a'.PlainData ∧ b'.PlainData ∧ a'.equal b' = a.val.equal b.val) ∧
    (∀ (path : List Frame) (u : Value) (w : Comparable), (plug path u).PlainData → u.equal w = .ok true →
      (plug path w).PlainData ∧ (plug path u).equal (plug path w) = .ok true ∧
      ∀ c : Comparable, (plug path w).equal c = (plug path u).equal c) := by
  refine ⟨?total, ⟨?refl, ?symm, ?trans⟩, ?order, ?parts⟩
  case total => exact fun a b => exists_equal_eq_ok a.2.plain b.2.plain
  case refl => exact fun a => equal_self a.2
  case symm => exact fun {a b} h => equal_true_symm a.2.distinct b.2.distinct h
  case trans => exact fun {a b c} hab hbc => equal_true_trans a.2.plain hab hbc
  case order =>
    intro a b a' b' ha hb
    obtain ⟨ha', haa'⟩ := ha.plainData_and_equal a.2
    obtain ⟨hb', hbb'⟩ := hb.plainData_and_equal b.2
    exact ⟨ha', hb', (equal_congr a.2 b.2 ha' hb' haa' hbb').symm⟩
  case parts =>
    intro path u w hu h
    have hw := plainData_plug_exchange hu w.2
    have hequal := equal_plug hu w.2 h
    exact ⟨hw, hequal, fun c => (equal_congr hu c.2 hw c.2 hequal (equal_self c.2)).symm⟩

/-- A record inside an array inside a tuple, with its fields in two orders. -/
theorem equal_equivalence_nested :
    let u : Value := .record [("x", .int 1), ("y", .array [.unit])]
    let w : Value := .record [("y", .array [.unit]), ("x", .int 1)]
    let path : List Frame := [.tuple [.bool true] [], .array [] [.int 2]]
    (plug path u).PlainData ∧ Rearranged (plug path u) (plug path w) ∧ (plug path w).PlainData ∧
      (plug path w).equal (plug path u) = .ok true := by
  intro u w path
  have hfield : ∀ v ∈ u.parts, v.PlainData := by
    have harray : (Value.array [.unit]).PlainData :=
      plainData_iff.2 ⟨rfl, fun _ h => (by cases h), by simpa [parts] using .of_no_parts rfl rfl⟩
    simpa [u, parts] using ⟨.of_no_parts rfl rfl, harray⟩
  have hnames : (Table.names [("x", Value.int 1), ("y", .array [.unit])]).Nodup := by decide
  have hu : u.PlainData := plainData_iff.2 ⟨rfl, fun _ h => Value.record.inj h ▸ hnames, hfield⟩
  have hpath : (plug path u).PlainData := by
    refine Frame.plainData_plug_iff.2
      ⟨Frame.plainData_plug_iff.2 ⟨hu, fun _ h => (by cases h), ?_⟩, fun _ h => (by cases h), ?_⟩
    · simpa [Frame.siblings] using .of_no_parts rfl rfl
    · simpa [Frame.siblings] using .of_no_parts rfl rfl
  have horder : Rearranged (plug path u) (plug path w) := .single (.mk path (.swap _ _ _))
  obtain ⟨-, hequivalence, hrearranged, -⟩ := equal_equivalence
  obtain ⟨hw, -, heq⟩ := hrearranged ⟨_, hpath⟩ ⟨_, hpath⟩ _ _ horder .refl
  exact ⟨hpath, horder, hw, heq.trans (hequivalence.refl ⟨_, hpath⟩)⟩

end Value

end VeriScript
