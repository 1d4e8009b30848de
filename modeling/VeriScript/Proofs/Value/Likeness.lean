import Mathlib.Data.List.Forall2
import VeriScript.Proofs.Script.Names
import VeriScript.Proofs.Value.Environment
import VeriScript.Proofs.Value.Equality
import VeriScript.Proofs.Value.RoundTrip

/-!
# Values that are like each other

A function keeps the environment in which it was made, with names that it never looks up.  Values are like each other
if they differ in nothing but recursive groups in such environments whose names are not used.

* `Value.Like`, `Env.Like` — values that are like each other, and environments, for the names that are used.
* `Env.Like.lookup` — a name that is used has values like each other.
* `Value.Like.shown_eq` — the same text is shown.
* `Value.Like.interchanges` — comparisons come out the same.
* `Primitive.apply_like` — primitives take no notice.
-/

namespace VeriScript

/-- Neither made of values, nor a function, nor an action. -/
def Value.isAtom : Value → Bool
  | .array _ | .tuple _ | .record _ | .closure _ _ _ _ | .builtin _ _ _ | .action _ => false
  | _ => true

/-- The function uses a name that it does not bind itself. -/
def Member.Uses (x : String) (m : Member) : Prop :=
  x ∉ m.param.names ∧ m.body.Uses x

mutual

/-- The same value, but for recursive groups that functions and blocks keep and do not use. -/
inductive Value.Like : Value → Value → Prop
  | atom {v} (atom : v.isAtom) : Value.Like v v
  | array {vs vs'} (length : vs.length = vs'.length) (elems : ∀ p ∈ vs.zip vs', Value.Like p.1 p.2) :
    Value.Like (.array vs) (.array vs')
  | tuple {vs vs'} (length : vs.length = vs'.length) (elems : ∀ p ∈ vs.zip vs', Value.Like p.1 p.2) :
    Value.Like (.tuple vs) (.tuple vs')
  | record {fs fs'} (length : fs.length = fs'.length) (names : ∀ p ∈ fs.zip fs', p.1.1 = p.2.1)
      (fields : ∀ p ∈ fs.zip fs', Value.Like p.1.2 p.2.2) : Value.Like (.record fs) (.record fs')
  | closure {p env env' body name} (captured : Env.Like (fun x => x ∉ p.names ∧ body.Uses x) env env') :
    Value.Like (.closure p env body name) (.closure p env' body name)
  | builtin {prim args args' name} (length : args.length = args'.length)
      (elems : ∀ p ∈ args.zip args', Value.Like p.1 p.2) :
    Value.Like (.builtin prim args name) (.builtin prim args' name)
  | block {env env' body} (captured : Env.Like (fun x => Stmt.UsesList x body) env env') :
    Value.Like (.action (.block env body)) (.action (.block env' body))
  | yield {v v'} (result : Value.Like v v') : Value.Like (.action (.yield v)) (.action (.yield v'))
  | forEach {items items' fn fn'} (length : items.length = items'.length)
      (elems : ∀ p ∈ items.zip items', Value.Like p.1 p.2) (each : Value.Like fn fn') :
    Value.Like (.action (.forEach items fn)) (.action (.forEach items' fn'))
  | command {c args args'} (length : args.length = args'.length) (elems : ∀ p ∈ args.zip args', Value.Like p.1 p.2) :
    Value.Like (.action (.command c args)) (.action (.command c args'))
  | contextName {context} : Value.Like (.action (.contextName context)) (.action (.contextName context))

/-- Environments that differ in recursive groups without a name that satisfies `U`, as far as names are looked up that
do. -/
inductive Env.Like : (String → Prop) → Env → Env → Prop
  | same {U env} : Env.Like U env env
  | hidden {U members env env'} (unused : ∀ m ∈ members, ¬ U m.name) (rest : Env.Like U env env') :
    Env.Like U env (.recursive members :: env')
  | value {U name schema? v v' env env'} (value : Value.Like v v')
      (rest : Env.Like (fun x => x ≠ name ∧ U x) env env') :
    Env.Like U (.value name schema? v :: env) (.value name schema? v' :: env')
  | typedef {U name t env env'} (rest : Env.Like U env env') :
    Env.Like U (.typedef name t :: env) (.typedef name t :: env')
  | recursive {U members env env'}
      (rest : Env.Like (fun x => (∀ m ∈ members, x ≠ m.name) ∧ (U x ∨ ∃ m ∈ members, m.Uses x)) env env') :
    Env.Like U (.recursive members :: env) (.recursive members :: env')

end

/-! ## Lists of values -/

theorem forall₂_of_zip {α β : Type} {R : α → β → Prop} {as : List α} {bs : List β} (length : as.length = bs.length)
    (h : ∀ p ∈ as.zip bs, R p.1 p.2) : List.Forall₂ R as bs :=
  List.forall₂_iff_zip.2 ⟨length, fun hp => h _ hp⟩

theorem zip_of_forall₂ {α β : Type} {R : α → β → Prop} {as : List α} {bs : List β} (h : List.Forall₂ R as bs) :
    ∀ p ∈ as.zip bs, R p.1 p.2 :=
  fun _ hp => (List.forall₂_iff_zip.1 h).2 hp

namespace Value

abbrev Likes : List Value → List Value → Prop :=
  List.Forall₂ Value.Like

/-- Fields of the same names, one by one, with values that are like each other. -/
abbrev LikeFields : List (String × Value) → List (String × Value) → Prop :=
  List.Forall₂ fun f f' => f.1 = f'.1 ∧ f.2.Like f'.2

namespace Like

variable {v v' : Value} {vs vs' : List Value} {fs fs' : List (String × Value)}

theorem of_array (h : Likes vs vs') : (Value.array vs).Like (.array vs') := .array h.length_eq (zip_of_forall₂ h)

theorem of_tuple (h : Likes vs vs') : (Value.tuple vs).Like (.tuple vs') := .tuple h.length_eq (zip_of_forall₂ h)

theorem of_record (h : LikeFields fs fs') : (Value.record fs).Like (.record fs') :=
  .record h.length_eq (fun p hp => (zip_of_forall₂ h p hp).1) fun p hp => (zip_of_forall₂ h p hp).2

theorem of_builtin {prim : Primitive} {name : Option String} (h : Likes vs vs') :
    (Value.builtin prim vs name).Like (.builtin prim vs' name) :=
  .builtin h.length_eq (zip_of_forall₂ h)

theorem of_command {c : Command} (h : Likes vs vs') : (Value.action (.command c vs)).Like (.action (.command c vs')) :=
  .command h.length_eq (zip_of_forall₂ h)

theorem of_forEach {fn fn' : Value} (h : Likes vs vs') (hfn : fn.Like fn') :
    (Value.action (.forEach vs fn)).Like (.action (.forEach vs' fn')) :=
  .forEach h.length_eq (zip_of_forall₂ h) hfn

theorem ofTuple (h : Likes vs vs') : (Value.ofTuple vs).Like (.ofTuple vs') := by
  cases h with
  | nil => exact .atom rfl
  | cons head tail => exact of_tuple (.cons head tail)

end Like

mutual

theorem Like.refl : ∀ v : Value, v.Like v
  | .array vs => .of_array (Likes.refl vs)
  | .tuple vs => .of_tuple (Likes.refl vs)
  | .record fs => .of_record (LikeFields.refl fs)
  | .closure _ _ _ _ => .closure .same
  | .builtin _ args _ => .of_builtin (Likes.refl args)
  | .action job => Like.refl_action job
  | .unit | .bool _ | .int _ | .string _ | .term _ | .termType _ | .proved _ _ | .proofResult _ _ | .spec _
  | .foreign _ => .atom rfl

theorem Like.refl_action : ∀ job : Job, (Value.action job).Like (.action job)
  | .block _ _ => .block .same
  | .yield v => .yield (Like.refl v)
  | .forEach items fn => .of_forEach (Likes.refl items) (Like.refl fn)
  | .command _ args => .of_command (Likes.refl args)
  | .contextName _ => .contextName

theorem Likes.refl : ∀ vs : List Value, Likes vs vs
  | [] => .nil
  | v :: vs => .cons (Like.refl v) (Likes.refl vs)

theorem LikeFields.refl : ∀ fs : List (String × Value), LikeFields fs fs
  | [] => .nil
  | (_, v) :: fs => .cons ⟨rfl, Like.refl v⟩ (LikeFields.refl fs)

end

/-! ## What values that are like each other have in common -/

namespace Like

variable {v v' : Value}

theorem option_refl (o : Option Value) : Option.Rel Value.Like o o := by
  cases o with
  | none => exact .none
  | some v => exact .some (.refl v)

theorem tag_eq (h : v.Like v') : v'.tag = v.tag := by
  cases h <;> rfl

theorem isFunctional_eq (h : v.Like v') : v'.isFunctional = v.isFunctional := by
  cases h <;> rfl

theorem shape_eq (h : v.Like v') : v'.shape = v.shape := by
  cases h with
  | tuple length elems => exact congrArg Shape.tuple length.symm
  | _ => rfl

theorem called (h : v.Like v') (name : String) : (v.called name).Like (v'.called name) := by
  have hlike := h
  cases h with
  | atom atom => exact .refl _
  | closure captured => exact .closure captured
  | builtin length elems => exact .builtin length elems
  | _ => exact hlike

/-- The text of a value, with the integers that it has in decimal. -/
def written (display : Display) (v : Value) : String × List Int :=
  (v.render display, v.numerals display.base)

theorem renderList_written (display : Display) (vs : List Value) :
    renderList display vs = (vs.map (written display)).map Prod.fst := by
  rw [renderList_eq, List.map_map]
  rfl

theorem numeralsList_written (display : Display) (vs : List Value) :
    numeralsList display.base vs = (vs.map (written display)).flatMap Prod.snd := by
  induction vs with
  | nil => rfl
  | cons v vs ih => exact congrArg (v.numerals display.base ++ ·) ih

theorem renderFields_written (display : Display) (fs : List (String × Value)) :
    renderFields display fs = (fs.map fun f => (f.1, written display f.2)).map fun f => (f.1, f.2.1) := by
  rw [renderFields_eq, List.map_map]
  rfl

theorem numeralsFields_written (display : Display) (fs : List (String × Value)) :
    numeralsFields display.base fs = (fs.map fun f => (f.1, written display f.2)).flatMap fun f => f.2.2 := by
  induction fs with
  | nil => rfl
  | cons f fs ih => exact congrArg (f.2.numerals display.base ++ ·) ih

mutual

theorem written_eq (display : Display) {v' : Value} : ∀ {v : Value}, v.Like v' → written display v' = written display v
  | .array vs, h => by
    cases h with
    | atom atom => rfl
    | array length elems =>
      have hlist := written_likes display (forall₂_of_zip length elems)
      simp only [written, render, numerals, renderList_written, numeralsList_written, hlist]
  | .tuple vs, h => by
    cases h with
    | atom atom => rfl
    | tuple length elems =>
      have hlist := written_likes display (forall₂_of_zip length elems)
      simp only [written, render, numerals, renderList_written, numeralsList_written, hlist]
  | .record fs, h => by
    cases h with
    | atom atom => rfl
    | record length names fields =>
      have hfields : LikeFields fs _ := forall₂_of_zip length fun p hp => ⟨names p hp, fields p hp⟩
      have hlist := written_likeFields display hfields
      rw [written, written]
      simp only [render, numerals, renderFields_written, numeralsFields_written, hlist]
  | .closure _ _ _ _, h | .builtin _ _ _, h | .action _, h | .unit, h | .bool _, h | .int _, h
  | .string _, h | .term _, h | .termType _, h | .proved _ _, h | .proofResult _ _, h | .spec _, h
  | .foreign _, h => by
    cases h <;> rfl

theorem written_likes (display : Display) {vs' : List Value} : ∀ {vs : List Value}, Likes vs vs' →
    vs'.map (written display) = vs.map (written display)
  | [], h => by
    cases h
    rfl
  | v :: vs, h => by
    cases h with
    | cons head tail => rw [List.map_cons, List.map_cons, written_eq display head, written_likes display tail]

theorem written_likeFields (display : Display) {fs' : List (String × Value)} : ∀ {fs : List (String × Value)},
    LikeFields fs fs' → fs'.map (fun f => (f.1, written display f.2)) = fs.map fun f => (f.1, written display f.2)
  | [], h => by
    cases h
    rfl
  | (name, v) :: fs, h => by
    cases h with
    | cons head tail =>
      rw [List.map_cons, List.map_cons, ← head.1, written_eq display head.2, written_likeFields display tail]

end

theorem shown_eq (display : Display) (h : v.Like v') : v'.shown display = v.shown display := by
  obtain ⟨htext, hnumerals⟩ := Prod.mk.inj (written_eq display h)
  rw [shown, htext, hnumerals, shown]

end Like

/-! ## Comparing -/

section
variable {a a' b b' : Value} {fs fs' gs gs' : List (String × Value)}

theorem LikeFields.names_eq (h : LikeFields fs fs') : Table.names fs' = Table.names fs := by
  induction h with
  | nil => rfl
  | cons head tail ih => exact congrArg₂ List.cons head.1.symm ih

theorem LikeFields.get? (h : LikeFields fs fs') (name : String) :
    Option.Rel Value.Like (Table.get? fs name) (Table.get? fs' name) := by
  induction h with
  | nil => exact .none
  | @cons f f' fs fs' head tail ih =>
    obtain ⟨hname, hvalue⟩ := head
    simp only [Table.get?, ← hname]
    split
    · exact .some hvalue
    · exact ih

theorem LikeFields.has_eq (h : LikeFields fs fs') : Table.has fs' = Table.has fs := by
  funext name
  have hget := h.get? name
  unfold Table.has
  generalize Table.get? fs name = o, Table.get? fs' name = o' at hget ⊢
  cases hget with
  | none => rfl
  | some related => rfl

theorem Like.sameHead_eq (ha : a.Like a') (hb : b.Like b') : a'.sameHead b' = a.sameHead b := by
  cases ha with
  | atom atom =>
    cases hb with
    | atom _ => rfl
    | _ => cases a <;> first | rfl | cases atom
  | array length elems =>
    cases hb with
    | atom atom => cases b <;> first | rfl | cases atom
    | array length' elems' => simp only [sameHead, length, length']
    | _ => rfl
  | tuple length elems =>
    cases hb with
    | atom atom => cases b <;> first | rfl | cases atom
    | tuple length' elems' => simp only [sameHead, length, length']
    | _ => rfl
  | record length names fields =>
    have hfs : LikeFields _ _ := forall₂_of_zip length fun p hp => ⟨names p hp, fields p hp⟩
    cases hb with
    | atom atom => cases b <;> first | rfl | cases atom
    | record length' names' fields' =>
      have hgs : LikeFields _ _ := forall₂_of_zip length' fun p hp => ⟨names' p hp, fields' p hp⟩
      simp only [sameHead, Table.sameNames, LikeFields.names_eq hfs, LikeFields.names_eq hgs, LikeFields.has_eq hfs,
        LikeFields.has_eq hgs]
    | _ => rfl
  | _ =>
    cases hb with
    | atom atom => cases b <;> rfl
    | _ => rfl

theorem allEqual_congr {ps ps' : List (Value × Value)}
    (h : List.Forall₂ (fun p p' => p'.1.equal p'.2 = p.1.equal p.2) ps ps') : allEqual ps' = allEqual ps := by
  induction h with
  | nil => rfl
  | cons head tail ih => simp only [allEqual, head, ih]

/-- The first value may take the place of the second in every comparison with something like the other side. -/
def Interchanges (a a' : Value) : Prop :=
  ∀ b b', b.Like b' → a'.equal b' = a.equal b

theorem Like.equal_of_compared (ha : a.Like a') (hb : b.Like b')
    (h : List.Forall₂ (fun p p' => p'.1.equal p'.2 = p.1.equal p.2) (a.compared b) (a'.compared b')) :
    a'.equal b' = a.equal b := by
  rw [Value.equal_eq, Value.equal_eq, ha.isFunctional_eq, hb.isFunctional_eq, ha.sameHead_eq hb, allEqual_congr h]

theorem compared_zip {as as' bs bs' : List Value} (ha : List.Forall₂ Interchanges as as') (hb : Likes bs bs') :
    List.Forall₂ (fun p p' => p'.1.equal p'.2 = p.1.equal p.2) (as.zip bs) (as'.zip bs') := by
  induction ha generalizing bs bs' with
  | nil => exact .nil
  | cons head tail ih =>
    cases hb with
    | nil => exact .nil
    | cons head' tail' => exact .cons (head _ _ head') (ih tail')

theorem compared_fields (hfs : List.Forall₂ (fun f f' => f.1 = f'.1 ∧ Interchanges f.2 f'.2) fs fs')
    (hgs : LikeFields gs gs') :
    List.Forall₂ (fun p p' => p'.1.equal p'.2 = p.1.equal p.2)
      (fs.filterMap fun f => (Table.get? gs f.1).map fun b => (f.2, b))
      (fs'.filterMap fun f => (Table.get? gs' f.1).map fun b => (f.2, b)) := by
  induction hfs with
  | nil => exact .nil
  | @cons f f' fs fs' head tail ih =>
    obtain ⟨hname, hf⟩ := head
    rw [List.filterMap_cons, List.filterMap_cons, ← hname]
    have hget := hgs.get? f.1
    generalize Table.get? gs f.1 = o, Table.get? gs' f.1 = o' at hget ⊢
    cases hget with
    | none => exact ih
    | some related => exact .cons (hf _ _ related) ih

theorem Like.interchanges {a' : Value} : ∀ {a : Value}, a.Like a' → Interchanges a a'
  | _, .array length elems => by
    intro b b' hb
    refine equal_of_compared (.array length elems) hb ?_
    cases hb with
    | array length' elems' =>
      exact compared_zip (forall₂_of_zip length fun p hp => (elems p hp).interchanges) (forall₂_of_zip length' elems')
    | atom atom => cases b <;> first | exact .nil | cases atom
    | _ => exact .nil
  | _, .tuple length elems => by
    intro b b' hb
    refine equal_of_compared (.tuple length elems) hb ?_
    cases hb with
    | tuple length' elems' =>
      exact compared_zip (forall₂_of_zip length fun p hp => (elems p hp).interchanges) (forall₂_of_zip length' elems')
    | atom atom => cases b <;> first | exact .nil | cases atom
    | _ => exact .nil
  | _, .record length names fields => by
    intro b b' hb
    refine equal_of_compared (.record length names fields) hb ?_
    cases hb with
    | record length' names' fields' =>
      exact compared_fields (forall₂_of_zip length fun p hp => ⟨names p hp, (fields p hp).interchanges⟩)
        (forall₂_of_zip length' fun p hp => ⟨names' p hp, fields' p hp⟩)
    | atom atom => cases b <;> first | exact .nil | cases atom
    | _ => exact .nil
  | v, .atom hv => by
    intro b b' hb
    refine equal_of_compared (.atom hv) hb ?_
    cases v <;> first | exact .nil | cases hv
  | _, .closure _ | _, .builtin _ _ | _, .block _ | _, .yield _ | _, .forEach _ _ _ | _, .command _ _
  | _, .contextName => fun _ _ _ => rfl

end

end Value

/-! ## Computations that may fail -/

/-- Both fail in the same way, or both give results that are related. -/
inductive ExceptLike {ε α β : Type} (R : α → β → Prop) : Except ε α → Except ε β → Prop
  | ok {a b} (related : R a b) : ExceptLike R (.ok a) (.ok b)
  | error {e} : ExceptLike R (.error e) (.error e)

namespace ExceptLike

variable {ε ε' α β γ δ : Type} {R : α → β → Prop} {S : γ → δ → Prop} {x : Except ε α} {y : Except ε β}

theorem bind {f : α → Except ε γ} {g : β → Except ε δ} (h : ExceptLike R x y)
    (hf : ∀ a b, R a b → ExceptLike S (f a) (g b)) : ExceptLike S (x >>= f) (y >>= g) := by
  cases h with
  | ok related => exact hf _ _ related
  | error => exact .error

theorem mapError (h : ExceptLike R x y) (f : ε → ε') : ExceptLike R (x.mapError f) (y.mapError f) := by
  cases h with
  | ok related => exact .ok related
  | error => exact .error

theorem of_eq {x y : Except ε α} (h : y = x) {R : α → α → Prop} (hR : ∀ a, R a a) : ExceptLike R x y := by
  subst h
  cases y with
  | ok a => exact .ok (hR a)
  | error e => exact .error

end ExceptLike

namespace Value

variable {x x' y y' : Value}

theorem Likes.getElem? {vs vs' : List Value} (h : Likes vs vs') (i : Nat) : Option.Rel Value.Like vs[i]? vs'[i]? := by
  induction h generalizing i with
  | nil => exact .none
  | cons head tail ih =>
    cases i with
    | zero => exact .some head
    | succ i => exact ih i

theorem Like.expectArray (h : x.Like x') (fn : String) : ExceptLike Likes (x.expectArray fn) (x'.expectArray fn) := by
  cases h with
  | array length elems => exact .ok (forall₂_of_zip length elems)
  | atom atom => cases x <;> first | exact .error | cases atom
  | _ => exact .error

theorem Like.expectBool_eq (h : x.Like x') (fn : String) : x'.expectBool fn = x.expectBool fn := by
  cases h <;> rfl

theorem Like.expectString_eq (h : x.Like x') (fn : String) : x'.expectString fn = x.expectString fn := by
  cases h <;> rfl

theorem Like.expectTerm_eq (h : x.Like x') (fn : String) : x'.expectTerm fn = x.expectTerm fn := by
  cases h <;> rfl

theorem Like.intOperands_eq (hx : x.Like x') (hy : y.Like y') (verb : String) :
    intOperands verb x' y' = intOperands verb x y := by
  cases hx with
  | atom atom =>
    cases hy with
    | atom _ => rfl
    | _ => cases x <;> rfl
  | _ => cases hy <;> rfl

theorem Like.index (hx : x.Like x') (hy : y.Like y') : ExceptLike Value.Like (x.index y) (x'.index y') := by
  cases hx with
  | @array vs vs' length elems =>
    cases hy with
    | atom atom =>
      cases y with
      | int n =>
        have helem : Option.Rel Value.Like (if n < 0 then none else vs[n.toNat]?)
            (if n < 0 then none else vs'[n.toNat]?) := by
          split
          · exact .none
          · exact Likes.getElem? (forall₂_of_zip length elems) _
        simp only [Value.index, ← length]
        generalize (if n < 0 then none else vs[n.toNat]?) = o, (if n < 0 then none else vs'[n.toNat]?) = o' at helem ⊢
        cases helem with
        | none => exact .error
        | some related => exact .ok related
      | _ => exact .error
    | _ => exact .error
  | atom atom => cases x <;> first | exact .error | cases atom
  | _ => exact .error

theorem Like.field (h : x.Like x') (name : String) : ExceptLike Value.Like (x.field name) (x'.field name) := by
  cases h with
  | @record fs fs' length names fields =>
    have hfs : LikeFields fs fs' := forall₂_of_zip length fun p hp => ⟨names p hp, fields p hp⟩
    have hget := hfs.get? name
    simp only [Value.field]
    generalize Table.get? fs name = o, Table.get? fs' name = o' at hget ⊢
    cases hget with
    | none => exact .error
    | some related => exact .ok related
  | atom atom => cases x <;> first | exact .error | cases atom
  | _ => exact .error

theorem Like.proj (h : x.Like x') (i : Nat) : ExceptLike Value.Like (x.proj i) (x'.proj i) := by
  cases h with
  | @tuple vs vs' length elems =>
    have helem := Likes.getElem? (forall₂_of_zip length elems) i
    simp only [Value.proj, ← length]
    generalize vs[i]? = o, vs'[i]? = o' at helem ⊢
    cases helem with
    | none => exact .error
    | some related => exact .ok related
  | atom atom => cases x <;> first | exact .error | cases atom
  | _ => exact .error

theorem Like.concreteTerm_eq (h : x.Like x') (fn : String) (expected : TermType) :
    concreteTerm fn expected x' = concreteTerm fn expected x := by
  rw [concreteTerm, h.expectTerm_eq, concreteTerm]

theorem Like.expectAll_eq (hx : x.Like x') (hy : y.Like y') (fn : String) (expected : List String) :
    expectAll fn [x', y'] expected = expectAll fn [x, y] expected := by
  have hall : ∀ (vs vs' : List Value), Likes vs vs' → ∀ n : Nat,
      expectAllFrom fn n (vs'.zip expected) = expectAllFrom fn n (vs.zip expected) := by
    intro vs vs' h
    induction h generalizing expected with
    | nil => exact fun _ => rfl
    | cons head tail ih =>
      intro n
      cases expected with
      | nil => rfl
      | cons kind expected => simp only [List.zip_cons_cons, expectAllFrom, expect, head.tag_eq, ih expected]
  simp only [expectAll, hall _ _ (.cons hx (.cons hy .nil)), List.length_cons, List.length_nil]

end Value

/-! ## Primitives -/

section
variable {x x' y y' : Value}
open Value

theorem Op.applyOne_like (op : Op) (h : x.Like x') : ExceptLike Value.Like (op.applyOne x) (op.applyOne x') := by
  cases op with
  | yield => exact .ok (.yield h)
  | null =>
    refine (h.expectArray _).bind fun vs vs' hvs => .ok ?_
    cases hvs <;> exact .refl _
  | head =>
    refine (h.expectArray _).bind fun vs vs' hvs => ?_
    cases hvs with
    | nil => exact .error
    | cons head tail => exact .ok head
  | tail =>
    refine (h.expectArray _).bind fun vs vs' hvs => ?_
    cases hvs with
    | nil => exact .error
    | cons head tail => exact .ok (.of_array tail)
  | length =>
    refine (h.expectArray _).bind fun vs vs' hvs => .ok ?_
    rw [hvs.length_eq]
    exact .refl _
  | not =>
    simp only [Op.applyOne, h.expectBool_eq]
    exact .of_eq rfl .refl
  | showValue =>
    simp only [Op.applyOne, h.shown_eq]
    exact .of_eq rfl .refl
  | showTerm | termType | termSize =>
    simp only [Op.applyOne, h.expectTerm_eq]
    exact .of_eq rfl .refl
  | _ => exact .error

theorem Op.applyTwo_like (op : Op) (hx : x.Like x') (hy : y.Like y') :
    ExceptLike Value.Like (op.applyTwo x y) (op.applyTwo x' y') := by
  cases op with
  | forEach => exact (hx.expectArray _).bind fun vs vs' hvs => .ok (.of_forEach hvs hy)
  | nth => exact hx.index hy
  | concat =>
    simp only [Op.applyTwo, hx.expectAll_eq hy]
    refine ExceptLike.bind (R := Eq) (.of_eq rfl fun _ => rfl) fun _ _ _ => ?_
    refine (hx.expectArray _).bind fun vs vs' hvs => (hy.expectArray _).bind fun us us' hus => ?_
    exact .ok (.of_array (List.rel_append hvs hus))
  | strConcat =>
    simp only [Op.applyTwo, hx.expectAll_eq hy, hx.expectString_eq, hy.expectString_eq]
    exact .of_eq rfl .refl
  | arith op | order op =>
    simp only [Op.applyTwo, hx.intOperands_eq hy]
    exact .of_eq rfl .refl
  | eq | neq =>
    simp only [Op.applyTwo, hx.interchanges _ _ hy]
    exact .of_eq rfl .refl
  | _ => exact .error

theorem Op.apply_like (op : Op) {args args' : List Value} (h : Likes args args') :
    ExceptLike Value.Like (op.apply args) (op.apply args') := by
  have hone : ∀ {x x' : Value}, x.Like x' → ExceptLike Value.Like
      ((op.applyOne x).mapError fun fault => (.runtime (.ofFault fault) : ScriptError))
      ((op.applyOne x').mapError fun fault => .runtime (.ofFault fault)) := fun hx => (op.applyOne_like hx).mapError _
  have htwo : ∀ {x x' y y' : Value}, x.Like x' → y.Like y' → ExceptLike Value.Like
      ((op.applyTwo x y).mapError fun fault => (.runtime (.ofFault fault) : ScriptError))
      ((op.applyTwo x' y').mapError fun fault => .runtime (.ofFault fault)) :=
    fun hx hy => (op.applyTwo_like hx hy).mapError _
  cases h with
  | nil => cases op <;> first | exact .error | exact .ok (.of_array .nil)
  | cons hx rest =>
    cases rest with
    | nil =>
      cases op with
      | gather _ _ => exact .ok (.of_array (.cons hx .nil))
      | evalInt | evalBool =>
        simp only [Op.apply, hx.concreteTerm_eq]
        exact .of_eq rfl .refl
      | _ => exact hone hx
    | cons hy rest =>
      cases rest with
      | nil =>
        cases op with
        | gather _ _ => exact .ok (.of_array (.cons hx (.cons hy .nil)))
        | _ => exact htwo hx hy
      | cons hz rest =>
        have hlength := rest.length_eq
        cases op with
        | gather _ _ => exact .ok (.of_array (.cons hx (.cons hy (.cons hz rest))))
        | _ =>
          simp only [Op.apply, List.length_cons, hlength]
          exact .error

theorem Primitive.apply_like (prim : Primitive) {args args' : List Value} (h : Likes args args') :
    ExceptLike Value.Like (prim.apply args) (prim.apply args') := by
  cases prim with
  | op o => exact o.apply_like h
  | command c => exact .ok (.of_command h)

end

/-! ## Environments -/

namespace Env.Like

/-- Environments that are like each other for some names are so for fewer names. -/
theorem mono {U W : String → Prop} {env env' : Env} : Env.Like U env env' → (∀ x, W x → U x) → Env.Like W env env'
  | .same, _ => .same
  | .hidden unused rest, h => .hidden (fun m hm hW => unused m hm (h _ hW)) (rest.mono h)
  | .value like rest, h => .value like (rest.mono fun x hx => ⟨hx.1, h x hx.2⟩)
  | .typedef rest, h => .typedef (rest.mono h)
  | .recursive rest, h => .recursive (rest.mono fun x hx => ⟨hx.1, hx.2.imp_left (h x)⟩)

end Env.Like

variable {members : List Member} {x : String}

theorem memberOf_eq_none (h : ∀ m ∈ members, x ≠ m.name) : memberOf members x = none := by
  simp only [memberOf, List.find?_eq_none, List.mem_reverse, beq_iff_eq]
  exact fun m hm hname => h m hm hname.symm

theorem ne_of_memberOf_eq_none (h : memberOf members x = none) : ∀ m ∈ members, x ≠ m.name := by
  simp only [memberOf, List.find?_eq_none, List.mem_reverse, beq_iff_eq] at h
  exact fun m hm hname => h m hm hname.symm

theorem mem_of_memberOf {m : Member} (h : memberOf members x = some m) : m ∈ members :=
  List.mem_reverse.1 (List.mem_of_find?_eq_some h)

namespace Env.Like

theorem lookup {x : String} {U : String → Prop} {env env' : Env} (h : Env.Like U env env') (hx : U x) :
    Option.Rel Value.Like (env.lookup x) (env'.lookup x) := by
  -- the second environment is the longer one
  induction env' generalizing U env with
  | nil =>
    cases h
    exact Value.Like.option_refl _
  | cons entry env' ih =>
    cases h with
    | same => exact Value.Like.option_refl _
    | hidden unused rest =>
      have hnone := memberOf_eq_none fun m hm hname => unused m hm (hname ▸ hx)
      simp only [Env.lookup, hnone]
      exact ih rest hx
    | value like rest =>
      simp only [Env.lookup]
      split
      · exact .some like
      · rename_i hne
        exact ih rest ⟨Ne.symm hne, hx⟩
    | typedef rest =>
      simp only [Env.lookup]
      exact ih rest hx
    | @recursive _ members _ _ rest =>
      simp only [Env.lookup]
      cases hmember : memberOf members x with
      | none => exact ih rest ⟨ne_of_memberOf_eq_none hmember, .inl hx⟩
      | some m =>
        -- the member keeps its group, and what it uses is used by the group
        refine .some (.closure (.recursive (rest.mono fun y hy => ⟨hy.1, .inr ?_⟩)))
        exact hy.2.elim (fun huses => ⟨m, mem_of_memberOf hmember, huses⟩) id

end Env.Like

end VeriScript
