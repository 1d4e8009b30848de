import VeriScript.Primitive.Apply
import VeriScript.Proofs.Value.Forms

/-!
# Primitive functions keep to their types

* `Value.equal_meets` — comparing values fails for functions and actions only.
* `Op.apply_typed` — a function on arguments of its types gives a value of its type, or fails for a reason that
  is not the kind of an argument.
-/

namespace VeriScript

/-- The error comes from the kind of a value. -/
def ScriptError.isShape : ScriptError → Bool
  | .runtime e => e.fault.isShape
  | _ => false

variable {allowed : Command → Prop} {G : Scope}

/-! ## Equality -/

namespace Value

mutual

theorem equal_meets : ∀ a b : Value, Meets (· = .incomparable) (equal a b) fun _ => True
  | .closure _ _ _ _, b | .builtin _ _ _, b | .action _, b => by
    rw [equal]
    rfl
  | .array as, b | .tuple as, b => by
    unfold equal
    split
    · split
      · exact equalList_meets as _
      · trivial
    · split
      · rfl
      · trivial
  | .record fs, b => by
    unfold equal
    split
    · split
      · exact equalFields_meets fs _
      · trivial
    · split
      · rfl
      · trivial
  | .unit, b | .bool _, b | .int _, b | .string _, b | .term _, b | .termType _, b | .proved _ _, b
  | .proofResult _ _, b | .spec _, b | .foreign _, b => by
    unfold equal
    split
    · rfl
    · trivial

theorem equalList_meets : ∀ as bs : List Value, Meets (· = .incomparable) (equalList as bs) fun _ => True
  | [], _ => by
    rw [equalList]
    · trivial
    · nofun
  | _ :: _, [] => by
    rw [equalList]
    · trivial
    · nofun
  | a :: as, b :: bs => by
    rw [equalList]
    refine (equal_meets a b).bind fun same _ => ?_
    split
    · exact equalList_meets as bs
    · trivial

theorem equalFields_meets : ∀ fs gs : List (String × Value),
    Meets (· = .incomparable) (equalFields fs gs) fun _ => True
  | [], _ => by
    rw [equalFields]
    trivial
  | (name, a) :: fs, gs => by
    rw [equalFields]
    split
    · refine (equal_meets a _).bind fun same _ => ?_
      split
      · exact equalFields_meets fs gs
      · trivial
    · trivial

end

end Value

/-! ## Functions -/

theorem ArithOp.apply_meets (op : ArithOp) (m n : Int) :
    Meets (fun fault => fault.isShape = false) (op.apply m n) fun _ => True := by
  cases op with
  | add | sub | mul => trivial
  | div | mod =>
    simp only [ArithOp.apply]
    split
    · rfl
    · trivial

/-- A text is written, or cannot be. -/
theorem text_meets (r : Except Text.Fault String) :
    Meets (fun fault => fault.isShape = false) (r.mapError RuntimeFault.unwritable) fun _ => True := by
  cases r with
  | ok s => trivial
  | error fault => rfl

/-- What a term of the wrong type or an open term comes to is no matter of kinds. -/
theorem concreteTerm_meets (fn : String) (expected : TermType) (t : Term) :
    Meets (fun e => e.isShape = false) (concreteTerm fn expected (.term t)) fun _ => True := by
  unfold concreteTerm
  show Meets _ (if t.type ≠ expected then _ else _) _
  split
  · rfl
  · cases t.eval [] with
    | ok s => trivial
    | error fault => rfl

/-- A function on arguments of its types gives a value of its type, unless it fails for another reason than the
kind of an argument. -/
theorem Op.apply_typed {o : Op} {params : List Mono} {τ : Mono} {args : List Value} (h : o.Typed params τ)
    (hargs : HasTys allowed G args params) :
    Meets (fun e => e.isShape = false) (o.apply args) (HasTy allowed G · τ) := by
  cases h with
  | yield =>
    obtain ⟨x, rfl, hx⟩ := hargs.one_inv
    exact HasTy.yield hx
  | forEach =>
    obtain ⟨x, y, rfl, hx, hy⟩ := hargs.two_inv
    obtain ⟨vs, rfl, hvs⟩ := hx.list_inv
    exact HasTy.forEach hvs hy
  | null =>
    obtain ⟨x, rfl, hx⟩ := hargs.one_inv
    obtain ⟨vs, rfl, -⟩ := hx.list_inv
    exact HasTy.bool
  | nth =>
    obtain ⟨x, y, rfl, hx, hy⟩ := hargs.two_inv
    exact (Value.index_typed hx hy).mapError fun _ h => h
  | head =>
    obtain ⟨x, rfl, hx⟩ := hargs.one_inv
    obtain ⟨vs, rfl, hvs⟩ := hx.list_inv
    cases vs with
    | nil => rfl
    | cons v vs => exact hvs v List.mem_cons_self
  | tail =>
    obtain ⟨x, rfl, hx⟩ := hargs.one_inv
    obtain ⟨vs, rfl, hvs⟩ := hx.list_inv
    cases vs with
    | nil => rfl
    | cons v vs => exact HasTy.array fun w hw => hvs w (List.mem_cons_of_mem _ hw)
  | concat =>
    obtain ⟨x, y, rfl, hx, hy⟩ := hargs.two_inv
    obtain ⟨vs, rfl, hvs⟩ := hx.list_inv
    obtain ⟨ws, rfl, hws⟩ := hy.list_inv
    exact HasTy.array (List.forall_mem_append.2 ⟨hvs, hws⟩)
  | length =>
    obtain ⟨x, rfl, hx⟩ := hargs.one_inv
    obtain ⟨vs, rfl, -⟩ := hx.list_inv
    exact HasTy.int
  | strConcat =>
    obtain ⟨x, y, rfl, hx, hy⟩ := hargs.two_inv
    obtain ⟨s, rfl⟩ := hx.string_inv
    obtain ⟨t, rfl⟩ := hy.string_inv
    exact HasTy.string
  | @arith op =>
    obtain ⟨x, y, rfl, hx, hy⟩ := hargs.two_inv
    obtain ⟨m, rfl⟩ := hx.int_inv
    obtain ⟨n, rfl⟩ := hy.int_inv
    refine Meets.mapError (E := fun fault => fault.isShape = false) ?_ fun _ h => h
    exact (op.apply_meets m n).bind fun _ _ => HasTy.int
  | order =>
    obtain ⟨x, y, rfl, hx, hy⟩ := hargs.two_inv
    obtain ⟨m, rfl⟩ := hx.int_inv
    obtain ⟨n, rfl⟩ := hy.int_inv
    exact HasTy.bool
  | eq | neq =>
    obtain ⟨x, y, rfl, -, -⟩ := hargs.two_inv
    refine Meets.mapError (E := (· = .incomparable)) ?_ fun _ h => h ▸ rfl
    exact (Value.equal_meets x y).bind fun _ _ => HasTy.bool
  | not =>
    obtain ⟨x, rfl, hx⟩ := hargs.one_inv
    obtain ⟨b, rfl⟩ := hx.bool_inv
    exact HasTy.bool
  | showValue =>
    obtain ⟨x, rfl, -⟩ := hargs.one_inv
    refine Meets.mapError (E := fun fault => fault.isShape = false) ?_ fun _ h => h
    exact (text_meets (x.shown .standard)).bind fun _ _ => HasTy.string
  | evalInt =>
    obtain ⟨x, rfl, hx⟩ := hargs.one_inv
    obtain ⟨t, rfl⟩ := hx.term_inv
    exact (concreteTerm_meets _ _ t).bind fun _ _ => HasTy.int
  | evalBool =>
    obtain ⟨x, rfl, hx⟩ := hargs.one_inv
    obtain ⟨t, rfl⟩ := hx.term_inv
    exact (concreteTerm_meets _ _ t).bind fun _ _ => HasTy.bool
  | showTerm =>
    obtain ⟨x, rfl, hx⟩ := hargs.one_inv
    obtain ⟨t, rfl⟩ := hx.term_inv
    refine Meets.mapError (E := fun fault => fault.isShape = false) ?_ fun _ h => h
    exact (text_meets (t.shown .standard)).bind fun _ _ => HasTy.string
  | termType =>
    obtain ⟨x, rfl, hx⟩ := hargs.one_inv
    obtain ⟨t, rfl⟩ := hx.term_inv
    exact HasTy.termType
  | termSize =>
    obtain ⟨x, rfl, hx⟩ := hargs.one_inv
    obtain ⟨t, rfl⟩ := hx.term_inv
    exact HasTy.int

/-- A primitive on all its arguments; a command gives an action. -/
theorem Primitive.apply_typed {prim : Primitive} {params : List Mono} {τ : Mono} {args : List Value}
    (h : prim.Typed allowed params τ) (hargs : HasTys allowed G args params) :
    Meets (fun e => e.isShape = false) (prim.apply args) (HasTy allowed G · τ) := by
  cases h with
  | op typed => exact Op.apply_typed typed hargs
  | command typed may => exact HasTy.command typed may hargs

end VeriScript
