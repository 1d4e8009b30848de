import VeriScript.Proofs.Session.Merging
import VeriScript.Proofs.Session.Retaining

/-!
# Infix operators between integers

An operator is short for a call of a primitive, which is looked up by its name like any other function.  So it has its
meaning as long as that name is bound neither in the local environment nor, on the way to the session, at the top
level.

* `BinaryOp.Denotes` — what an operator between two integers comes to.
* `BinaryOp.denotes_applyTwo` — the primitive of an operator comes to just that.
* `eval_call_of_lookup` — the call of a primitive, for operands with their values in any state of the output.
* `infix_denotes` — evaluating an operator between expressions.
* `operator_captured` — a script that binds the name.
-/

namespace VeriScript

open Run (Ends Quiet Succeeds)

/-! ## Operators -/

namespace BinaryOp

/-- The primitive that an operator between integers stands for. -/
def integerOp? : BinaryOp → Option Op
  | .mul => some (.arith .mul)
  | .div => some (.arith .div)
  | .mod => some (.arith .mod)
  | .add => some (.arith .add)
  | .sub => some (.arith .sub)
  | .lt => some (.order .lt)
  | .le => some (.order .le)
  | .gt => some (.order .gt)
  | .ge => some (.order .ge)
  | .eq | .ne | .and | .or => none

/-- `q` is the quotient of `a` by `b` rounded down, and `r` the remainder, with the sign of `b`. -/
def FloorDivides (a b q r : Int) : Prop :=
  a = b * q + r ∧ (0 ≤ r ∧ r < b ∨ b < r ∧ r ≤ 0)

/-- What an operator between two integers comes to. -/
inductive Denotes : BinaryOp → Int → Int → Except RuntimeFault Value → Prop
  | mul (a b : Int) : Denotes .mul a b (.ok (.int (a * b)))
  | add (a b : Int) : Denotes .add a b (.ok (.int (a + b)))
  | sub (a b : Int) : Denotes .sub a b (.ok (.int (a - b)))
  | div {a b q r : Int} (h : FloorDivides a b q r) : Denotes .div a b (.ok (.int q))
  | mod {a b q r : Int} (h : FloorDivides a b q r) : Denotes .mod a b (.ok (.int r))
  | divZero (a : Int) : Denotes .div a 0 (.error (.byZero "divide"))
  | modZero (a : Int) : Denotes .mod a 0 (.error (.byZero "take modulus"))
  | lt (a b : Int) : Denotes .lt a b (.ok (.bool (a < b)))
  | le (a b : Int) : Denotes .le a b (.ok (.bool (a ≤ b)))
  | gt (a b : Int) : Denotes .gt a b (.ok (.bool (b < a)))
  | ge (a b : Int) : Denotes .ge a b (.ok (.bool (b ≤ a)))

theorem floorDivides_fdiv (a : Int) {b : Int} (hb : b ≠ 0) : FloorDivides a b (a.fdiv b) (a.fmod b) := by
  refine ⟨(Int.mul_fdiv_add_fmod a b).symm, ?_⟩
  rcases Int.lt_or_gt_of_ne hb with hneg | hpos
  · right
    have hnonneg := Int.emod_nonneg a hb
    have hlt := Int.emod_lt a hb
    rw [Int.fmod_eq_emod]
    by_cases hdvd : b ∣ a
    · rw [if_pos (.inr hdvd), Int.emod_eq_zero_of_dvd hdvd]
      omega
    · have hne : a % b ≠ 0 := fun h => hdvd (Int.dvd_of_emod_eq_zero h)
      rw [if_neg (by omega)]
      omega
  · left
    exact ⟨Int.fmod_nonneg_of_pos a hpos, Int.fmod_lt_of_pos a hpos⟩

variable {op : BinaryOp} {o : Op} (hop : op.integerOp? = some o)
include hop

theorem expr_eq (span : Span) (left right : Expr) :
    op.expr span left right = .app span (.app span (.var span o.name) left) right := by
  cases op <;> cases hop <;> rfl

theorem arity_eq : o.arity = 2 := by
  cases op <;> cases hop <;> rfl

theorem denotes_applyTwo (a b : Int) : op.Denotes a b (o.applyTwo (.int a) (.int b)) := by
  cases op with
  | mul => cases hop; exact .mul a b
  | add => cases hop; exact .add a b
  | sub => cases hop; exact .sub a b
  | div =>
    cases hop
    by_cases hb : b = 0
    · subst hb
      exact .divZero a
    · have happly : Op.applyTwo (.arith .div) (.int a) (.int b) = .ok (.int (a.fdiv b)) := by
        simp [Op.applyTwo, intOperands, ArithOp.apply, hb, bind, Except.bind, pure, Except.pure]
      rw [happly]
      exact .div (floorDivides_fdiv a hb)
  | mod =>
    cases hop
    by_cases hb : b = 0
    · subst hb
      exact .modZero a
    · have happly : Op.applyTwo (.arith .mod) (.int a) (.int b) = .ok (.int (a.fmod b)) := by
        simp [Op.applyTwo, intOperands, ArithOp.apply, hb, bind, Except.bind, pure, Except.pure]
      rw [happly]
      exact .mod (floorDivides_fdiv a hb)
  | lt => cases hop; exact .lt a b
  | le => cases hop; exact .le a b
  | gt => cases hop; exact .gt a b
  | ge => cases hop; exact .ge a b
  | eq | ne | and | or => cases hop

theorem apply_eq (x y : Value) :
    o.apply [x, y] = (o.applyTwo x y).mapError fun fault => .runtime (.ofFault fault) := by
  cases op <;> cases hop <;> rfl

theorem get?_initial (options : Options) :
    Table.get? (Session.initial options).values o.name = some (.builtin (.op o) [] none) := by
  cases op <;> cases hop <;> rfl

end BinaryOp

/-! ## Evaluation -/

theorem World.Printed.alike {w w' : World} (h : w.Printed w') : w.Alike w' := by
  obtain ⟨text, rfl⟩ := h
  exact ⟨⟨rfl, rfl, rfl, rfl, rfl, rfl, rfl, rfl⟩, rfl, rfl, rfl, rfl⟩

/-- The value of an expression does not depend on what has been printed. -/
theorem Context.eval_of_printed {ctx : Context} {env : Env} {e : Expr} {v : Value} {w w₁ w' : World}
    (h : ctx.eval env e w = .ok v w₁) (hw : w.Printed w') : Succeeds (ctx.eval env e) w' (· = v) := by
  have hquiet := ctx.eval_quiet env e w'
  have hctx : ctx.Alike ctx := ⟨rfl, rfl, rfl⟩
  have hagree := hctx.eval env e w w' hw.alike
  rw [h] at hagree
  unfold Succeeds Ends at *
  cases heval : ctx.eval env e w' with
  | ok v' w₂ =>
    rw [heval] at hagree hquiet
    cases hagree with
    | ok result world => exact ⟨hquiet, result.symm⟩
  | error halt w₂ =>
    rw [heval] at hagree
    cases hagree

theorem eval_call_of_lookup {ctx : Context} {env : Env} {o : Op} (harity : o.arity = 2) (span : Span)
    {left right : Expr} {x y : Value} {w w₁ w₂ : World} {r : Except RuntimeFault Value}
    (hname : (env.lookup o.name).or (Table.get? w.session.values o.name) = some (.builtin (.op o) [] none))
    (hleft : ctx.eval env left w = .ok x w₁) (hright : ctx.eval env right w = .ok y w₂)
    (happly : o.apply [x, y] = r.mapError fun fault => .runtime (.ofFault fault)) :
    ∃ w', w.Printed w' ∧
      ctx.eval env (.app span (.app span (.var span o.name) left) right) w = Run.orFail r w' := by
  -- the function with its first argument
  have hpartial : ∀ w', w.Printed w' →
      Succeeds (ctx.eval env (.app span (.var span o.name) left)) w' (· = .builtin (.op o) [x] none) := by
    intro w' hw'
    refine .bind (.trace ctx _) fun _ u hu _ => .bind (P := (· = .builtin (.op o) [] (some o.name))) ?_ ?_
    · refine .bind (.trace ctx _) fun _ v hv _ => ?_
      have hprinted := (hw'.trans hu).trans hv
      unfold Succeeds Ends
      rw [evalName_eq, hprinted.session_eq, hname]
      exact ⟨.refl _, rfl⟩
    · rintro _ v hv rfl
      refine .bind (Context.eval_of_printed hleft ((hw'.trans hu).trans hv)) ?_
      rintro _ _ - rfl
      rw [Context.call, applyValue, if_pos (by simp [Primitive.arity, harity])]
      exact .pure rfl
  obtain ⟨_, u, htrace, hu, -⟩ := (Succeeds.trace (w := w) ctx "Evaluating: APPLICATION").exists_ok
  obtain ⟨_, v, hfn, hv, rfl⟩ := (hpartial u hu).exists_ok
  obtain ⟨y', w', harg, hw', rfl⟩ := (Context.eval_of_printed hright (hu.trans hv)).exists_ok
  refine ⟨w', (hu.trans hv).trans hw', ?_⟩
  have hstep : ctx.eval env (.app span (.app span (.var span o.name) left) right) w =
      ctx.call (.builtin (.op o) [x] none) y' span w' := by
    rw [Context.eval, evalExpr, Run.bind_of_ok htrace]
    exact (Run.bind_of_ok hfn).trans (Run.bind_of_ok harg)
  rw [hstep, Context.call, applyValue, if_neg (by simp [Primitive.arity, harity])]
  simp only [Primitive.apply, List.cons_append, List.nil_append, happly, Run.through_none]
  cases r with
  | ok value => rfl
  | error fault => rfl

/-- In a session that is reached without binding the name of its primitive, and in a local environment that does not
bind it either, an operator between expressions that come to integers comes to what it denotes, whatever else is
bound. -/
theorem infix_denotes {options : Options} {n : Nat} {ctx : Context} {env : Env} {op : BinaryOp} {o : Op} {span : Span}
    {left right : Expr} {a b : Int} {w w₁ w₂ : World} (hop : op.integerOp? = some o)
    (hsession : w.session.ReachableWithout options n o.name) (henv : env.lookup o.name = none)
    (hleft : ctx.eval env left w = .ok (.int a) w₁) (hright : ctx.eval env right w = .ok (.int b) w₂) :
    ∃ r w', op.Denotes a b r ∧ w.Printed w' ∧ ctx.eval env (op.expr span left right) w = Run.orFail r w' := by
  have hvalue := Session.LeadsWithout.keepsValue (Session.ExtendsWithout.keepsValue n) _ _ hsession _
    (BinaryOp.get?_initial hop options)
  have hname : (env.lookup o.name).or (Table.get? w.session.values o.name) = some (.builtin (.op o) [] none) := by
    rw [henv, hvalue, Option.none_or]
  obtain ⟨w', hprinted, heval⟩ := eval_call_of_lookup (BinaryOp.arity_eq hop) span hname hleft hright
    (BinaryOp.apply_eq hop _ _)
  exact ⟨_, w', BinaryOp.denotes_applyTwo hop a b, hprinted, by rw [BinaryOp.expr_eq hop, heval]⟩

/-- The declaration `let n = 7;` in a new session. -/
def declareSeven (span : Span) : Step where
  depth := 0
  ctx := .standard
  printBinds := false
  stmt := .define span (.single span (.mk span (.var span "n" none) (.int span 7)))
  world := .blank

/-- `n / m`, where the session has a positive `n` and the local environment a negative `m`. -/
theorem infix_denotes_div :
    let span : Span := .point typedFile 1 1
    let t := declareSeven span
    let w : World := { t.world with session := t.result }
    let env : Env := [.value "m" none (.int (-2))]
    w.session.ReachableWithout .standard 0 "int_div" ∧
      ∃ r w', BinaryOp.Denotes .div 7 (-2) r ∧ w.Printed w' ∧
        t.ctx.eval env (BinaryOp.expr .div span (.var span "n") (.var span "m")) w = Run.orFail r w' := by
  intro span t w env
  have hfiles : t.Includes (Session.ExtendsWithout "int_div" 0) :=
    ⟨fun _ _ _ => pure (), ⟨fun _ _ _ _ => rfl, fun _ _ _ _ => rfl⟩, rfl⟩
  have hsession : w.session.ReachableWithout .standard 0 "int_div" :=
    .step (.refl _) hfiles (by decide)
  exact ⟨hsession, infix_denotes (o := .arith .div) rfl hsession rfl rfl rfl⟩

/-- A script that binds the name of a primitive gives its operator another meaning, and so does a local binding. -/
theorem operator_captured :
    (∃ w, runFresh "let int_add x y = 0; let z = 1 + 2;" = .ok () w ∧
      Table.get? w.session.values "z" = some (.int 0)) ∧
    ∃ w, runFresh "let z = (let int_add x y = 0 in 1 + 2);" = .ok () w ∧
      Table.get? w.session.values "z" = some (.int 0) := by
  have hcaptured : ∀ {text : String}, Run.passes (fun _ w => w.session.hasInt "z" 0) (runFresh text) = true →
      ∃ w, runFresh text = .ok () w ∧ Table.get? w.session.values "z" = some (.int 0) := by
    intro text h
    obtain ⟨_, w, hrun, hw⟩ := Run.exists_ok_of_passes h
    exact ⟨w, hrun, Session.get?_of_hasInt hw⟩
  exact ⟨hcaptured (by decide +kernel), hcaptured (by decide +kernel)⟩

end VeriScript
