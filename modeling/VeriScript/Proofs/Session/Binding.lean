import VeriScript.Proofs.Session.History
import VeriScript.Proofs.Typing.Ascription

/-!
# Binds at the top level and in blocks

A bind takes the result of a block apart by a pattern.  In a block, all the types written in the pattern and its shape
have to agree with the type of the result; at the top level, only the outermost type does.

* `checkBind`, `evalBind` — the stages of a bind at the top level: nothing is evaluated in the first one.
* `Session.AcceptsBind`, `Session.RefusesBind` — what the first stage comes to, whatever the second would do.
* `checkBind_ends` — which of them the first stage comes to.
* `bind_enforces_outermost` — which binds are refused in a block and which at the top level.
-/

namespace VeriScript

open Check

variable {α β : Type}

/-! ## The stages of a bind -/

/-- Check the expression of a bind; its type is not to be general. -/
def checkBind (ctx : Context) (span : Span) (p : Pattern) (e : Expr) : Run Ty := do
  ctx.trace ("Statement: " ++ (Stmt.bind span p e).kind ++ " at " ++ span.render)
  let schema ← ctx.check (checkDecl (← Run.session).typeEnv true (.mk span (.wildcard span none) (p.annotate span e)))
  if !schema.vars.isEmpty then Run.fail (.type ⟨.notMonomorphic schema, span⟩)
  return schema.type

/-- Evaluate the expression of a bind, run its action and bind the names of the pattern. -/
def evalBind (run : RunAction) (ctx : Context) (printBinds : Bool) (span : Span) (p : Pattern) (e : Expr) (t : Ty) :
    Run Unit := do
  let value ← ctx.eval [] (p.annotate span e)
  let (result, resultType) ← topLevelResult run ctx t value
  printResult ctx printBinds p result resultType
  Run.setSession (← Run.orRuntimeError ((← Run.session).bindPattern p (some (.mono resultType)) result))

/-- A bind at the top level is checked before anything is evaluated. -/
theorem runStmt_bind (run : RunAction) (ctx : Context) (printBinds : Bool) (span : Span) (p : Pattern) (e : Expr) :
    runStmt run ctx printBinds (.bind span p e) =
      Run.guardDepth span (do evalBind run ctx printBinds span p e (← checkBind ctx span p e)) := by
  have hstages : (do Run.setSession (← nextSession run ctx printBinds (.bind span p e))) =
      (do evalBind run ctx printBinds span p e (← checkBind ctx span p e)) := by
    simp only [nextSession, stmtSession, bindResult, checkBind, bind_assoc]
    refine bind_congr fun _ => bind_congr fun s => bind_congr fun schema => ?_
    split
    · simp only [bind_assoc, pure_bind, evalBind]
    · simp only [bind_assoc, pure_bind, evalBind]
  exact congrArg (Run.guardDepth span) hstages

namespace Run

variable {x : Run α} {f : α → Run β} {a : α} {w w' : World}

theorem guardDepth_bind_of_ok (span : Span) (h : x w = .ok a w') :
    guardDepth span (x >>= f) w = guardDepth span (f a) w' := by
  simp only [guardDepth, Bind.bind, EStateM.bind, h]

theorem guardDepth_bind_of_error (span : Span) {e : ScriptError} (h : x w = .error e.halt w') :
    guardDepth span (x >>= f) w = .error e.halt w' := by
  simp only [guardDepth, Bind.bind, EStateM.bind, h]
  unfold ScriptError.halt
  cases e.textFault? <;> rfl

end Run

/-! ## The first stage -/

section
variable {env : TypeEnv} {span : Span} {p : Pattern} {e : Expr} {t : Ty} {st0 : CheckState}
  (henv : env.Below List.Nodup 0) (hp : p.AllTypes (Ty.Solid List.Nodup)) (he : e.AllTypes (Ty.Solid List.Nodup))
  (hmono : checkDecl env true (.mk span (.wildcard span none) e) .initial =
    .ok ⟨[], .block (.context .topLevel) t⟩ st0)
include henv hp he hmono

theorem checkAnnotated_of_agrees (h : t.shape.AgreesWith env.aliases p.declaredType) :
    ∃ u st, u.Alike t ∧ checkDecl env true (.mk span (.wildcard span none) (p.annotate span e)) .initial =
      .ok ⟨[], .block (.context .topLevel) u⟩ st := by
  have htypes := hp.declaredType
  unfold Pattern.annotate
  cases hd : p.declaredType with
  | none => exact ⟨t, st0, .refl t, hmono⟩
  | some d =>
    rw [hd] at h htypes
    exact checkDecl_typed_of_agrees henv he (htypes d rfl) hmono h

theorem agrees_of_checkAnnotated {s : Schema} {st : CheckState}
    (h : checkDecl env true (.mk span (.wildcard span none) (p.annotate span e)) .initial = .ok s st) :
    t.shape.AgreesWith env.aliases p.declaredType := by
  have htypes := hp.declaredType
  unfold Pattern.annotate at h
  cases hd : p.declaredType with
  | none => exact fun d hd => absurd hd (Option.not_mem_none d)
  | some d =>
    rw [hd] at h htypes
    exact agrees_of_checkDecl_typed henv he (htypes d rfl) hmono h

end

/-- The first stage of a bind, of an expression that gives a block of the top level with a result of type `t`, ends
with that type if the outermost type written on the pattern stands for it, and with the error of the check otherwise. -/
theorem checkBind_ends {s : Session} (hs : s.typeEnv.Below List.Nodup 0) {span : Span} {p : Pattern} {e : Expr} {t : Ty}
    {st0 : CheckState} (hp : p.AllTypes (Ty.Solid List.Nodup)) (he : e.AllTypes (Ty.Solid List.Nodup))
    (hmono : checkDecl s.typeEnv true (.mk span (.wildcard span none) e) .initial =
      .ok ⟨[], .block (.context .topLevel) t⟩ st0) (ctx : Context) {w : World} (hw : w.session = s) :
    Run.Ends (checkBind ctx span p e) w
      (fun v w' => w.Printed w' ∧ t.shape.AgreesWith s.aliases p.declaredType ∧
        ∃ u, u.Alike t ∧ v = .block (.context .topLevel) u)
      fun halt w' => w.Printed w' ∧ ¬ t.shape.AgreesWith s.aliases p.declaredType ∧ ∃ err st,
        halt = (ScriptError.type err).halt ∧
          checkDecl s.typeEnv true (.mk span (.wildcard span none) (p.annotate span e)) .initial = .error err st := by
  unfold checkBind
  rw [Run.ends_bind]
  refine Run.ends_trace fun w1 hw1 => ?_
  rw [Run.ends_bind, Run.ends_session, Run.ends_bind, hw1.session_eq, hw]
  refine (Run.check_ends ctx _ w1).imp ?_ ?_
  · rintro schema w2 ⟨hw2, st, hcheck⟩
    have hagrees := agrees_of_checkAnnotated hs hp he hmono hcheck
    obtain ⟨u, st', halike, hok⟩ := checkAnnotated_of_agrees hs hp he hmono hagrees
    rw [hcheck] at hok
    cases hok
    exact ⟨hw1.trans hw2, hagrees, u, halike, rfl⟩
  · rintro halt w2 ⟨hw2, err, st, rfl, hcheck⟩
    refine ⟨hw1.trans hw2, fun hagrees => ?_, err, st, rfl, hcheck⟩
    obtain ⟨u, st', -, hok⟩ := checkAnnotated_of_agrees hs hp he hmono hagrees
    rw [hcheck] at hok
    cases hok

/-- From the session, the bind goes on to evaluate its expression, as one whose result has the type `t`. -/
def Session.AcceptsBind (s : Session) (span : Span) (p : Pattern) (e : Expr) (t : Ty) : Prop :=
  ∀ (ctx : Context) (w : World), w.session = s → ∃ u w', u.Alike t ∧ w.Printed w' ∧ ∀ run printBinds,
    runStmt run ctx printBinds (.bind span p e) w =
      Run.guardDepth span (evalBind run ctx printBinds span p e (.block (.context .topLevel) u)) w'

/-- From the session, the bind ends early, for a reason of which `P` holds and that does not depend on how actions are
run, and nothing is changed. -/
def Session.RefusesBind (s : Session) (span : Span) (p : Pattern) (e : Expr) (P : Halt → Prop) : Prop :=
  ∀ (ctx : Context) (w : World), w.session = s → ∃ halt w', P halt ∧ w.Printed w' ∧ ∀ run printBinds,
    runStmt run ctx printBinds (.bind span p e) w = .error halt w'

section
variable {s : Session} (hs : s.typeEnv.Below List.Nodup 0) {span : Span} {p : Pattern} {e : Expr} {t : Ty}
  {st0 : CheckState} (hp : p.AllTypes (Ty.Solid List.Nodup)) (he : e.AllTypes (Ty.Solid List.Nodup))
  (hmono : checkDecl s.typeEnv true (.mk span (.wildcard span none) e) .initial =
    .ok ⟨[], .block (.context .topLevel) t⟩ st0)
include hs he hmono

/-- The type of the result has no holes, and each field of a record in it once. -/
theorem solid_of_checkDecl : t.Solid List.Nodup := by
  obtain ⟨found, st, -, -, -, hsettles⟩ := exists_settlesAs hs he hmono
  have hkeeps := inferDecl_keeps CheckState.sound_initial hs (fun _ => id) (.mk span (.wildcard span none) e) true
    ⟨fun d hd => absurd hd (Option.not_mem_none d), he⟩
  have hbelow := (hkeeps.result _ _ hmono).2
  cases hbelow with
  | con hargs => exact (hargs t (by simp)).imp fun i hi => hsettles.ground.1 i hi

include hp

theorem acceptsBind_of_agrees (h : t.shape.AgreesWith s.aliases p.declaredType) : s.AcceptsBind span p e t := by
  intro ctx w hw
  have hends := checkBind_ends hs hp he hmono ctx hw
  cases hrun : checkBind ctx span p e w with
  | ok v w' =>
    obtain ⟨hprinted, -, u, halike, rfl⟩ := hends.of_ok hrun
    refine ⟨u, w', halike, hprinted, fun run printBinds => ?_⟩
    rw [runStmt_bind]
    exact Run.guardDepth_bind_of_ok span hrun
  | error halt w' =>
    obtain ⟨-, hnot, -⟩ := hends.of_error hrun
    exact absurd h hnot

theorem refusesBind_of_not_agrees {P : Halt → Prop} (hP : ∀ err st,
      checkDecl s.typeEnv true (.mk span (.wildcard span none) (p.annotate span e)) .initial = .error err st →
        P (ScriptError.type err).halt)
    (h : ¬ t.shape.AgreesWith s.aliases p.declaredType) : s.RefusesBind span p e P := by
  intro ctx w hw
  have hends := checkBind_ends hs hp he hmono ctx hw
  cases hrun : checkBind ctx span p e w with
  | ok v w' =>
    obtain ⟨-, hagrees, -⟩ := hends.of_ok hrun
    exact absurd hagrees h
  | error halt w' =>
    obtain ⟨hprinted, -, err, st, rfl, hcheck⟩ := hends.of_error hrun
    refine ⟨_, w', hP err st hcheck, hprinted, fun run printBinds => ?_⟩
    rw [runStmt_bind]
    exact Run.guardDepth_bind_of_error span hrun

/-- Where all types have the parameters they take, the error of the check is a type error. -/
theorem halt_of_not_agrees (h : ¬ t.shape.AgreesWith s.aliases p.declaredType) (hsS : s.typeEnv.Saturated)
    (hpS : p.AllTypes Ty.Saturated) (heS : e.AllTypes Ty.Saturated) {err : TypeError} {st : CheckState}
    (hcheck : checkDecl s.typeEnv true (.mk span (.wildcard span none) (p.annotate span e)) .initial = .error err st) :
    (ScriptError.type err).halt = .error (.type err) := by
  have htypes := hp.declaredType
  have htypesS := hpS.declaredType
  unfold Pattern.annotate at hcheck
  cases hd : p.declaredType with
  | none =>
    rw [hd] at h
    exact absurd (fun d hd => absurd hd (Option.not_mem_none d)) h
  | some d =>
    rw [hd] at h hcheck htypes htypesS
    have hnone := textFault?_of_checkDecl_typed hs he (htypes d rfl) hmono h hcheck hsS heS (htypesS d rfl)
    simp only [ScriptError.halt, ScriptError.textFault?, hnone]

end

/-- A bind in a block that is not accepted makes the block fail. -/
theorem inferBody_error {env : TypeEnv} {context : Ty} {span : Span} {p : Pattern} {e : Expr} {st : CheckState}
    (h : ¬ ∃ r st', inferBind env context span p e st = .ok r st') (rest : List Stmt) :
    ∃ err st', inferBody env context (.bind span p e :: rest) st = .error err st' := by
  rw [inferBody_bind]
  cases hrun : inferBind env context span p e st with
  | ok r st' => exact absurd ⟨r, st', hrun⟩ h
  | error err st' =>
    refine ⟨err, st', ?_⟩
    simp only [Bind.bind, EStateM.bind, hrun]

/-! ## The initial session -/

namespace Ty

mutual

/-- The type has no holes, and each field of a record in it once. -/
def isSolid : Ty → Bool
  | .con _ args => isSolidList args
  | .var _ => true
  | .hole _ => false
  | .record fields => decide (Table.names fields).Nodup && isSolidFields fields

def isSolidList : List Ty → Bool
  | [] => true
  | t :: ts => isSolid t && isSolidList ts

def isSolidFields : List (String × Ty) → Bool
  | [] => true
  | (_, t) :: fields => isSolid t && isSolidFields fields

end

mutual

theorem solid_of_isSolid : ∀ t : Ty, t.isSolid = true → t.Solid List.Nodup
  | .con _ args, h => .con (solid_of_isSolidList args (by simpa [isSolid] using h))
  | .var _, _ => .var
  | .hole _, h => by simp [isSolid] at h
  | .record fields, h => by
    simp only [isSolid, Bool.and_eq_true, decide_eq_true_eq] at h
    exact .record h.1 (solid_of_isSolidFields fields h.2)

theorem solid_of_isSolidList : ∀ ts : List Ty, isSolidList ts = true → ∀ t ∈ ts, t.Solid List.Nodup
  | [], _ => List.forall_mem_nil _
  | t :: ts, h => by
    simp only [isSolidList, Bool.and_eq_true] at h
    exact List.forall_mem_cons.2 ⟨solid_of_isSolid t h.1, solid_of_isSolidList ts h.2⟩

theorem solid_of_isSolidFields : ∀ fields : List (String × Ty), isSolidFields fields = true →
    ∀ f ∈ fields, f.2.Solid List.Nodup
  | [], _ => List.forall_mem_nil _
  | (_, t) :: fields, h => by
    simp only [isSolidFields, Bool.and_eq_true] at h
    exact List.forall_mem_cons.2 ⟨solid_of_isSolid t h.1, solid_of_isSolidFields fields h.2⟩

end

end Ty

theorem initial_below (options : Options) : (Session.initial options).typeEnv.Below List.Nodup 0 := by
  have hprimitives : ∀ entry ∈ primitives, entry.schema.type.isSolid = true := by decide
  constructor
  · intro e he
    obtain ⟨entry, hentry, rfl⟩ := List.mem_map.1 he
    exact (Ty.solid_of_isSolid _ (hprimitives entry (List.mem_filter.1 hentry).1)).below 0
  · exact List.forall_mem_nil _

/-! ## A pattern with a type within -/

/-- `(x : String, y)` -/
def textAndAny : Pattern :=
  let pos := Span.point "" 1 1
  .tuple pos [.var pos "x" (some .string), .var pos "y" none] none

/-- `return (1, 2)` -/
def returnPair : Expr :=
  let pos := Span.point "" 1 1
  .app pos (.var pos "return") (.tuple pos [.int pos 1, .int pos 2])

/-- The schema is that of a block of the top level that gives two numbers. -/
def Schema.isPairBlock : Schema → Bool
  | ⟨[], .con "Block" [.con "TopLevel" [], .con "Tuple" [.con "Int" [], .con "Int" []]]⟩ => true
  | _ => false

theorem Schema.eq_of_isPairBlock {s : Schema} (h : s.isPairBlock = true) :
    s = ⟨[], .block (.context .topLevel) (.tuple [.int, .int])⟩ := by
  unfold isPairBlock at h
  split at h
  · rfl
  · cases h

theorem not_fits_textAndAny : ¬ textAndAny.Fits [] (Ty.tuple [.int, .int]).shape := by
  unfold textAndAny Pattern.Fits
  rintro ⟨-, ts, hts, hfits⟩
  cases hts
  unfold Pattern.FitsList at hfits
  have hfirst := hfits.1
  unfold Pattern.Fits at hfirst
  obtain ⟨u, hu, hshape⟩ := hfirst .string rfl
  cases hu
  exact absurd (Mono.con.inj hshape).1 (by decide)

/-- The type found is that of a block that gives two numbers and can run in the context. -/
def givesPair (context : Ty) (span : Span) (found : Ty) (st : CheckState) : Bool :=
  match Ty.applyBindings st.bindings found with
  | .con "Block" [c, .con "Tuple" [.con "Int" [], .con "Int" []]] =>
    Run.passes (fun _ _ => true) (unify context c span st)
  | _ => false

theorem exists_of_givesPair {context found : Ty} {span : Span} {st : CheckState}
    (h : givesPair context span found st = true) :
    ∃ c st', Ty.applyBindings st.bindings found = .block c (.tuple [.int, .int]) ∧
      unify context c span st = .ok () st' := by
  unfold givesPair at h
  split at h
  · rename_i c heq
    obtain ⟨⟨⟩, st', hunify, -⟩ := Run.exists_ok_of_passes h
    exact ⟨c, st', heq, hunify⟩
  · cases h

/-- At the start of a block in the initial session, when the context of the block has got its hole. -/
theorem givesResult_returnPair :
    GivesResult (Session.initial .standard).typeEnv (.hole 0) ⟨[], 1, []⟩ (.point "" 1 1) returnPair
      (.tuple [.int, .int]) := by
  have hpasses : Run.passes (givesPair (.hole 0) (.point "" 1 1))
      (inferExpr (Session.initial .standard).typeEnv returnPair ⟨[], 1, []⟩) = true := by decide +kernel
  obtain ⟨found, st, hinfer, htest⟩ := Run.exists_ok_of_passes hpasses
  obtain ⟨c, st', hblock, hunify⟩ := exists_of_givesPair htest
  constructor
  · exact ⟨trivial, List.forall_mem_nil _⟩
  · exact (initial_below .standard).mono (Nat.zero_le 1)
  · exact .hole Nat.zero_lt_one
  · exact ⟨found, st, c, st', hinfer, hblock, hunify⟩

def Session.hasNumber (s : Session) (x : String) : Bool :=
  match Table.get? s.types x with
  | some ⟨[], .con "Int" []⟩ => true
  | _ => false

theorem Session.get?_of_hasNumber {s : Session} {x : String} (h : s.hasNumber x = true) :
    Table.get? s.types x = some (.mono .int) := by
  unfold Session.hasNumber at h
  split at h
  · assumption
  · cases h

def Run.isTypeError : EStateM.Result Halt World α → Bool
  | .error (.error (.type _)) _ => true
  | _ => false

theorem Run.exists_of_isTypeError {r : EStateM.Result Halt World α} (h : Run.isTypeError r = true) :
    ∃ err w, r = .error (.error (.type err)) w := by
  unfold Run.isTypeError at h
  split at h
  · exact ⟨_, _, rfl⟩
  · cases h

/-! ## Which binds are refused -/

/-- In a session without holes, of an expression that gives a block of the top level with a result of type `t`: the
type of a pattern unifies with `t` if the pattern fits `t`, and binds by patterns that do not fit are refused in a
block.  At the top level, binds are refused before anything is evaluated if the outermost type written on the pattern
does not stand for `t`, and evaluated in all other cases: neither the types within the pattern nor its shape matter.
They are refused by the type error of the check, which is one of the script if its message can be written.  It can
be written where all types have the parameters they take. -/
theorem bind_enforces_outermost {s : Session} (hs : s.typeEnv.Below List.Nodup 0) {span : Span} {p : Pattern}
    {e : Expr} {t : Ty} {st0 : CheckState} (hp : p.AllTypes (Ty.Solid List.Nodup))
    (he : e.AllTypes (Ty.Solid List.Nodup))
    (hmono : checkDecl s.typeEnv true (.mk span (.wildcard span none) e) .initial =
      .ok ⟨[], .block (.context .topLevel) t⟩ st0) :
    ((∃ binds st, inferTaken s.typeEnv span p t .initial = .ok binds st) ↔ p.Fits s.aliases t.shape) ∧
      (∀ env context st, env.aliases = s.aliases → GivesResult env context st span e t →
        (p.Fits s.aliases t.shape → ∃ r st', inferBind env context span p e st = .ok r st') ∧
          (¬ p.Fits s.aliases t.shape → ∀ rest, ∃ err st',
            inferBody env context (.bind span p e :: rest) st = .error err st')) ∧
      (p.Fits s.aliases t.shape → t.shape.AgreesWith s.aliases p.declaredType) ∧
      (t.shape.AgreesWith s.aliases p.declaredType → s.AcceptsBind span p e t) ∧
      (¬ t.shape.AgreesWith s.aliases p.declaredType →
        s.RefusesBind span p e (fun halt => ∃ err, halt = (ScriptError.type err).halt) ∧
          (s.typeEnv.Saturated → p.AllTypes Ty.Saturated → e.AllTypes Ty.Saturated →
            s.RefusesBind span p e fun halt => ∃ err, halt = .error (.type err))) := by
  have hsolid := solid_of_checkDecl hs he hmono
  have hnoHoles := hsolid.noHoles
  refine ⟨?_, ?_, Pattern.Fits.declaredType, acceptsBind_of_agrees hs hp he hmono, fun hnot => ⟨?_, ?_⟩⟩
  · exact inferTaken_iff hp CheckState.sound_initial hs (hsolid.below 0) fun θ _ => hnoHoles.under_eq θ
  · intro env context st haliases hgives
    have hiff := inferBind_iff hp he hnoHoles hgives
    rw [haliases] at hiff
    exact ⟨hiff.2, fun hnot => inferBody_error fun hok => hnot (hiff.1 hok)⟩
  · exact refusesBind_of_not_agrees hs hp he hmono (fun err _ _ => ⟨err, rfl⟩) hnot
  · intro hsS hpS heS
    refine refusesBind_of_not_agrees hs hp he hmono (fun err st hcheck => ⟨err, ?_⟩) hnot
    exact halt_of_not_agrees hs hp he hmono hnot hsS hpS heS hcheck

theorem bind_enforces_outermost_pair :
    ∃ st, checkDecl (Session.initial .standard).typeEnv true
        (.mk (.point "" 1 1) (.wildcard (.point "" 1 1) none) returnPair) .initial =
          .ok ⟨[], .block (.context .topLevel) (.tuple [.int, .int])⟩ st ∧
      (¬ ∃ binds st, inferTaken (Session.initial .standard).typeEnv (some (.point "" 1 1)) textAndAny
        (.tuple [.int, .int]) .initial = .ok binds st) ∧
      (∀ rest, ∃ err st, inferBody (Session.initial .standard).typeEnv (.hole 0)
        (.bind (.point "" 1 1) textAndAny returnPair :: rest) ⟨[], 1, []⟩ = .error err st) ∧
      (Session.initial .standard).AcceptsBind (.point "" 1 1) textAndAny returnPair (.tuple [.int, .int]) := by
  have hpasses : Run.passes (fun s _ => s.isPairBlock) (checkDecl (Session.initial .standard).typeEnv true
      (.mk (.point "" 1 1) (.wildcard (.point "" 1 1) none) returnPair) .initial) = true := by decide +kernel
  obtain ⟨schema, st, hcheck, htest⟩ := Run.exists_ok_of_passes hpasses
  obtain rfl := Schema.eq_of_isPairBlock htest
  have hp : textAndAny.AllTypes (Ty.Solid List.Nodup) := by
    simp [textAndAny, Pattern.AllTypes, Pattern.AllTypesList, Ty.solid_of_isSolid Ty.string (by decide)]
  have he : returnPair.AllTypes (Ty.Solid List.Nodup) := by
    simp [returnPair, Expr.AllTypes, Expr.AllTypesList]
  obtain ⟨hunifies, hblock, -, haccepts, -⟩ := bind_enforces_outermost (initial_below .standard) hp he hcheck
  refine ⟨st, hcheck, fun h => not_fits_textAndAny (hunifies.1 h), ?_, ?_⟩
  · exact (hblock _ _ _ rfl givesResult_returnPair).2 not_fits_textAndAny
  · exact haccepts fun d hd => absurd hd (Option.not_mem_none d)

/-- The same bind at the top level, where it is run and the name gets another type than the one written on it, and in
a block, where it is refused. -/
theorem innerType_ignored :
    (∃ w, runFresh "(x : String, y) <- return (1, 2);" = .ok () w ∧
        Table.get? w.session.types "x" = some (.mono .int)) ∧
      ∃ err w, runFresh "do \x7b (x : String, y) <- return (1, 2); return x; \x7d;" =
        .error (.error (.type err)) w := by
  have hpasses : Run.passes (fun _ w => w.session.hasNumber "x")
      (runFresh "(x : String, y) <- return (1, 2);") = true := by decide +kernel
  obtain ⟨⟨⟩, w, hrun, hw⟩ := Run.exists_ok_of_passes hpasses
  exact ⟨⟨w, hrun, Session.get?_of_hasNumber hw⟩, Run.exists_of_isTypeError (by decide +kernel)⟩

end VeriScript
