import VeriScript.Proofs.Run.Progress
import VeriScript.Proofs.Session.Enabling
import VeriScript.Proofs.Session.History

/-!
# Names that keep their values

Only the statements at the top level bind names of the session: blocks and commands do not, so a name keeps its value
until such a statement binds it, typed in or read from a file.

* `World.Retains` — a name keeps its value.
* `actionCongruence_retains`, `runActionWith_retains` — commands and actions.
* `runStmt_retains` — statements that do not bind the name.
* `Session.LeadsWithout` — sessions that statements lead to without binding a name.
-/

namespace VeriScript

open Run (Ends Within Quiet Silent Prints)

/-- If the name has a value in the first world, it has the same in the second. -/
def World.Retains (x : String) (w w' : World) : Prop :=
  ∀ v, Table.get? w.session.values x = some v → Table.get? w'.session.values x = some v

variable {α : Type} {x : String}

instance : IsPreorder World (World.Retains x) where
  refl _ _ h := h
  trans _ _ _ h h' v hv := h' v (h v hv)

theorem World.retains_of_values_eq {w w' : World} (h : w'.session.values = w.session.values) : w.Retains x w' := by
  intro v hv
  rw [h, hv]

namespace Run

variable {r : Run α}

theorem Quiet.retains (hr : Quiet r) : Within (World.Retains x) r := by
  have hprinted : ∀ {w w' : World}, w.Printed w' → w.Retains x w' := fun h =>
    World.retains_of_values_eq (by rw [h.session_eq])
  exact fun w => (hr w).imp (fun _ _ h => hprinted h) fun _ _ h => hprinted h

theorem Silent.retains (hr : Silent r) : Within (World.Retains x) r :=
  hr.quiet.retains

theorem retains_print (ctx : Context) (level : Level) (text : String) :
    Within (World.Retains x) (ctx.print level text) :=
  (Prints.print ctx level text).quiet.retains

theorem retains_setWork (work : Work) : Within (World.Retains x) (setWork work) := fun _ _ h => h

/-- Changing the session keeps what the change of the session keeps. -/
theorem retains_update {edit : Session → Session}
    (h : ∀ s v, Table.get? s.values x = some v → Table.get? (edit s).values x = some v) :
    Within (World.Retains x) (do Run.setSession (edit (← Run.session))) :=
  fun w v hv => h w.session v hv

theorem retains_withWork (work : Work) (hr : Within (World.Retains x) r) : Within (World.Retains x) (withWork work r) :=
  fun w => ends_withWork ((hr { w with work := work }).imp (fun _ _ h => h) fun _ _ h => h)

theorem retains_anticipate (hr : Within (World.Retains x) r) : Within (World.Retains x) (anticipate r) := by
  intro w
  have hw := hr w
  unfold Ends anticipate at *
  split at hw
  · rename_i heq
    simpa only [heq] using hw
  · rename_i halt w' heq
    simp only [heq]
    cases halt <;> exact hw

end Run

open Run (retains_print retains_setWork retains_update retains_withWork retains_anticipate)

/-! ## Commands -/

theorem changeDraft_retains (change : Draft → Draft) : Within (World.Retains x) (changeDraft change) := by
  intro w
  unfold changeDraft
  rw [Run.ends_bind, Run.ends_get]
  split
  · exact retains_setWork _ w
  · exact Within.failAt _ _ w

theorem writeCoq_retains (ctx : Context) (name term file : Value) :
    Within (World.Retains x) (writeCoq ctx name term file) := by
  refine .bind (.orFailAt _ _) fun path => .bind (.orFailAt _ _) fun _ => .bind (.orFailAt _ _) fun _ => ?_
  refine .bind (.write _) fun _ w => ?_
  unfold writeFile
  rw [Run.ends_bind, Run.ends_get]
  split
  · exact World.retains_of_values_eq rfl
  · exact Within.bind (retains_print _ _ _) (fun _ => .failAt _ _) w
  · exact refl_of (World.Retains x) w

section
variable {run : RunAction} (hrun : ∀ ctx v, Within (World.Retains x) (run ctx v)) (ctx : Context)
include hrun

theorem runProof_retains (script : Value) (t : Term) : Within (World.Retains x) (runProof run ctx script t) := by
  refine .bind (retains_withWork _ (hrun ctx script)) fun work => ?_
  cases work with
  | proof goal =>
    dsimp only
    split
    · exact .pure _
    · exact .bind (.write _) fun _ => .failAt _ _
  | _ => exact .failAt _ _

theorem runSetup_retains (setup : Value) : Within (World.Retains x) (runSetup run ctx setup) := by
  refine .bind (retains_withWork _ (hrun ctx setup)) fun work => ?_
  cases work with
  | setup draft => exact .pure _
  | _ => exact .failAt _ _

theorem actionCongruence_retains :
    ActionCongruence (fun _ r _ => Within (World.Retains x) r) (fun _ _ => True) ctx ctx run run where
  toEvalCongruence := evalCongruence_within fun text => (Run.trace_quiet ctx text).retains
  act := hrun ctx
  prints _ hx := (hx ctx).quiet.retains
  shows _ _ _ _ := .bind .session fun _ => .bind (.write _) fun _ => .unit (retains_print _ _ _)
  printEnv := (printEnv_quiet ctx).retains
  draw _ _ _ hv := hv
  fails hx := by
    refine .bind (retains_anticipate hx) fun e? => ?_
    cases e? with
    | none => exact .failAt _ _
    | some e => exact .bind (retains_print _ _ _) fun _ => .unit (retains_print _ _ _)
  contextName w := refl_of (World.Retains x) w
  code env span text r _ hr w := by
    rw [Run.ends_bind, Run.ends_session, Run.ends_bind]
    refine Run.ends_orTermError (fun terms _ => ?_) fun _ _ => refl_of (World.Retains x) w
    exact hr { w with session := { w.session with terms := terms } }
  enable life w v hv := (Session.enable_reveals w.session life).retains.values x v hv
  changeDisplay _ _ := retains_update fun _ _ h => h
  defineTerm _ _ _ _ hv := hv
  parseFile path := (parseFile_silent path).retains
  writeCoq := writeCoq_retains ctx
  openGoal tactic := (openGoal_silent tactic).retains
  closeGoal _ _ _ _ _ := .bind (retains_setWork _) fun _ => .pure _
  simplifyGoal tactic := .bind (openGoal_silent tactic).retains fun _ => .unit (retains_setWork _)
  changeDraft := changeDraft_retains
  runProof script t _ _ hf := .bind (runProof_retains hrun ctx script t) fun r => hf r trivial
  runSetup := runSetup_retains hrun ctx
  recordGoal _ _ _ _ := .bind (.write _) fun _ => retains_update fun _ _ h => h
  recordSpec _ _ := .bind (.write _) fun _ => retains_update fun _ _ h => h
  closed _ _ := trivial
  assumed := trivial
  verified _ _ := trivial

end

/-! ## Actions -/

theorem runActionWith_retains {file : RunFile}
    (hfile : ∀ depth ctx path, Within (World.Retains x) (file depth ctx path)) (depth : Nat) (ctx : Context)
    (v : Value) : Within (World.Retains x) (runActionWith file depth ctx v) := by
  induction depth generalizing ctx v with
  | zero => exact .throw _
  | succ depth ih =>
    unfold runActionWith
    split
    · exact .bind (requireContext_silent _).retains fun _ => .bind (hfile depth ctx _) fun _ => .pure _
    · rename_i job hinclude
      refine .bind (requireContext_silent _).retains fun _ => ?_
      exact (actionCongruence_retains ih ctx).perform job fun path hjob => absurd hjob (hinclude path)
    · exact .bind .session fun _ => .failAt _ _

/-! ## Statements -/

/-- A group at the top level binds its names one after another. -/
theorem evalGroup_bindParts (ctx : Context) (schemas : List Schema) (g : Group) (w : World) :
    Ends (evalGroup ctx.call ctx [] schemas g) w
      (fun env w' => w.Printed w' ∧ ∃ parts : List Part, parts.map (·.name) = g.names ∧
        ∀ s : Session, s.merge env = s.bindParts parts)
      fun _ w' => w.Printed w' := by
  cases g with
  | single span d =>
    obtain ⟨dspan, p, e⟩ := d
    rw [evalGroup, evalDecl, Run.ends_bind]
    refine (ctx.eval_quiet [] e w).imp (fun v w' hprinted => ?_) fun _ _ h => h
    refine Run.ends_orRuntimeError (fun env henv => ⟨hprinted, ?_⟩) fun _ _ => hprinted
    obtain ⟨parts, hparts, rfl⟩ := exists_ok_of_map henv
    exact ⟨parts, Pattern.group_names hparts span dspan e, fun s => s.merge_bindParts [] parts⟩
  | recursive span ds =>
    rw [evalGroup, Run.ends_bind]
    refine Run.ends_orRuntimeError (fun members hmembers => ⟨.refl w, ?_⟩) fun _ _ => .refl w
    have hmembersOf := membersOf_of_ok hmembers (by simp)
    exact ⟨memberParts members, hmembersOf.group_names span, fun s => s.merge_recursive members⟩

section
variable {run : RunAction} (hrun : ∀ ctx v, Within (World.Retains x) (run ctx v)) (ctx : Context)
  (printBinds : Bool)
include hrun

/-- The run keeps the value of the name, and so does the session that it gives. -/
def Run.LeadsOn (x : String) (r : Run Session) : Prop :=
  ∀ w, Ends r w (fun s w' => w.Retains x { w' with session := s }) fun _ w' => w.Retains x w'

omit hrun in
theorem Run.LeadsOn.bind {r : Run α} {f : α → Run Session} (hr : Within (World.Retains x) r)
    (hf : ∀ a, Run.LeadsOn x (f a)) : Run.LeadsOn x (r >>= f) := by
  intro w
  rw [Run.ends_bind]
  refine (hr w).imp (fun a w' h => ?_) fun _ _ h => h
  exact (hf a w').imp (fun _ _ h' => trans_of (World.Retains x) h h') fun _ _ h' => trans_of (World.Retains x) h h'

theorem bindResult_leadsOn (span : Span) {p : Pattern} (hp : x ∉ p.names) (e : Expr) :
    Run.LeadsOn x (bindResult run ctx printBinds span p e) := by
  refine .bind .session fun s => .bind (ctx.check_quiet _).retains fun schema => ?_
  dsimp only
  split
  · exact fun w => refl_of (World.Retains x) w
  · refine .bind (ctx.eval_quiet [] _).retains fun value => ?_
    have hresult : Within (World.Retains x) (topLevelResult run ctx schema.type value) := by
      unfold topLevelResult
      split
      · exact .failAt _ _
      · refine .bind (hrun ctx value) fun _ => ?_
        split
        · exact .pure _
        · exact .failAt _ _
      · exact .pure _
    refine .bind hresult fun r => .bind (printResult_quiet ctx _ _ _ _).retains fun _ w => ?_
    rw [Run.ends_bind, Run.ends_session]
    refine Run.ends_orRuntimeError (fun s' hs' v hv => ?_) fun _ _ => refl_of (World.Retains x) w
    obtain ⟨parts, hparts, rfl⟩ := Session.bindPattern_eq_ok_iff.1 hs'
    rw [Session.get?_values_bindParts (by rwa [p.destructure_names hparts]), hv]

/-- A statement that does not bind the name keeps its value. -/
theorem stmtSession_leadsOn {stmt : Stmt} (hstmt : x ∉ stmt.names) :
    Run.LeadsOn x (stmtSession run ctx printBinds stmt) := by
  cases stmt with
  | bind span p e => exact bindResult_leadsOn hrun ctx printBinds span hstmt e
  | define span g =>
    refine .bind .session fun s => .bind (ctx.check_quiet _).retains fun schemas w => ?_
    rw [Run.ends_bind]
    refine (evalGroup_bindParts ctx schemas g w).imp (fun env w' henv => ?_) fun _ _ h =>
      World.retains_of_values_eq (by rw [h.session_eq])
    obtain ⟨hprinted, parts, hnames, hmerge⟩ := henv
    intro v hv
    show Table.get? (w'.session.merge env).values x = some v
    rw [hmerge, Session.get?_values_bindParts (by rwa [hnames]), hprinted.session_eq, hv]
  | code span text =>
    intro w
    rw [stmtSession, Run.ends_bind, Run.ends_session, Run.ends_bind]
    exact Run.ends_orTermError (fun _ _ _ h => h) fun _ _ _ h => h
  | importTerms span file qualifier =>
    intro w
    unfold stmtSession importTerms
    rw [Run.ends_bind, Run.ends_get]
    split
    · rw [Run.ends_bind]
      exact Run.ends_orTermError (fun _ _ _ h => h) fun _ _ _ h => h
    · exact fun _ h => h
    · exact fun _ h => h
    · exact fun _ h => h
  | typedef span name t =>
    intro w
    unfold stmtSession
    rw [Run.ends_bind, Run.ends_session]
    split
    · exact fun _ h => h
    · exact fun _ h => h

theorem runStmt_retains {stmt : Stmt} (hstmt : x ∉ stmt.names) :
    Within (World.Retains x) (runStmt run ctx printBinds stmt) := by
  intro w
  refine Run.ends_guardDepth ?_ fun _ h => h
  rw [Run.ends_bind]
  have hnext : Run.LeadsOn x (nextSession run ctx printBinds stmt) :=
    .bind (Run.trace_quiet ctx _).retains fun _ => stmtSession_leadsOn hrun ctx printBinds hstmt
  exact (hnext w).imp (fun _ _ h => h) fun _ _ h => h

end

/-! ## Sessions -/

/-- The files that the statement includes do as `F` says: it runs the same with files that do so wherever they are
included. -/
def Step.Includes (F : Session → Session → Prop) (t : Step) : Prop :=
  ∃ file : RunFile, file.Does F ∧
    nextSession (runAction t.depth) t.ctx t.printBinds t.stmt t.world =
      nextSession (runActionWith file t.depth) t.ctx t.printBinds t.stmt t.world

namespace Session

/-- Statements lead from one session to another without binding the name, each of them with files that do as `F`
says. -/
inductive LeadsWithout (F : Session → Session → Prop) (x : String) : Session → Session → Prop
  | refl (s : Session) : LeadsWithout F x s s
  | step {s : Session} {t : Step} (before : LeadsWithout F x s t.world.session) (files : t.Includes F)
      (names : x ∉ t.stmt.names) : LeadsWithout F x s t.result

/-- What including a file does to the session when no statement of it binds the name, and when files include files less
than `n` deep. -/
def ExtendsWithout (x : String) : Nat → Session → Session → Prop
  | 0 => Eq
  | n + 1 => LeadsWithout (ExtendsWithout x n) x

/-- Statements lead from the initial session to this one, and neither they nor the statements of files that they
include bind the name. -/
def ReachableWithout (s : Session) (options : Options) (n : Nat) (x : String) : Prop :=
  LeadsWithout (ExtendsWithout x n) x (.initial options) s

end Session

/-- Going from one session to the other keeps the value of the name. -/
def KeepsValue (x : String) (F : Session → Session → Prop) : Prop :=
  ∀ s s', F s s' → ∀ v, Table.get? s.values x = some v → Table.get? s'.values x = some v

/-- One statement keeps the value of a name that it does not bind. -/
theorem Step.retains {F : Session → Session → Prop} (hF : KeepsValue x F) {t : Step} (hfiles : t.Includes F)
    (hnames : x ∉ t.stmt.names) (v : Value) (hv : Table.get? t.world.session.values x = some v) :
    Table.get? t.result.values x = some v := by
  obtain ⟨file, hfile, hsame⟩ := hfiles
  have hwithin : ∀ depth ctx path, Within (World.Retains x) (file depth ctx path) := by
    intro depth ctx path w
    have hdoes := hF _ _ (hfile.session depth ctx path w)
    unfold Run.after at hdoes
    unfold Ends
    split <;> simp_all [World.Retains]
  have hrun : runStmt (runAction t.depth) t.ctx t.printBinds t.stmt t.world =
      runStmt (runActionWith file t.depth) t.ctx t.printBinds t.stmt t.world := by
    simp only [runStmt, Run.guardDepth, bind, EStateM.bind, hsame]
  have hstmt := runStmt_retains (runActionWith_retains hwithin t.depth) t.ctx t.printBinds hnames t.world
  unfold Step.result Run.after
  unfold Ends at hstmt
  rw [hrun]
  split at hstmt <;> simp_all [World.Retains]

/-- Statements one after another keep the value of a name that none of them binds. -/
theorem Session.LeadsWithout.keepsValue {F : Session → Session → Prop} (hF : KeepsValue x F) :
    KeepsValue x (Session.LeadsWithout F x) := by
  intro s s' h v hv
  induction h with
  | refl => exact hv
  | step _ files names ih => exact Step.retains hF files names v ih

theorem Session.ExtendsWithout.keepsValue (n : Nat) : KeepsValue x (Session.ExtendsWithout x n) := by
  induction n with
  | zero =>
    rintro s _ rfl v hv
    exact hv
  | succ n ih => exact LeadsWithout.keepsValue ih

end VeriScript
