import VeriScript.Proofs.Run.Commands
import VeriScript.Proofs.Session.Statements

/-!
# Schemas over the history of a session

Names of the session are looked up when a function or a block runs, not when it is defined.  So a statement that
binds a name anew changes what earlier functions do, and what their schemas promise holds as long as the names that
they refer to keep the types they had.

* `Step` — a statement that is run at the top level.
* `Session.KeepsUsed` — the names that values of the session refer to keep their types.
* `Session.Leads` — the sessions that statements lead to, one after another.
* `runStmt_fits` — every name that a statement binds has a schema, and its value fits the type of the schema.
* `schemas_misfit` — this fails when a name that a function refers to is bound at another type, and for types with
  variables written inside functions.
-/

namespace VeriScript

open Run (Ends Performs)

/-! ## Steps -/

/-- How script files are run, with a number of actions that may be nested in them. -/
abbrev RunFile := Nat → Context → String → Run Unit

/-- Running a file changes the session as `F` says, and not the work at hand. -/
structure RunFile.Does (file : RunFile) (F : Session → Session → Prop) : Prop where
  session : ∀ depth ctx path w, F w.session ((file depth ctx path).after w).session
  work : ∀ depth ctx path w, ((file depth ctx path).after w).work = w.work

/-- A statement that is run in a world, with a number of actions that may be nested in it. -/
structure Step where
  depth : Nat
  ctx : Context
  printBinds : Bool
  stmt : Stmt
  world : World

namespace Step

/-- The session in which the statement binds its names: its actions have been run. -/
def reached (t : Step) : Session :=
  ((nextSession (runAction t.depth) t.ctx t.printBinds t.stmt).after t.world).session

/-- The session behind the statement. -/
def result (t : Step) : Session :=
  ((runStmt (runAction t.depth) t.ctx t.printBinds t.stmt).after t.world).session

/-- The statement is run at the top level, the types that are written in it have no variables, and the files that it
includes do as `F` says: it runs the same with files that do so wherever they are included. -/
structure Runs (F : Session → Session → Prop) (t : Step) : Prop where
  work : t.world.work = .topLevel
  types : t.stmt.AllTypes Ty.Ground
  files : ∃ file : RunFile, file.Does F ∧
    nextSession (runAction t.depth) t.ctx t.printBinds t.stmt t.world =
      nextSession (runActionWith file t.depth) t.ctx t.printBinds t.stmt t.world

end Step

namespace Session

/-- Some value of the session refers to the name. -/
def Refers (s : Session) (x : String) : Prop :=
  ∃ y v, Table.get? s.values y = some v ∧ v.Refers x

/-- The names that values of the second session refer to have all the types that they have in the first. -/
def KeepsUsed (s s' : Session) : Prop :=
  ∀ x, s'.Refers x → s.typeEnv.scope.BelowAt s'.typeEnv.scope x

/-- All names have all the types that they have in the first session. -/
def KeepsAll (s s' : Session) : Prop :=
  s.typeEnv.scope.Below s'.typeEnv.scope

/-- Statements lead from one session to another, each of them with files that do as `F` says, and so that binding
its names keeps the types of names as `kept` says. -/
inductive Leads (F kept : Session → Session → Prop) : Session → Session → Prop
  | refl (s : Session) : Leads F kept s s
  | step {s : Session} {t : Step} (before : Leads F kept s t.world.session) (runs : t.Runs F)
      (keeps : kept t.reached t.result) : Leads F kept s t.result

/-- What including a file does to the session, when files include files less than `n` deep.  The action that includes
the file goes on behind it, so all names keep their types. -/
def Extends : Nat → Session → Session → Prop
  | 0 => Eq
  | n + 1 => Leads (Extends n) KeepsAll

/-- Statements lead from the initial session to this one. -/
def Reachable (options : Options) (n : Nat) (s : Session) : Prop :=
  Leads (Extends n) KeepsUsed (.initial options) s

end Session

/-! ## One step -/

/-- Going from one session to the other keeps the types of values and of names. -/
def KeepsTyping (F : Session → Session → Prop) : Prop :=
  ∀ s s', F s s' → s.Typed → s'.Typed ∧ s.KeepsAll s'

theorem Session.KeepsAll.keepsUsed {s s' : Session} (h : s.KeepsAll s') : s.KeepsUsed s' :=
  fun x _ τ hτ => h x τ hτ

theorem guardDepth_after {α : Type} (span : Span) (x : Run α) (w : World) :
    (Run.guardDepth span x).after w = x.after w := by
  unfold Run.after Run.guardDepth
  cases x w with
  | ok a w' => rfl
  | error halt w' => cases halt <;> rfl

section

variable {F : Session → Session → Prop} (hF : KeepsTyping F)

include hF

theorem RunFile.Does.performs {file : RunFile} (h : file.Does F) (depth : Nat) (ctx : Context) (path : String)
    {G : Scope} {w : World} (hw : w.session.Upholds G) :
    Performs (fun _ => True) (fun G s => s.Upholds G) G (file depth ctx path) w fun _ _ => True := by
  have hsession := h.session depth ctx path w
  have hwork := h.work depth ctx path w
  obtain ⟨htyped, hkeeps⟩ := hF _ _ hsession (hw.typed.mono hw.below)
  have hbelow := hw.below.trans hkeeps
  unfold Performs Ends
  unfold Run.after at htyped hbelow hwork
  split
  · rename_i heq
    simp only [heq] at htyped hbelow hwork
    exact ⟨by rw [hwork], _, hbelow, .ofTyped htyped, trivial⟩
  · rename_i heq
    simp only [heq] at htyped hbelow hwork
    exact ⟨by rw [hwork], ⟨_, hbelow, .ofTyped htyped⟩, trivial⟩

/-- What a statement leads to: where it binds its names, values rely on some scope still, and what it binds has its
types in that scope. -/
theorem Step.Runs.performs {t : Step} (h : t.Runs F) (hs : t.world.session.Typed) :
    StmtPerforms t.world.session.typeEnv.scope (nextSession (runAction t.depth) t.ctx t.printBinds t.stmt) t.world
      t.stmt.names := by
  obtain ⟨file, hfile, hsame⟩ := h.files
  have hrun : RunTyped anyCommand (fun _ => True) (fun G s => s.Upholds G) (runActionWith file t.depth) :=
    runActionWith_performs upholds_invariant (fun _ depth ctx path _ _ _ hw => hfile.performs hF depth ctx path hw)
      t.depth
  have hperforms := nextSession_performs hrun t.ctx t.printBinds h.types hs rfl (by rw [h.work]; rfl)
  unfold StmtPerforms Performs Ends at hperforms ⊢
  rwa [hsame]

/-- Values rely on some scope that the session covers in which the statement binds its names; behind the statement
they have their types in that scope. -/
theorem Step.Runs.typed {t : Step} (h : t.Runs F) (hs : t.world.session.Typed) :
    ∃ G, t.world.session.typeEnv.scope.Below G ∧ G.Below t.reached.typeEnv.scope ∧ t.result.TypedIn G := by
  have hperforms := h.performs hF hs
  unfold StmtPerforms Performs Ends at hperforms
  unfold Step.reached Step.result runStmt
  rw [guardDepth_after]
  unfold Run.after
  simp only [bind, EStateM.bind]
  split at hperforms
  · rename_i s w' heq
    obtain ⟨-, G, hG, hupholds, hbinds⟩ := hperforms
    simp only [heq]
    exact ⟨G, hG, hupholds.below, hbinds.typed⟩
  · rename_i halt w' heq
    obtain ⟨-, ⟨G, hG, hupholds⟩, -⟩ := hperforms
    simp only [heq]
    exact ⟨G, hG, hupholds.below, hupholds.typed⟩

/-- A statement keeps the types of values if the names that they refer to keep theirs. -/
theorem Step.Runs.typed_result {t : Step} (h : t.Runs F) (hs : t.world.session.Typed)
    (hkeeps : t.reached.KeepsUsed t.result) : t.result.Typed := by
  obtain ⟨G, -, hbelow, htyped⟩ := h.typed hF hs
  exact htyped.transfer fun x hx τ hτ => hkeeps x hx τ (hbelow x τ hτ)

end

/-! ## Many steps -/

namespace Session

/-- Statements keep the types of values along the way. -/
theorem Leads.typed {F kept : Session → Session → Prop} (hF : KeepsTyping F)
    (hkept : ∀ s s', kept s s' → s.KeepsUsed s') {s s' : Session} (h : Leads F kept s s')
    (hs : s.Typed) : s'.Typed := by
  induction h with
  | refl => exact hs
  | step before runs keeps ih => exact runs.typed_result hF ih (hkept _ _ keeps)

theorem Leads.keepsTyping {F : Session → Session → Prop} (hF : KeepsTyping F) : KeepsTyping (Leads F KeepsAll) := by
  intro s s' h hs
  refine ⟨h.typed hF (fun _ _ => KeepsAll.keepsUsed) hs, ?_⟩
  induction h with
  | refl => exact .refl _
  | step before runs keeps ih =>
    have htyped := before.typed hF (fun _ _ => KeepsAll.keepsUsed) hs
    obtain ⟨G, hG, hbelow, -⟩ := runs.typed hF htyped
    exact (ih.trans (hG.trans hbelow)).trans keeps

theorem extends_keepsTyping (n : Nat) : KeepsTyping (Extends n) := by
  induction n with
  | zero =>
    rintro s _ rfl hs
    exact ⟨hs, .refl _⟩
  | succ n ih => exact Leads.keepsTyping ih

theorem Reachable.typed {options : Options} {n : Nat} {s : Session} (h : Reachable options n s) :
    s.Typed :=
  Leads.typed (extends_keepsTyping n) (fun _ _ h => h) h (.initial options)

end Session

/-- The value of a name of the session fits the type of the schema of the name. -/
theorem Session.TypedIn.fits {G : Scope} {s : Session} (h : s.TypedIn G) {x : String} {v : Value}
    (hv : Table.get? s.values x = some v) : ∃ schema, Table.get? s.types x = some schema ∧ v.Fits schema.type := by
  obtain ⟨schema, hschema⟩ := h.named x v hv
  obtain ⟨v', hv', htyped⟩ := h.typed x schema hschema
  obtain rfl : v = v' := Option.some.inj (hv.symm.trans hv')
  exact ⟨schema, hschema, HasTy.fits (h.complete.types _ (Table.mem_of_get? hschema)) htyped⟩

theorem runStmt_ok {run : RunAction} {ctx : Context} {printBinds : Bool} {stmt : Stmt} {w w' : World}
    (h : runStmt run ctx printBinds stmt w = .ok () w') :
    ∃ w1, nextSession run ctx printBinds stmt w = .ok w'.session w1 := by
  unfold runStmt Run.guardDepth at h
  simp only [bind, EStateM.bind] at h
  cases hnext : nextSession run ctx printBinds stmt w with
  | ok s w1 =>
    simp only [hnext] at h
    cases h
    exact ⟨w1, rfl⟩
  | error halt w1 =>
    simp only [hnext] at h
    cases halt <;> cases h

/-- In a session that statements lead to, as long as the names that values refer to keep their types: behind a
statement that succeeds, every name that it binds has a value, and every value has a schema and fits its type. -/
theorem runStmt_fits {options : Options} {n : Nat} {ctx : Context} {printBinds : Bool} {stmt : Stmt} {w w' : World}
    (hreachable : Session.Reachable options n w.session)
    (hruns : Step.Runs (Session.Extends n) ⟨ctx.host.actions, ctx, printBinds, stmt, w⟩)
    (h : runStmt perform ctx printBinds stmt w = .ok () w') :
    (∀ x ∈ stmt.names, ∃ v, Table.get? w'.session.values x = some v) ∧
      ∀ x v, Table.get? w'.session.values x = some v →
        ∃ schema, Table.get? w'.session.types x = some schema ∧ v.Fits schema.type := by
  obtain ⟨w1, hnext⟩ := runStmt_ok h
  have hperforms := hruns.performs (Session.extends_keepsTyping n) hreachable.typed
  obtain ⟨-, G, -, -, hbinds⟩ := Ends.of_ok hperforms hnext
  exact ⟨fun x hx => Option.isSome_iff_exists.1 (hbinds.bound x hx), fun x v hv => hbinds.typed.fits hv⟩

/-! ### Binding a name at another type -/

/-- Values without scripts and arguments in them. -/
def Value.isPlain : Value → Bool
  | .bool _ | .int _ | .string _ | .builtin _ [] _ | .action (.command _ []) => true
  | _ => false

theorem Session.keepsUsed_of_plain {s s' : Session} (h : s'.values.all (·.2.isPlain) = true) : s.KeepsUsed s' := by
  rintro x ⟨y, v, hv, hx⟩
  have hplain : v.isPlain = true := List.all_eq_true.1 h _ (Table.mem_of_get? hv)
  unfold Value.isPlain at hplain
  split at hplain
  · cases hx
  · cases hx
  · cases hx
  · cases hx with
    | builtin mem arg => cases mem
  · cases hx with
    | command mem arg => cases mem
  · cases hplain

/-- A step that gives a name a value, in a session. -/
def letStep (x : String) (e : Expr) (s : Session) : Step :=
  let pos := Span.point "" 1 1
  ⟨Host.standard.actions, .standard, false, .define pos (.single pos (.mk pos (.var pos x none) e)),
    { World.blank with session := s }⟩

theorem letStep_runs {x : String} {e : Expr} (he : e.AllTypes Ty.Ground) (s : Session) :
    (letStep x e s).Runs (Session.Extends 0) where
  work := rfl
  types := by
    simpa [letStep, Stmt.AllTypes, Group.AllTypes, Decl.AllTypes, Pattern.AllTypes] using he
  files := ⟨fun _ _ _ => return, ⟨fun _ _ _ _ => rfl, fun _ _ _ _ => rfl⟩, rfl⟩

/-- `let x = 1; let x = "a"; let y = x;` -/
theorem runStmt_fits_rebound :
    let pos := Span.point "" 1 1
    let first := letStep "x" (.int pos 1) (.initial .standard)
    let second := letStep "x" (.string pos "a") first.result
    let third := letStep "y" (.var pos "x") second.result
    ∃ w v schema, runStmt perform third.ctx third.printBinds third.stmt third.world = .ok () w ∧
      Table.get? w.session.values "y" = some v ∧ Table.get? w.session.types "y" = some schema ∧
        v.Fits schema.type := by
  intro pos first second third
  have hpasses : Run.passes (fun _ _ => true)
      (runStmt perform third.ctx third.printBinds third.stmt third.world) = true := by decide +kernel
  obtain ⟨⟨⟩, w, hrun, -⟩ := Run.exists_ok_of_passes hpasses
  have hfirst : (Session.initial .standard).Leads (Session.Extends 0) Session.KeepsUsed first.result :=
    .step (.refl _) (letStep_runs (by simp [Expr.AllTypes]) _) (Session.keepsUsed_of_plain (by decide +kernel))
  have hsecond : Session.Reachable .standard 0 second.result :=
    .step hfirst (letStep_runs (by simp [Expr.AllTypes]) _) (Session.keepsUsed_of_plain (by decide +kernel))
  obtain ⟨hbound, hfits⟩ := runStmt_fits hsecond (letStep_runs (by simp [Expr.AllTypes]) _) hrun
  obtain ⟨v, hv⟩ := hbound "y" (List.mem_singleton.2 rfl)
  obtain ⟨schema, hschema, hfit⟩ := hfits "y" v hv
  exact ⟨w, v, schema, hrun, hv, hschema, hfit⟩

/-- The value of the name does not fit the type of its schema. -/
def Session.Misfits (s : Session) (x : String) : Prop :=
  ∃ schema v, Table.get? s.types x = some schema ∧ Table.get? s.values x = some v ∧ ¬ v.Fits schema.type

/-- The name should have a number for its value and has a text. -/
def Session.hasTextForNumber (s : Session) (x : String) : Bool :=
  match Table.get? s.types x, Table.get? s.values x with
  | some ⟨_, .con "Int" _⟩, some (.string _) => true
  | _, _ => false

theorem Session.misfits_of_hasTextForNumber {s : Session} {x : String} (h : s.hasTextForNumber x = true) :
    s.Misfits x := by
  unfold Session.hasTextForNumber at h
  split at h
  · exact ⟨_, _, ‹_›, ‹_›, by simp [Value.Fits, Value.tag, Ty.tags]⟩
  · cases h

/-- What a script comes to in a new session. -/
abbrev runFresh (text : String) : EStateM.Result Halt World Unit :=
  runProgramText .standard typedFile false text .blank

theorem misfits_of_passes {text x : String}
    (h : Run.passes (fun _ w => w.session.hasTextForNumber x) (runFresh text) = true) :
    ∃ w, runFresh text = .ok () w ∧ w.session.Misfits x := by
  obtain ⟨⟨⟩, w, hrun, hw⟩ := Run.exists_ok_of_passes h
  exact ⟨w, hrun, Session.misfits_of_hasTextForNumber hw⟩

/-- Statements that all succeed and leave a value that does not fit: the first script binds a name again that a
function refers to; the second gives a parameter a type with a variable, which a declaration inside makes general. -/
theorem schemas_misfit :
    (∃ w, runFresh "let x = 1; let f y = x; let x = \"a\"; let z = f 0;" = .ok () w ∧ w.session.Misfits "z") ∧
      ∃ w, runFresh "let f (x : a) = (let y = x in (y : Int)); let z = f \"s\";" = .ok () w ∧
        w.session.Misfits "z" :=
  ⟨misfits_of_passes (by decide +kernel), misfits_of_passes (by decide +kernel)⟩

end VeriScript
