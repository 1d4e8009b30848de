import VeriScript.Proofs.Run.Outcome

/-!
# Runs that agree up to what they show

Two runs are compared that start in worlds which differ in what has been printed and in how values are shown.  The base
of numbers is the same in both: it decides which values can be shown.

* `World.Alike` — worlds that differ in the output and in the display of values at most.
* `Halt.Alike` — early ends with errors of the same class, or with the same status.
* `Run.Agree` — runs that end alike, from any two worlds that are alike.
* `Run.Prints` — a run that prints and does nothing else; any two of these agree.
* `Run.check_ends` — a check ends as inference does, and prints at most.
-/

namespace VeriScript

/-- Sessions that differ in the display of values at most, and not in the base of numbers. -/
structure Session.Alike (s s' : Session) : Prop where
  values : s.values = s'.values
  types : s.types = s'.types
  aliases : s.aliases = s'.aliases
  docs : s.docs = s'.docs
  lifecycles : s.lifecycles = s'.lifecycles
  terms : s.terms = s'.terms
  proofs : s.proofs = s'.proofs
  base : s.display.base = s'.display.base

/-- Worlds that differ in the output and in the display of values at most. -/
structure World.Alike (w w' : World) : Prop where
  session : w.session.Alike w'.session
  disk : w.disk = w'.disk
  cwd : w.cwd = w'.cwd
  work : w.work = w'.work
  draws : w.draws = w'.draws

inductive ErrorClass where
  | parse
  | type
  | runtime
  | term
  deriving DecidableEq, Repr

def ScriptError.errorClass : ScriptError → ErrorClass
  | .parse _ => .parse
  | .type _ => .type
  | .runtime _ => .runtime
  | .term _ => .term

/-- Early ends that differ in the text of an error at most. -/
inductive Halt.Alike : Halt → Halt → Prop
  | error {e e' : ScriptError} (same : e.errorClass = e'.errorClass) : Alike (.error e) (.error e')
  | exit {code : Int} : Alike (.exit code) (.exit code)
  | overflow : Alike .overflow .overflow
  | unwritable {fault : Text.Fault} {e e' : ScriptError} (same : e.errorClass = e'.errorClass) :
    Alike (.unwritable fault e) (.unwritable fault e')
  | unentered {fault : DiskFault} {p : Path} : Alike (.unentered fault p) (.unentered fault p)
  | unopened {fault : DiskFault} {path : String} : Alike (.unopened fault path) (.unopened fault path)
  | undecodable {fault : Text.Utf8Fault} : Alike (.undecodable fault) (.undecodable fault)
  | consult {p : Path} : Alike (.consult p) (.consult p)

theorem Halt.Alike.refl : ∀ halt : Halt, halt.Alike halt
  | .error _ => .error rfl
  | .exit _ => .exit
  | .overflow => .overflow
  | .unwritable _ _ => .unwritable rfl
  | .unentered _ _ => .unentered
  | .unopened _ _ => .unopened
  | .undecodable _ => .undecodable
  | .consult _ => .consult

namespace Session.Alike

variable {s s' : Session} (h : s.Alike s')
include h

theorem typeEnv : s.typeEnv = s'.typeEnv := by
  simp [Session.typeEnv, h.types, h.aliases]

theorem extend (name : String) (schema? : Option Schema) (v : Value) :
    (s.extend name schema? v).Alike (s'.extend name schema? v) where
  values := by simp [Session.extend, h.values]
  types := by simp [Session.extend, h.types]
  aliases := h.aliases
  docs := h.docs
  lifecycles := h.lifecycles
  terms := by simp [Session.extend, h.terms]
  proofs := h.proofs
  base := h.base

theorem addAlias (name : String) (t : Ty) : (s.addAlias name t).Alike (s'.addAlias name t) :=
  { h with aliases := by simp [Session.addAlias, h.aliases] }

theorem record (r : ProofRecord) : (s.record r).Alike (s'.record r) :=
  { h with proofs := by simp [Session.record, h.proofs] }

theorem nextGoalName : s.nextGoalName = s'.nextGoalName := by
  simp [Session.nextGoalName, h.proofs]

theorem enable (life : Lifecycle) : (s.enable life).Alike (s'.enable life) where
  values := by simp [Session.enable, h.values]
  types := by simp [Session.enable, h.types]
  aliases := h.aliases
  docs := by simp [Session.enable, h.docs]
  lifecycles := by simp [Session.enable, h.lifecycles]
  terms := h.terms
  proofs := h.proofs
  base := h.base

omit h in
theorem foldl {α : Type} {f : Session → α → Session} (hf : ∀ {s s' : Session} a, s.Alike s' → (f s a).Alike (f s' a))
    (items : List α) (h : s.Alike s') : (items.foldl f s).Alike (items.foldl f s') := by
  induction items generalizing s s' with
  | nil => exact h
  | cons a items ih => exact ih (hf a h)

theorem bindParts (parts : List Part) : (s.bindParts parts).Alike (s'.bindParts parts) :=
  foldl (fun p h => h.extend p.name p.schema? p.value) parts h

theorem merge (env : Env) : (s.merge env).Alike (s'.merge env) := by
  induction env with
  | nil => exact h
  | cons entry env ih =>
    cases entry with
    | value name schema? v => exact ih.extend name schema? v
    | typedef name t => exact ih.addAlias name t
    | recursive members => exact foldl (fun m h => h.extend m.name m.schema? _) members ih

end Session.Alike

namespace Run

variable {α β : Type}

/-- The runs ended alike, with results related by `R` if they ended well. -/
inductive Alike (R : α → α → Prop) : EStateM.Result Halt World α → EStateM.Result Halt World α → Prop
  | ok {a b : α} {w w' : World} (result : R a b) (world : w.Alike w') : Alike R (.ok a w) (.ok b w')
  | error {halt halt' : Halt} {w w' : World} (same : halt.Alike halt') (world : w.Alike w') :
    Alike R (.error halt w) (.error halt' w')

/-- From worlds that are alike the runs end alike. -/
def Agree (R : α → α → Prop) (x y : Run α) : Prop :=
  ∀ w w' : World, w.Alike w' → Alike R (x w) (y w')

@[elab_as_elim]
theorem Agree.elim {R : α → α → Prop} {x y : Run α}
    {motive : EStateM.Result Halt World α → EStateM.Result Halt World α → Prop} {w w' : World} (hx : Agree R x y)
    (hw : w.Alike w') (ok : ∀ {a b w w'}, R a b → World.Alike w w' → motive (.ok a w) (.ok b w'))
    (error : ∀ {halt halt' w w'}, Halt.Alike halt halt' → World.Alike w w' →
      motive (.error halt w) (.error halt' w')) : motive (x w) (y w') := by
  have hends := hx w w' hw
  generalize x w = r at hends
  generalize y w' = r' at hends
  cases hends with
  | ok result world => exact ok result world
  | error same world => exact error same world

theorem Agree.after {R : α → α → Prop} {x y : Run α} (h : Agree R x y) {w w' : World} (hw : w.Alike w') :
    (x.after w).Alike (y.after w') := by
  unfold Run.after
  exact h.elim hw (fun _ world => world) fun _ world => world

/-! ## Printing -/

/-- The run prints and does nothing else. -/
def Prints (x : Run Unit) : Prop :=
  ∀ w, ∃ text, x w = .ok () { w with output := text }

namespace Prints

theorem pure : Prints (Pure.pure ()) := fun w => ⟨w.output, rfl⟩

theorem printLine (text : String) : Prints (Run.printLine text) := fun _ => ⟨_, rfl⟩

theorem ite {p : Prop} [Decidable p] {x y : Run Unit} (hx : Prints x) (hy : Prints y) :
    Prints (if p then x else y) := by
  split
  · exact hx
  · exact hy

theorem print (ctx : Context) (level : Level) (text : String) : Prints (ctx.print level text) :=
  .ite (.printLine _) .pure

theorem trace (ctx : Context) (text : String) : Prints (ctx.trace text) :=
  .ite (.printLine _) .pure

theorem bind {x : Run Unit} {f : Unit → Run Unit} (hx : Prints x) (hf : Prints (f ())) : Prints (x >>= f) := by
  intro w
  obtain ⟨text, hx⟩ := hx w
  obtain ⟨text', hf⟩ := hf { w with output := text }
  refine ⟨text', ?_⟩
  simp only [Bind.bind, EStateM.bind, hx, hf]

theorem session {f : Session → Run Unit} (hf : ∀ s, Prints (f s)) : Prints (Run.session >>= f) :=
  fun w => hf w.session w

theorem forM {f : α → Run Unit} (hf : ∀ a, Prints (f a)) (items : List α) : Prints (items.forM f) := by
  induction items with
  | nil => exact .pure
  | cons a items ih => exact .bind (hf a) ih

/-- A check prints what is visited at most. -/
theorem visits (ctx : Context) (st : CheckState) : Prints
    (if ctx.options.debug then st.visited.reverse.forM fun kind => Run.printLine ("Checking: " ++ kind) else return) :=
  .ite (.forM (fun _ => .printLine _) _) .pure

theorem ends_bind {x : Run Unit} (h : Prints x) {f : Unit → Run β} {w : World} {Q : β → World → Prop}
    {E : Halt → World → Prop} (hf : ∀ text, Ends (f ()) { w with output := text } Q E) : Ends (x >>= f) w Q E := by
  obtain ⟨text, htext⟩ := h w
  rw [Run.ends_bind]
  unfold Ends
  rw [htext]
  exact hf text

end Prints

theorem check_ends (ctx : Context) (x : Check α) (w : World) :
    Ends (ctx.check x) w (fun a w' => w.Printed w' ∧ ∃ st, x .initial = .ok a st)
      fun halt w' => w.Printed w' ∧ ∃ e st, halt = (ScriptError.type e).halt ∧ x .initial = .error e st := by
  unfold Context.check
  dsimp only
  split
  · rename_i st h
    exact (Prints.visits ctx st).ends_bind fun _ => ⟨⟨_, rfl⟩, st, h⟩
  · rename_i e st h
    exact (Prints.visits ctx st).ends_bind fun _ => ⟨⟨_, rfl⟩, e, st, rfl, h⟩

/-! ## Rules -/

namespace Agree

variable {R : α → α → Prop} {S : β → β → Prop} {x y : Run α}

theorem pure {a b : α} (h : R a b) : Agree R (Pure.pure a : Run α) (Pure.pure b) := fun _ _ hw => .ok h hw

theorem throw {halt halt' : Halt} (h : halt.Alike halt') :
    Agree R (MonadExcept.throw halt : Run α) (MonadExcept.throw halt') := fun _ _ hw => .error h hw

theorem bindRel {f g : α → Run β} (hx : Agree R x y) (hf : ∀ a b, R a b → Agree S (f a) (g b)) :
    Agree S (x >>= f) (y >>= g) := by
  intro w w' hw
  simp only [Bind.bind, EStateM.bind]
  exact hx.elim hw (fun result world => hf _ _ result _ _ world) fun same world => .error same world

theorem bind {f g : α → Run β} (hx : Agree Eq x y) (hf : ∀ a, Agree S (f a) (g a)) :
    Agree S (x >>= f) (y >>= g) :=
  hx.bindRel fun a _ hab => hab ▸ hf a

theorem forM {γ : Type} {f g : γ → Run Unit} (hf : ∀ a, Agree Eq (f a) (g a)) (items : List γ) :
    Agree Eq (items.forM f) (items.forM g) := by
  induction items with
  | nil => exact .pure rfl
  | cons a items ih => exact .bind (hf a) fun _ => ih

theorem unit {x y : Run Unit} (hx : Agree Eq x y) :
    Agree Eq (x >>= fun _ => Pure.pure Value.unit) (y >>= fun _ => Pure.pure Value.unit) :=
  .bind hx fun _ => .pure rfl

theorem session : Agree Session.Alike Run.session Run.session := fun _ _ hw => .ok hw.session hw

theorem get : Agree World.Alike MonadState.get MonadState.get := fun _ _ hw => .ok hw hw

theorem set {w w' : World} (h : w.Alike w') : Agree Eq (MonadStateOf.set w : Run PUnit) (MonadStateOf.set w') :=
  fun _ _ _ => .ok rfl h

theorem setSession {s s' : Session} (h : s.Alike s') : Agree Eq (Run.setSession s) (Run.setSession s') :=
  fun _ _ hw => .ok rfl { hw with session := h }

theorem setWork (work : Work) : Agree Eq (Run.setWork work) (Run.setWork work) :=
  fun _ _ hw => .ok rfl { hw with work := rfl }

theorem prints {x y : Run Unit} (hx : Prints x) (hy : Prints y) : Agree Eq x y := by
  intro w w' hw
  obtain ⟨text, hx⟩ := hx w
  obtain ⟨text', hy⟩ := hy w'
  rw [hx, hy]
  exact .ok rfl { hw with }

theorem print (ctx ctx' : Context) (level : Level) (text text' : String) :
    Agree Eq (ctx.print level text) (ctx'.print level text') :=
  prints (.print _ _ _) (.print _ _ _)

theorem trace (ctx ctx' : Context) (text text' : String) : Agree Eq (ctx.trace text) (ctx'.trace text') :=
  prints (.trace _ _) (.trace _ _)

/-! ### Errors -/

theorem fail {e e' : ScriptError} (h : e.errorClass = e'.errorClass) (htext : e.textFault? = e'.textFault?) :
    Agree R (Run.fail e : Run α) (Run.fail e') := by
  refine .throw ?_
  unfold ScriptError.halt
  rw [htext]
  split
  · exact .unwritable h
  · exact .error h

/-- Errors whose messages can be written both, or neither. -/
theorem failAt {fault fault' : RuntimeFault} (h : fault.textFault? = fault'.textFault?) (span span' : Option Span) :
    Agree R (Run.failAt fault span : Run α) (Run.failAt fault' span') :=
  .fail rfl h

theorem orFailAt (span : Option Span) (r : Except RuntimeFault α) :
    Agree Eq (Run.orFailAt span r) (Run.orFailAt span r) := by
  cases r with
  | ok a => exact .pure rfl
  | error fault => exact .failAt rfl _ _

theorem orFail (r : Except RuntimeFault α) : Agree Eq (Run.orFail r) (Run.orFail r) :=
  .orFailAt none r

/-- Texts that can be written both, or neither. -/
theorem write {r r' : Except Text.Fault String} (h : r.map (fun _ => ()) = r'.map fun _ => ()) :
    Agree (fun _ _ => True) (Run.write r) (Run.write r') := by
  cases r <;> cases r' <;> cases h
  · exact .failAt rfl _ _
  · exact .pure trivial

theorem orTermError (span : Option Span) (r : Except TermFault α) :
    Agree Eq (Run.orTermError span r) (Run.orTermError span r) := by
  cases r with
  | ok a => exact .pure rfl
  | error fault => exact .fail rfl rfl

theorem orParseError (r : Except ParseError α) : Agree Eq (Run.orParseError r) (Run.orParseError r) := by
  cases r with
  | ok a => exact .pure rfl
  | error e => exact .fail rfl rfl

theorem through (name : Option String) (hx : Agree R x y) : Agree R (Run.through name x) (Run.through name y) := by
  intro w w' hw
  unfold Run.through
  refine hx.elim hw (fun result world => .ok result world) fun same world => ?_
  cases same with
  | @error e e' same =>
    -- errors that are not of running scripts pass unchanged, and both errors are of the same class
    cases e <;> cases e' <;> cases same <;> cases name <;> exact .error (.error rfl) world
  | unwritable same => exact .error (.unwritable same) world
  | _ => exact .error (by constructor) world

theorem guardDepth (span : Span) (hx : Agree R x y) : Agree R (Run.guardDepth span x) (Run.guardDepth span y) := by
  intro w w' hw
  unfold Run.guardDepth
  refine hx.elim hw (fun result world => .ok result world) fun same world => ?_
  cases same with
  | overflow => exact .error (.error rfl) world
  | error same => exact .error (.error same) world
  | unwritable same => exact .error (.unwritable same) world
  | _ => exact .error (by constructor) world

/-- Whether an error is anticipated is the same in both runs. -/
theorem anticipate (hx : Agree R x y) :
    Agree (fun e e' => e.isSome = e'.isSome) (Run.anticipate x) (Run.anticipate y) := by
  intro w w' hw
  unfold Run.anticipate
  refine hx.elim hw (fun result world => .ok rfl world) fun same world => ?_
  cases same with
  | error same => exact .ok rfl world
  | unwritable same => exact .error (.unwritable same) world
  | _ => exact .error (by constructor) world

/-! ### Work and place -/

theorem withWork (work : Work) (hx : Agree R x y) : Agree Eq (Run.withWork work x) (Run.withWork work y) := by
  intro w w' hw
  have hstart : World.Alike { w with work := work } { w' with work := work } := { hw with work := rfl }
  unfold Run.withWork
  refine hx.elim hstart (fun _ world => ?_) fun same world => ?_
  · exact .ok world.work { world with work := hw.work }
  · exact .error same { world with work := hw.work }

theorem enter (host : Host) (p : Path) : Agree Eq (Run.enter host p) (Run.enter host p) := by
  unfold Run.enter
  refine .bindRel .get fun w w' hw => ?_
  have hrefusal : host.refusal w.disk p = host.refusal w'.disk p := by rw [hw.disk]
  rw [hrefusal]
  split
  · exact .throw .unentered
  · exact .set { hw with cwd := rfl }

theorem inDirectory (host : Host) (p : Path) (hx : Agree R x y) :
    Agree R (Run.inDirectory host p x) (Run.inDirectory host p y) := by
  unfold Run.inDirectory
  refine .bindRel .get fun v v' hv => ?_
  rw [hv.cwd]
  refine .bind (.enter host p) fun _ w w' hw => ?_
  refine hx.elim hw (fun result world => ?_) fun same world => ?_
  · exact (enter host v'.cwd).bind (fun _ => .pure result) _ _ world
  · exact (enter host v'.cwd).bind (fun _ => .throw same) _ _ world

theorem draw (count : Nat) : Agree Eq (Run.draw count) (Run.draw count) :=
  fun _ _ hw => .ok hw.draws { hw with draws := by rw [hw.draws] }

end Agree

end Run

end VeriScript
