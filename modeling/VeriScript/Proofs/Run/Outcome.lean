import Mathlib.Order.Defs.Unbundled
import VeriScript.Run.Program

/-!
# What a run leaves behind

* `Run.after` — the world that a run leaves behind.
* `Run.Ends` — a run from a world ends well in one condition or early in another.
* `Run.Within` — a run that changes the world as a preorder allows, however it ends.
* `Run.Quiet`, `Run.Silent` — a run that changes the output at most, or nothing.
* `Run.Succeeds` — a run that ends well with a result of some kind, and changes the output at most.
* `Run.Keeps` — a run that ends well keeps a condition on worlds.

Each has a rule for every way that runs are put together, so that what is proved of the steps of the
interpreter carries over to the interpreter.
-/

namespace VeriScript

/-- The context of a script without options. -/
def Context.standard : Context := ⟨.standard, none, .standard⟩

/-- The world before a run, where no file is known and all random numbers are zero. -/
def World.blank : World := .start .standard .unexplored [] fun _ => 0

/-- The second world differs from the first in what has been printed at most. -/
def World.Printed (w w' : World) : Prop :=
  ∃ text, w' = { w with output := text }

theorem World.Printed.refl (w : World) : w.Printed w := ⟨w.output, rfl⟩

theorem World.Printed.trans {w1 w2 w3 : World} (h : w1.Printed w2) (h' : w2.Printed w3) :
    w1.Printed w3 := by
  obtain ⟨_, rfl⟩ := h
  obtain ⟨text, rfl⟩ := h'
  exact ⟨text, rfl⟩

instance : IsPreorder World World.Printed where
  refl := .refl
  trans _ _ _ := .trans

theorem World.Printed.session_eq {w w' : World} (h : w.Printed w') : w'.session = w.session := by
  obtain ⟨_, rfl⟩ := h; rfl

theorem World.Printed.work_eq {w w' : World} (h : w.Printed w') : w'.work = w.work := by
  obtain ⟨_, rfl⟩ := h; rfl

def Session.hasInt (s : Session) (x : String) (n : Int) : Bool :=
  match Table.get? s.values x with
  | some (.int m) => m == n
  | _ => false

theorem Session.get?_of_hasInt {s : Session} {x : String} {n : Int} (h : s.hasInt x n = true) :
    Table.get? s.values x = some (.int n) := by
  unfold Session.hasInt at h
  split at h
  · rename_i m heq
    rw [heq, beq_iff_eq.1 h]
  · cases h

namespace Run

variable {α β : Type}

/-- Run from the world `w`, `x` ends well in `Q` or early in `E`. -/
def Ends (x : Run α) (w : World) (Q : α → World → Prop) (E : Halt → World → Prop) : Prop :=
  match x w with
  | .ok a w' => Q a w'
  | .error h w' => E h w'

variable {x : Run α} {w w' : World} {a : α} {Q Q' : α → World → Prop} {E E' : Halt → World → Prop}

theorem Ends.of_ok (h : Ends x w Q E) (hx : x w = .ok a w') : Q a w' := by
  simpa only [Ends, hx] using h

theorem Ends.of_error {halt : Halt} (h : Ends x w Q E) (hx : x w = .error halt w') : E halt w' := by
  simpa only [Ends, hx] using h

theorem Ends.imp (h : Ends x w Q E) (hQ : ∀ a w', Q a w' → Q' a w') (hE : ∀ h w', E h w' → E' h w') :
    Ends x w Q' E' := by
  unfold Ends at h ⊢
  split at h
  · exact hQ _ _ h
  · exact hE _ _ h

/-- The world that a run leaves behind, however it ends. -/
def after (x : Run α) (w : World) : World :=
  match x w with
  | .ok _ w' => w'
  | .error _ w' => w'

theorem ends_self (x : Run α) (w : World) :
    Ends x w (fun a w' => x w = .ok a w') (fun halt w' => x w = .error halt w') := by
  unfold Ends
  split <;> assumption

/-! ## Steps -/

/-- The computation succeeds, and its result passes a test. -/
def passes {ε σ α : Type} (test : α → σ → Bool) : EStateM.Result ε σ α → Bool
  | .ok a st => test a st
  | .error _ _ => false

theorem exists_ok_of_passes {ε σ α : Type} {test : α → σ → Bool} {r : EStateM.Result ε σ α}
    (h : passes test r = true) : ∃ a st, r = .ok a st ∧ test a st = true := by
  cases r with
  | ok a st => exact ⟨a, st, rfl, h⟩
  | error => cases h

@[simp] theorem ends_pure : Ends (pure a : Run α) w Q E ↔ Q a w := Iff.rfl

@[simp] theorem ends_bind {f : α → Run β} {Q : β → World → Prop} :
    Ends (x >>= f) w Q E ↔ Ends x w (fun a w' => Ends (f a) w' Q E) E := by
  unfold Ends
  simp only [bind, EStateM.bind]
  cases x w <;> rfl

@[simp] theorem ends_get {Q : World → World → Prop} : Ends get w Q E ↔ Q w w := Iff.rfl

@[simp] theorem ends_session {Q : Session → World → Prop} : Ends session w Q E ↔ Q w.session w := Iff.rfl

@[simp] theorem ends_failAt {fault : RuntimeFault} {span : Option Span} :
    Ends (failAt fault span : Run α) w Q E ↔ E (ScriptError.runtime ⟨fault, span, []⟩).halt w := Iff.rfl

theorem ends_orFailAt {span : Option Span} {r : Except RuntimeFault α} (hok : ∀ a, r = .ok a → Q a w)
    (herror : ∀ fault, r = .error fault → E (ScriptError.runtime ⟨fault, span, []⟩).halt w) :
    Ends (orFailAt span r) w Q E := by
  cases r with
  | ok a => exact hok a rfl
  | error fault => exact herror fault rfl

theorem ends_orFail {r : Except RuntimeFault α} (hok : ∀ a, r = .ok a → Q a w)
    (herror : ∀ fault, r = .error fault → E (ScriptError.runtime ⟨fault, none, []⟩).halt w) :
    Ends (orFail r) w Q E :=
  ends_orFailAt hok herror

/-- A text is written, or the run ends for lack of it. -/
theorem ends_write {r : Except Text.Fault String} {Q : String → World → Prop} (hok : ∀ s, r = .ok s → Q s w)
    (herror : ∀ fault, r = .error fault → E (.unwritable fault (.runtime (.ofFault (.unwritable fault)))) w) :
    Ends (write r) w Q E := by
  cases r with
  | ok s => exact hok s rfl
  | error fault => exact herror fault rfl

theorem ends_draw {count : Nat} {Q : (Nat → Nat) → World → Prop}
    (h : Q w.draws { w with draws := fun i => w.draws (count + i) }) : Ends (draw count) w Q E :=
  h

theorem ends_orRuntimeError {r : Except RuntimeError α} (hok : ∀ a, r = .ok a → Q a w)
    (herror : ∀ e, r = .error e → E (ScriptError.runtime e).halt w) : Ends (orRuntimeError r) w Q E := by
  cases r with
  | ok a => exact hok a rfl
  | error e => exact herror e rfl

theorem ends_orTermError {span : Option Span} {r : Except TermFault α} (hok : ∀ a, r = .ok a → Q a w)
    (herror : ∀ fault, r = .error fault → E (.error (.term ⟨fault, span⟩)) w) :
    Ends (orTermError span r) w Q E := by
  cases r with
  | ok a => exact hok a rfl
  | error fault => exact herror fault rfl

theorem ends_print {ctx : Context} {level : Level} {text : String} {Q : Unit → World → Prop}
    (h : ∀ w', w.Printed w' → Q () w') : Ends (ctx.print level text) w Q E := by
  unfold Context.print Context.report
  split
  · exact h _ ⟨_, rfl⟩
  · exact h w (.refl w)

theorem ends_trace {ctx : Context} {text : String} {Q : Unit → World → Prop}
    (h : ∀ w', w.Printed w' → Q () w') : Ends (ctx.trace text) w Q E := by
  unfold Context.trace
  split
  · exact h _ ⟨_, rfl⟩
  · exact h w (.refl w)

/-- Rules for errors that take a name along hold for conditions that the names do not matter to. -/
theorem ends_through {name : Option String} (h : Ends x w Q E)
    (hE : ∀ e n w', E (.error (.runtime e)) w' → E (.error (.runtime (RuntimeError.through e n))) w') :
    Ends (through name x) w Q E := by
  unfold Ends through at *
  split at h
  · rename_i hx
    simpa only [hx] using h
  · rename_i halt w' hx
    simp only [hx]
    cases halt with
    | error e =>
      cases e with
      | runtime e =>
        cases name with
        | none => exact h
        | some n => exact hE e n w' h
      | _ => exact h
    | _ => exact h

theorem through_none (x : Run α) : through none x = x := by
  funext w
  unfold through
  cases x w with
  | ok a w' => rfl
  | error halt w' =>
    cases halt with
    | error e => cases e <;> rfl
    | _ => rfl

theorem ends_guardDepth {span : Span} (h : Ends x w Q E)
    (hE : ∀ w', E .overflow w' → E (.error (.runtime ⟨.stackOverflow, some span, []⟩)) w') :
    Ends (guardDepth span x) w Q E := by
  unfold Ends guardDepth at *
  split at h
  · rename_i hx
    simpa only [hx] using h
  · rename_i halt w' hx
    simp only [hx]
    cases halt with
    | overflow => exact hE w' h
    | _ => exact h

theorem ends_withWork {work : Work} {Q : Work → World → Prop}
    (h : Ends x { w with work := work } (fun _ w' => Q w'.work { w' with work := w.work })
      (fun halt w' => E halt { w' with work := w.work })) : Ends (withWork work x) w Q E := by
  unfold Ends withWork at *
  split at h
  · rename_i hx
    simpa only [hx] using h
  · rename_i hx
    simpa only [hx] using h

theorem get_bind (f : World → Run β) : (get >>= f) w = f w w := rfl

theorem bind_of_ok {f : α → Run β} (h : x w = .ok a w') : (x >>= f) w = f a w' := by
  simp only [bind, EStateM.bind, h]

theorem bind_of_error {f : α → Run β} {halt : Halt} (h : x w = .error halt w') : (x >>= f) w = .error halt w' := by
  simp only [bind, EStateM.bind, h]

theorem enter_eq (host : Host) (p : Path) (w : World) :
    enter host p w = match host.refusal w.disk p with
      | some fault => .error (.unentered fault p) w
      | none => .ok () { w with cwd := p } := by
  rw [enter, get_bind]
  cases host.refusal w.disk p <;> rfl

variable {host : Host} {p : Path}

theorem ends_enter {Q : Unit → World → Prop}
    (hrefused : ∀ fault, host.refusal w.disk p = some fault → E (.unentered fault p) w)
    (hentered : host.refusal w.disk p = none → Q () { w with cwd := p }) : Ends (enter host p) w Q E := by
  unfold Ends
  rw [enter_eq]
  cases h : host.refusal w.disk p with
  | some fault => exact hrefused fault h
  | none => exact hentered h

theorem inDirectory_of_refused {fault : DiskFault}
    (h : host.refusal w.disk p = some fault) : inDirectory host p x w = .error (.unentered fault p) w := by
  have henter : enter host p w = .error (.unentered fault p) w := by rw [enter_eq, h]
  rw [inDirectory, get_bind]
  exact bind_of_error henter

theorem inDirectory_of_entered (h : host.refusal w.disk p = none) :
    inDirectory host p x w = goBack host w.cwd (x { w with cwd := p }) := by
  have henter : enter host p w = .ok () { w with cwd := p } := by rw [enter_eq, h]
  rw [inDirectory, get_bind]
  exact bind_of_ok henter

/-- A run in a directory: what holds behind it holds once one has gone back, or has not been let back. -/
theorem ends_inDirectory (hrefused : ∀ fault, host.refusal w.disk p = some fault → E (.unentered fault p) w)
    (hentered : host.refusal w.disk p = none → Ends x { w with cwd := p }
      (fun a w' => Ends (enter host w.cwd) w' (fun _ w'' => Q a w'') E)
      (fun halt w' => Ends (enter host w.cwd) w' (fun _ w'' => E halt w'') E)) :
    Ends (inDirectory host p x) w Q E := by
  cases h : host.refusal w.disk p with
  | some fault =>
    unfold Ends
    rw [inDirectory_of_refused h]
    exact hrefused fault h
  | none =>
    have hends := hentered h
    unfold Ends at hends
    unfold Ends
    rw [inDirectory_of_entered h]
    cases hx : x { w with cwd := p } with
    | ok a w' =>
      rw [hx] at hends
      exact ends_bind.2 hends
    | error halt w' =>
      rw [hx] at hends
      exact ends_bind.2 hends

/-! ## Runs that change little -/

/-- The run changes the world as `P` allows, however it ends. -/
def Within (P : World → World → Prop) (x : Run α) : Prop :=
  ∀ w, Ends x w (fun _ w' => P w w') (fun _ w' => P w w')

/-- The run changes the output at most. -/
abbrev Quiet (x : Run α) : Prop := Within World.Printed x

/-- The run changes nothing. -/
abbrev Silent (x : Run α) : Prop := Within Eq x

namespace Within

variable {P : World → World → Prop}

theorem through (name : Option String) (hx : Within P x) : Within P (Run.through name x) :=
  fun w => ends_through (hx w) fun _ _ _ h => h

variable [IsPreorder World P]

theorem pure (a : α) : Within P (Pure.pure a : Run α) := fun w => refl_of P w

theorem throw (halt : Halt) : Within P (MonadExcept.throw halt : Run α) := fun w => refl_of P w

theorem bind {f : α → Run β} (hx : Within P x) (hf : ∀ a, Within P (f a)) : Within P (x >>= f) := by
  intro w
  rw [ends_bind]
  refine (hx w).imp (fun a w' h => ?_) (fun _ _ h => h)
  exact (hf a w').imp (fun _ _ h' => trans_of P h h') (fun _ _ h' => trans_of P h h')

theorem unit {x : Run Unit} (hx : Within P x) : Within P (do x; return Value.unit) :=
  hx.bind fun _ => pure _

theorem session : Within P Run.session := fun w => refl_of P w

theorem fail (e : ScriptError) : Within P (Run.fail e : Run α) := fun w => refl_of P w

theorem failAt (fault : RuntimeFault) (span : Option Span) : Within P (Run.failAt fault span : Run α) :=
  fun w => refl_of P w

theorem orFailAt (span : Option Span) (r : Except RuntimeFault α) : Within P (Run.orFailAt span r) :=
  fun w => ends_orFailAt (fun _ _ => refl_of P w) (fun _ _ => refl_of P w)

theorem write (r : Except Text.Fault String) : Within P (Run.write r) := orFailAt none _

theorem forM {γ : Type} {f : γ → Run Unit} (hf : ∀ a, Within P (f a)) (items : List γ) : Within P (items.forM f) := by
  induction items with
  | nil => exact .pure ()
  | cons a items ih => exact .bind (hf a) fun _ => ih

theorem orRuntimeError (r : Except RuntimeError α) : Within P (Run.orRuntimeError r) :=
  fun w => ends_orRuntimeError (fun _ _ => refl_of P w) (fun _ _ => refl_of P w)

theorem orTermError (span : Option Span) (r : Except TermFault α) : Within P (Run.orTermError span r) :=
  fun w => ends_orTermError (fun _ _ => refl_of P w) (fun _ _ => refl_of P w)

end Within

theorem Silent.ends (h : Silent x) (w : World) :
    Ends x w (fun a w' => w' = w ∧ x w = .ok a w) (fun _ w' => w' = w) := by
  have hx := h w
  unfold Ends at hx ⊢
  split at hx
  · subst hx
    exact ⟨rfl, ‹_›⟩
  · exact hx.symm

theorem trace_quiet (ctx : Context) (text : String) : Quiet (ctx.trace text) :=
  fun _ => ends_trace fun _ h => h

theorem trace_silent {ctx : Context} (h : ctx.options.debug = false) (text : String) : Silent (ctx.trace text) := by
  unfold Context.trace
  rw [if_neg (by simp [h])]
  exact .pure ()

/-! ## Runs that end well -/

/-- The run ends well with a result in `P`, and changes the output at most. -/
def Succeeds (x : Run α) (w : World) (P : α → Prop) : Prop :=
  Ends x w (fun a w' => w.Printed w' ∧ P a) (fun _ _ => False)

namespace Succeeds

variable {P : α → Prop}

theorem pure {a : α} (h : P a) : Succeeds (Pure.pure a : Run α) w P := ⟨.refl w, h⟩

theorem bind {f : α → Run β} {P' : β → Prop} (hx : Succeeds x w P)
    (hf : ∀ a w', w.Printed w' → P a → Succeeds (f a) w' P') : Succeeds (x >>= f) w P' := by
  unfold Succeeds at hx ⊢
  rw [ends_bind]
  refine hx.imp (fun a w' ha => ?_) (fun _ _ h => h)
  exact Ends.imp (hf a w' ha.1 ha.2) (fun _ _ hb => ⟨ha.1.trans hb.1, hb.2⟩) fun _ _ h => h

theorem trace (ctx : Context) (text : String) : Succeeds (ctx.trace text) w fun _ => True :=
  ends_trace fun _ h => ⟨h, trivial⟩

theorem session : Succeeds Run.session w (· = w.session) := ⟨.refl w, rfl⟩

theorem exists_ok (h : Succeeds x w P) : ∃ a w', x w = .ok a w' ∧ w.Printed w' ∧ P a := by
  unfold Succeeds Ends at h
  split at h
  · rename_i a w' hx
    exact ⟨a, w', hx, h⟩
  · cases h

end Succeeds

/-! ## Conditions that runs keep -/

/-- A run that starts in `P` and ends well ends in `P`. -/
def Keeps (P : World → Prop) (x : Run α) : Prop :=
  ∀ w, P w → Ends x w (fun _ w' => P w') (fun _ _ => True)

namespace Keeps

variable {P : World → Prop}

theorem pure (a : α) : Keeps P (Pure.pure a : Run α) := fun _ h => h

theorem bind {f : α → Run β} (hx : Keeps P x) (hf : ∀ a, Keeps P (f a)) : Keeps P (x >>= f) := by
  intro w hw
  rw [ends_bind]
  exact (hx w hw).imp (fun a w' h => hf a w' h) (fun _ _ _ => trivial)

theorem of_quiet (hx : Quiet x) (hP : ∀ {w w'}, w.Printed w' → P w → P w') : Keeps P x :=
  fun w hw => (hx w).imp (fun _ _ h => hP h hw) (fun _ _ _ => trivial)

end Keeps

end Run

end VeriScript
