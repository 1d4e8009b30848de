import VeriScript.Proofs.Run.Commands
import VeriScript.Proofs.Run.Independence
import VeriScript.Proofs.Session.Change

/-!
# How runs proceed

Whatever a run does and however it ends, the session advances by changes that sessions allow, and the working
directory is the same behind it, unless the host refuses to go back there.  Two ways of running actions that do so in
step with each other lead to two ways of running statements and files that do so too; with one way of running actions
for both, this says how runs proceed.

* `World.Advances` — what every run does to the world; `World.Stays`, `World.Halts` — where it ends, well or early.
* `Run.Matched`, `Run.Together` — two runs that do the same, from a world or from every world in a directory.
* `runStmt_together`, `runFile_together` — statements and files, over the ways actions are run.
* `actionCongruence_together` — the steps of commands.
* `runActionWith_together` — actions; `runAction_together` — with themselves.
-/

namespace VeriScript

open Run (Ends Within Quiet Silent Prints)

/-! ## Worlds -/

/-- A goal at hand that is closed has one of the statuses of goals. -/
def Work.Proper : Work → Prop
  | .proof goal => ∀ status ∈ goal.status, status ∈ RecordKind.goal.statuses
  | _ => True

namespace World

/-- What every run does to the world, however it ends. -/
structure Advances (w w' : World) : Prop where
  work : w.work.Proper → w'.work.Proper
  session : w.session.Advances w'.session

/-- What a run does that ends well: it ends in the directory where it started. -/
structure Stays (w w' : World) : Prop extends w.Advances w' where
  cwd : w'.cwd = w.cwd

/-- What a run does that ends early: it ends in the directory where it started, unless it ends because the host refuses
to go back there. -/
structure Halts (host : Host) (w : World) (halt : Halt) (w' : World) : Prop extends w.Advances w' where
  cwd : w'.cwd = w.cwd ∨ ∃ fault, halt = .unentered fault w.cwd ∧ host.refusal w'.disk w.cwd = some fault

variable {host : Host} {halt : Halt} {w w1 w2 w3 : World}

theorem Advances.refl (w : World) : w.Advances w := ⟨id, .refl⟩

theorem Advances.trans (h : w1.Advances w2) (h' : w2.Advances w3) : w1.Advances w3 :=
  ⟨h'.work ∘ h.work, h.session.trans h'.session⟩

theorem Stays.refl (w : World) : w.Stays w := ⟨.refl w, rfl⟩

theorem Stays.trans (h : w1.Stays w2) (h' : w2.Stays w3) : w1.Stays w3 :=
  ⟨h.toAdvances.trans h'.toAdvances, h'.cwd.trans h.cwd⟩

instance : IsPreorder World Stays where
  refl := .refl
  trans _ _ _ := .trans

theorem Stays.halts (h : w1.Stays w2) : w1.Halts host halt w2 := ⟨h.toAdvances, .inl h.cwd⟩

theorem Halts.refl (w : World) : w.Halts host halt w := (Stays.refl w).halts

theorem Stays.trans_halts (h : w1.Stays w2) (h' : w2.Halts host halt w3) : w1.Halts host halt w3 :=
  ⟨h.toAdvances.trans h'.toAdvances, h.cwd ▸ h'.cwd⟩

/-- Runs that end early for another reason are where they started. -/
theorem Halts.stays (h : w1.Halts host halt w2) (hother : ∀ fault p, halt ≠ .unentered fault p) : w1.Stays w2 := by
  refine ⟨h.toAdvances, h.cwd.resolve_right ?_⟩
  rintro ⟨fault, hhalt, -⟩
  exact hother _ _ hhalt

theorem Printed.stays (h : w1.Printed w2) : w1.Stays w2 := by
  obtain ⟨_, rfl⟩ := h
  exact ⟨⟨id, .refl⟩, rfl⟩

end World

/-- Early ends that nothing behind them in a run takes for another end. -/
inductive Halt.Stops : Halt → Prop
  | exit {code : Int} : Stops (.exit code)
  | unentered {fault : DiskFault} {p : Path} : Stops (.unentered fault p)

namespace Run

variable {α β : Type} {host : Host} {D : Path} {x y : Run α} {f g : α → Run β} {w w' : World} {a : α} {halt : Halt}
  {cut : Prop}

theorem Quiet.stays (hx : Quiet x) : Within World.Stays x :=
  fun w => (hx w).imp (fun _ _ h => h.stays) fun _ _ h => h.stays

theorem Silent.quiet (hx : Silent x) : Quiet x :=
  fun w => (hx w).imp (fun _ _ h => h ▸ .refl w) fun _ _ h => h ▸ .refl w

theorem Prints.quiet {x : Run Unit} (hx : Prints x) : Quiet x := by
  intro w
  obtain ⟨text, htext⟩ := hx w
  unfold Ends
  rw [htext]
  exact ⟨text, rfl⟩

/-! ## Runs in step with each other -/

theorem after_of_ok (h : x w = .ok a w') : x.after w = w' := by
  unfold after
  rw [h]

theorem after_of_error (h : x w = .error halt w') : x.after w = w' := by
  unfold after
  rw [h]

/-- From the world `w`, the second run does as the first.  If that is allowed, it may also stop on the way; then the
first run goes on from the session there. -/
def Shadows (cut : Prop) (x y : Run α) (w : World) : Prop :=
  x w = y w ∨ cut ∧ ∃ halt w', halt.Stops ∧ y w = .error halt w' ∧ w.session.Advances w'.session ∧
    w'.session.Advances (x.after w).session

/-- If the world `w` is in the directory `D`, then the second run shadows the first from there.  With the first run the
world advances, and a result satisfies `Q`. -/
def Matched (cut : Prop) (host : Host) (D : Path) (x y : Run α) (w : World) (Q : α → World → Prop) : Prop :=
  w.cwd = D → Shadows cut x y w ∧
    Ends x w (fun a w' => w.Stays w' ∧ Q a w') (fun halt w' => w.Halts host halt w')

/-- The same from every world in the directory. -/
abbrev Together (cut : Prop) (host : Host) (D : Path) (x y : Run α) : Prop :=
  ∀ w, Matched cut host D x y w fun _ _ => True

theorem Ends.advances {Q : α → World → Prop}
    (h : Ends x w (fun a w' => w.Stays w' ∧ Q a w') fun halt w' => w.Halts host halt w') : w.Advances (x.after w) := by
  unfold Ends at h
  unfold after
  split at h
  · exact h.1.toAdvances
  · exact h.toAdvances

/-- Going on behind runs of which one shadows the other. -/
theorem Shadows.bind (hx : Shadows cut x y w)
    (hf : Ends x w (fun a w' => w.Advances w' ∧ Shadows cut (f a) (g a) w' ∧ w'.Advances ((f a).after w'))
      fun _ _ => True) : Shadows cut (x >>= f) (y >>= g) w := by
  unfold Ends at hf
  cases hxw : x w with
  | ok a w1 =>
    rw [hxw] at hf
    obtain ⟨hadvances, hnext, hrest⟩ := hf
    have hafter : (x >>= f).after w = (f a).after w1 := by
      unfold after
      rw [bind_of_ok hxw]
    obtain heq | ⟨hcut, halt, w', hstops, hy, hbefore, hbehind⟩ := hx
    · have hy : y w = .ok a w1 := by rw [← heq, hxw]
      obtain heq' | ⟨hcut, halt, w', hstops, hg, hbefore, hbehind⟩ := hnext
      · exact .inl (by rw [bind_of_ok hxw, bind_of_ok hy, heq'])
      · refine .inr ⟨hcut, halt, w', hstops, by rw [bind_of_ok hy, hg], hadvances.session.trans hbefore, ?_⟩
        rwa [hafter]
    · rw [after_of_ok hxw] at hbehind
      refine .inr ⟨hcut, halt, w', hstops, bind_of_error hy, hbefore, ?_⟩
      rw [hafter]
      exact hbehind.trans hrest.session
  | error halt w1 =>
    have hafter : (x >>= f).after w = x.after w := by
      rw [after_of_error hxw, after_of_error (bind_of_error hxw)]
    obtain heq | ⟨hcut, halt, w', hstops, hy, hbefore, hbehind⟩ := hx
    · exact .inl (by rw [bind_of_error hxw, bind_of_error (heq ▸ hxw)])
    · exact .inr ⟨hcut, halt, w', hstops, bind_of_error hy, hbefore, by rwa [hafter]⟩

/-- A way of ending runs differently, or of starting them in another world, keeps shadows if it keeps sessions, and a
run that stops still stops. -/
theorem Shadows.wrap {F : Run α → Run β} {w0 : World} (hx : Shadows cut x y w0)
    (hw : w0.session = w.session) (heq : ∀ {x y : Run α}, x w0 = y w0 → F x w = F y w)
    (hafter : ((F x).after w).session = (x.after w0).session)
    (hstop : ∀ {halt : Halt} {w' : World}, halt.Stops → y w0 = .error halt w' →
      ∃ halt' w'', halt'.Stops ∧ F y w = .error halt' w'' ∧ w''.session = w'.session) :
    Shadows cut (F x) (F y) w := by
  obtain hsame | ⟨hcut, halt, w', hstops, hy, hbefore, hbehind⟩ := hx
  · exact .inl (heq hsame)
  · obtain ⟨halt', w'', hstops', hF, hsession⟩ := hstop hstops hy
    refine .inr ⟨hcut, halt', w'', hstops', hF, ?_, ?_⟩
    · rw [hsession, ← hw]
      exact hbefore
    · rw [hsession, hafter]
      exact hbehind

/-- Going back changes nothing about the session. -/
theorem session_after_inDirectory {p : Path} (h : host.refusal w.disk p = none) :
    ((inDirectory host p x).after w).session = (x.after { w with cwd := p }).session := by
  unfold after
  rw [inDirectory_of_entered h]
  cases x { w with cwd := p } with
  | ok a w' | error halt w' =>
    simp only [goBack, bind, EStateM.bind, enter_eq]
    cases host.refusal w'.disk w.cwd <;> rfl

/-- A run that stops still stops if it cannot go back. -/
theorem goBack_stops {home : Path} (h : halt.Stops) : ∃ halt' w', halt'.Stops ∧
    goBack host home (.error halt w : EStateM.Result Halt World α) = .error halt' w' ∧ w'.session = w.session := by
  cases hrefusal : host.refusal w.disk home with
  | some fault => exact ⟨_, w, .unentered, bind_of_error (by rw [enter_eq, hrefusal]), rfl⟩
  | none => exact ⟨halt, { w with cwd := home }, h, bind_of_ok (by rw [enter_eq, hrefusal]), rfl⟩

namespace Matched

variable {Q : α → World → Prop} {R : β → World → Prop}

theorem pure {a : α} (h : Q a w) : Matched cut host D (Pure.pure a) (Pure.pure a) w Q :=
  fun _ => ⟨.inl rfl, .refl w, h⟩

theorem throw (halt : Halt) : Matched cut host D (MonadExcept.throw halt : Run α) (MonadExcept.throw halt) w Q :=
  fun _ => ⟨.inl rfl, .refl w⟩

theorem fail (e : ScriptError) : Matched cut host D (Run.fail e : Run α) (Run.fail e) w Q :=
  throw _

theorem failAt (fault : RuntimeFault) (span : Option Span) :
    Matched cut host D (Run.failAt fault span : Run α) (Run.failAt fault span) w Q :=
  throw _

theorem bind (hx : Matched cut host D x y w Q) (hf : ∀ a w', Q a w' → Matched cut host D (f a) (g a) w' R) :
    Matched cut host D (x >>= f) (y >>= g) w R := by
  intro hw
  obtain ⟨hshadows, hends⟩ := hx hw
  -- behind `x` the world is in the same directory
  have hnext : Ends x w (fun a w' => w.Stays w' ∧ Shadows cut (f a) (g a) w' ∧
      Ends (f a) w' (fun b w'' => w'.Stays w'' ∧ R b w'') fun halt w'' => w'.Halts host halt w'')
      fun halt w' => w.Halts host halt w' := by
    refine hends.imp (fun a w' h => ⟨h.1, ?_⟩) fun _ _ h => h
    exact hf a w' h.2 (h.1.cwd.trans hw)
  constructor
  · exact hshadows.bind (hnext.imp (fun a w' h => ⟨h.1.toAdvances, h.2.1, h.2.2.advances⟩) fun _ _ _ => trivial)
  · rw [ends_bind]
    refine hnext.imp (fun a w' h => ?_) fun _ _ h => h
    exact h.2.2.imp (fun b w'' h' => ⟨h.1.trans h'.1, h'.2⟩) fun _ _ h' => h.1.trans_halts h'

theorem bind_silent (hx : Silent x) (hf : ∀ a, x w = .ok a w → Matched cut host D (f a) (g a) w R) :
    Matched cut host D (x >>= f) (x >>= g) w R := by
  have hsame : Matched cut host D x x w fun a w' => w' = w ∧ x w = .ok a w := fun _ =>
    ⟨.inl rfl, (hx.ends w).imp (fun a w' h => ⟨h.1 ▸ .refl w, h⟩) fun _ w' h => (h ▸ .refl w : w.Stays w').halts⟩
  refine hsame.bind ?_
  rintro a _ ⟨rfl, ha⟩
  exact hf a ha

theorem session_bind {f g : Session → Run β} (h : Matched cut host D (f w.session) (g w.session) w R) :
    Matched cut host D (Run.session >>= f) (Run.session >>= g) w R := h

theorem get_bind {f g : World → Run β} (h : Matched cut host D (f w) (g w) w R) :
    Matched cut host D (get >>= f) (get >>= g) w R := h

theorem term_bind {span : Option Span} {r : Except TermFault α}
    (hf : ∀ a, r = .ok a → Matched cut host D (f a) (g a) w R) :
    Matched cut host D (Run.orTermError span r >>= f) (Run.orTermError span r >>= g) w R := by
  cases r with
  | ok a => exact hf a rfl
  | error fault => exact throw (α := β) (.error (.term ⟨fault, span⟩))

theorem setSession {s : Session} (h : w.session.Advances s) :
    Matched cut host D (Run.setSession s) (Run.setSession s) w fun _ _ => True :=
  fun _ => ⟨.inl rfl, ⟨⟨id, h⟩, rfl⟩, trivial⟩

theorem setWork {work : Work} (h : work.Proper) :
    Matched cut host D (Run.setWork work) (Run.setWork work) w fun _ _ => True :=
  fun _ => ⟨.inl rfl, ⟨⟨fun _ => h, .refl⟩, rfl⟩, trivial⟩

theorem guardDepth (span : Span) (h : Matched cut host D x y w Q) :
    Matched cut host D (Run.guardDepth span x) (Run.guardDepth span y) w Q := by
  intro hw
  obtain ⟨hshadows, hends⟩ := h hw
  refine ⟨hshadows.wrap rfl (fun heq => ?_) ?_ fun {halt w'} hstops hy => ⟨halt, w', hstops, ?_, rfl⟩,
    ends_guardDepth hends fun w' h => (h.stays nofun).halts⟩
  · simp only [Run.guardDepth, heq]
  · simp only [after, Run.guardDepth]
    cases x w with
    | ok a w' => rfl
    | error halt w' => cases halt <;> rfl
  · cases hstops <;> simp only [Run.guardDepth, hy]

theorem through (name : Option String) (h : Matched cut host D x y w Q) :
    Matched cut host D (Run.through name x) (Run.through name y) w Q := by
  intro hw
  obtain ⟨hshadows, hends⟩ := h hw
  refine ⟨hshadows.wrap rfl (fun heq => ?_) ?_ fun {halt w'} hstops hy => ⟨halt, w', hstops, ?_, rfl⟩,
    ends_through hends fun _ _ w' h => (h.stays nofun).halts⟩
  · simp only [Run.through, heq]
  · simp only [after, Run.through]
    cases x w with
    | ok a w' => rfl
    | error halt w' =>
      cases halt with
      | error e => cases e <;> cases name <;> rfl
      | _ => rfl
  · cases hstops <;> simp only [Run.through, hy]

theorem anticipate (h : Matched cut host D x y w Q) :
    Matched cut host D (Run.anticipate x) (Run.anticipate y) w fun _ _ => True := by
  intro hw
  obtain ⟨hshadows, hends⟩ := h hw
  refine ⟨hshadows.wrap rfl (fun heq => ?_) ?_ fun {halt w'} hstops hy => ⟨halt, w', hstops, ?_, rfl⟩, ?_⟩
  · simp only [Run.anticipate, heq]
  · simp only [after, Run.anticipate]
    cases x w with
    | ok a w' => rfl
    | error halt w' => cases halt <;> rfl
  · cases hstops <;> simp only [Run.anticipate, hy]
  · unfold Ends Run.anticipate at *
    cases hx : x w with
    | ok a w' =>
      rw [hx] at hends
      exact ⟨hends.1, trivial⟩
    | error halt w' =>
      rw [hx] at hends
      cases halt with
      | error e => exact ⟨hends.stays nofun, trivial⟩
      | _ => exact hends

/-- Work that is done meanwhile ends as it should if it starts so. -/
theorem withWork {work : Work} (hwork : work.Proper) (h : Matched cut host D x y { w with work := work } Q) :
    Matched cut host D (Run.withWork work x) (Run.withWork work y) w fun work' _ => work'.Proper := by
  intro hw
  obtain ⟨hshadows, hends⟩ := h hw
  refine ⟨hshadows.wrap rfl (fun heq => ?_) ?_ fun {halt w'} hstops hy =>
    ⟨halt, { w' with work := w.work }, hstops, ?_, rfl⟩, ?_⟩
  · simp only [Run.withWork, heq]
  · simp only [after, Run.withWork]
    cases x { w with work := work } <;> rfl
  · simp only [Run.withWork, hy]
  · refine ends_withWork (hends.imp (fun a w' h => ?_) fun _ w' h => ?_)
    · exact ⟨⟨⟨id, h.1.session⟩, h.1.cwd⟩, h.1.work hwork⟩
    · exact ⟨⟨id, h.session⟩, h.cwd⟩

/-- What is done in another directory is done from there, if that can be entered, and then one goes back. -/
theorem inDirectory {D' : Path} (h : Matched cut host D' x y { w with cwd := D' } Q) :
    Matched cut host D (Run.inDirectory host D' x) (Run.inDirectory host D' y) w fun _ _ => True := by
  intro hw
  obtain ⟨hshadows, hends⟩ := h rfl
  constructor
  · cases hrefusal : host.refusal w.disk D' with
    | some fault => exact .inl (by rw [inDirectory_of_refused hrefusal, inDirectory_of_refused hrefusal])
    | none =>
      refine hshadows.wrap rfl (fun heq => ?_) ?_ fun hstops hy => ?_
      · rw [inDirectory_of_entered hrefusal, inDirectory_of_entered hrefusal, heq]
      · exact session_after_inDirectory hrefusal
      · rw [inDirectory_of_entered hrefusal, hy]
        exact goBack_stops hstops
  · -- behind the directory `D'` the world has advanced, and is back in its own directory unless that is refused
    have hback : ∀ w', World.Advances { w with cwd := D' } w' → w.Advances w' := fun w' h => ⟨h.work, h.session⟩
    refine ends_inDirectory (fun _ _ => .refl w) fun _ => hends.imp (fun a w' h => ?_) fun halt w' h => ?_
    · have hadvances := hback w' h.1.toAdvances
      exact ends_enter (fun fault hfault => ⟨hadvances, .inr ⟨fault, rfl, hfault⟩⟩)
        fun _ => ⟨⟨⟨hadvances.work, hadvances.session⟩, rfl⟩, trivial⟩
    · have hadvances := hback w' h.toAdvances
      exact ends_enter (fun fault hfault => ⟨hadvances, .inr ⟨fault, rfl, hfault⟩⟩)
        fun _ => ⟨⟨hadvances.work, hadvances.session⟩, .inl rfl⟩

end Matched

namespace Together

theorem of_within (hx : Within World.Stays x) : Together cut host D x x :=
  fun w _ => ⟨.inl rfl, (hx w).imp (fun _ _ h => ⟨h, trivial⟩) fun _ _ h => h.halts⟩

theorem of_quiet (hx : Quiet x) : Together cut host D x x :=
  of_within hx.stays

theorem pure (a : α) : Together cut host D (Pure.pure a) (Pure.pure a) := fun _ => .pure trivial

theorem failAt (fault : RuntimeFault) (span : Option Span) :
    Together cut host D (Run.failAt fault span : Run α) (Run.failAt fault span) := fun _ => .failAt fault span

theorem bind (hx : Together cut host D x y) (hf : ∀ a, Together cut host D (f a) (g a)) :
    Together cut host D (x >>= f) (y >>= g) :=
  fun w => (hx w).bind fun a w' _ => hf a w'

theorem unit {x y : Run Unit} (hx : Together cut host D x y) :
    Together cut host D (do x; return Value.unit) (do y; return Value.unit) :=
  hx.bind fun _ => pure _

theorem session {f g : Session → Run β} (hf : ∀ s, Together cut host D (f s) (g s)) :
    Together cut host D (Run.session >>= f) (Run.session >>= g) :=
  .bind (.of_quiet .session) hf

theorem print (ctx : Context) (level : Level) (text : String) :
    Together cut host D (ctx.print level text) (ctx.print level text) :=
  .of_quiet (Prints.print ctx level text).quiet

theorem update {edit : Session → Session} (h : ∀ s : Session, s.Advances (edit s)) :
    Together cut host D (do Run.setSession (edit (← Run.session))) (do Run.setSession (edit (← Run.session))) :=
  fun w => .session_bind (.setSession (h w.session))

end Together

end Run

open Run (Matched Together)

/-! ## Files -/

theorem parseFile_silent (path : String) : Silent (parseFile path) := by
  intro w
  unfold parseFile
  rw [Run.ends_bind, Run.ends_get]
  split
  · cases parseProgram path _ with
    | ok stmts => exact rfl
    | error e => exact rfl
  · exact rfl
  · exact rfl
  · exact rfl
  · exact rfl

theorem writeFile_advances (path text : String) {fault : DiskFault → Run Unit} (hfault : ∀ f, Quiet (fault f)) :
    Within World.Stays (writeFile path text fault) := by
  intro w
  unfold writeFile
  rw [Run.ends_bind, Run.ends_get]
  split
  · exact ⟨⟨id, .refl⟩, rfl⟩
  · exact (hfault _).stays w
  · exact .refl w

theorem writeSummary_advances (ctx : Context) : Within World.Stays (writeSummary ctx) := by
  unfold writeSummary
  split
  · exact .bind .session fun s => writeFile_advances _ _ fun f => .failAt _ _
  · exact .pure ()

theorem writeCoq_advances (ctx : Context) (name term file : Value) :
    Within World.Stays (writeCoq ctx name term file) :=
  .bind (.orFailAt _ _) fun _ => .bind (.orFailAt _ _) fun _ => .bind (.orFailAt _ _) fun _ => .bind (.write _) fun _ =>
    writeFile_advances _ _ fun _ => .bind (Prints.print ctx _ _).quiet fun _ => .failAt _ _

/-! ## Statements -/

theorem Context.check_quiet {α : Type} (ctx : Context) (x : Check α) : Quiet (ctx.check x) :=
  fun w => (Run.check_ends ctx x w).imp (fun _ _ h => h.1) fun _ _ h => h.1

theorem printResult_quiet (ctx : Context) (printBinds : Bool) (p : Pattern) (result : Value) (t : Ty) :
    Quiet (printResult ctx printBinds p result t) := by
  have htype (frame : String → String) :
      Quiet (if t.isFunction then do ctx.print .info (frame (← Run.write t.shown)) else return) := by
    split
    · exact .bind (.write _) fun _ => (Prints.print ctx _ _).quiet
    · exact .pure ()
  unfold printResult
  dsimp only
  split
  · refine .bind .session fun _ => .bind (.write _) fun _ => .bind (Prints.print ctx _ _).quiet fun _ => htype _
  · exact htype _

variable {cut : Prop} {host : Host} {D : Path}

section
variable {run run' : RunAction}
  (hrun : ∀ ctx v, Together cut ctx.host D (run ctx v) (run' ctx v)) (ctx : Context)

/-- A session that a statement leads to comes from the session that its actions lead to. -/
theorem importTerms_matched (span : Span) (file : String) (qualifier : Option String) (w : World) :
    Matched cut host D (importTerms span file qualifier) (importTerms span file qualifier) w
      fun s' w' => w'.session.Advances s' := by
  intro hw
  refine ⟨.inl rfl, ?_⟩
  unfold importTerms
  rw [Run.ends_bind, Run.ends_get]
  dsimp only
  split
  · rw [Run.ends_bind]
    refine Run.ends_orTermError (fun terms hterms => ⟨.refl w, ?_⟩) fun _ _ => .refl w
    exact .single (.terms _ (parseTermDecls_keeps hterms))
  · exact .refl w
  · exact .refl w
  · exact .refl w

include hrun

theorem topLevelResult_together (t : Ty) (v : Value) :
    Together cut ctx.host D (topLevelResult run ctx t v) (topLevelResult run' ctx t v) := by
  unfold topLevelResult
  split
  · exact .failAt _ _
  · refine .bind (hrun ctx v) fun _ => ?_
    split
    · exact .pure _
    · exact .failAt _ _
  · exact .pure _

theorem bindResult_matched (printBinds : Bool) (span : Span) (p : Pattern) (e : Expr) (w : World) :
    Matched cut ctx.host D (bindResult run ctx printBinds span p e) (bindResult run' ctx printBinds span p e) w
      fun s' w' => w'.session.Advances s' := by
  -- in the end the names are bound in the session as it is then
  have hbind : ∀ (result : Value × Ty) (w' : World),
      Matched cut ctx.host D (do Run.orRuntimeError ((← Run.session).bindPattern p (some (.mono result.2)) result.1))
        (do Run.orRuntimeError ((← Run.session).bindPattern p (some (.mono result.2)) result.1)) w'
        fun s' w'' => w''.session.Advances s' := by
    intro result w'
    refine .session_bind fun _ => ⟨.inl rfl, Run.ends_orRuntimeError (fun s' hs' => ⟨.refl w', ?_⟩) fun _ _ => .refl w'⟩
    obtain ⟨parts, -, rfl⟩ := Session.bindPattern_eq_ok_iff.1 hs'
    exact w'.session.advances_bindParts parts
  unfold bindResult
  refine .session_bind ?_
  refine Matched.bind (Together.of_quiet (ctx.check_quiet _) w) fun schema w1 _ => ?_
  dsimp only
  split
  · exact .fail _
  · refine Matched.bind (Together.of_quiet (ctx.eval_quiet [] _) w1) fun value w2 _ => ?_
    refine Matched.bind (topLevelResult_together hrun ctx schema.type value w2) fun result w3 _ => ?_
    exact Matched.bind (Together.of_quiet (printResult_quiet ctx _ _ _ _) w3) fun _ w4 _ => hbind result w4

theorem stmtSession_matched (printBinds : Bool) (stmt : Stmt) (w : World) :
    Matched cut ctx.host D (stmtSession run ctx printBinds stmt) (stmtSession run' ctx printBinds stmt) w
      fun s' w' => w'.session.Advances s' := by
  cases stmt with
  | bind span p e => exact bindResult_matched hrun ctx printBinds span p e w
  | define span g =>
    refine .session_bind (Matched.bind (Together.of_quiet (ctx.check_quiet _) w) fun schemas w1 _ => ?_)
    have hgroup := ctx.evalGroup_quiet [] schemas g
    refine Matched.bind (Together.of_quiet hgroup w1) fun env w2 _ => ?_
    exact .session_bind (.pure (w2.session.advances_merge env))
  | code span text =>
    refine .session_bind (.term_bind fun terms hterms => ?_)
    exact .pure (.single (.terms _ (parseTermDecls_keeps hterms)))
  | importTerms span file qualifier => exact importTerms_matched span file qualifier w
  | typedef span name t =>
    refine .session_bind ?_
    split
    · exact .pure (.single (.typedef _ name _))
    · exact .fail _

theorem nextSession_matched (printBinds : Bool) (stmt : Stmt) (w : World) :
    Matched cut ctx.host D (nextSession run ctx printBinds stmt) (nextSession run' ctx printBinds stmt) w
      fun s' w' => w'.session.Advances s' :=
  Matched.bind (Together.of_quiet (Run.trace_quiet ctx _) w) fun _ w' _ =>
    stmtSession_matched hrun ctx printBinds stmt w'

theorem runStmt_together (printBinds : Bool) (stmt : Stmt) :
    Together cut ctx.host D (runStmt run ctx printBinds stmt) (runStmt run' ctx printBinds stmt) := by
  intro w
  refine .guardDepth _ ((nextSession_matched hrun ctx printBinds stmt w).bind fun s' w' hs' => ?_)
  exact .setSession hs'

theorem runStmts_together (printBinds : Bool) (stmts : List Stmt) :
    Together cut ctx.host D (runStmts run ctx printBinds stmts) (runStmts run' ctx printBinds stmts) := by
  induction stmts with
  | nil => exact .pure _
  | cons stmt stmts ih => exact .bind (runStmt_together hrun _ printBinds stmt) fun _ => ih

theorem runMain_together : Together cut ctx.host D (runMain run ctx) (runMain run' ctx) := by
  refine .session fun s => ?_
  split
  · exact .bind (hrun ctx _) fun _ => .pure _
  · exact .pure _

end

theorem runFile_together {path : String} {run run' : RunAction}
    (hrun : ∀ ctx v, Together cut ctx.host (absolutePath D path).dropLast (run ctx v) (run' ctx v)) (ctx : Context)
    (withMain : Bool) : Together cut ctx.host D (runFile run ctx path withMain) (runFile run' ctx path withMain) := by
  intro w hw
  subst hw
  refine Matched.bind_silent (parseFile_silent path) (fun stmts _ => ?_) rfl
  have hbody : Together cut ctx.host (absolutePath w.cwd path).dropLast
      (do runStmts run ctx false stmts; if withMain then runMain run ctx)
      (do runStmts run' ctx false stmts; if withMain then runMain run' ctx) := by
    refine .bind (runStmts_together hrun ctx false stmts) fun _ => ?_
    split
    · exact runMain_together hrun ctx
    · exact .pure _
  refine .get_bind (Matched.bind (Matched.inDirectory (hbody _)) fun _ w' _ => ?_)
  exact Together.of_within (writeSummary_advances ctx) w'

/-! ## Proofs and specifications -/

theorem openGoal_silent (tactic : String) : Silent (openGoal tactic) := by
  intro w
  unfold openGoal
  rw [Run.ends_bind, Run.ends_get]
  split
  · split
    · exact rfl
    · exact rfl
  · exact rfl

/-- The goal that is worked on is open. -/
theorem openGoal_ok {tactic : String} {goal : Goal} {w w' : World} (h : openGoal tactic w = .ok goal w') :
    goal.status = none := by
  suffices hends : Ends (openGoal tactic) w (fun goal _ => goal.status = none) fun _ _ => True from hends.of_ok h
  unfold openGoal
  rw [Run.ends_bind, Run.ends_get]
  split
  · split
    · trivial
    · rename_i hopen
      exact Option.not_isSome_iff_eq_none.1 hopen
  · trivial

theorem closeGoal_together (goal : Goal) {status : ProofStatus} (hstatus : status ∈ RecordKind.goal.statuses)
    (tactic : Tactic) (cex : Counterexample) :
    Together cut host D (closeGoal goal status tactic cex) (closeGoal goal status tactic cex) := by
  have hproper : (Work.proof (goal.close status tactic cex)).Proper := by
    rintro _ ⟨⟩
    exact hstatus
  exact .bind (fun _ => .setWork hproper) fun _ => .pure _

theorem changeDraft_together (change : Draft → Draft) :
    Together cut host D (changeDraft change) (changeDraft change) := by
  refine fun w => .get_bind ?_
  split
  · exact .setWork trivial
  · exact .failAt _ _

theorem recordGoal_together (t : Term) (goal : Goal) {status : ProofStatus}
    (hstatus : status ∈ RecordKind.goal.statuses) :
    Together cut host D (recordGoal t goal status) (recordGoal t goal status) :=
  .bind (.of_quiet (.write _)) fun text => .update fun s =>
    .single (.record s ⟨.goal, s.nextGoalName, text, status, goal.tactic⟩ (fun _ => rfl) hstatus)

theorem recordSpec_together {spec : Spec} (hstatus : spec.status ∈ RecordKind.spec.statuses)
    (tactic : Option Tactic) : Together cut host D (recordSpec spec tactic) (recordSpec spec tactic) :=
  .bind (.of_quiet (.write _)) fun _ => .update fun s => .single (.record s _ nofun hstatus)

section
variable {run run' : RunAction} (hrun : ∀ ctx v, Together cut ctx.host D (run ctx v) (run' ctx v)) (ctx : Context)
include hrun

/-- A proof script that succeeds has closed the goal with one of the statuses of goals. -/
theorem runProof_matched (script : Value) (t : Term) (w : World) :
    Matched cut ctx.host D (runProof run ctx script t) (runProof run' ctx script t) w
      fun r _ => r.2 ∈ RecordKind.goal.statuses := by
  have hstart : (Work.proof (.start t)).Proper := nofun
  refine (Matched.withWork hstart (hrun ctx script _)).bind fun work w' hwork => ?_
  cases work with
  | proof goal =>
    dsimp only
    split
    · rename_i status hstatus
      exact .pure (hwork status hstatus)
    · exact .bind (Together.of_quiet (.write _) w') fun _ _ _ => .failAt _ _
  | _ => exact .failAt _ _

theorem runSetup_together (setup : Value) :
    Together cut ctx.host D (runSetup run ctx setup) (runSetup run' ctx setup) := by
  intro w
  have hstart : (Work.setup .empty).Proper := trivial
  refine (Matched.withWork hstart (hrun ctx setup _)).bind fun work w' _ => ?_
  cases work with
  | setup draft => exact .pure trivial
  | _ => exact .failAt _ _

/-! ## Commands -/

omit hrun in
theorem changeDisplay_together (change : Display → Display) :
    Together cut ctx.host D (changeDisplay change) (changeDisplay change) :=
  .update fun s => .single (.display s (change s.display))

omit hrun in
theorem printEnv_quiet : Quiet (printEnv ctx) := by
  refine .bind .session fun s => .forM (fun name => ?_) _
  split
  · exact .bind (.write _) fun _ => (Prints.print ctx _ _).quiet
  · exact (Prints.print ctx _ _).quiet

omit hrun in
/-- Evaluation changes nothing but the output. -/
theorem evalCongruence_together : EvalCongruence (fun _ => Together cut ctx.host D) ctx ctx where
  pure := .pure
  throw _ _ := .throw _
  bind := .bind
  through name hx w := .through name (hx w)
  host := rfl
  trace text := .of_quiet (Run.trace_quiet ctx text)
  evalName env name span := .of_within (evalName_within env name span)
  evalCode env text span := .of_within (evalCode_within env text span)
  notFunction _ _ := .session fun _ => .failAt _ _

theorem actionCongruence_together :
    ActionCongruence (fun _ => Together cut ctx.host D) (fun kind status => status ∈ kind.statuses) ctx ctx
      run run' where
  toEvalCongruence := evalCongruence_together ctx
  act := hrun ctx
  prints _ hx := .of_quiet (hx ctx).quiet
  shows _ _ _ _ := .session fun _ => .bind (.of_quiet (.write _)) fun _ => .unit (.print _ _ _)
  printEnv := .of_quiet (printEnv_quiet ctx)
  draw _ _ _ := ⟨.inl rfl, ⟨⟨id, .refl⟩, rfl⟩, trivial⟩
  fails hx := by
    refine .bind (fun w => .anticipate (hx w)) fun e? => ?_
    cases e? with
    | none => exact .failAt _ _
    | some e => exact .bind (.print _ _ _) fun _ => .unit (.print _ _ _)
  contextName _ := .get_bind (.pure trivial)
  code env span text x y hx w := by
    refine .session_bind (.term_bind fun terms hterms => ?_)
    have hkept : ∀ x, Table.has w.session.terms x → Table.has terms x := fun x hx =>
      parseTermDecls_keeps hterms x ((w.session.advances_merge env).has_terms x hx)
    exact .bind (.setSession (.single (.terms _ hkept))) fun _ w' _ => hx w'
  enable _ _ := .session_bind (.bind (.setSession (.single (.enable _ _))) fun _ _ _ => .pure trivial)
  changeDisplay change _ := changeDisplay_together ctx change
  defineTerm name t w := by
    have hkept : ∀ x, Table.has w.session.terms x → Table.has (Table.insert w.session.terms name t) x :=
      fun x hx => Table.has_insert_of_has name t hx
    exact .session_bind (.bind (.setSession (.single (.terms _ hkept))) fun _ _ _ => .pure trivial)
  parseFile path := .of_quiet (parseFile_silent path).quiet
  writeCoq name term file := .of_within (writeCoq_advances ctx name term file)
  openGoal _ := .of_quiet (openGoal_silent _).quiet
  closeGoal goal _ hstatus := closeGoal_together goal hstatus
  simplifyGoal tactic w := by
    refine .bind_silent (openGoal_silent _) fun goal hgoal => ?_
    have hproper : (Work.proof { goal with term := goal.term.simplify }).Proper := by
      intro status hstatus
      rw [openGoal_ok hgoal] at hstatus
      cases hstatus
    exact .bind (.setWork hproper) fun _ _ _ => .pure trivial
  changeDraft := changeDraft_together
  runProof script t _ _ hf w := (runProof_matched hrun ctx script t w).bind fun r w' hr => hf r hr w'
  runSetup := runSetup_together hrun ctx
  recordGoal t goal _ := recordGoal_together t goal
  recordSpec := recordSpec_together
  closed := by decide
  assumed := by decide
  -- the status of the goal becomes that of the specification, unless it is `valid`
  verified {status} hgoal hvalid := by cases status <;> simp_all [RecordKind.statuses]

theorem runBody_together (env : Env) (body : List Stmt) :
    Together cut ctx.host D (runBody run ctx env body) (runBody run' ctx env body) :=
  (actionCongruence_together hrun ctx).runBody env body

end

/-! ## Actions -/

theorem requireContext_silent (wanted : Option ContextKind) : Silent (requireContext wanted) :=
  fun _ => Run.ends_requireContext (fun _ => rfl) fun _ _ _ => rfl

theorem requireContext_together (wanted : Option ContextKind) :
    Together cut host D (requireContext wanted) (requireContext wanted) :=
  .of_quiet (requireContext_silent wanted).quiet

theorem runActionWith_together {file : Nat → Context → String → Run Unit} (depth : Nat)
    (hfile : ∀ n < depth, ∀ ctx path, Together cut ctx.host D (runFile (runAction n) ctx path false)
      (file n ctx path)) :
    ∀ ctx v, Together cut ctx.host D (runAction depth ctx v) (runActionWith file depth ctx v) := by
  induction depth with
  | zero => exact fun _ _ _ => .throw _
  | succ depth ih =>
    have hrun := ih fun n hn => hfile n (Nat.lt_succ_of_lt hn)
    intro ctx v
    cases v with
    | action job =>
      by_cases hinclude : ∃ path, job = .command .includeFile [.string path]
      · obtain ⟨path, rfl⟩ := hinclude
        exact .bind (requireContext_together _) fun _ => .unit (hfile depth (Nat.lt_succ_self depth) ctx path)
      · have hwith : runActionWith file (depth + 1) ctx (.action job) =
            (do requireContext job.context; job.perform (runActionWith file depth) ctx) := by
          rw [runActionWith]
          rintro path rfl
          exact hinclude ⟨path, rfl⟩
        rw [hwith]
        refine .bind (requireContext_together _) fun _ => ?_
        exact (actionCongruence_together hrun ctx).perform job fun path hjob => absurd ⟨path, hjob⟩ hinclude
    | _ => exact .session fun _ => .failAt _ _

theorem runAction_together (depth : Nat) :
    ∀ (D : Path) ctx v, Together cut ctx.host D (runAction depth ctx v) (runAction depth ctx v) := by
  induction depth using Nat.strongRecOn with
  | ind depth ih =>
    intro D ctx v
    have hfile : ∀ n < depth, ∀ ctx path,
        Together cut ctx.host D (runFile (runAction n) ctx path false) (runFile (runAction n) ctx path false) :=
      fun n hn ctx path => runFile_together (ih n hn _) ctx false
    have htogether := runActionWith_together depth hfile ctx v
    rwa [← runAction_eq] at htogether

end VeriScript
