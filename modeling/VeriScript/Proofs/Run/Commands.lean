import VeriScript.Proofs.Run.Actions

/-!
# Commands keep to types

* `performCommand_performs` — a command on arguments of its types, run in its context, gives a value of its type.
* `runActionWith` — running actions, over the way script files are run; `runAction_eq` — what that is for scripts.
* `runActionWith_performs` — an action of a type gives a value of the type.
-/

namespace VeriScript

open Run (Ends ends_bind Gives Performs)

section

variable {allowed : Command → Prop} {safe : Halt → Prop} {I : Scope → Session → Prop} {G : Scope} {w : World}
  {α : Type}

/-! ## Work -/

variable {Q : Scope → α → Prop} {k : Unit → Run α} {s : Session} {τ : Mono} {script : Value}

theorem withWork_performs {work : Work} {x : Run α} (h : Performs safe I G x { w with work := work } Q) :
    Performs safe I G (Run.withWork work x) w fun _ work' => work'.kind = work.kind := by
  refine Run.ends_withWork (Ends.imp h (fun a w' ⟨hkind, G', hG, hI, _⟩ => ?_) (fun halt w' ⟨_, hI, hsafe⟩ => ?_))
  · exact ⟨rfl, G', hG, hI, hkind⟩
  · exact ⟨rfl, hI, hsafe⟩

theorem anticipate_performs {x : Run α} (h : Performs safe I G x w Q) :
    Performs safe I G (Run.anticipate x) w fun _ _ => True := by
  unfold Performs Ends Run.anticipate at *
  cases hx : x w with
  | ok a w' =>
    rw [hx] at h
    obtain ⟨hkind, G', hG, hI, _⟩ := h
    exact ⟨hkind, G', hG, hI, trivial⟩
  | error halt w' =>
    rw [hx] at h
    cases halt with
    | error e =>
      obtain ⟨hkind, ⟨G', hG, hI⟩, _⟩ := h
      exact ⟨hkind, G', hG, hI, trivial⟩
    | _ => exact h

/-- A step that stays in the scope, with nothing to give but the unit value. -/
theorem performs_unit {x : Run Unit} (hx : Performs safe I G x w fun G' _ => G' = G) :
    Performs safe I G (do x; return .unit) w (HasTy allowed · · .unit) :=
  .bind hx fun _ _ _ _ _ hI _ => .pure hI .unit

section
variable (hw : I G w.session)
include hw

theorem closeGoal_performs (hkind : w.work.kind = .proofScript) (goal : Goal) (status : ProofStatus)
    (tactic : Tactic) (cex : Counterexample) :
    Performs safe I G (closeGoal goal status tactic cex) w (HasTy allowed · · .unit) :=
  ⟨hkind.symm, G, .refl G, hw, .unit⟩

/-- In a setup there is a specification under construction. -/
theorem changeDraft_performs (hkind : w.work.kind = .setup) (change : Draft → Draft) :
    Performs safe I G (changeDraft change) w fun G' _ => G' = G := by
  cases hwork : w.work with
  | setup draft =>
    unfold Performs changeDraft
    rw [ends_bind, Run.ends_get, hwork]
    exact ⟨rfl, G, .refl G, hw, rfl⟩
  | topLevel => rw [hwork] at hkind; cases hkind
  | proof goal => rw [hwork] at hkind; cases hkind

variable (hinv : RunInvariant allowed safe I)
include hinv

/-- In a proof script there is a goal at hand, which may be closed. -/
theorem openGoal_performs (hkind : w.work.kind = .proofScript) (tactic : String) {k : Goal → Run α}
    (hk : ∀ goal, Performs safe I G (k goal) w Q) : Performs safe I G (openGoal tactic >>= k) w Q := by
  cases hwork : w.work with
  | proof goal =>
    unfold Performs openGoal
    rw [ends_bind, ends_bind, Run.ends_get, hwork]
    dsimp only
    split
    · exact ⟨by rw [hwork], ⟨G, .refl G, hw⟩, hinv.safe rfl⟩
    · have h := hk goal
      unfold Performs at h
      rwa [hwork] at h
  | topLevel => rw [hwork] at hkind; cases hkind
  | setup draft => rw [hwork] at hkind; cases hkind

/-! ## Sessions and files -/

/-- A change of the session that concerns neither values nor types. -/
theorem editSession_performs {edit : Session → Session}
    (hk : ∀ w', I G w'.session → Performs safe I G (k ()) w' Q)
    (hedit : ∀ s, (edit s).values = s.values ∧ (edit s).types = s.types ∧ (edit s).aliases = s.aliases := by
      exact fun _ => ⟨rfl, rfl, rfl⟩) :
    Performs safe I G ((do Run.setSession (edit (← Run.session))) >>= k) w Q := by
  rw [bind_assoc]
  refine .session_bind rfl ?_
  obtain ⟨hvalues, htypes, haliases⟩ := hedit w.session
  refine .bind (.setSession (.refl G) (hinv.frame _ hw hvalues htypes haliases)) ?_
  rintro _ _ w'' - - hI rfl
  exact hk w'' hI

/-- The same with a text that is written before. -/
theorem writeSession_performs {r : Except Text.Fault String} {edit : String → Session → Session}
    (hk : ∀ w', I G w'.session → Performs safe I G (k ()) w' Q)
    (hedit : ∀ text s, (edit text s).values = s.values ∧ (edit text s).types = s.types ∧
      (edit text s).aliases = s.aliases) :
    Performs safe I G ((do let text ← Run.write r; Run.setSession (edit text (← Run.session))) >>= k) w Q := by
  rw [bind_assoc]
  exact .gives_bind hinv hw (.write r) fun text w' hw' _ _ => editSession_performs hw' hinv hk (hedit text)

theorem writeFile_performs (path text : String) {fault : DiskFault → Run Unit}
    (hfault : ∀ f, Gives w.session (fault f) fun _ => True) :
    Performs safe I G (writeFile path text fault) w fun G' _ => G' = G := by
  unfold writeFile Performs
  rw [ends_bind, Run.ends_get]
  dsimp only
  split
  · exact ⟨rfl, G, .refl G, hw, rfl⟩
  · rename_i f _
    refine (hfault f w rfl).imp (fun _ w' ⟨hprinted, _⟩ => ?_) (fun halt w' ⟨hprinted, hshape⟩ => ?_)
    · rw [hprinted.work_eq, hprinted.session_eq]
      exact ⟨rfl, G, .refl G, hw, rfl⟩
    · rw [hprinted.work_eq, hprinted.session_eq]
      exact ⟨rfl, ⟨G, .refl G, hw⟩, hinv.safe hshape⟩
  · exact ⟨rfl, ⟨G, .refl G, hw⟩, hinv.safe rfl⟩

/-- A step that prints at most, with nothing to give but the unit value. -/
theorem gives_unit {x : Run Unit} (hx : Gives w.session x fun _ => True) :
    Performs safe I G (do x; return .unit) w (HasTy allowed · · .unit) :=
  .gives_bind hinv hw hx fun _ _ hw' _ _ => .pure hw' .unit

theorem showText_performs {ctx : Context} (level : Level) (frame : String → String)
    (r : Except Text.Fault String) :
    Performs safe I G (do ctx.print level (frame (← Run.write r)); return .unit) w (HasTy allowed · · .unit) :=
  .gives_bind hinv hw (.write r) fun _ _ hw' _ _ => gives_unit hw' hinv (.print _ _ _)

end

theorem parseFile_gives (path : String) : Gives s (parseFile path) fun _ => True := by
  intro w hw
  unfold parseFile
  rw [ends_bind, Run.ends_get]
  dsimp only
  split
  · cases parseProgram path _ with
    | ok stmts => exact ⟨.refl w, trivial⟩
    | error e => exact ⟨.refl w, rfl⟩
  · exact ⟨.refl w, rfl⟩
  · exact ⟨.refl w, rfl⟩
  · exact ⟨.refl w, rfl⟩
  · exact ⟨.refl w, rfl⟩

theorem printEnv_gives (ctx : Context) : Gives s (printEnv ctx) fun _ => True := by
  refine .bind .session fun _ _ => .forM (fun name => ?_) _
  split
  · exact .printText _ _ _ _
  · exact .print _ _ _

theorem printHelp_gives (ctx : Context) (key : String) : Gives s (printHelp ctx key) fun _ => True :=
  .bind .session fun _ _ => .print _ _ _

/-! ## Proofs and specifications -/

variable {run : RunAction}

/-- A term that is no condition is no matter of kinds. -/
theorem expectBit_meets (fn : String) (t : Term) :
    Meets (fun f => f.isShape = false) (Value.expectBit fn (.term t)) fun _ => True := by
  show Meets _ (if t.type = .bit then _ else _) _
  split
  · trivial
  · rfl

section
variable (hrun : RunTyped allowed safe I run) (ctx : Context) (hw : I G w.session)
include hrun hw

theorem runSetup_performs {setup : Value} (hsetup : HasTy allowed G setup (.block (.context .setup) τ)) :
    Performs safe I G (runSetup run ctx setup) w fun _ _ => True := by
  unfold runSetup
  refine .bind (withWork_performs (hrun ctx hsetup rfl hw)) fun G' work w' _ _ hI hkind => ?_
  cases work with
  | setup draft => exact .pure hI trivial
  | topLevel => cases hkind
  | proof goal => cases hkind

variable (hinv : RunInvariant allowed safe I)
include hinv

section
variable (hscript : HasTy allowed G script (.block (.context .proofScript) τ)) (t : Term)
include hscript

theorem runProof_performs :
    Performs safe I G (runProof run ctx script t) w fun _ _ => True := by
  unfold runProof
  refine .bind (withWork_performs (hrun ctx hscript rfl hw)) fun G' work w' _ _ hI hkind => ?_
  cases work with
  | proof goal =>
    dsimp only
    split
    · exact .pure hI trivial
    · exact .gives_bind hinv hI (.write _) fun _ _ hI' _ _ => .failAt hinv hI' rfl
  | topLevel => cases hkind
  | setup draft => cases hkind

theorem prove_performs :
    Performs safe I G (prove run ctx script (.term t)) w (HasTy allowed · · (.con "ProofResult" [])) := by
  unfold prove
  refine .gives_bind hinv hw (.orFailAt (expectBit_meets _ t)) fun t w1 hw1 _ _ => ?_
  refine .bind (runProof_performs hrun ctx hw1 hinv hscript t) fun G' r w2 hG _ hI _ => ?_
  exact writeSession_performs hI hinv (fun w3 hI' => .pure hI' .proofResult) fun _ _ => ⟨rfl, rfl, rfl⟩

theorem provePrint_performs :
    Performs safe I G (provePrint run ctx script (.term t)) w (HasTy allowed · · (.con "Theorem" [])) := by
  unfold provePrint
  refine .gives_bind hinv hw (.orFailAt (expectBit_meets _ t)) fun t w1 hw1 _ _ => ?_
  refine .bind (runProof_performs hrun ctx hw1 hinv hscript t) fun G' r w2 hG _ hI _ => ?_
  dsimp only
  split
  · exact .failAt hinv hI rfl
  · exact writeSession_performs hI hinv (fun w3 hI' => .pure hI' .proved) fun _ _ => ⟨rfl, rfl, rfl⟩

end

theorem verifySpec_performs {setup : Value} {σ : Mono} (name : String)
    (hsetup : HasTy allowed G setup (.block (.context .setup) σ))
    (hscript : HasTy allowed G script (.block (.context .proofScript) τ)) :
    Performs safe I G (verifySpec run ctx (.string name) setup script) w (HasTy allowed · · (.con "Spec" [])) := by
  refine .ok_bind (.bind (runSetup_performs hrun ctx hw hsetup) fun G1 draft w1 hG1 _ hI1 _ => ?_)
  refine .bind (runProof_performs hrun ctx hI1 hinv (hscript.mono hG1) draft.goal) fun G2 r w2 hG2 _ hI2 _ => ?_
  dsimp only
  split
  · exact .failAt hinv hI2 rfl
  · refine writeSession_performs hI2 hinv (fun w3 hI => ?_) fun _ _ => ⟨rfl, rfl, rfl⟩
    exact .gives_bind hinv hI (.print _ _ _) fun _ w4 hI' _ _ => .pure hI' .spec

theorem assumeSpec_performs {setup : Value} {σ : Mono} (name : String)
    (hsetup : HasTy allowed G setup (.block (.context .setup) σ)) :
    Performs safe I G (assumeSpec run ctx (.string name) setup) w (HasTy allowed · · (.con "Spec" [])) := by
  refine .ok_bind (.bind (runSetup_performs hrun ctx hw hsetup) fun G1 draft w1 hG1 _ hI1 _ => ?_)
  refine writeSession_performs hI1 hinv (fun w2 hI => ?_) fun _ _ => ⟨rfl, rfl, rfl⟩
  exact .gives_bind hinv hI (.print _ _ _) fun _ w3 hI' _ _ => .pure hI' .spec

/-! ## Commands -/

theorem performCommand_performs {c : Command} {params : List Mono} {args : List Value} (h : c.Typed params τ)
    (hfile : c ≠ .includeFile) (hargs : HasTys allowed G args params) (hkind : w.work.kind = c.context) :
    Performs safe I G (performCommand run ctx c args) w (HasTy allowed · · τ) := by
  cases h with
  | print =>
    obtain ⟨v, rfl, -⟩ := hargs.one_inv
    cases v with
    | string s => exact gives_unit hw hinv (.print _ _ _)
    | _ =>
      exact .session_bind rfl (showText_performs hw hinv _ id _)
  | env =>
    obtain rfl := hargs.nil_inv
    exact gives_unit hw hinv (printEnv_gives ctx)
  | help =>
    obtain ⟨v, rfl, hv⟩ := hargs.one_inv
    obtain ⟨key, rfl⟩ := hv.string_inv
    exact .ok_bind (gives_unit hw hinv (printHelp_gives ctx key))
  | includeFile => exact absurd rfl hfile
  | @enable life =>
    obtain rfl := hargs.nil_inv
    refine .session_bind rfl ?_
    obtain ⟨G', hG, hI⟩ := hinv.enable life hw
    exact .bind (.setSession hG hI) fun _ _ _ _ _ hI' _ => .pure hI' .unit
  | setAscii =>
    obtain ⟨v, rfl, hv⟩ := hargs.one_inv
    obtain ⟨b, rfl⟩ := hv.bool_inv
    exact .ok_bind (editSession_performs hw hinv fun _ hI => .pure hI .unit)
  | setBase =>
    obtain ⟨v, rfl, hv⟩ := hargs.one_inv
    obtain ⟨n, rfl⟩ := hv.int_inv
    refine .ok_bind ?_
    dsimp only
    split
    · exact .failAt hinv hw rfl
    · exact editSession_performs hw hinv fun _ hI => .pure hI .unit
  | setColor =>
    obtain ⟨v, rfl, hv⟩ := hargs.one_inv
    obtain ⟨b, rfl⟩ := hv.bool_inv
    exact .ok_bind (editSession_performs hw hinv fun _ hI => .pure hI .unit)
  | fails =>
    obtain ⟨action, rfl, haction⟩ := hargs.one_inv
    refine .bind (anticipate_performs (hrun ctx haction hkind hw)) fun G' e? w' _ _ hI _ => ?_
    cases e? with
    | some e =>
      exact .gives_bind hinv hI (.print _ _ _) fun _ w'' hI' _ _ => gives_unit hI' hinv (.print _ _ _)
    | none => exact .failAt hinv hI rfl
  | time =>
    obtain ⟨action, rfl, haction⟩ := hargs.one_inv
    refine .bind (hrun ctx haction hkind hw) fun G' v w' _ _ hI hv => ?_
    exact .gives_bind hinv hI (.print _ _ _) fun _ w'' hI' _ _ => .pure hI' hv
  | exit =>
    obtain ⟨v, rfl, hv⟩ := hargs.one_inv
    obtain ⟨n, rfl⟩ := hv.int_inv
    exact .ok_bind (.throw hw (hinv.safe rfl))
  | dumpFile =>
    obtain ⟨v, rfl, hv⟩ := hargs.one_inv
    obtain ⟨path, rfl⟩ := hv.string_inv
    refine .ok_bind (.gives_bind hinv hw (parseFile_gives path) fun stmts w' hw' _ _ => ?_)
    exact gives_unit hw' hinv (.forM (fun _ => .printText _ _ id _) stmts)
  | freshSymbolic =>
    obtain ⟨u, v, rfl, hu, hv⟩ := hargs.two_inv
    obtain ⟨name, rfl⟩ := hu.string_inv
    obtain ⟨t, rfl⟩ := hv.termType_inv
    exact .ok_bind (.ok_bind (.pure hw .term))
  | printTerm =>
    obtain ⟨v, rfl, hv⟩ := hargs.one_inv
    obtain ⟨t, rfl⟩ := hv.term_inv
    exact .ok_bind (.session_bind rfl (showText_performs hw hinv _ id _))
  | printType =>
    obtain ⟨v, rfl, hv⟩ := hargs.one_inv
    obtain ⟨t, rfl⟩ := hv.term_inv
    exact .ok_bind (gives_unit hw hinv (.print _ _ _))
  | define =>
    obtain ⟨u, v, rfl, hu, hv⟩ := hargs.two_inv
    obtain ⟨name, rfl⟩ := hu.string_inv
    obtain ⟨t, rfl⟩ := hv.term_inv
    refine .ok_bind (.ok_bind (.session_bind rfl ?_))
    exact .bind (.setSession (.refl G) (hinv.frame _ hw rfl rfl rfl)) fun _ _ _ _ _ hI _ => .pure hI .term
  | prove =>
    obtain ⟨script, v, rfl, hscript, hv⟩ := hargs.two_inv
    obtain ⟨t, rfl⟩ := hv.term_inv
    exact prove_performs hrun ctx hw hinv hscript t
  | provePrint =>
    obtain ⟨script, v, rfl, hscript, hv⟩ := hargs.two_inv
    obtain ⟨t, rfl⟩ := hv.term_inv
    exact provePrint_performs hrun ctx hw hinv hscript t
  | verifySpec =>
    obtain ⟨u, setup, script, rfl, hu, hsetup, hscript⟩ := hargs.three_inv
    obtain ⟨name, rfl⟩ := hu.string_inv
    exact verifySpec_performs hrun ctx hw hinv name hsetup hscript
  | assumeSpec =>
    obtain ⟨u, setup, rfl, hu, hsetup⟩ := hargs.two_inv
    obtain ⟨name, rfl⟩ := hu.string_inv
    exact assumeSpec_performs hrun ctx hw hinv name hsetup
  | summarize =>
    obtain rfl := hargs.nil_inv
    exact .session_bind rfl (gives_unit hw hinv (.print _ _ _))
  | writeCoq =>
    obtain ⟨u, v, f, rfl, hu, hv, hf⟩ := hargs.three_inv
    obtain ⟨name, rfl⟩ := hu.string_inv
    obtain ⟨t, rfl⟩ := hv.term_inv
    obtain ⟨path, rfl⟩ := hf.string_inv
    refine performs_unit (.ok_bind (.ok_bind (.ok_bind (.gives_bind hinv hw (.write _) fun text w' hw' _ _ => ?_))))
    exact writeFile_performs hw' hinv _ _ fun f => .bind (.print _ _ _) fun _ _ => .fail rfl
  | trivial =>
    obtain rfl := hargs.nil_inv
    refine openGoal_performs hw hinv hkind _ fun goal => ?_
    split
    · exact closeGoal_performs hw hkind _ _ _ _
    · exact .gives_bind hinv hw (.write _) fun _ _ hw' _ _ => .failAt hinv hw' rfl
  | concede =>
    obtain ⟨v, rfl, hv⟩ := hargs.one_inv
    obtain ⟨reason, rfl⟩ := hv.string_inv
    refine openGoal_performs hw hinv hkind _ fun goal => ?_
    refine .ok_bind (.gives_bind hinv hw (.print _ _ _) fun _ w' hw' hkind' _ => ?_)
    exact closeGoal_performs hw' (hkind'.trans hkind) _ _ _ _
  | assumeValid =>
    obtain rfl := hargs.nil_inv
    exact openGoal_performs hw hinv hkind _ fun goal => closeGoal_performs hw hkind _ _ _ _
  | goalEval =>
    obtain rfl := hargs.nil_inv
    refine openGoal_performs hw hinv hkind _ fun goal => ?_
    exact performs_unit (.setWork hw hkind.symm)
  | printGoal =>
    obtain rfl := hargs.nil_inv
    refine openGoal_performs hw hinv hkind _ fun goal => .gives_bind hinv hw .session fun s w' hw' _ _ => ?_
    exact showText_performs hw' hinv _ ("Goal: " ++ ·) _
  | quickcheck =>
    obtain ⟨v, rfl, hv⟩ := hargs.one_inv
    obtain ⟨n, rfl⟩ := hv.int_inv
    refine openGoal_performs hw hinv hkind _ fun goal => .ok_bind (.bind (.draw hw) ?_)
    rintro _ draws w1 - hkind1 hw1 rfl
    refine .gives_bind hinv hw1 (.orTermError (Q := fun _ => True) fun _ => trivial) fun outcome w2 hw2 hkind2 _ => ?_
    cases outcome with
    | inr assignment | inl tried =>
      refine .gives_bind hinv hw2 (.print _ _ _) fun _ w3 hw3 hkind3 _ => ?_
      exact closeGoal_performs hw3 (hkind3.trans (hkind2.trans (hkind1.trans hkind))) _ _ _ _
  | specVar =>
    obtain ⟨u, v, rfl, hu, hv⟩ := hargs.two_inv
    obtain ⟨name, rfl⟩ := hu.string_inv
    obtain ⟨t, rfl⟩ := hv.termType_inv
    exact .ok_bind (.ok_bind (.bind (changeDraft_performs hw hkind _) fun _ _ _ _ _ hI _ => .pure hI .term))
  | specPre | specPost =>
    obtain ⟨v, rfl, hv⟩ := hargs.one_inv
    obtain ⟨t, rfl⟩ := hv.term_inv
    refine .gives_bind hinv hw (.orFailAt (expectBit_meets _ t)) fun t w' hw' hkind' _ => ?_
    exact performs_unit (changeDraft_performs hw' (hkind'.trans hkind) _)

end

/-! ## Actions -/

/-- Run an action as `runAction` does, with `file` for what running a script file does. -/
def runActionWith (file : Nat → Context → String → Run Unit) : Nat → RunAction
  | 0, _, _ => throw .overflow
  | depth + 1, ctx, v =>
    match v with
    | .action (.command .includeFile [.string path]) => do
      requireContext (some .topLevel)
      file depth ctx path
      return .unit
    | .action job => do
      requireContext job.context
      job.perform (runActionWith file depth) ctx
    | v => do Run.failAt (.notAction (v.shown (← Run.session).display)) none

theorem runAction_eq (depth : Nat) :
    runAction depth = runActionWith (fun depth ctx path => runFile (runAction depth) ctx path false) depth := by
  induction depth with
  | zero => rfl
  | succ depth ih =>
    funext ctx v
    unfold runActionWith
    split
    · rfl
    · rw [← ih]
      rfl
    · rename_i hfile hjob
      unfold runAction
      split
      · exact absurd rfl (hjob _)
      · rfl

theorem requireContext_performs {wanted : Option ContextKind} (hkind : ∀ kind ∈ wanted, kind = w.work.kind)
    (hk : Performs safe I G (k ()) w Q) : Performs safe I G (requireContext wanted >>= k) w Q := by
  unfold Performs
  rw [ends_bind]
  exact Run.ends_requireContext (fun _ => hk) fun kind hmem hne => absurd (hkind kind hmem) hne

theorem ContextKind.name_injective {k k' : ContextKind} (h : k.name = k'.name) : k = k' := by
  cases k <;> cases k' <;> simp_all [ContextKind.name]

theorem runActionWith_performs (hinv : RunInvariant allowed safe I) {file : Nat → Context → String → Run Unit}
    (hfile : allowed .includeFile → ∀ depth ctx path {G : Scope} {w : World}, w.work.kind = .topLevel →
      I G w.session → Performs safe I G (file depth ctx path) w fun _ _ => True) (depth : Nat) :
    RunTyped allowed safe I (runActionWith file depth) := by
  induction depth with
  | zero => exact fun _ _ _ hw => .throw hw (hinv.safe rfl)
  | succ depth ih =>
    intro G v τ kind xs w ctx hv hkind hw
    obtain ⟨job, rfl, hjob⟩ := hv.action_inv
    cases hjob with
    | block scope stmts =>
      refine requireContext_performs (by simp [Job.context]) ?_
      exact runBody_performs hinv ih ctx _ stmts scope hkind hw
    | yield result =>
      refine requireContext_performs (by simp [Job.context]) ?_
      exact .pure hw result
    | forEach items fn result =>
      subst result
      refine requireContext_performs (by simp [Job.context]) ?_
      exact .bind (runEach_performs hinv ih ctx _ items fn hkind hw) fun G' vs w' _ _ hI hvs =>
        .pure hI (.array hvs)
    | @command c args params typed may given context =>
      have hc : c.context = w.work.kind := by
        simp only [Mono.con.injEq] at context
        exact (ContextKind.name_injective context.1).symm.trans hkind.symm
      have hrequire : ∀ kind ∈ (Job.command c args).context, kind = w.work.kind := by
        rintro _ ⟨⟩
        exact hc
      by_cases hinclude : c = .includeFile
      · subst hinclude
        cases typed
        obtain ⟨arg, rfl, harg⟩ := given.one_inv
        obtain ⟨path, rfl⟩ := harg.string_inv
        refine requireContext_performs hrequire ?_
        exact .bind (hfile may depth ctx path hc.symm hw) fun G' _ w' _ _ hI _ => .pure hI .unit
      · rw [runActionWith]
        · exact requireContext_performs hrequire
            (performCommand_performs ih ctx hw hinv typed hinclude given hc.symm)
        · rintro path ⟨⟩
          exact hinclude rfl

end

end VeriScript
