import VeriScript.Proofs.Run.Evaluation
import VeriScript.Proofs.Term.Simplification

/-!
# What the status of a goal means

A proof script works on a goal in any way that the tactics allow: it rewrites the goal, tests it and closes
it.  What it says about the goal it is left with carries over to the goal it started from.

* `Term.Unfalsified` — no assignment makes a condition false.
* `Counterexample.Refutes` — no assignment with the values of the counterexample makes a condition true.
* `Goal.Sound` — the invariant of proof scripts: the goal at hand simplifies the one stated, and its status
  is true of the one stated.
* `runAction_sound` — every action in a proof script keeps it.
-/

namespace VeriScript

variable {Γ : String → TermType} {t : Term} {a : Assignment}

/-- No assignment of the right types makes the condition false. -/
def Term.Unfalsified (Γ : String → TermType) (t : Term) : Prop :=
  ∀ a : Assignment, a.Respects Γ → t.eval a ≠ .ok (.bit false)

/-- Every name has one value, of the type that it has in the condition; whatever the values of the other
names are, the condition does not hold. -/
structure Counterexample.Refutes (Γ : String → TermType) (cex : Counterexample) (t : Term) : Prop where
  nodup : (cex.map (·.1)).Nodup
  typed : ∀ e ∈ cex, (e.1, e.2.type) ∈ t.vars
  fails : ∀ a : Assignment, a.Respects Γ → (∀ e ∈ cex, Table.get? a e.1 = some e.2) → t.eval a ≠ .ok (.bit true)

/-! ## Tests -/

/-- An assignment that tests may be made on: every variable has a scalar, and all scalars have the types of
their names. -/
structure Assignment.TestsOf (Γ : String → TermType) (vars : List (String × TermType)) (a : Assignment) :
    Prop where
  typed : ∀ e ∈ a, e.2.type = Γ e.1
  covers : ∀ x ∈ vars, ∃ v, (x.1, v) ∈ a

theorem Assignment.TestsOf.nil : Assignment.TestsOf Γ [] [] := ⟨nofun, nofun⟩

section
variable {vars : List (String × TermType)} (hvars : ∀ x ∈ vars, x.2 = Γ x.1)
include hvars

theorem assignByType_tests (int : Int) (bit : Bool) : (assignByType vars int bit).TestsOf Γ vars := by
  constructor
  · intro e he
    simp only [assignByType, List.mem_reverse, List.mem_map] at he
    obtain ⟨x, hx, rfl⟩ := he
    rw [← hvars x hx]
    dsimp only
    split <;> simp_all [Scalar.type]
  · intro x hx
    exact ⟨_, List.mem_reverse.2 (List.mem_map.2 ⟨x, hx, rfl⟩)⟩

omit hvars in
theorem randomScalar_type (type : TermType) (draw : Nat) : (randomScalar type draw).type = type := by
  cases type <;> rfl

theorem randomAssignment_tests {draws : Nat → Nat} {seen : List (String × TermType)} {done : Assignment} (first : Nat)
    (hdone : done.TestsOf Γ seen) : (randomAssignment draws vars first done).TestsOf Γ (vars ++ seen) := by
  induction vars generalizing seen done first with
  | nil => exact hdone
  | cons x vars ih =>
    obtain ⟨name, type⟩ := x
    have hnext : Assignment.TestsOf Γ ((name, type) :: seen)
        ((name, randomScalar type (draws first)) :: done) := by
      constructor
      · intro e he
        obtain rfl | he := List.mem_cons.1 he
        · rw [randomScalar_type]
          exact hvars _ List.mem_cons_self
        · exact hdone.typed e he
      · intro x hx
        obtain rfl | hx := List.mem_cons.1 hx
        · exact ⟨_, List.mem_cons_self⟩
        · obtain ⟨v, hv⟩ := hdone.covers x hx
          exact ⟨v, List.mem_cons_of_mem _ hv⟩
    have hrest := ih (fun x hx => hvars x (List.mem_cons_of_mem _ hx)) (first + 1) hnext
    refine ⟨hrest.typed, fun x hx => hrest.covers x ?_⟩
    simp only [List.cons_append, List.mem_cons, List.mem_append] at hx ⊢
    exact hx.elim (fun h => .inr (.inl h)) (.imp id .inr)

theorem randomAssignments_tests (draws : Nat → Nat) (count first : Nat) :
    ∀ a ∈ randomAssignments draws vars count first, a.TestsOf Γ vars := by
  induction count generalizing first with
  | zero => intro a ha; cases ha
  | succ count ih =>
    intro a ha
    simp only [randomAssignments, List.mem_cons] at ha
    obtain rfl | ha := ha
    · simpa using randomAssignment_tests hvars first .nil
    · exact ih _ a ha

theorem testAssignments_tests (draws : Nat → Nat) (count : Int) :
    ∀ a ∈ testAssignments draws vars count, a.TestsOf Γ vars := by
  intro a ha
  unfold testAssignments at ha
  split at ha
  · rename_i hempty
    obtain rfl := List.mem_singleton.1 ha
    rw [List.isEmpty_iff.1 hempty]
    exact .nil
  · obtain hedge | hrandom := List.mem_append.1 ha
    · simp only [edgeAssignments, List.mem_cons, List.not_mem_nil, or_false] at hedge
      obtain rfl | rfl | rfl := hedge <;> exact assignByType_tests hvars _ _
    · exact randomAssignments_tests hvars draws _ _ a hrandom

end

theorem Term.firstFailure_fails {tried : Nat} {as : List Assignment}
    (h : t.firstFailure tried as = .ok (.inr a)) : a ∈ as ∧ ∃ v, t.eval a = .ok v ∧ v.isTrue = false := by
  induction as generalizing tried with
  | nil => cases h
  | cons b as ih =>
    simp only [firstFailure, bind, Except.bind] at h
    split at h
    · cases h
    · rename_i v hv
      split at h
      · obtain ⟨ha, hfails⟩ := ih h
        exact ⟨List.mem_cons_of_mem _ ha, hfails⟩
      · rename_i hfalse
        cases h
        exact ⟨List.mem_cons_self, v, hv, by simpa using hfalse⟩

/-- The values that an assignment gives to the variables of a condition are a counterexample to it if the
condition fails under the assignment. -/
theorem refutes_of_test (ht : t.WellTyped Γ) {v : Scalar} (ha : a.TestsOf Γ t.vars) (hv : t.eval a = .ok v)
    (hfalse : v.isTrue = false) :
    Counterexample.Refutes Γ (t.vars.filterMap fun x => (Table.get? a x.1).map fun value => (x.1, value)) t := by
  have hvars := ht.vars_typed
  refine ⟨?_, fun e he => ?_, fun b hb hagree htrue => ?_⟩
  · rw [List.Nodup, List.pairwise_map, List.pairwise_filterMap]
    refine t.vars_nodup.imp_of_mem fun {x y} hx hy hne e he e' he' heq => hne ?_
    obtain ⟨_, -, rfl⟩ := Option.map_eq_some_iff.1 he
    obtain ⟨_, -, rfl⟩ := Option.map_eq_some_iff.1 he'
    have htypes : x.2 = y.2 := by rw [hvars x hx, hvars y hy]; exact congrArg Γ heq
    exact Prod.ext heq htypes
  · obtain ⟨x, hx, he⟩ := List.mem_filterMap.1 he
    obtain ⟨value, hvalue, rfl⟩ := Option.map_eq_some_iff.1 he
    have : value.type = x.2 := (ha.typed _ (Table.mem_of_get? hvalue)).trans (hvars x hx).symm
    simpa [this] using hx
  · -- the other assignment agrees with the one tested on all variables
    have hsame : t.eval b = t.eval a := by
      refine Term.eval_congr fun x hx => ?_
      obtain ⟨_, hmem⟩ := ha.covers x hx
      obtain ⟨value, hvalue⟩ := Table.exists_get?_of_mem hmem
      rw [hvalue]
      exact hagree (x.1, value) (List.mem_filterMap.2 ⟨x, hx, by simp [hvalue]⟩)
    rw [hsame, hv] at htrue
    cases htrue
    cases hfalse

/-! ## The invariant of proof scripts -/

/-- What a proof script keeps true of the goal at hand: it simplifies the goal `t` that was stated, and its
status is true of `t`. -/
structure Goal.Sound (Γ : String → TermType) (t : Term) (g : Goal) : Prop where
  stated : t.WellTyped Γ
  simplified : Term.Simplifies t g.term
  valid : g.status = some .valid → t.Unfalsified Γ
  invalid : g.status = some .invalid → g.counterexample.Refutes Γ t
  not_verified : g.status ≠ some .verified

/-- The work at hand is a sound goal. -/
def Work.SoundGoal (Γ : String → TermType) (t : Term) : Work → Prop
  | .proof g => g.Sound Γ t
  | _ => False

namespace Goal.Sound

variable {g : Goal}

theorem start (h : t.WellTyped Γ) : (Goal.start t).Sound Γ t :=
  ⟨h, .refl h.typed, nofun, nofun, nofun⟩

/-- Closing a goal keeps the invariant if the new status is true of the goal that was stated. -/
theorem close (h : g.Sound Γ t) {status : ProofStatus} (tactic : Tactic) (cex : Counterexample)
    (hvalid : status = .valid → t.Unfalsified Γ) (hinvalid : status = .invalid → cex.Refutes Γ t)
    (hverified : status ≠ .verified) : (g.close status tactic cex).Sound Γ t :=
  ⟨h.stated, h.simplified, fun hs => hvalid (Option.some.inj hs), fun hs => hinvalid (Option.some.inj hs),
    fun hs => hverified (Option.some.inj hs)⟩

theorem simplify (h : g.Sound Γ t) (hopen : g.status = none) :
    Goal.Sound Γ t { g with term := g.term.simplify } :=
  ⟨h.stated, h.simplified.trans (Term.simplifies_simplify h.simplified.typed), by simp [hopen], by simp [hopen],
    by simp [hopen]⟩

/-- A goal that simplifies to true is never false. -/
theorem unfalsified {type : TermType} (h : g.Sound Γ t) (htrue : g.term.simplify = .const type (.bit true)) :
    t.Unfalsified Γ := by
  intro a ha hfalse
  have hgoal := h.simplified.trans (Term.simplifies_simplify h.simplified.typed)
  have := hgoal.eval_eq (ha.fits h.stated) hfalse
  rw [htrue] at this
  cases this

/-- A counterexample to the goal at hand is one to the goal that was stated. -/
theorem refutes (h : g.Sound Γ t) {cex : Counterexample} (hcex : cex.Refutes Γ g.term) : cex.Refutes Γ t := by
  refine ⟨hcex.nodup, fun e he => ?_, fun a ha hagree htrue => ?_⟩
  · exact Term.mem_vars.2 (h.simplified.vars_subset (Term.mem_vars.1 (hcex.typed e he)))
  · exact hcex.fails a ha hagree (h.simplified.eval_eq (ha.fits h.stated) htrue)

end Goal.Sound

/-! ## Tactics -/

open Run (Ends ends_bind)

section
variable {w : World}

theorem ends_openGoal {tactic : String} {Q : Goal → World → Prop} (hw : w.work.SoundGoal Γ t)
    (hQ : ∀ g, g.Sound Γ t → g.status = none → Q g w) : Ends (openGoal tactic) w Q (fun _ _ => True) := by
  unfold openGoal
  rw [ends_bind, Run.ends_get]
  cases hwork : w.work with
  | proof g =>
    rw [hwork] at hw
    by_cases hopen : g.status.isSome
    · simp [hopen]
    · simpa [hopen] using hQ g hw (by simpa using hopen)
  | _ => exact trivial

theorem closeGoal_sound {g : Goal} {status : ProofStatus} {tactic : Tactic} {cex : Counterexample}
    (hg : (g.close status tactic cex).Sound Γ t) :
    Ends (closeGoal g status tactic cex) w (fun _ w' => w'.work.SoundGoal Γ t) (fun _ _ => True) :=
  hg

theorem proveTrivial_sound (hw : w.work.SoundGoal Γ t) :
    Ends proveTrivial w (fun _ w' => w'.work.SoundGoal Γ t) (fun _ _ => True) := by
  unfold proveTrivial
  rw [ends_bind]
  refine ends_openGoal hw fun g hg _ => ?_
  split
  · rename_i htrue
    exact closeGoal_sound (hg.close _ _ (fun _ => hg.unfalsified htrue) nofun nofun)
  · exact ends_bind.2 (Run.ends_write (fun _ _ => trivial) fun _ _ => trivial)

theorem quickcheck_sound (ctx : Context) (count : Value) (hw : w.work.SoundGoal Γ t) :
    Ends (quickcheck ctx count) w (fun _ w' => w'.work.SoundGoal Γ t) (fun _ _ => True) := by
  unfold quickcheck
  rw [ends_bind]
  refine ends_openGoal hw fun g hg _ => ?_
  rw [ends_bind]
  refine Run.ends_orFail (fun n _ => ?_) (fun _ _ => trivial)
  rw [ends_bind]
  show Ends _ { w with draws := _ } _ _
  refine ends_bind.2 (Run.ends_orTermError (fun outcome houtcome => ?_) (fun _ _ => trivial))
  split
  · rename_i a
    obtain ⟨ha, v, hv, hfalse⟩ := Term.firstFailure_fails houtcome
    have hwell := hg.simplified.wellTyped hg.stated
    have hcex := refutes_of_test hwell (testAssignments_tests hwell.vars_typed _ n a ha) hv hfalse
    rw [ends_bind]
    refine Run.ends_print fun _ _ => ?_
    exact closeGoal_sound (hg.close _ _ nofun (fun _ => hg.refutes hcex) nofun)
  · rw [ends_bind]
    refine Run.ends_print fun _ _ => ?_
    exact closeGoal_sound (hg.close _ _ nofun nofun nofun)

/-- What a proof script may do: any tactic keeps the invariant, and no other command runs there. -/
theorem performCommand_sound (run : RunAction) (ctx : Context) (c : Command) (args : List Value)
    (hw : w.work.SoundGoal Γ t) (hkind : c.context = w.work.kind) :
    Ends (performCommand run ctx c args) w (fun _ w' => w'.work.SoundGoal Γ t) (fun _ _ => True) := by
  have hproof : c.context = .proofScript := by
    cases hwork : w.work <;> simp_all [Work.SoundGoal, Work.kind]
  cases c <;> try cases hproof
  case trivial =>
    cases args with
    | nil => exact proveTrivial_sound hw
    | cons => exact trivial
  case concede =>
    match args with
    | [reason] =>
      refine ends_bind.2 (ends_openGoal hw fun g hg _ => ?_)
      refine ends_bind.2 (Run.ends_orFail (fun s _ => ?_) (fun _ _ => trivial))
      refine ends_bind.2 (Run.ends_print fun _ _ => ?_)
      exact closeGoal_sound (hg.close _ _ nofun nofun nofun)
    | [] | _ :: _ :: _ => exact trivial
  case assumeValid =>
    cases args with
    | nil =>
      refine ends_bind.2 (ends_openGoal hw fun g hg _ => ?_)
      exact closeGoal_sound (hg.close _ _ nofun nofun nofun)
    | cons => exact trivial
  case goalEval =>
    cases args with
    | nil => exact ends_bind.2 (ends_openGoal hw fun g hg hopen => hg.simplify hopen)
    | cons => exact trivial
  case printGoal =>
    cases args with
    | nil =>
      refine ends_bind.2 (ends_openGoal hw fun g hg _ => ?_)
      rw [ends_bind, Run.ends_session, ends_bind]
      refine Run.ends_write (fun _ _ => ?_) (fun _ _ => trivial)
      refine ends_bind.2 (Run.ends_print fun w' hprinted => ?_)
      rwa [Run.ends_pure, hprinted.work_eq]
    | cons => exact trivial
  case quickcheck =>
    match args with
    | [count] => exact quickcheck_sound ctx count hw
    | [] | _ :: _ :: _ => exact trivial

end

theorem runAction_sound (depth : Nat) (ctx : Context) (v : Value) :
    Run.Keeps (fun w => w.work.SoundGoal Γ t) (runAction depth ctx v) :=
  runAction_keeps (fun _ ctx c args _ hw hkind => performCommand_sound _ ctx c args hw hkind) depth ctx v

theorem ends_runProof (depth : Nat) (ctx : Context) (script : Value) (w : World) (ht : t.WellTyped Γ) :
    Ends (runProof (runAction depth) ctx script t) w
      (fun r _ => r.1.Sound Γ t ∧ r.1.status = some r.2) (fun _ _ => True) := by
  unfold runProof
  rw [ends_bind]
  refine Run.ends_withWork ?_
  have hstart : Work.SoundGoal Γ t (.proof (.start t)) := Goal.Sound.start ht
  refine (runAction_sound depth ctx script _ hstart).imp (fun _ w' hw' => ?_) (fun _ _ _ => trivial)
  dsimp only at hw'
  cases hwork : w'.work with
  | proof g =>
    rw [hwork] at hw'
    dsimp only
    cases hstatus : g.status with
    | some status => exact ⟨hw', hstatus⟩
    | none => exact ends_bind.2 (Run.ends_write (fun _ _ => trivial) fun _ _ => trivial)
  | _ => exact trivial

/-- The status that a proof script ends with is true of the goal it was given, whatever the script and whatever random
numbers its tests draw. -/
theorem runProof_status_sound {depth : Nat} {ctx : Context} {script : Value} {w w' : World} {g : Goal}
    {status : ProofStatus} (ht : t.WellTyped Γ)
    (h : runProof (runAction depth) ctx script t w = .ok (g, status) w') :
    (status = .valid → t.Unfalsified Γ) ∧ (status = .invalid → g.counterexample.Refutes Γ t) := by
  obtain ⟨hg, hstatus⟩ := (ends_runProof depth ctx script w ht).of_ok h
  exact ⟨fun hs => hg.valid (hs ▸ hstatus), fun hs => hg.invalid (hs ▸ hstatus)⟩

/-- Testing that a number is below two finds the number that is drawn. -/
theorem runProof_below_two :
    let w := { World.blank with draws := fun _ => 1500 }
    ∃ g w', runProof perform .standard (.action (.command .quickcheck [.int 4]))
        (.binary .bit .lt (.var .integer "x") (.ofInt 2)) w = .ok (g, .invalid) w' ∧
      g.counterexample = [("x", .int 500)] ∧
      g.counterexample.Refutes (fun _ => .integer) (.binary .bit .lt (.var .integer "x") (.ofInt 2)) := by
  refine ⟨_, _, rfl, rfl, (@runProof_status_sound (fun _ => .integer) _ Context.standard.host.actions .standard
    (.action (.command .quickcheck [.int 4])) { World.blank with draws := fun _ => 1500 } _ _ _ ?_ rfl).2 rfl⟩
  simp [Term.WellTyped, Term.type, Scalar.type, BinaryTermOp.operandType?, BinaryTermOp.resultType]

end VeriScript
