import VeriScript.Proofs.Goal.Status

/-!
# What a verified specification promises

The conditions of a specification are joined from left to right, and a constant gives way to the condition
behind it.  A precondition that gives way makes the goal harder; a postcondition that gives way is not proved.

* `givenUp` — the conditions that give way.
* `conjunction_true_iff` — all conditions hold if and only if their conjunction holds and no condition that
  was given up is false.
* `Draft.Bits`, `runSetup_bits` — a setup collects conditions only.
* `verifySpec_verified_iff` — what has been verified holds, as far as it was not given up.
-/

namespace VeriScript

variable {Γ : String → TermType} {a : Assignment}

/-! ## Conjunctions -/

/-- The conditions that are lost when conditions are joined: constants with no other term before them and a
condition behind them. -/
def givenUp : List Term → List Term
  | c :: d :: rest => if c.isConst then c :: givenUp (d :: rest) else []
  | _ => []

/-- The term is a condition that is true or false under the assignment. -/
def Term.Decided (a : Assignment) (t : Term) : Prop :=
  ∃ b, t.eval a = .ok (.bit b)

theorem givenUp_of_not_isConst {c : Term} (h : ¬ c.isConst) (rest : List Term) : givenUp (c :: rest) = [] := by
  cases rest <;> simp [givenUp, h]

variable {acc : Term} {t : Term} {conditions : List Term} {w : World}

theorem conjoin_of_isConst (h : acc.isConst) (next : Term) : conjoin acc next = next := by
  cases acc <;> first | rfl | cases h

theorem conjoin_of_not_isConst (h : ¬ acc.isConst) (next : Term) : conjoin acc next = .binary .bit .and acc next := by
  cases acc <;> first | rfl | exact absurd rfl h

theorem eval_and {left right : Term} {x y : Bool} (hx : left.eval a = .ok (.bit x)) (hy : right.eval a = .ok (.bit y)) :
    (Term.binary .bit .and left right).eval a = .ok (.bit (x && y)) :=
  Term.eval_binary_ok.2 ⟨_, _, hx, hy, by cases x <;> rfl⟩

/-- A constant condition is true unless it is the constant false. -/
theorem eval_true_of_isConst (ht : t.Decided a) (hconst : t.isConst) :
    t.eval a = .ok (.bit true) ↔ ¬ t.isBit false := by
  obtain ⟨b, hb⟩ := ht
  cases t with
  | const type value =>
    cases hb
    cases b <;> simp [Term.eval, Term.isBit]
  | _ => cases hconst

theorem conjoin_decided {acc next : Term} (hacc : acc.Decided a) (hnext : next.Decided a) :
    (conjoin acc next).Decided a := by
  by_cases hconst : acc.isConst
  · rwa [conjoin_of_isConst hconst]
  · obtain ⟨x, hx⟩ := hacc
    obtain ⟨y, hy⟩ := hnext
    rw [conjoin_of_not_isConst hconst]
    exact ⟨_, eval_and hx hy⟩

theorem conjunction_decided (h : ∀ c ∈ conditions, c.Decided a) : (conjunction conditions).Decided a := by
  suffices hfold : ∀ acc : Term, acc.Decided a → (conditions.foldl conjoin acc).Decided a from
    hfold _ ⟨true, rfl⟩
  induction conditions with
  | nil => exact fun acc hacc => hacc
  | cons c rest ih =>
    obtain ⟨hc, hrest⟩ := List.forall_mem_cons.1 h
    exact fun acc hacc => ih hrest _ (conjoin_decided hacc hc)

/-- The induction is on the conditions still to be joined; those joined so far count as one. -/
theorem foldl_conjoin_true_iff (hacc : acc.Decided a) (h : ∀ c ∈ conditions, c.Decided a) :
    (∀ c ∈ acc :: conditions, c.eval a = .ok (.bit true)) ↔ (conditions.foldl conjoin acc).eval a = .ok (.bit true) ∧
        ∀ c ∈ givenUp (acc :: conditions), ¬ c.isBit false := by
  induction conditions generalizing acc with
  | nil => simp [givenUp]
  | cons d rest ih =>
    obtain ⟨hd, hrest⟩ := List.forall_mem_cons.1 h
    rw [List.foldl_cons]
    by_cases hconst : acc.isConst
    · rw [conjoin_of_isConst hconst, List.forall_mem_cons, eval_true_of_isConst hacc hconst, ih hd hrest]
      simp only [givenUp, hconst, if_true, List.forall_mem_cons]
      exact and_left_comm
    · have hjoined := ih (conjoin_decided hacc hd) hrest
      rw [conjoin_of_not_isConst hconst] at hjoined ⊢
      obtain ⟨x, hx⟩ := hacc
      obtain ⟨y, hy⟩ := hd
      rw [givenUp_of_not_isConst (by simp [Term.isConst]), List.forall_mem_cons, eval_and hx hy] at hjoined
      rw [givenUp_of_not_isConst hconst, ← hjoined]
      simp [hx, hy, and_assoc]

theorem conjunction_true_iff (h : ∀ c ∈ conditions, c.Decided a) : (∀ c ∈ conditions, c.eval a = .ok (.bit true)) ↔
      (conjunction conditions).eval a = .ok (.bit true) ∧ ∀ c ∈ givenUp conditions, ¬ c.isBit false := by
  have htrue : (Term.ofBool true).Decided a := ⟨true, rfl⟩
  have hall := foldl_conjoin_true_iff htrue h
  cases conditions with
  | nil => simp [givenUp, conjunction, Term.eval]
  | cons c rest => simpa [conjunction, givenUp, Term.isConst, Term.isBit, Term.eval] using hall

/-- A well-typed condition. -/
def Term.Condition (Γ : String → TermType) (t : Term) : Prop :=
  t.WellTyped Γ ∧ t.type = .bit

theorem Term.Condition.binary {op : BinaryTermOp} {left right : Term} (hl : left.Condition Γ)
    (hr : right.Condition Γ) (hop : op.operandType? = some .bit) (hresult : op.resultType = .bit) :
    (Term.binary .bit op left right).Condition Γ := by
  refine ⟨⟨hl.1, hr.1, hl.2.trans hr.2.symm, fun operand h => ?_, hresult.symm⟩, rfl⟩
  rw [hop] at h
  cases h
  exact hl.2

theorem conjunction_condition (h : ∀ c ∈ conditions, c.Condition Γ) : (conjunction conditions).Condition Γ := by
  suffices hfold : ∀ acc : Term, acc.Condition Γ → (conditions.foldl conjoin acc).Condition Γ from
    hfold _ ⟨rfl, rfl⟩
  induction conditions with
  | nil => exact fun acc hacc => hacc
  | cons c rest ih =>
    obtain ⟨hc, hrest⟩ := List.forall_mem_cons.1 h
    intro acc hacc
    refine ih hrest (conjoin acc c) ?_
    by_cases hconst : acc.isConst
    · rwa [conjoin_of_isConst hconst]
    · rw [conjoin_of_not_isConst hconst]
      exact hacc.binary hc rfl rfl

theorem Term.Condition.decided (ht : t.Condition Γ) (ha : a.Respects Γ) (hcovers : a.Covers t)
    (hdiv : t.eval a ≠ .error .divisionByZero) : t.Decided a := by
  obtain ⟨v, hv⟩ := Term.eval_total hcovers hdiv
  have htype : v.type = t.type := Term.eval_type ht.1.typed (ha.fits ht.1) hv
  exact ⟨v.isTrue, by rw [hv, ← Scalar.eq_bit (htype.trans ht.2)]⟩

/-! ## Setups -/

/-- All conditions of the draft are conditions. -/
def Draft.Bits (d : Draft) : Prop :=
  ∀ c ∈ d.pre ++ d.post, c.type = .bit

/-- The work at hand is a draft of conditions. -/
def Work.BitDraft : Work → Prop
  | .setup d => d.Bits
  | _ => False

open Run (Ends ends_bind)

theorem expectBit_type {fn : String} {v : Value} (h : v.expectBit fn = .ok t) : t.type = .bit := by
  cases v with
  | term u =>
    by_cases hu : u.type = .bit
    · simp only [Value.expectBit, Value.expectTerm, bind, Except.bind, hu, if_true, pure, Except.pure] at h
      cases h
      exact hu
    · simp [Value.expectBit, Value.expectTerm, bind, Except.bind, hu, throw, throwThe, MonadExceptOf.throw] at h
  | _ => cases h

theorem changeDraft_bits {change : Draft → Draft} (hw : w.work.BitDraft) (hchange : ∀ d, d.Bits → (change d).Bits) :
    Ends (changeDraft change) w (fun _ w' => w'.work.BitDraft) (fun _ _ => True) := by
  unfold changeDraft
  rw [ends_bind, Run.ends_get]
  cases hwork : w.work with
  | setup d =>
    rw [hwork] at hw
    exact hchange d hw
  | _ => exact trivial

/-- What a setup may do: it collects variables and conditions. -/
theorem performCommand_bits (run : RunAction) (ctx : Context) (c : Command) (args : List Value)
    (hw : w.work.BitDraft) (hkind : c.context = w.work.kind) :
    Ends (performCommand run ctx c args) w (fun _ w' => w'.work.BitDraft) (fun _ _ => True) := by
  have hsetup : c.context = .setup := by
    cases hwork : w.work <;> simp_all [Work.BitDraft, Work.kind]
  cases c <;> try cases hsetup
  case specVar =>
    obtain _ | ⟨name, _ | ⟨type, _ | _⟩⟩ := args
    all_goals try exact trivial
    refine ends_bind.2 (Run.ends_orFail (fun n _ => ?_) (fun _ _ => trivial))
    refine ends_bind.2 (Run.ends_orFail (fun u _ => ?_) (fun _ _ => trivial))
    exact ends_bind.2 (changeDraft_bits hw fun d hd => hd)
  case specPre =>
    obtain _ | ⟨v, _ | _⟩ := args
    all_goals try exact trivial
    refine ends_bind.2 (Run.ends_orFail (fun t ht => ?_) (fun _ _ => trivial))
    refine ends_bind.2 (changeDraft_bits hw fun d hd c hc => ?_)
    simp only [List.append_assoc, List.mem_append, List.mem_singleton] at hc
    obtain hc | rfl | hc := hc
    · exact hd c (List.mem_append_left _ hc)
    · exact expectBit_type ht
    · exact hd c (List.mem_append_right _ hc)
  case specPost =>
    obtain _ | ⟨v, _ | _⟩ := args
    all_goals try exact trivial
    refine ends_bind.2 (Run.ends_orFail (fun t ht => ?_) (fun _ _ => trivial))
    refine ends_bind.2 (changeDraft_bits hw fun d hd c hc => ?_)
    simp only [← List.append_assoc, List.mem_append, List.mem_singleton] at hc
    obtain hc | rfl := hc
    · exact hd c (List.mem_append.2 hc)
    · exact expectBit_type ht

theorem runSetup_bits (depth : Nat) (ctx : Context) (setup : Value) (w : World) :
    Ends (runSetup (runAction depth) ctx setup) w (fun d _ => d.Bits) (fun _ _ => True) := by
  unfold runSetup
  rw [ends_bind]
  refine Run.ends_withWork ?_
  have hempty : Work.BitDraft (.setup .empty) := nofun
  have hrun := runAction_keeps (fun _ ctx c args _ hw hkind => performCommand_bits _ ctx c args hw hkind)
    depth ctx setup { w with work := .setup .empty } hempty
  refine hrun.imp (fun _ w' hw' => ?_) (fun _ _ _ => trivial)
  dsimp only at hw'
  cases hwork : w'.work with
  | setup d =>
    rw [hwork] at hw'
    exact hw'
  | _ => exact trivial

/-! ## Verification -/

theorem ends_recordSpec {spec : Spec} {tactic : Option Tactic} {Q : Unit → World → Prop}
    {E : Halt → World → Prop} (h : ∀ s, Q () { w with session := s }) (herror : ∀ halt, E halt w) :
    Ends (recordSpec spec tactic) w Q E :=
  ends_bind.2 (Run.ends_write (fun _ _ => h _) fun _ _ => herror _)

/-- What verification comes to: a setup that collects conditions, and a proof script that closes the goal. -/
theorem ends_verifySpec (depth : Nat) (ctx : Context) (name setup script : Value) (w : World) :
    Ends (verifySpec (runAction depth) ctx name setup script) w
      (fun v _ => ∃ n draft g status w1 w2, draft.Bits ∧
        runProof (runAction depth) ctx script draft.goal w1 = .ok (g, status) w2 ∧
        v = .spec ⟨n, draft, if status = .valid then .verified else status⟩)
      (fun _ _ => True) := by
  unfold verifySpec
  refine ends_bind.2 (Run.ends_orFail (fun n _ => ?_) (fun _ _ => trivial))
  refine ends_bind.2 ((runSetup_bits depth ctx setup w).imp (fun draft w1 hdraft => ?_) (fun _ _ _ => trivial))
  refine ends_bind.2 ((Run.ends_self _ w1).imp (fun r w2 hproof => ?_) (fun _ _ _ => trivial))
  obtain ⟨g, status⟩ := r
  dsimp only
  split
  · exact trivial
  · refine ends_bind.2 (ends_recordSpec (fun s => ends_bind.2 (Run.ends_print fun _ _ => ?_)) fun _ => trivial)
    exact ⟨n, draft, g, status, w1, w2, hdraft, hproof, rfl⟩

/-- A specification reported as verified: wherever its preconditions hold and its postconditions have values,
the postconditions hold, exactly if none of those given up is false. -/
theorem verifySpec_verified_iff {depth : Nat} {ctx : Context} {name setup script : Value} {w w' : World}
    {spec : Spec} (h : verifySpec (runAction depth) ctx name setup script w = .ok (.spec spec) w')
    (hverified : spec.status = .verified) (htyped : ∀ c ∈ spec.draft.pre ++ spec.draft.post, c.WellTyped Γ)
    (ha : a.Respects Γ) (hpre : ∀ c ∈ spec.draft.pre, c.eval a = .ok (.bit true))
    (hpost : ∀ c ∈ spec.draft.post, a.Covers c ∧ c.eval a ≠ .error .divisionByZero) :
    (∀ c ∈ spec.draft.post, c.eval a = .ok (.bit true)) ↔ ∀ c ∈ givenUp spec.draft.post, ¬ c.isBit false := by
  obtain ⟨n, draft, g, status, w1, w2, hbits, hproof, hspec⟩ :=
    (ends_verifySpec depth ctx name setup script w).of_ok h
  cases hspec
  dsimp only at *
  have hcondition : ∀ c ∈ draft.pre ++ draft.post, c.Condition Γ := fun c hc => ⟨htyped c hc, hbits c hc⟩
  have hpreC := conjunction_condition fun c hc => hcondition c (List.mem_append_left _ hc)
  have hpostC := conjunction_condition fun c hc => hcondition c (List.mem_append_right _ hc)
  have hgoal : draft.goal.Condition Γ := hpreC.binary hpostC rfl rfl
  obtain ⟨hsound, hstatus⟩ := (ends_runProof depth ctx script w1 hgoal.1).of_ok hproof
  -- the status was valid: no proof script ends with a goal that counts as verified
  have hvalid : status = .valid := by
    split at hverified
    · assumption
    · exact absurd (hverified ▸ hstatus) hsound.not_verified
  have hdecided : ∀ c ∈ draft.post, c.Decided a := fun c hc =>
    (hcondition c (List.mem_append_right _ hc)).decided ha (hpost c hc).1 (hpost c hc).2
  have hpreTrue : (conjunction draft.pre).eval a = .ok (.bit true) :=
    ((conjunction_true_iff fun c hc => ⟨true, hpre c hc⟩).1 hpre).1
  have hpostTrue : (conjunction draft.post).eval a = .ok (.bit true) := by
    obtain ⟨b, hb⟩ := conjunction_decided hdecided
    have himp : draft.goal.eval a = .ok (.bit b) := Term.eval_binary_ok.2 ⟨_, _, hpreTrue, hb, rfl⟩
    cases b with
    | true => exact hb
    | false => exact absurd himp (hsound.valid (hvalid ▸ hstatus) a ha)
  rw [conjunction_true_iff hdecided]
  exact and_iff_right hpostTrue

/-- The setup that collects some postconditions. -/
def postconditions (conditions : List Term) : Value :=
  .action (.forEach (conditions.map .term) (.builtin (.command .specPost) [] none))

/-- A constant that is true may be given up. -/
theorem verifySpec_true_given_up :
    ∃ spec w', verifySpec perform .standard (.string "s")
        (postconditions [.ofBool true, .binary .bit .or (.var .bit "b") (.ofBool true)])
        (.action (.command .trivial [])) .blank = .ok (.spec spec) w' ∧
      givenUp spec.draft.post = [.ofBool true] ∧
      ∀ c ∈ spec.draft.post, c.eval [("b", .bit false)] = .ok (.bit true) := by
  have hrespects : Assignment.Respects [("b", .bit false)] fun _ => .bit := by
    intro name v h
    obtain ⟨-, rfl⟩ : name = "b" ∧ v = .bit false := by simpa using Table.mem_of_get? h
    rfl
  obtain ⟨w', hrun⟩ : ∃ w', verifySpec (runAction Context.standard.host.actions) .standard (.string "s")
      (postconditions [.ofBool true, .binary .bit .or (.var .bit "b") (.ofBool true)])
      (.action (.command .trivial [])) .blank = .ok (.spec ⟨"s",
        ⟨[], [], [.ofBool true, .binary .bit .or (.var .bit "b") (.ofBool true)]⟩, .verified⟩) w' := ⟨_, rfl⟩
  refine ⟨_, w', hrun, rfl, (verifySpec_verified_iff hrun rfl ?_ hrespects nofun ?_).2 ?_⟩
  · simp [Term.WellTyped, Term.type, Scalar.type, BinaryTermOp.operandType?, BinaryTermOp.resultType]
  · simp [Assignment.Covers, Term.vars, Term.varOccurrences, Table.get?, Term.eval, bind, Except.bind,
      BinaryTermOp.apply]
  · simp [givenUp, Term.isConst, Term.isBit]

end VeriScript
