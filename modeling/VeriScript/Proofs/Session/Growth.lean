import VeriScript.Proofs.Run.Progress

/-!
# The history of a session

Nothing that a session has is lost again, whatever statements are run and however they end: every place that reads the
session and sets it later sets one that comes from the session as it is then.

* `Session.Grows` — lifecycles, names and proofs stay.
* `Session.WellFormed` — the primitives that are available have their names bound, and the entries of the history of
  proofs are named and closed as they should be.
* `Session.Change.grows`, `Session.Change.wellFormed` — what one change keeps.
* `World.enter` — statements that are run one after another, whether they succeed or not.
* `runActionUntil` — runs that are interrupted on the way.
* `sessions_grow` — what holds throughout.
-/

namespace VeriScript

open Run (Together)

namespace Session

/-- The second session has all that the first has: its lifecycles, its names of every kind, and its proofs in their
order. -/
structure Grows (s s' : Session) : Prop where
  lifecycles : s.lifecycles ⊆ s'.lifecycles
  values : ∀ x, Table.has s.values x → Table.has s'.values x
  types : ∀ x, Table.has s.types x → Table.has s'.types x
  aliases : ∀ x, Table.has s.aliases x → Table.has s'.aliases x
  docs : ∀ x, Table.has s.docs x → Table.has s'.docs x
  terms : ∀ x, Table.has s.terms x → Table.has s'.terms x
  proofs : s.proofs <+: s'.proofs

/-- Available primitives are bound.  The goals in the history are numbered by their places, from one, and every entry
has a status of its kind. -/
structure WellFormed (s : Session) : Prop where
  bound : ∀ e ∈ primitives, e.life ∈ s.lifecycles → Table.has s.values e.name ∧ Table.has s.types e.name
  named : ∀ i r, s.proofs[i]? = some r → r.kind = .goal → r.name = "goal " ++ Text.decimalNat (i + 1)
  closed : ∀ r ∈ s.proofs, r.status ∈ r.kind.statuses

variable {s s' s'' : Session}

theorem Grows.refl (s : Session) : s.Grows s :=
  ⟨List.Subset.refl _, fun _ h => h, fun _ h => h, fun _ h => h, fun _ h => h, fun _ h => h, List.prefix_refl _⟩

theorem Grows.trans (h : s.Grows s') (h' : s'.Grows s'') : s.Grows s'' where
  lifecycles := List.Subset.trans h.lifecycles h'.lifecycles
  values x hx := h'.values x (h.values x hx)
  types x hx := h'.types x (h.types x hx)
  aliases x hx := h'.aliases x (h.aliases x hx)
  docs x hx := h'.docs x (h.docs x hx)
  terms x hx := h'.terms x (h.terms x hx)
  proofs := h.proofs.trans h'.proofs

/-! ## One change -/

theorem has_addMissing {α : Type} (table new : List (String × α)) (x : String) :
    Table.has (addMissing table new) x = (Table.has table x || Table.has new x) := by
  rw [Table.has, get?_addMissing, Option.isSome_or]
  rfl

theorem has_addMissing_left {α : Type} {table : List (String × α)} {x : String} (new : List (String × α))
    (h : Table.has table x) : Table.has (addMissing table new) x := by
  rw [has_addMissing, h, Bool.true_or]

/-- A primitive has an entry in every table that is made from the primitives of its lifecycle. -/
theorem has_entries {α : Type} (f : PrimitiveEntry → α) {e : PrimitiveEntry} (he : e ∈ primitives) :
    Table.has ((available [e.life]).map fun e => (e.name, f e)) e.name := by
  have hmem : (e.name, f e) ∈ (available [e.life]).map fun e => (e.name, f e) :=
    List.mem_map_of_mem (f := fun e => (e.name, f e)) (List.mem_filter.2 ⟨he, by simp⟩)
  exact Option.isSome_iff_exists.2 (Table.exists_get?_of_mem hmem)

theorem Change.grows (h : s.Change s') : s.Grows s' := by
  have hterms := h.has_terms
  cases h with
  | bind name schema? v =>
    refine ⟨List.Subset.refl _, fun x hx => Table.has_insert_of_has name v hx, fun x hx => ?_, fun _ h => h,
      fun _ h => h, hterms, List.prefix_refl _⟩
    cases schema? with
    | none => exact hx
    | some schema => exact Table.has_insert_of_has name schema hx
  | typedef name t =>
    exact { Grows.refl s with aliases := fun x hx => Table.has_insert_of_has name t hx }
  | terms kept => exact { Grows.refl s with terms := kept }
  | display d => exact { Grows.refl s with }
  | enable life =>
    refine ⟨?_, fun x => has_addMissing_left _, fun x => has_addMissing_left _, fun _ h => h,
      fun x => has_addMissing_left _, hterms, List.prefix_refl _⟩
    intro l hl
    show l ∈ if s.lifecycles.contains life then s.lifecycles else s.lifecycles ++ [life]
    split
    · exact hl
    · exact List.mem_append_left _ hl
  | record r name status => exact { Grows.refl s with proofs := List.prefix_append _ _ }

/-- A primitive whose lifecycle becomes available is bound, if it was not before. -/
theorem enable_bound (h : s.WellFormed) (life : Lifecycle) {e : PrimitiveEntry} (he : e ∈ primitives)
    (hlife : e.life ∈ (s.enable life).lifecycles) :
    Table.has (s.enable life).values e.name ∧ Table.has (s.enable life).types e.name := by
  have hcases : e.life ∈ s.lifecycles ∨ e.life = life := by
    have hmem : e.life ∈ if s.lifecycles.contains life then s.lifecycles else s.lifecycles ++ [life] := hlife
    split at hmem
    · exact .inl hmem
    · simpa using hmem
  obtain hold | rfl := hcases
  · have hgrows := (Change.enable s life).grows
    exact ⟨hgrows.values _ (h.bound e he hold).1, hgrows.types _ (h.bound e he hold).2⟩
  · constructor
    · show Table.has (addMissing s.values _) e.name
      rw [has_addMissing, has_entries (·.value) he, Bool.or_true]
    · show Table.has (addMissing s.types _) e.name
      rw [has_addMissing, primitiveTypes, has_entries (·.schema) he, Bool.or_true]

theorem Change.wellFormed (h : s.Change s') (hs : s.WellFormed) : s'.WellFormed := by
  have hgrows := h.grows
  -- but for the lifecycles and the history, a change concerns what is kept
  have hkeeps : s'.lifecycles = s.lifecycles → s'.proofs = s.proofs → s'.WellFormed := by
    intro hlife hproofs
    refine ⟨fun e he hmem => ?_, by rw [hproofs]; exact hs.named, by rw [hproofs]; exact hs.closed⟩
    obtain ⟨hvalue, htype⟩ := hs.bound e he (hlife ▸ hmem)
    exact ⟨hgrows.values _ hvalue, hgrows.types _ htype⟩
  cases h with
  | bind name schema? v => exact hkeeps rfl rfl
  | typedef name t => exact hkeeps rfl rfl
  | terms kept => exact hkeeps rfl rfl
  | display d => exact hkeeps rfl rfl
  | enable life => exact ⟨fun e he hlife => enable_bound hs life he hlife, hs.named, hs.closed⟩
  | record r name status =>
    refine ⟨hs.bound, fun i r' hr' hkind => ?_, fun r' hr' => ?_⟩
    · have hr' : (s.proofs ++ [r])[i]? = some r' := hr'
      obtain hi | hi | hi := Nat.lt_trichotomy i s.proofs.length
      · rw [List.getElem?_append_left hi] at hr'
        exact hs.named i r' hr' hkind
      · subst hi
        rw [List.getElem?_concat_length] at hr'
        obtain rfl := Option.some.inj hr'
        exact name hkind
      · rw [List.getElem?_eq_none (by simp; omega)] at hr'
        cases hr'
    · obtain hr' | hr' := List.mem_append.1 hr'
      · exact hs.closed r' hr'
      · obtain rfl := List.mem_singleton.1 hr'
        exact status

/-! ## Changes one after another -/

theorem Advances.grows (h : s.Advances s') : s.Grows s' := by
  induction h with
  | refl => exact .refl s
  | tail _ hstep ih => exact ih.trans hstep.grows

theorem Advances.wellFormed (h : s.Advances s') (hs : s.WellFormed) : s'.WellFormed := by
  induction h with
  | refl => exact hs
  | tail _ hstep ih => exact hstep.wellFormed ih

theorem wellFormed_initial (options : Options) : (initial options).WellFormed := by
  refine ⟨fun e he hlife => ?_, fun i r hr => ?_, fun r hr => ?_⟩
  · have hcurrent : e.life = .current := List.mem_singleton.1 hlife
    have hvalue := has_entries (·.value) he
    have htype := has_entries (·.schema) he
    rw [hcurrent] at hvalue htype
    exact ⟨hvalue, htype⟩
  · cases hr
  · cases hr

end Session

/-! ## Statements one after another -/

theorem Run.Together.after {α : Type} {host : Host} {x y : Run α} {w : World} (h : Together False host w.cwd x y) :
    w.Advances (x.after w) :=
  (h w rfl).2.advances

/-- A statement as it is entered at the top level. -/
structure Entered where
  ctx : Context
  printBinds : Bool
  stmt : Stmt

/-- Run statements one after another, each in the world that the one before it left, whether it succeeded or not. -/
def World.enter (w : World) (entries : List Entered) : World :=
  entries.foldl (fun w e => (runStmt perform e.ctx e.printBinds e.stmt).after w) w

theorem World.advances_enter (entries : List Entered) (w : World) : w.Advances (w.enter entries) := by
  induction entries generalizing w with
  | nil => exact .refl w
  | cons e entries ih =>
    have hstmt : Together False e.ctx.host w.cwd (runStmt perform e.ctx e.printBinds e.stmt) _ :=
      runStmt_together (fun ctx => runAction_together ctx.host.actions w.cwd ctx) e.ctx e.printBinds e.stmt
    exact (Run.Together.after hstmt).trans (ih _)

/-! ## Runs that are interrupted -/

/-- Give the result, unless `stop` picks the world: then the run ends, as by `exit`. -/
def Run.unlessStopped {α : Type} (stop : World → Option Int) (result : α) : Run α := fun w =>
  match stop w with
  | some code => .error (.exit code) w
  | none => .ok result w

/-- Run an action as `runAction` does, until `stop` picks the world behind one of the actions in it. -/
def runActionUntil (stop : World → Option Int) : Nat → RunAction
  | 0, _, _ => throw .overflow
  | depth + 1, ctx, .action job => do
    requireContext job.context
    let result ← job.perform (runActionUntil stop depth) ctx
    Run.unlessStopped stop result
  | _ + 1, _, v => do Run.failAt (.notAction (v.shown (← Run.session).display)) none

/-- Run an action, until `stop` picks the world. -/
def performUntil (stop : World → Option Int) : RunAction := fun ctx =>
  runActionUntil stop ctx.host.actions ctx

theorem Run.Together.unlessStopped {α : Type} {host : Host} {D : Path} {x y : Run α} (h : Together True host D x y)
    (stop : World → Option Int) : Together True host D x (do Run.unlessStopped stop (← y)) := by
  have hstop : ∀ a : α, Together True host D (Pure.pure a) (Run.unlessStopped stop a) := by
    intro a w _
    refine ⟨?_, .refl w, trivial⟩
    cases hcode : stop w with
    | none =>
      left
      rw [Run.unlessStopped, hcode]
      rfl
    | some code =>
      right
      exact ⟨trivial, .exit code, w, .exit, by rw [Run.unlessStopped, hcode], .refl, .refl⟩
  have hbind := h.bind hstop
  rwa [bind_pure] at hbind

/-- A run that is interrupted behind an action, however deep, shadows the run that goes on. -/
theorem runActionUntil_together (stop : World → Option Int) (depth : Nat) :
    ∀ (D : Path) ctx v, Together True ctx.host D (runAction depth ctx v) (runActionUntil stop depth ctx v) := by
  induction depth with
  | zero => exact fun _ _ _ _ => .throw _
  | succ depth ih =>
    intro D ctx v
    cases v with
    | action job =>
      refine .bind (requireContext_together _) fun _ => Run.Together.unlessStopped ?_ stop
      exact (actionCongruence_together (ih D) ctx).perform job fun path _ => runFile_together (ih _) ctx false
    | _ => exact .session fun _ => .failAt _ _

/-- Run statements from a new session, whether they succeed or not.  The session is well formed then, and whatever
statements follow, it grows.  Interrupt a further statement behind any of the actions that are run on the way, as by
`exit`, unless the host then refuses to go back to a directory: the session is well formed there too, it has grown up to
there, and without the interruption it grows from there to the end of the statement.  And it grows with the statements
of a block, wherever in the block one starts. -/
theorem sessions_grow (options : Options) (disk : Disk) (cwd : Path) (draws : Nat → Nat) (entered : List Entered) :
    let w := (World.start options disk cwd draws).enter entered
    w.session.WellFormed ∧
      (∀ more, w.session.Grows (w.enter more).session) ∧
      (∀ ctx printBinds stmt stop,
        let whole := runStmt perform ctx printBinds stmt
        let part := runStmt (performUntil stop) ctx printBinds stmt
        part w = whole w ∨ ∃ halt w', part w = .error halt w' ∧ halt.Stops ∧
          w'.session.WellFormed ∧ w.session.Grows w'.session ∧ w'.session.Grows (whole.after w).session) ∧
      ∀ depth ctx env body (w : World),
        w.session.Grows ((runBody (runAction depth) ctx env body).after w).session := by
  intro w
  have hw : w.session.WellFormed :=
    ((World.start options disk cwd draws).advances_enter entered).session.wellFormed
      (Session.wellFormed_initial options)
  refine ⟨hw, fun more => ?_, fun ctx printBinds stmt stop => ?_, fun depth ctx env body w => ?_⟩
  · exact (w.advances_enter more).session.grows
  · intro whole part
    have hstmt : Together True ctx.host w.cwd whole part :=
      runStmt_together (fun ctx => runActionUntil_together stop ctx.host.actions w.cwd ctx) ctx printBinds stmt
    obtain heq | ⟨-, halt, w', hstops, hpart, hbefore, hbehind⟩ := (hstmt w rfl).1
    · exact .inl heq.symm
    · exact .inr ⟨halt, w', hpart, hstops, hbefore.wellFormed hw, hbefore.grows, hbehind.grows⟩
  · exact (Run.Together.after (runBody_together (runAction_together depth w.cwd) ctx env body)).session.grows

end VeriScript
