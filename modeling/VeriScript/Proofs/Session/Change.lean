import Mathlib.Logic.Relation
import VeriScript.Proofs.Session.Frame

/-!
# How sessions change

Statements and commands change a session in few ways: they bind names, declare types and terms, change the display,
make primitives available, and add to the history of proofs.

* `Session.Change` — one change.
* `Session.Advances` — changes one after another.
* `Session.advances_merge`, `Session.advances_bindParts` — binding several names.
-/

namespace VeriScript

/-- The statuses that entries of the history have: those of goals, and those of specifications. -/
def RecordKind.statuses : RecordKind → List ProofStatus
  | .goal => [.valid, .admitted, .tested, .invalid]
  | .spec => [.verified, .admitted, .tested, .assumed]

namespace Session

/-- One change of a session. -/
inductive Change : Session → Session → Prop
  | bind (s : Session) (name : String) (schema? : Option Schema) (v : Value) : Change s (s.extend name schema? v)
  | typedef (s : Session) (name : String) (t : Ty) : Change s (s.addAlias name t)
  | terms (s : Session) {terms : TermEnv} (kept : ∀ x, Table.has s.terms x → Table.has terms x) :
    Change s { s with terms := terms }
  | display (s : Session) (d : Display) : Change s { s with display := d }
  | enable (s : Session) (life : Lifecycle) : Change s (s.enable life)
  | record (s : Session) (r : ProofRecord) (name : r.kind = .goal → r.name = s.nextGoalName)
    (status : r.status ∈ r.kind.statuses) : Change s (s.record r)

/-- Changes of a session, one after another. -/
abbrev Advances : Session → Session → Prop :=
  Relation.ReflTransGen Change

theorem advances_foldl {α : Type} {f : Session → α → Session} (hf : ∀ s a, Change s (f s a)) (items : List α)
    (s : Session) : s.Advances (items.foldl f s) := by
  induction items generalizing s with
  | nil => exact .refl
  | cons a items ih => exact .head (hf s a) (ih _)

theorem advances_bindParts (s : Session) (parts : List Part) : s.Advances (s.bindParts parts) := by
  unfold bindParts
  exact advances_foldl (fun s p => .bind s p.name p.schema? p.value) parts s

theorem advances_merge (s : Session) (env : Env) : s.Advances (s.merge env) := by
  induction env with
  | nil => exact .refl
  | cons e env ih =>
    cases e with
    | value name schema? v => exact ih.tail (.bind _ name schema? v)
    | typedef name t => exact ih.tail (.typedef _ name t)
    | recursive members => exact ih.trans (advances_foldl (fun s m => .bind s m.name m.schema? _) members _)

end Session

/-! ## Names that stay -/

theorem Table.has_insert_of_has {α : Type} {t : List (String × α)} {x : String} (name : String) (v : α)
    (h : has t x) : has (insert t name v) x := by
  by_cases hx : x = name
  · rw [has, hx, get?_insert_self]
    rfl
  · rwa [has, get?_insert_of_ne hx]

theorem parseTermDecls_keeps {qualifier : Option String} {text : String} {env env' : TermEnv}
    (h : parseTermDecls env qualifier text = .ok env') (x : String) (hx : Table.has env x) : Table.has env' x := by
  obtain ⟨decls, -, h⟩ := exists_ok_of_bind h
  exact (elaborateDecls_declares h).1 x (.inr hx)

/-- A change keeps the names that inline terms can use. -/
theorem Session.Change.has_terms {s s' : Session} (h : s.Change s') (x : String) (hx : Table.has s.terms x) :
    Table.has s'.terms x := by
  cases h with
  | bind name schema? v =>
    cases v with
    | term t => exact Table.has_insert_of_has _ _ hx
    | _ => exact hx
  | terms kept => exact kept x hx
  | _ => exact hx

theorem Session.Advances.has_terms {s s' : Session} (h : s.Advances s') (x : String) (hx : Table.has s.terms x) :
    Table.has s'.terms x := by
  induction h with
  | refl => exact hx
  | tail _ hstep ih => exact hstep.has_terms x ih

end VeriScript
