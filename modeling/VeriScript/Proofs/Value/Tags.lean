import VeriScript.Proofs.Typing.State
import VeriScript.Proofs.Value.Forms

/-!
# Tags

The tag of a value says what its type can start with.

* `Value.Fits` — the tag of a value agrees with the head of a type.
* `HasTy.fits` — a value that has all the instances of a schema fits the type of the schema.
-/

namespace VeriScript

/-- The tags of the values of a type, by the head of the type. -/
def Ty.tags : Ty → List String
  | .con "Bool" _ => ["Bool"]
  | .con "Int" _ => ["Int"]
  | .con "String" _ => ["String"]
  | .con "Term" _ => ["Term"]
  | .con "Type" _ => ["Type"]
  | .con "Theorem" _ => ["Theorem"]
  | .con "ProofResult" _ => ["ProofResult"]
  | .con "Spec" _ => ["Spec"]
  | .con "Tuple" [] => ["Unit"]
  | .con "Tuple" _ => ["Tuple"]
  | .con "List" _ => ["Array"]
  | .con "Function" _ => ["Closure", "Builtin"]
  | .con "Block" _ => ["Action"]
  | .record _ => ["Record"]
  | _ => []

/-- The tag of the value agrees with the head of the type: a tuple has as many components, and a record the same
fields. -/
def Value.Fits (v : Value) (t : Ty) : Prop :=
  v.tag ∈ t.tags ∧
    match v, t with
    | .tuple vs, .con _ args => vs.length = args.length
    | .record fields, .record types => ∀ name, Table.has fields name = Table.has types name
    | _, _ => True

variable {allowed : Command → Prop} {G : Scope} {v : Value}

theorem HasTy.fits_con {name : String} {args : List Ty} {f : Ty → Mono}
    (h : HasTy allowed G v (.con name (args.map f))) : v.Fits (.con name args) := by
  generalize hτ : Mono.con name (args.map f) = τ at h
  cases h with
  | tuple elems =>
    obtain ⟨rfl, rfl⟩ := Mono.con.inj hτ
    have hlength := elems.length_eq
    rw [List.length_map] at hlength
    cases args with
    | nil => cases hlength
    | cons t ts => exact ⟨by simp [Value.tag, Ty.tags], hlength⟩
  | unit =>
    obtain ⟨rfl, hargs⟩ := Mono.con.inj hτ
    obtain rfl := List.map_eq_nil_iff.1 hargs
    exact ⟨by simp [Value.tag, Ty.tags], trivial⟩
  | record => cases hτ
  | _ =>
    obtain ⟨rfl, -⟩ := Mono.con.inj hτ
    exact ⟨by simp [Value.tag, Ty.tags], trivial⟩

theorem HasTy.fits_record {types : List (String × Ty)} {f : Ty → Mono}
    (h : HasTy allowed G v (.record fun name => (Table.get? types name).map f)) : v.Fits (.record types) := by
  obtain ⟨fields, rfl, hsame, -⟩ := h.record_inv
  refine ⟨by simp [Value.tag, Ty.tags], fun name => ?_⟩
  simpa only [Table.has, Option.isSome_map] using hsame name

theorem HasTy.fits {s : Schema} (hs : s.Complete) (h : ∀ ρ, HasTy allowed G v (s.at ρ)) : v.Fits s.type := by
  obtain ⟨vars, t⟩ := s
  cases t with
  | con name args =>
    have hcon := h .var
    rw [Schema.at, Ty.denote, Ty.denoteList_eq] at hcon
    exact hcon.fits_con
  | record types =>
    have hrecord := h .var
    rw [Schema.at, Ty.denote, Ty.denoteFields_eq] at hrecord
    exact hrecord.fits_record
  | var x =>
    -- no value is both a number and a truth value
    obtain ⟨n, rfl⟩ := (h fun _ => .int).int_inv
    obtain ⟨b, hb⟩ := (h fun _ => .bool).bool_inv
    cases hb
  | hole i => exact absurd (by simp [Ty.holes, Ty.holeOccurrences]) (hs.noHoles i)

/-- A value with components fits tuples only. -/
theorem Value.Fits.eq_tuple {t : Ty} {items : List Value} (h : v.Fits t) (hv : v.components? = some items) :
    ∃ ts, t = .tuple ts := by
  have htag : v.tag = "Unit" ∨ v.tag = "Tuple" := by
    cases v with
    | unit => exact .inl rfl
    | tuple elems => exact .inr rfl
    | _ => cases hv
  have hmem := h.1
  unfold Ty.tags at hmem
  obtain htag | htag := htag <;> rw [htag] at hmem <;> split at hmem <;> simp_all

end VeriScript
