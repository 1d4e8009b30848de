import VeriScript.Proofs.Reading.Tokens
import VeriScript.Proofs.Ty.Constructors
import VeriScript.Reading.Source

/-!
# The shape of types that are read

* `Gives` — what holds of everything that a parser gives, with a rule for every way that parsers are put together.
* `Ty.Readable` — every constructor has the parameters it takes, or none.
* `parseType_readable` — the types that are read are such types.
* `Ty.Readable.saturated_iff` — they lack parameters only where a form of the language is named alone.
-/

namespace VeriScript

open VeriScript.Reading

namespace Reading

open VeriScript.Reading.Parser

variable {α β : Type}

/-- Everything that the parser gives satisfies `P`. -/
def Gives (p : Parser α) (P : α → Prop) : Prop :=
  ∀ cur a cur', p cur = some (a, cur') → P a

namespace Gives

variable {p q : Parser α} {P : α → Prop} {f : α → Parser β} {Q : β → Prop}

theorem anything (p : Parser α) : Gives p fun _ => True :=
  fun _ _ _ _ => trivial

theorem pure {a : α} (h : P a) : Gives (pure a) P := by
  intro cur b cur' hread
  cases hread
  exact h

theorem bind (hp : Gives p P) (hf : ∀ a, P a → Gives (f a) Q) : Gives (p >>= f) Q := by
  intro cur b cur' hread
  obtain ⟨a, cur1, hfirst, hnext⟩ := exists_of_bind_eq_some hread
  exact hf a (hp cur a cur1 hfirst) cur1 b cur' hnext

/-- What comes first does not matter. -/
theorem after (p : Parser α) (hf : ∀ a, Gives (f a) Q) : Gives (p >>= f) Q :=
  (anything p).bind fun a _ => hf a

theorem orElse (hp : Gives p P) (hq : Gives q P) : Gives (p <|> q) P := by
  intro cur a cur' hread
  rw [orElse_run, Option.or_eq_some_iff] at hread
  rcases hread with hread | ⟨-, hread⟩
  · exact hp cur a cur' hread
  · exact hq cur a cur' hread

theorem manyIn (hp : Gives p P) (fuel : Nat) : Gives (manyIn p fuel) fun as => ∀ a ∈ as, P a := by
  induction fuel with
  | zero =>
    intro cur as cur' hread
    cases hread
    exact List.forall_mem_nil _
  | succ fuel ih =>
    intro cur as cur' hread
    simp only [Parser.manyIn] at hread
    split at hread
    · cases hread
      exact List.forall_mem_nil _
    · rename_i a cur1 hfirst
      split at hread
      · rename_i as' cur2 hrest
        cases hread
        exact List.forall_mem_cons.2 ⟨hp _ _ _ hfirst, ih _ _ _ hrest⟩
      · cases hread

theorem many (hp : Gives p P) : Gives (many p) fun as => ∀ a ∈ as, P a :=
  fun cur as cur' hread => hp.manyIn cur.rest.length cur as cur' hread

theorem opt (hp : Gives p P) : Gives (opt p) fun a? => ∀ a ∈ a?, P a := by
  intro cur a? cur' hread
  simp only [Parser.opt] at hread
  split at hread
  · rename_i a cur1 hfirst
    cases hread
    rintro _ ⟨⟩
    exact hp _ _ _ hfirst
  · cases hread
    rintro _ ⟨⟩

theorem sepBy1 (hp : Gives p P) : Gives (sepBy1 p) fun as => ∀ a ∈ as, P a := by
  refine hp.bind fun a ha => ?_
  have hmore : Gives (Parser.many (do literal ","; p)) fun as => ∀ a ∈ as, P a := (after _ fun _ => hp).many
  exact hmore.bind fun as has => pure (List.forall_mem_cons.2 ⟨ha, has⟩)

theorem sepBy (hp : Gives p P) : Gives (sepBy p) fun as => ∀ a ∈ as, P a := by
  refine hp.sepBy1.opt.bind fun as? has => pure ?_
  cases as? with
  | none => exact List.forall_mem_nil _
  | some as => exact has as rfl

end Gives

end Reading

/-! ## Types -/

namespace Ty

/-- Every constructor has the parameters it takes, or none. -/
def Readable (t : Ty) : Prop :=
  ∀ c ∈ t.constructors, Fits c ∨ c.2 = 0

/-- The names of forms that need parameters; with brackets or an arrow they are not written out. -/
def formNames : List String := ["Function", "List", "Block"]

variable {name : String} {args : List Ty} {fields : List (String × Ty)} {t : Ty}

theorem readable_con (hfits : Fits (name, args.length) ∨ args = []) (hargs : ∀ a ∈ args, a.Readable) :
    (Ty.con name args).Readable := by
  intro c hc
  rcases mem_constructors_con.1 hc with rfl | ⟨a, ha, hc⟩
  · exact hfits.imp_right fun h => by simp [h]
  · exact hargs a ha c hc

theorem readable_var : (Ty.var name).Readable := by
  simp [Readable]

theorem readable_record (h : ∀ f ∈ fields, f.2.Readable) : (Ty.record fields).Readable := by
  intro c hc
  obtain ⟨f, hf, hc⟩ := mem_constructors_record.1 hc
  exact h f hf c hc

theorem not_fits_zero_iff : ¬ Fits (name, 0) ↔ name ∈ formNames := by
  simp only [Fits, arity?, formNames]
  by_cases htuple : name = "Tuple"
  · simp [htuple]
  · by_cases hpair : name = "Function" ∨ name = "Block"
    · rcases hpair with rfl | rfl <;> simp
    · by_cases hlist : name = "List"
      · simp [hlist]
      · simp_all

/-- A type that is read lacks parameters where one of the forms of the language is named alone, and nowhere else. -/
theorem Readable.saturated_iff (h : t.Readable) :
    t.Saturated ↔ ∀ name ∈ formNames, (name, 0) ∉ t.constructors := by
  constructor
  · intro hsaturated name hname hmem
    exact not_fits_zero_iff.2 hname (hsaturated _ hmem)
  · rintro hforms ⟨name, n⟩ hc
    rcases h _ hc with hfits | hzero
    · exact hfits
    · obtain rfl : n = 0 := hzero
      apply Decidable.byContradiction
      intro hnot
      exact hforms name (not_fits_zero_iff.1 hnot) hc

end Ty

/-! ## Readers of types -/

namespace Table

theorem mem_put {α : Type} {t : List (String × α)} {name : String} {v : α} {e : String × α} (h : e ∈ put t name v) :
    e ∈ t ∨ e = (name, v) := by
  induction t with
  | nil => exact .inr (List.mem_singleton.1 h)
  | cons f t ih =>
    obtain ⟨k, w⟩ := f
    simp only [put] at h
    split at h
    · rename_i hk
      subst hk
      rcases List.mem_cons.1 h with rfl | h
      · exact .inr rfl
      · exact .inl (List.mem_cons_of_mem _ h)
    · rcases List.mem_cons.1 h with rfl | h
      · exact .inl List.mem_cons_self
      · exact (ih h).imp_left (List.mem_cons_of_mem _)

theorem mem_ofList {α : Type} {entries : List (String × α)} {e : String × α} (h : e ∈ ofList entries) :
    e ∈ entries := by
  have hfold : ∀ t : List (String × α), e ∈ entries.foldl (fun t f => put t f.1 f.2) t → e ∈ t ∨ e ∈ entries := by
    clear h
    induction entries with
    | nil => exact fun t h => .inl h
    | cons f entries ih =>
      intro t h
      rcases ih _ h with h | h
      · rcases mem_put h with h | rfl
        · exact .inl h
        · exact .inr List.mem_cons_self
      · exact .inr (List.mem_cons_of_mem _ h)
  exact (hfold [] h).resolve_left List.not_mem_nil

end Table

namespace Reading

open Ty (Readable readable_con readable_var readable_record Fits arity?)

variable {type : Parser Ty}

theorem arrows_readable {first : Ty} {rest : List Ty} (hfirst : first.Readable) (hrest : ∀ t ∈ rest, t.Readable) :
    (arrows first rest).Readable := by
  induction rest generalizing first with
  | nil => exact hfirst
  | cons t rest ih =>
    obtain ⟨ht, hrest⟩ := List.forall_mem_cons.1 hrest
    have hresult : (arrows t rest).Readable := ih ht hrest
    exact readable_con (.inl (by simp [Fits, arity?])) (by simpa using ⟨hfirst, hresult⟩)

theorem atomType_readable (h : Gives type Readable) : Gives (atomType type) Readable := by
  have hname : ∀ name, (Ty.con name []).Readable := fun name => readable_con (.inr rfl) (List.forall_mem_nil _)
  have htuple : ∀ ts : List Ty, (∀ t ∈ ts, t.Readable) → (Ty.tuple ts).Readable :=
    fun ts hts => readable_con (.inl (by simp [Fits, arity?])) hts
  have hfield : Gives (fieldType type) fun f => f.2.Readable :=
    .after _ fun _ => .after _ fun _ => h.bind fun t ht => .pure ht
  unfold atomType
  refine .orElse ?_ (.orElse ?_ (.orElse ?_ (.orElse ?_ (.orElse ?_ ?_))))
  · exact .after _ fun _ => .after _ fun _ => .pure (htuple [] (List.forall_mem_nil _))
  · refine .after _ fun _ => h.sepBy1.bind fun ts hts => .after _ fun _ => ?_
    split
    · rename_i t
      exact .pure (hts t (by simp))
    · exact .pure (htuple ts hts)
  · refine .after _ fun _ => h.bind fun t ht => .after _ fun _ => .pure ?_
    exact readable_con (.inl (by simp [Fits, arity?])) (by simpa using ht)
  · refine .after _ fun _ => hfield.sepBy.bind fun fields hfields => .after _ fun _ => .pure ?_
    exact readable_record fun f hf => hfields f (Table.mem_ofList hf)
  · exact .after _ fun name => .pure (hname name)
  · exact .after _ fun name => .pure readable_var

theorem contextType_readable : Gives contextType Readable := by
  have hkind : ∀ kind, (Ty.context kind).Readable := fun kind => readable_con (.inr rfl) (List.forall_mem_nil _)
  unfold contextType
  refine .orElse ?_ (.orElse ?_ (.orElse ?_ ?_))
  · exact .after _ fun _ => .pure (hkind _)
  · exact .after _ fun _ => .pure (hkind _)
  · exact .after _ fun _ => .pure (hkind _)
  · exact .after _ fun _ => .pure readable_var

theorem operandType_readable (h : Gives type Readable) : Gives (operandType type) Readable := by
  refine .orElse ?_ (atomType_readable h)
  refine contextType_readable.bind fun context hcontext => ?_
  refine (atomType_readable h).bind fun result hresult => .pure ?_
  exact readable_con (.inl (by simp [Fits, arity?])) (by simpa using ⟨hcontext, hresult⟩)

theorem typeWith_readable (h : Gives type Readable) : Gives (typeWith type) Readable := by
  have hoperand := operandType_readable h
  refine hoperand.bind fun first hfirst => ?_
  have hmore : Gives (Parser.many (do Parser.literal "->"; operandType type)) fun ts => ∀ t ∈ ts, t.Readable :=
    (Gives.after _ fun _ => hoperand).many
  exact hmore.bind fun rest hrest => .pure (arrows_readable hfirst hrest)

theorem typeAt_readable (depth : Nat) : Gives (typeAt depth) Readable := by
  induction depth with
  | zero =>
    intro cur t cur' hread
    cases hread
  | succ depth ih => exact fun cur t cur' hread => typeWith_readable ih cur t cur' hread

theorem typeExpr_readable : Gives typeExpr Readable :=
  fun cur t cur' hread => typeAt_readable _ cur t cur' hread

end Reading

theorem parseType_readable {file text : String} {t : Ty} (h : parseType file text = .ok t) : t.Readable := by
  simp only [parseType, parseAll, readAll] at h
  cases hread : typeExpr (.start file text) with
  | none =>
    rw [hread] at h
    cases h
  | some r =>
    rw [hread] at h
    dsimp only at h
    by_cases hend : r.2.skipGap.rest.isEmpty = true
    · rw [if_pos hend] at h
      cases h
      exact typeExpr_readable _ _ _ hread
    · rw [if_neg hend] at h
      cases h

end VeriScript
