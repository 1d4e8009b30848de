/-!
# Tables

Finite maps from names, as lists of pairs.  The first pair with a name counts.

* `get?` — the entry of a name.
* `insert` — a new entry in front, the old entry of the name removed: the newest entry comes first.
* `put` — a new entry in the place of the old one, or at the end: the order of first mention is kept.
* `names`, `sortedNames`, `sortByName` — the names of a table, in its order or in the order of code points.
-/

namespace VeriScript.Table

variable {α β : Type}

/-- The first entry of a name. -/
def get? : List (String × α) → String → Option α
  | [], _ => none
  | (k, v) :: t, name => if k = name then some v else get? t name

/-- Whether a name has an entry. -/
def has (t : List (String × α)) (name : String) : Bool :=
  (get? t name).isSome

/-- The table without the entries of a name. -/
def erase : List (String × α) → String → List (String × α)
  | [], _ => []
  | (k, v) :: t, name => if k = name then erase t name else (k, v) :: erase t name

/-- Give a name its newest entry. -/
def insert (t : List (String × α)) (name : String) (v : α) : List (String × α) :=
  (name, v) :: erase t name

/-- Give a name an entry and keep the place of the entry it had. -/
def put : List (String × α) → String → α → List (String × α)
  | [], name, v => [(name, v)]
  | (k, w) :: t, name, v => if k = name then (k, v) :: t else (k, w) :: put t name v

/-- The table that repeated `put` builds: a repeated name keeps its first place and its last entry. -/
def ofList (entries : List (String × α)) : List (String × α) :=
  entries.foldl (fun t e => put t e.1 e.2) []

/-- The names of a table, in its order. -/
def names (t : List (String × α)) : List String :=
  t.map (·.1)

/-- The order of names by code points. -/
def nameLE (a b : String) : Bool :=
  decide (a ≤ b)

/-- The entries in the order of their names. -/
def sortByName (t : List (String × α)) : List (String × α) :=
  t.mergeSort fun a b => nameLE a.1 b.1

/-- The names of a table in order. -/
def sortedNames (t : List (String × α)) : List String :=
  (names t).mergeSort nameLE

/-- The tables have the same names. -/
def sameNames (s : List (String × α)) (t : List (String × β)) : Bool :=
  (names s).all (has t) && (names t).all (has s)

/-! ## Laws -/

theorem get?_cons (e : String × α) (t : List (String × α)) (name : String) :
    get? (e :: t) name = if e.1 = name then some e.2 else get? t name := rfl

theorem get?_erase_of_ne {t : List (String × α)} {name other : String} (h : other ≠ name) :
    get? (erase t name) other = get? t other := by
  induction t with
  | nil => rfl
  | cons e t ih =>
    obtain ⟨k, v⟩ := e
    by_cases hk : k = name
    · subst hk
      simp [erase, get?_cons, Ne.symm h, ih]
    · simp [erase, get?_cons, hk, ih]

theorem mem_erase {t : List (String × α)} {name : String} {e : String × α} :
    e ∈ erase t name ↔ e ∈ t ∧ e.1 ≠ name := by
  induction t with
  | nil => simp [erase]
  | cons f t ih =>
    obtain ⟨k, v⟩ := f
    by_cases hk : k = name
    · simp only [erase, hk, if_true, ih, List.mem_cons]
      refine ⟨fun h => ⟨.inr h.1, h.2⟩, fun h => ⟨h.1.resolve_left fun he => h.2 (he ▸ rfl), h.2⟩⟩
    · simp only [erase, hk, if_false, ih, List.mem_cons]
      refine ⟨fun h => ?_, fun h => h.1.imp_right fun he => ⟨he, h.2⟩⟩
      rcases h with rfl | h
      · exact ⟨.inl rfl, hk⟩
      · exact ⟨.inr h.1, h.2⟩

theorem mem_of_mem_erase {t : List (String × α)} {name : String} {e : String × α} (h : e ∈ erase t name) :
    e ∈ t :=
  (mem_erase.1 h).1

theorem get?_insert_self (t : List (String × α)) (name : String) (v : α) :
    get? (insert t name v) name = some v := by
  simp [insert, get?_cons]

theorem get?_insert_of_ne {t : List (String × α)} {name other : String} {v : α} (h : other ≠ name) :
    get? (insert t name v) other = get? t other := by
  simp [insert, get?_cons, Ne.symm h, get?_erase_of_ne h]

theorem get?_append (s t : List (String × α)) (name : String) :
    get? (s ++ t) name = (get? s name).or (get? t name) := by
  induction s with
  | nil => rfl
  | cons e s ih =>
    obtain ⟨k, v⟩ := e
    by_cases h : k = name <;> simp [get?_cons, h, ih]

theorem get?_map (f : α → β) (t : List (String × α)) (name : String) :
    get? (t.map fun e => (e.1, f e.2)) name = (get? t name).map f := by
  induction t with
  | nil => rfl
  | cons e t ih =>
    obtain ⟨k, v⟩ := e
    by_cases h : k = name <;> simp [get?_cons, h, ih]

theorem mem_of_get? {t : List (String × α)} {name : String} {v : α} (h : get? t name = some v) :
    (name, v) ∈ t := by
  induction t with
  | nil => cases h
  | cons e t ih =>
    rw [get?_cons] at h
    split at h
    · rename_i hk
      cases h
      simp [← hk]
    · exact List.mem_cons_of_mem _ (ih h)

theorem exists_get?_of_mem {t : List (String × α)} {name : String} {v : α} (h : (name, v) ∈ t) :
    ∃ v', get? t name = some v' := by
  induction t with
  | nil => cases h
  | cons e t ih =>
    obtain ⟨k, w⟩ := e
    by_cases hk : k = name
    · exact ⟨w, by simp [get?_cons, hk]⟩
    · simp only [get?_cons, hk, if_false]
      exact ih (by simpa [Ne.symm hk] using h)

theorem has_iff_mem_names {t : List (String × α)} {name : String} : has t name = true ↔ name ∈ names t := by
  rw [has, Option.isSome_iff_exists, names, List.mem_map]
  constructor
  · rintro ⟨v, hv⟩
    exact ⟨_, mem_of_get? hv, rfl⟩
  · rintro ⟨e, he, rfl⟩
    exact exists_get?_of_mem he

theorem sameNames_iff {s : List (String × α)} {t : List (String × β)} :
    sameNames s t = true ↔ ∀ name, has s name = has t name := by
  simp only [sameNames, Bool.and_eq_true, List.all_eq_true, ← has_iff_mem_names]
  constructor
  · rintro ⟨hst, hts⟩ name
    exact Bool.eq_iff_iff.2 ⟨hst name, hts name⟩
  · intro h
    exact ⟨fun name => (h name ▸ ·), fun name => (h name ▸ ·)⟩

theorem get?_of_mem {t : List (String × α)} (h : (names t).Nodup) {e : String × α} (he : e ∈ t) :
    get? t e.1 = some e.2 := by
  induction t with
  | nil => cases he
  | cons f t ih =>
    obtain ⟨hf, ht⟩ : f.1 ∉ names t ∧ (names t).Nodup := List.nodup_cons.1 h
    obtain rfl | he := List.mem_cons.1 he
    · simp [get?_cons]
    · have hmem : e.1 ∈ names t := List.mem_map.2 ⟨e, he, rfl⟩
      have hne : f.1 ≠ e.1 := fun heq => hf (heq.symm ▸ hmem)
      simp [get?_cons, hne, ih ht he]

theorem get?_put (t : List (String × α)) (name : String) (v : α) (other : String) :
    get? (put t name v) other = if other = name then some v else get? t other := by
  induction t with
  | nil => simp [put, get?, eq_comm]
  | cons e t ih =>
    obtain ⟨k, w⟩ := e
    by_cases hk : k = name
    · subst hk
      simp only [put, if_true, get?]
      by_cases ho : other = k <;> simp [ho, eq_comm]
    · simp only [put, hk, if_false, get?, ih]
      by_cases ho : k = other <;> simp_all

/-- Repeated `put` leaves the last entry of a name. -/
theorem get?_ofList (entries : List (String × α)) (name : String) :
    get? (ofList entries) name = get? entries.reverse name := by
  have hfold : ∀ t : List (String × α), get? (entries.foldl (fun t e => put t e.1 e.2) t) name =
      (get? entries.reverse name).or (get? t name) := by
    induction entries with
    | nil => exact fun t => rfl
    | cons e entries ih =>
      intro t
      rw [List.foldl_cons, ih, List.reverse_cons, get?_append, get?_put, Option.or_assoc]
      congr 1
      by_cases h : name = e.1 <;> simp [get?, h, eq_comm]
  exact (hfold []).trans (Option.or_none ..)

theorem get?_reverse_of_nodup {entries : List (String × α)} (h : (names entries).Nodup) (name : String) :
    get? entries.reverse name = get? entries name := by
  induction entries with
  | nil => rfl
  | cons e entries ih =>
    obtain ⟨k, v⟩ := e
    obtain ⟨hk, hentries⟩ := List.nodup_cons.1 h
    rw [List.reverse_cons, get?_append, ih hentries]
    by_cases hname : k = name
    · have hnone : get? entries name = none := by
        cases hget : get? entries name with
        | none => rfl
        | some w => exact absurd (List.mem_map.2 ⟨_, mem_of_get? hget, hname.symm⟩) hk
      simp [get?, hname, hnone]
    · simp [get?, hname]

theorem put_of_not_mem {t : List (String × α)} {name : String} {v : α} (h : name ∉ names t) :
    put t name v = t ++ [(name, v)] := by
  induction t with
  | nil => rfl
  | cons e t ih =>
    obtain ⟨k, w⟩ := e
    obtain ⟨hk, ht⟩ : name ≠ k ∧ name ∉ names t := not_or.1 (mt List.mem_cons.2 h)
    simp [put, Ne.symm hk, ih ht]

/-- Entries with different names make a table as they are. -/
theorem ofList_of_nodup {entries : List (String × α)} (h : (names entries).Nodup) : ofList entries = entries := by
  have hfold : ∀ t : List (String × α), (names (t ++ entries)).Nodup →
      entries.foldl (fun t e => put t e.1 e.2) t = t ++ entries := by
    clear h
    induction entries with
    | nil => simp
    | cons e entries ih =>
      intro t ht
      have hnew : e.1 ∉ names t := by
        rw [names, List.map_append, List.nodup_append] at ht
        exact fun hmem => ht.2.2 e.1 hmem e.1 (by simp) rfl
      rw [List.foldl_cons, put_of_not_mem hnew, ih _ (by simpa using ht), List.append_assoc]
      rfl
  exact hfold [] h

theorem perm_sortByName (t : List (String × α)) : (sortByName t).Perm t :=
  List.mergeSort_perm t _

theorem sortByName_map (f : α → β) (t : List (String × α)) :
    sortByName (t.map fun e => (e.1, f e.2)) = (sortByName t).map fun e => (e.1, f e.2) := by
  unfold sortByName
  rw [List.map_mergeSort]
  exact fun a _ b _ => rfl

end VeriScript.Table
