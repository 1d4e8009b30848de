import Mathlib.Data.List.Nodup
import VeriScript.Typing.Checker

/-!
# Names that generalisation gives to holes

* `variableName_injective` — no name is given to two holes.
* `mem_freshNames`, `freshNames_nodup`, `length_freshNames` — as many names as asked for, all different and none
  of them used.
* `Bindings.uninstall_install` — the bindings that generalisation makes for a time cancel.
* `Check.generalize_eq` — so generalising gives the schema `schemaOf` and leaves the state as it is.
-/

namespace VeriScript

theorem variableLetter_injective : ∀ i j : Fin 26, Char.ofNat (97 + i) = Char.ofNat (97 + j) → i = j := by
  decide

/-- The number behind the letter of a variable, as digits; there is none for the first 26. -/
def variableDigits (n : Nat) : List Char :=
  if n < 26 then [] else Nat.toDigits 10 (n / 26)

theorem ofDigitChars_variableDigits (n : Nat) : Nat.ofDigitChars 10 (variableDigits n) 0 = n / 26 := by
  unfold variableDigits
  split
  · rename_i h
    rw [Nat.div_eq_of_lt h]
    rfl
  · exact Nat.ofDigitChars_ten_toDigits

theorem toList_variableName (n : Nat) :
    (variableName n).toList = Char.ofNat (97 + n % 26) :: variableDigits n := by
  unfold variableName variableDigits
  dsimp only
  split <;> simp [Text.decimalNat]

theorem variableName_injective : Function.Injective variableName := by
  intro m n h
  have hlist := congrArg String.toList h
  rw [toList_variableName, toList_variableName] at hlist
  obtain ⟨hletter, hdigits⟩ := List.cons.inj hlist
  have hmod : m % 26 = n % 26 := by
    have hm : m % 26 < 26 := Nat.mod_lt _ (by decide)
    have hn : n % 26 < 26 := Nat.mod_lt _ (by decide)
    exact congrArg Fin.val (variableLetter_injective ⟨_, hm⟩ ⟨_, hn⟩ hletter)
  have hdiv : m / 26 = n / 26 := by
    rw [← ofDigitChars_variableDigits, hdigits, ofDigitChars_variableDigits]
  omega

variable {used : List String} {fuel count start : Nat} {x : String}

theorem mem_freshNames (h : x ∈ freshNames used fuel count start) :
    x ∉ used ∧ ∃ n, start ≤ n ∧ x = variableName n := by
  fun_induction freshNames used fuel count start with
  | case1 => cases h
  | case2 => cases h
  | case3 fuel count start name hused ih =>
    obtain ⟨hx, n, hn, hname⟩ := ih h
    exact ⟨hx, n, by omega, hname⟩
  | case4 fuel count start name hused ih =>
    obtain rfl | h := List.mem_cons.1 h
    · exact ⟨by simpa using hused, start, Nat.le_refl _, rfl⟩
    · obtain ⟨hx, n, hn, hname⟩ := ih h
      exact ⟨hx, n, by omega, hname⟩

theorem freshNames_nodup : (freshNames used fuel count start).Nodup := by
  fun_induction freshNames used fuel count start with
  | case1 => exact .nil
  | case2 => exact .nil
  | case3 fuel count start name hused ih => exact ih
  | case4 fuel count start name hused ih =>
    refine List.nodup_cons.2 ⟨fun hmem => ?_, ih⟩
    obtain ⟨-, n, hn, hname⟩ := mem_freshNames hmem
    have : start = n := variableName_injective hname
    omega

/-- Names that are found in use are among `rest`, which gets shorter with each of them. -/
theorem length_freshNames_of_rest (rest : List String)
    (hrest : ∀ n, start ≤ n → variableName n ∈ used → variableName n ∈ rest) (hfuel : rest.length + count ≤ fuel) :
    (freshNames used fuel count start).length = count := by
  induction fuel generalizing count start rest with
  | zero => exact (Nat.eq_zero_of_add_eq_zero (Nat.le_zero.1 hfuel)).2.symm
  | succ fuel ih =>
    cases count with
    | zero => rfl
    | succ count =>
      rw [freshNames]
      split
      · rename_i hused
        have hname : variableName start ∈ rest := hrest start (Nat.le_refl _) (by simpa using hused)
        have hpos : 0 < rest.length := List.length_pos_of_mem hname
        have hlength : (rest.erase (variableName start)).length = rest.length - 1 := List.length_erase_of_mem hname
        refine ih (rest.erase (variableName start)) (fun n hn hmem => ?_) (by omega)
        have hne : variableName n ≠ variableName start := variableName_injective.ne (by omega)
        exact (List.mem_erase_of_ne hne).2 (hrest n (by omega) hmem)
      · rw [List.length_cons, ih rest (fun n hn => hrest n (by omega)) (by omega)]

theorem length_freshNames : (freshNames used (used.length + count) count start).length = count :=
  length_freshNames_of_rest used (fun _ _ h => h) (Nat.le_refl _)

/-! ## Bindings for a time -/

/-- A type whose bindings are applied, as a schema: it quantifies the named variables of the type, and the holes that
are not among `kept` under new names. -/
def Ty.generalizeOver (kept : List Nat) (t : Ty) : Schema :=
  let rigid := t.varNames
  let holes := t.holes.filter fun id => !kept.contains id
  let names := freshNames rigid (rigid.length + holes.length) holes.length 0
  ⟨rigid ++ names, (holes.zip names).foldl (fun t h => Ty.fill h.1 (.var h.2) t) t⟩

namespace Bindings

theorem uninstall_install (bs : Bindings) (names : List (Nat × String)) : (bs.install names).uninstall names = bs := by
  induction names generalizing bs with
  | nil => rfl
  | cons h names ih =>
    -- what was bound after the first name is taken out before it
    show (uninstall (install ((h.1, .var h.2) :: bs) names) names).eraseP (·.1 == h.1) = bs
    rw [ih, List.eraseP_cons_of_pos (by simp)]

theorem applyBindings_install (bs : Bindings) (names : List (Nat × String)) (t : Ty) :
    Ty.applyBindings (bs.install names) t =
      names.foldl (fun t h => Ty.fill h.1 (.var h.2) t) (Ty.applyBindings bs t) := by
  induction names generalizing bs with
  | nil => rfl
  | cons h names ih => exact ih ((h.1, .var h.2) :: bs)

theorem suffix_install (bs : Bindings) (names : List (Nat × String)) : bs <:+ bs.install names := by
  induction names generalizing bs with
  | nil => exact List.suffix_refl bs
  | cons h names ih => exact (List.suffix_cons _ bs).trans (ih _)

end Bindings

namespace Check

/-- The holes that stay as they are because the environment has them. -/
def keptHoles (env : TypeEnv) (bs : Bindings) : List Nat :=
  env.types.flatMap fun e => (Ty.applyBindings bs e.2.type).holes

/-- The holes that generalising a type names, with their names. -/
def namedHoles (env : TypeEnv) (bs : Bindings) (t : Ty) : List (Nat × String) :=
  (Ty.applyBindings bs t).holeNames (keptHoles env bs)

/-- The schema of a type. -/
def schemaOf (env : TypeEnv) (bs : Bindings) (t : Ty) : Schema :=
  (Ty.applyBindings bs t).generalizeOver (keptHoles env bs)

theorem generalize_eq (env : TypeEnv) (st : CheckState) (t : Ty) :
    generalize env t st = .ok (schemaOf env st.bindings t) st := by
  let names := namedHoles env st.bindings t
  have hnames : names.map (·.2) = freshNames (Ty.applyBindings st.bindings t).varNames _ _ 0 :=
    List.map_snd_zip (Nat.le_of_eq length_freshNames)
  show EStateM.Result.ok (Schema.mk (_ ++ names.map (·.2)) (Ty.applyBindings (st.bindings.install names) t))
    { st with bindings := (st.bindings.install names).uninstall names } = _
  rw [hnames, Bindings.applyBindings_install, Bindings.uninstall_install]
  rfl

end Check

end VeriScript
