import VeriScript.Proofs.Reading.Tokens

/-!
# Blanks and comments

* `gap_induction` — a text starts with a blank, with a comment or with neither.
* `gapLength_blank`, `gapLength_comment`, `gapLength_solid` — how far a gap goes in each of these cases.
* `head_of_gap`, `Cursor.apart_skipGap` — what a gap starts with, and that no word touches what comes behind it.
-/

namespace VeriScript.Reading

open VeriScript.Reading.Parser

/-! ## Comments -/

variable {cs : List Char} {n : Nat} {c : Char}

theorem blockCommentEnd?_bounds (h : blockCommentEnd? cs = some n) :
    2 ≤ n ∧ n ≤ cs.length ∧ (cs.take n).getLast? = some '/' := by
  fun_induction blockCommentEnd? cs generalizing n with
  | case1 => cases h
  | case2 cs =>
    cases h
    simp
  | case3 c cs _ ih =>
    obtain ⟨m, hm, rfl⟩ := Option.map_eq_some_iff.1 h
    obtain ⟨htwo, hle, hlast⟩ := ih hm
    refine ⟨by omega, by simpa using hle, ?_⟩
    rw [List.take_succ_cons, List.getLast?_cons, hlast]
    rfl

theorem lineCommentLength_le (cs : List Char) : lineCommentLength cs ≤ cs.length := by
  fun_induction lineCommentLength cs with
  | case1 => simp
  | case2 cs ih => simp only [List.length_cons]; omega
  | case3 => simp
  | case4 c cs _ _ ih => simp only [List.length_cons]; omega

/-- A comment up to the end of the line stops in front of a line feed, or at the end of the text. -/
theorem drop_lineCommentLength (cs : List Char) :
    cs.drop (lineCommentLength cs) = [] ∨ ∃ more, cs.drop (lineCommentLength cs) = '\n' :: more := by
  fun_induction lineCommentLength cs with
  | case1 => exact .inl rfl
  | case2 cs ih => exact ih
  | case3 cs => exact .inr ⟨cs, rfl⟩
  | case4 c cs _ _ ih => exact ih

theorem commentLength?_cases (h : commentLength? cs = some n) :
    (∃ body m, cs = '/' :: '*' :: body ∧ blockCommentEnd? body = some m ∧ n = m + 2) ∨
      ∃ body, cs = '/' :: '/' :: body ∧ n = lineCommentLength body + 2 := by
  unfold commentLength? at h
  split at h
  · rename_i body
    obtain ⟨m, hm, rfl⟩ := Option.map_eq_some_iff.1 h
    exact .inl ⟨body, m, rfl, hm, rfl⟩
  · rename_i body
    cases h
    exact .inr ⟨body, rfl, rfl⟩
  · cases h

theorem commentLength?_bounds (h : commentLength? cs = some n) : 2 ≤ n ∧ n ≤ cs.length ∧ cs.head? = some '/' := by
  rcases commentLength?_cases h with ⟨body, m, rfl, hm, rfl⟩ | ⟨body, rfl, rfl⟩
  · obtain ⟨htwo, hle, -⟩ := blockCommentEnd?_bounds hm
    exact ⟨by omega, by simpa using hle, rfl⟩
  · exact ⟨by omega, by simpa using lineCommentLength_le body, rfl⟩

/-! ## Gaps -/

/-- There are as many pieces in a gap as there are characters, at most. -/
theorem gapLengthIn_eq {fuel : Nat} (h : cs.length ≤ fuel) : gapLengthIn fuel cs = gapLength cs := by
  suffices hsame : ∀ m n cs, cs.length ≤ m → cs.length ≤ n → gapLengthIn m cs = gapLengthIn n cs from
    hsame fuel cs.length cs h (Nat.le_refl _)
  intro m
  induction m with
  | zero =>
    intro n cs hm _
    have hnil : cs = [] := List.length_eq_zero_iff.1 (by omega)
    subst hnil
    cases n <;> rfl
  | succ m ih =>
    intro n cs hm hn
    cases cs with
    | nil => cases n <;> rfl
    | cons c cs =>
      obtain ⟨n, rfl⟩ := Nat.exists_eq_succ_of_ne_zero (show n ≠ 0 by simp at hn; omega)
      simp only [List.length_cons, Nat.succ_eq_add_one, Nat.add_le_add_iff_right] at hm hn
      simp only [gapLengthIn, ih n cs hm hn]
      cases hcomment : commentLength? (c :: cs) with
      | none => rfl
      | some k =>
        obtain ⟨htwo, -, -⟩ := commentLength?_bounds hcomment
        have hdrop : ((c :: cs).drop k).length ≤ cs.length := by
          rw [List.length_drop, List.length_cons]
          omega
        simp only [ih n ((c :: cs).drop k) (by omega) (by omega)]

theorem gapLength_nil : gapLength [] = 0 := rfl

theorem gapLength_blank (cs : List Char) (h : Text.isGap c = true) : gapLength (c :: cs) = gapLength cs + 1 := by
  simp [gapLength, gapLengthIn, h]

theorem isGap_of_comment (h : commentLength? cs = some n) : ∃ c more, cs = c :: more ∧ Text.isGap c = false := by
  obtain ⟨-, -, hhead⟩ := commentLength?_bounds h
  obtain ⟨more, rfl⟩ := List.head?_eq_some_iff.1 hhead
  exact ⟨'/', more, rfl, by decide⟩

theorem gapLength_comment (h : commentLength? cs = some n) : gapLength cs = gapLength (cs.drop n) + n := by
  obtain ⟨c, more, rfl, hgap⟩ := isGap_of_comment h
  obtain ⟨htwo, -, -⟩ := commentLength?_bounds h
  rw [gapLength, List.length_cons, gapLengthIn, hgap]
  simp only [Bool.false_eq_true, if_false, h]
  rw [gapLengthIn_eq]
  rw [List.length_drop, List.length_cons]
  omega

theorem gapLength_solid (hgap : Text.isGap c = false)
    (hcomment : commentLength? (c :: cs) = none) : gapLength (c :: cs) = 0 :=
  solid_of_commentLength hgap hcomment

@[elab_as_elim]
theorem gap_induction {P : List Char → Prop} (nil : P [])
    (blank : ∀ c cs, Text.isGap c = true → P cs → P (c :: cs))
    (comment : ∀ cs n, commentLength? cs = some n → P (cs.drop n) → P cs)
    (solid : ∀ c cs, Text.isGap c = false → commentLength? (c :: cs) = none → P (c :: cs)) (cs : List Char) : P cs := by
  suffices h : ∀ k (cs : List Char), cs.length ≤ k → P cs from h cs.length cs (Nat.le_refl _)
  intro k
  induction k with
  | zero =>
    intro cs hlen
    have hnil : cs = [] := List.length_eq_zero_iff.1 (by omega)
    exact hnil ▸ nil
  | succ k ih =>
    intro cs hlen
    cases cs with
    | nil => exact nil
    | cons c cs =>
      by_cases hgap : Text.isGap c = true
      · exact blank c cs hgap (ih cs (by simpa using hlen))
      · cases hcomment : commentLength? (c :: cs) with
        | none => exact solid c cs (Bool.eq_false_iff.2 hgap) hcomment
        | some n =>
          obtain ⟨htwo, -, -⟩ := commentLength?_bounds hcomment
          refine comment _ n hcomment (ih _ ?_)
          rw [List.length_drop]
          omega

theorem gapLength_le (cs : List Char) : gapLength cs ≤ cs.length := by
  induction cs using gap_induction with
  | nil => simp [gapLength_nil]
  | blank c cs hgap ih =>
    rw [gapLength_blank _ hgap]
    simpa using ih
  | comment cs n hcomment ih =>
    have hle := (commentLength?_bounds hcomment).2.1
    rw [gapLength_comment hcomment]
    rw [List.length_drop] at ih
    omega
  | solid c cs hgap hcomment => simp [gapLength_solid hgap hcomment]

theorem head_of_gap (h : gapLength cs ≠ 0) : ∃ c more, cs = c :: more ∧ (Text.isGap c = true ∨ c = '/') := by
  cases cs with
  | nil => exact absurd gapLength_nil h
  | cons c cs =>
    refine ⟨c, cs, rfl, ?_⟩
    by_cases hgap : Text.isGap c = true
    · exact .inl hgap
    · right
      cases hcomment : commentLength? (c :: cs) with
      | none => exact absurd (gapLength_solid (Bool.eq_false_iff.2 hgap) hcomment) h
      | some n => simpa using (commentLength?_bounds hcomment).2.2

/-! ## Words -/

theorem isWordChar_of_gap (h : Text.isGap c = true ∨ c = '/') : isWordChar c = false := by
  rcases h with h | rfl
  · simp only [Text.isGap, Bool.or_eq_true, beq_iff_eq] at h
    rcases h with ((rfl | rfl) | rfl) | rfl <;> decide
  · decide

/-- A gap ends with no word, unless the text ends with it. -/
theorem last_of_gap (cs : List Char) :
    cs.drop (gapLength cs) ≠ [] → (cs.take (gapLength cs)).getLast?.any isWordChar = false := by
  induction cs using gap_induction with
  | nil => exact fun h => absurd rfl h
  | blank c cs hgap ih =>
    intro hrest
    rw [gapLength_blank cs hgap] at hrest ⊢
    have hlast := ih hrest
    rw [List.take_succ_cons, List.getLast?_cons]
    cases hinner : (cs.take (gapLength cs)).getLast? with
    | none => exact isWordChar_of_gap (.inl hgap)
    | some d => simpa [hinner] using hlast
  | comment cs n hcomment ih =>
    intro hrest
    have hle := (commentLength?_bounds hcomment).2.1
    rw [gapLength_comment hcomment] at hrest ⊢
    rw [Nat.add_comm, ← List.drop_drop] at hrest
    have hlast := ih hrest
    rw [Nat.add_comm, List.take_add, List.getLast?_append]
    cases hinner : ((cs.drop n).take (gapLength (cs.drop n))).getLast? with
    | some d => simpa [hinner] using hlast
    | none =>
      -- the gap ends with the comment, which is then no comment up to the end of a line
      have hzero : gapLength (cs.drop n) = 0 := by
        rw [List.getLast?_eq_none_iff, List.take_eq_nil_iff] at hinner
        rcases hinner with hzero | hnil
        · exact hzero
        · rw [hnil, gapLength_nil]
      rw [hzero, List.drop_zero] at hrest
      rcases commentLength?_cases hcomment with ⟨body, m, rfl, hm, rfl⟩ | ⟨body, rfl, rfl⟩
      · obtain ⟨htwo, -, hslash⟩ := blockCommentEnd?_bounds hm
        simp [List.take_succ_cons, List.getLast?_cons, hslash, isWordChar_of_gap (.inr rfl)]
      · rcases drop_lineCommentLength body with hnil | ⟨more, hfeed⟩
        · exact absurd hnil hrest
        · have hfirst : ('/' :: '/' :: body).drop (lineCommentLength body + 2) = '\n' :: more := hfeed
          rw [hfirst, gapLength_blank more (by decide)] at hzero
          cases hzero
  | solid c cs hgap hcomment =>
    intro _
    rw [gapLength_solid hgap hcomment]
    rfl

namespace Cursor

variable {cur : Cursor}

theorem before_advance (n : Nat) (cur : Cursor) :
    (cur.advance n).before = (cur.rest.take n).getLast?.or cur.before := by
  induction n generalizing cur with
  | zero => simp [advance]
  | succ n ih =>
    cases hrest : cur.rest with
    | nil => simp [advance, hrest]
    | cons c cs =>
      rw [advance, hrest]
      simp only
      rw [ih, rest_step, before_step, List.take_succ_cons, List.getLast?_cons]
      cases (cs.take n).getLast? <;> rfl

theorem apart_skipGap (hrest : cur.skipGap.rest ≠ [])
    (h : gapLength cur.rest ≠ 0 ∨ cur.before.any isWordChar = false) : cur.skipGap.before.any isWordChar = false := by
  rw [skipGap, rest_advance] at hrest
  have hlast := last_of_gap cur.rest hrest
  rw [skipGap, before_advance]
  cases hinner : (cur.rest.take (gapLength cur.rest)).getLast? with
  | some c => simpa [hinner] using hlast
  | none =>
    rcases h with hgap | hbefore
    · rw [List.getLast?_eq_none_iff, List.take_eq_nil_iff] at hinner
      rcases hinner with hzero | hnil
      · exact absurd hzero hgap
      · rw [hnil] at hgap
        exact absurd gapLength_nil hgap
    · exact hbefore

end Cursor

end VeriScript.Reading
