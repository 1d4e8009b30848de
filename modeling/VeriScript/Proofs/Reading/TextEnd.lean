import VeriScript.Proofs.Reading.Tails

/-!
# The end of a text

* `Text.trailingBlanks` — the blanks that trimming removes.
* `Text.exists_expandTabsFrom_append`, `Text.all_expandTabsFrom` — tabs are expanded piece by piece, into blanks.
* `afterGap` — what is left behind the blanks and comments at the start of a text.
* `InLineComment` — texts that end inside a comment up to the end of its line.
* `afterGap_of_gap`, `afterGap_inLineComment` — a gap that ends a text ends with such a comment or with a closed one,
  and what a tail behind it adds.
-/

namespace VeriScript.Text

/-! ## Blanks at the end -/

/-- The blanks that trimming removes from the right end. -/
def trailingBlanks (s : String) : List Char :=
  (s.toList.reverse.takeWhile isBlank).reverse

theorem toList_trimRight_append (s : String) : (trimRight s).toList ++ trailingBlanks s = s.toList := by
  rw [trimRight, String.toList_ofList, trimRightList, trailingBlanks, ← List.reverse_append,
    List.takeWhile_append_dropWhile, List.reverse_reverse]

theorem isBlank_of_mem_trailingBlanks {s : String} : ∀ c ∈ trailingBlanks s, isBlank c = true := by
  intro c hc
  exact List.all_eq_true.1 List.all_takeWhile c (List.mem_reverse.1 hc)

variable {c : Char}

theorem isBlank_last_trimRight {s : String} (h : (trimRight s).toList.getLast? = some c) : isBlank c = false := by
  rw [trimRight, String.toList_ofList, trimRightList, List.getLast?_reverse] at h
  have hhead := List.head?_dropWhile_not isBlank s.toList.reverse
  rwa [h] at hhead

/-! ## Tabs -/

theorem exists_expandTabsFrom_append (col : Nat) (cs : List Char) :
    ∃ col', ∀ more, expandTabsFrom col (cs ++ more) = expandTabsFrom col cs ++ expandTabsFrom col' more := by
  induction cs generalizing col with
  | nil => exact ⟨col, fun _ => rfl⟩
  | cons c cs ih =>
    by_cases htab : c = '\t'
    · obtain ⟨col', h⟩ := ih (col + (8 - col % 8))
      exact ⟨col', fun more => by simp [expandTabsFrom, htab, h]⟩
    · by_cases hfeed : c = '\n' ∨ c = '\r'
      · obtain ⟨col', h⟩ := ih 0
        exact ⟨col', fun more => by simp [expandTabsFrom, htab, hfeed, h]⟩
      · obtain ⟨col', h⟩ := ih (col + 1)
        exact ⟨col', fun more => by simp [expandTabsFrom, htab, hfeed, h]⟩

theorem expandTabsFrom_singleton (h : c ≠ '\t') (col : Nat) : expandTabsFrom col [c] = [c] := by
  simp [expandTabsFrom, h]

theorem getLast?_expandTabs {cs : List Char} (h : cs.getLast? = some c) (htab : c ≠ '\t') :
    (expandTabs cs).getLast? = some c := by
  obtain ⟨front, rfl⟩ := List.getLast?_eq_some_iff.1 h
  obtain ⟨col, hsplit⟩ := exists_expandTabsFrom_append 0 front
  rw [expandTabs, hsplit, expandTabsFrom_singleton htab]
  simp

theorem all_expandTabsFrom {p : Char → Bool} (htab : p '\t' = true) (hspace : p ' ' = true) (col : Nat)
    (cs : List Char) : (expandTabsFrom col cs).all p = cs.all p := by
  induction cs generalizing col with
  | nil => rfl
  | cons c cs ih =>
    by_cases hc : c = '\t'
    · simp [expandTabsFrom, hc, htab, hspace, ih]
    · by_cases hfeed : c = '\n' ∨ c = '\r' <;> simp [expandTabsFrom, hc, hfeed, ih]

theorem exists_dropWhile_expandTabsFrom (col : Nat) (cs : List Char) :
    ∃ col', (expandTabsFrom col cs).dropWhile (· ≠ '\n') = expandTabsFrom col' (cs.dropWhile (· ≠ '\n')) := by
  induction cs generalizing col with
  | nil => exact ⟨col, rfl⟩
  | cons c cs ih =>
    by_cases hfeed : c = '\n'
    · exact ⟨col, by simp [expandTabsFrom, hfeed]⟩
    · by_cases hc : c = '\t'
      · obtain ⟨col', h⟩ := ih (col + (8 - col % 8))
        refine ⟨col', ?_⟩
        have hspaces : ∀ d ∈ List.replicate (8 - col % 8) ' ', decide (d ≠ '\n') = true := by
          intro d hd
          rw [List.eq_of_mem_replicate hd]
          decide
        have hexpand : expandTabsFrom col (c :: cs) =
            List.replicate (8 - col % 8) ' ' ++ expandTabsFrom (col + (8 - col % 8)) cs := by
          simp [expandTabsFrom, hc]
        rw [List.dropWhile_cons_of_pos (by simp [hfeed]), ← h, hexpand, List.dropWhile_append_of_pos hspaces]
      · obtain ⟨col', h⟩ := ih (if c = '\r' then 0 else col + 1)
        refine ⟨col', ?_⟩
        have hexpand : expandTabsFrom col (c :: cs) = c :: expandTabsFrom (if c = '\r' then 0 else col + 1) cs := by
          by_cases hreturn : c = '\r' <;> simp [expandTabsFrom, hc, hfeed, hreturn]
        rw [List.dropWhile_cons_of_pos (by simp [hfeed]), ← h, hexpand, List.dropWhile_cons_of_pos (by simp [hfeed])]

end VeriScript.Text

namespace VeriScript.Reading

/-! ## Gaps at the end -/

/-- What is left behind the blanks and comments at the start of a text. -/
def afterGap (cs : List Char) : List Char :=
  cs.drop (gapLength cs)

theorem Cursor.rest_skipGap (cur : Cursor) : cur.skipGap.rest = afterGap cur.rest := by
  rw [skipGap, rest_advance, afterGap]

theorem afterGap_nil : afterGap [] = [] := rfl

theorem afterGap_blank {c : Char} (cs : List Char) (h : Text.isGap c = true) : afterGap (c :: cs) = afterGap cs := by
  rw [afterGap, gapLength_blank cs h, List.drop_succ_cons, afterGap]

variable {cs : List Char}

theorem afterGap_comment {n : Nat} (h : commentLength? cs = some n) : afterGap cs = afterGap (cs.drop n) := by
  rw [afterGap, gapLength_comment h, afterGap, List.drop_drop, Nat.add_comm]

theorem afterGap_solid (h : Solid cs) : afterGap cs = cs := by
  rw [afterGap, show gapLength cs = 0 from h, List.drop_zero]

/-- Blanks are all skipped if they may stand between tokens. -/
theorem afterGap_of_blank (h : ∀ c ∈ cs, Text.isBlank c = true) : afterGap cs = [] ↔ cs.all Text.isGap = true := by
  induction cs with
  | nil => simp [afterGap_nil]
  | cons c cs ih =>
    obtain ⟨hc, hcs⟩ := List.forall_mem_cons.1 h
    cases hgap : Text.isGap c with
    | true => rw [afterGap_blank cs hgap, ih hcs, List.all_cons, hgap, Bool.true_and]
    | false =>
      have hslash : c ≠ '/' := by
        rintro rfl
        exact absurd hc (by decide)
      have hsolid : Solid (c :: cs) := solid_cons (by simp [hgap, hslash])
      simp [afterGap_solid hsolid, hgap]

theorem afterGap_tail {tail : List Char} (ht : IsTail tail) (h : afterGap cs ≠ []) :
    afterGap (cs ++ tail) = afterGap cs ++ tail := by
  have hlength := (gapLength_tail ht cs).1 h
  rw [afterGap, hlength, List.drop_append_of_le_length (gapLength_le cs), afterGap]

/-- Blanks and comments, the last of which is a comment up to the end of a line that does not end. -/
inductive InLineComment : List Char → Prop where
  | blank {c : Char} {cs : List Char} (hgap : Text.isGap c = true) (h : InLineComment cs) : InLineComment (c :: cs)
  | comment {cs : List Char} {n : Nat} (hcomment : commentLength? cs = some n) (h : InLineComment (cs.drop n)) :
    InLineComment cs
  | line {body : List Char} (h : lineCommentLength body = body.length) : InLineComment ('/' :: '/' :: body)

theorem InLineComment.ne_nil (h : InLineComment cs) : cs ≠ [] := by
  cases h with
  | blank hgap h => simp
  | comment hcomment h =>
    rintro rfl
    cases hcomment
  | line h => simp

theorem getLast?_drop_of_ne_nil {n : Nat} (h : cs.drop n ≠ []) : (cs.drop n).getLast? = cs.getLast? := by
  have hlength : ¬ cs.length ≤ n := fun hle => h (List.drop_eq_nil_of_le hle)
  rw [List.getLast?_drop, if_neg hlength]

theorem lineCommentLength_of_not_mem (h : '\\' ∉ cs) : lineCommentLength cs = (cs.takeWhile (· ≠ '\n')).length := by
  induction cs with
  | nil => rfl
  | cons c cs ih =>
    obtain ⟨hc, hcs⟩ := not_or.1 (mt List.mem_cons.2 h)
    by_cases hfeed : c = '\n'
    · subst hfeed
      rfl
    · rw [lineCommentLength_cons hfeed fun _ hbackslash => absurd hbackslash.symm hc, ih hcs]
      simp [hfeed]

theorem getLast?_ne_of_append {α : Type} {a : α} {ys : List α} (xs : List α) (h : (xs ++ ys).getLast? ≠ some a) :
    ys.getLast? ≠ some a := by
  rw [List.getLast?_append] at h
  cases hys : ys.getLast? <;> simp_all

/-- A line goes on behind the text up to the next line feed. -/
theorem lineCommentLength_open {body more : List Char} (h : lineCommentLength body = body.length)
    (hbackslash : '\\' ∉ more) (hfeed : more.head? = some '\n' → body.getLast? ≠ some '\\') :
    lineCommentLength (body ++ more) = body.length + (more.takeWhile (· ≠ '\n')).length := by
  fun_induction lineCommentLength body with
  | case1 => simp [lineCommentLength_of_not_mem hbackslash]
  | case2 cs ih =>
    have hbody := ih (by simpa using h) fun hhead => getLast?_ne_of_append ['\\', '\n'] (hfeed hhead)
    have hstep : lineCommentLength ('\\' :: '\n' :: cs ++ more) = lineCommentLength (cs ++ more) + 2 := rfl
    rw [hstep, hbody]
    simp only [List.length_cons]
    omega
  | case3 cs => simp at h
  | case4 c cs hescape hc ih =>
    have hstep : lineCommentLength (c :: cs ++ more) = lineCommentLength (cs ++ more) + 1 := by
      refine lineCommentLength_cons hc fun rest hslash hrest => ?_
      cases cs with
      | nil => exact hfeed (by simpa using congrArg List.head? hrest) (by simp [hslash])
      | cons d cs =>
        obtain ⟨rfl, -⟩ := List.cons.inj hrest
        exact hescape cs hslash rfl
    have hbody := ih (by simpa using h) fun hhead => getLast?_ne_of_append [c] (hfeed hhead)
    rw [hstep, hbody, List.length_cons]
    omega

theorem afterGap_inLineComment {tail cs : List Char} (ht : IsTail tail) (h : InLineComment cs)
    (hfeed : tail.head? = some '\n' → cs.getLast? ≠ some '\\') :
    afterGap (cs ++ tail) = afterGap (tail.dropWhile (· ≠ '\n')) := by
  induction h with
  | blank hgap h ih =>
    rename_i c cs
    rw [List.cons_append, afterGap_blank _ hgap]
    refine ih fun hhead => ?_
    rw [← List.getLast?_cons_of_ne_nil h.ne_nil]
    exact hfeed hhead
  | comment hcomment h ih =>
    rw [afterGap_comment ((commentLength?_tail ht hcomment).1 h.ne_nil),
      List.drop_append_of_le_length (commentLength?_bounds hcomment).2.1]
    refine ih fun hhead => ?_
    rw [getLast?_drop_of_ne_nil h.ne_nil]
    exact hfeed hhead
  | line h =>
    rename_i body
    have hlength : lineCommentLength (body ++ tail) = body.length + (tail.takeWhile (· ≠ '\n')).length := by
      refine lineCommentLength_open h (ht.not_mem (by decide)) fun hhead => ?_
      cases body with
      | nil => simp
      | cons d body => exact hfeed hhead
    have hcomment : commentLength? ('/' :: '/' :: body ++ tail) = some (lineCommentLength (body ++ tail) + 2) := rfl
    have hdrop : (body ++ tail).drop (lineCommentLength (body ++ tail)) = tail.dropWhile (· ≠ '\n') := by
      have hsplit : (tail.takeWhile (· ≠ '\n') ++ tail.dropWhile (· ≠ '\n')).drop (tail.takeWhile (· ≠ '\n')).length =
          tail.dropWhile (· ≠ '\n') := List.drop_left
      rw [hlength, ← List.drop_drop, List.drop_left]
      rwa [List.takeWhile_append_dropWhile] at hsplit
    rw [afterGap_comment hcomment, ← hdrop]
    rfl

/-- A gap that ends the text, but not with a blank, ends inside a comment up to the end of a line, or with a closed
comment. -/
theorem afterGap_of_gap {c : Char} (h : afterGap cs = []) (hlast : cs.getLast? = some c) (hgap : Text.isGap c = false) :
    InLineComment cs ∨ c = '/' ∧ ∀ {tail}, IsTail tail → afterGap (cs ++ tail) = afterGap tail := by
  induction cs using gap_induction with
  | nil => cases hlast
  | blank d cs hblank ih =>
    rw [afterGap_blank cs hblank] at h
    have hne : cs ≠ [] := by
      rintro rfl
      have hd : d = c := by simpa using hlast
      rw [hd, hgap] at hblank
      cases hblank
    rw [List.getLast?_cons_of_ne_nil hne] at hlast
    rcases ih h hlast with hopen | ⟨rfl, hclosed⟩
    · exact .inl (.blank hblank hopen)
    · refine .inr ⟨rfl, fun ht => ?_⟩
      rw [List.cons_append, afterGap_blank _ hblank, hclosed ht]
  | comment cs n hcomment ih =>
    rw [afterGap_comment hcomment] at h
    by_cases hne : cs.drop n = []
    · rcases commentLength?_cases hcomment with ⟨body, m, rfl, hm, rfl⟩ | ⟨body, rfl, rfl⟩
      · obtain ⟨-, hle, hslash⟩ := blockCommentEnd?_bounds hm
        have hm' : m = body.length := Nat.le_antisymm hle (by simpa using hne)
        subst hm'
        rw [List.take_length] at hslash
        have hbody : body ≠ [] := by
          rintro rfl
          cases hslash
        rw [List.getLast?_cons_of_ne_nil (by simp), List.getLast?_cons_of_ne_nil hbody, hslash] at hlast
        cases hlast
        refine .inr ⟨rfl, fun ht => ?_⟩
        rw [afterGap_comment (commentLength?_block_tail ht hm)]
        exact congrArg afterGap List.drop_left
      · have hlength : lineCommentLength body = body.length :=
          Nat.le_antisymm (lineCommentLength_le body) (by simpa using hne)
        exact .inl (.line hlength)
    · rcases ih h ((getLast?_drop_of_ne_nil hne).trans hlast) with hopen | ⟨rfl, hclosed⟩
      · exact .inl (.comment hcomment hopen)
      · refine .inr ⟨rfl, fun ht => ?_⟩
        rw [afterGap_comment ((commentLength?_tail ht hcomment).1 hne),
          List.drop_append_of_le_length (commentLength?_bounds hcomment).2.1, hclosed ht]
  | solid d cs hsolid hcomment =>
    rw [afterGap_solid (gapLength_solid hsolid hcomment)] at h
    cases h

end VeriScript.Reading
