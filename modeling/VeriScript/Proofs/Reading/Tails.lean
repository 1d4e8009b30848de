import VeriScript.Proofs.Reading.Gaps

/-!
# Blanks and semicolons behind a text

Blanks and semicolons at the end of a text continue no token, close no comment and no string, and change nothing in
front of them.

* `Text.mem_blankChars` — the blanks, one by one.
* `IsTail` — texts of blanks and semicolons.
* `IgnoresTail` — measures of tokens that a tail does not change; `ignoresTail_run`, `ignoresTail_int`,
  `ignoresTail_string`, `ignoresTail_between`, `ignoresTail_symbol` for the shapes of tokens.
* `gapLength_tail` — a gap in front of a token is not changed by a tail.
* `Cursor.append`, `Cursor.skipGap_append` — a position with more text at the end.
-/

namespace VeriScript.Text

def blankCodes : List Nat :=
  [0x9, 0xa, 0xb, 0xc, 0xd, 0x1c, 0x1d, 0x1e, 0x1f, 0x20, 0x85, 0xa0, 0x1680, 0x2000, 0x2001, 0x2002, 0x2003, 0x2004,
    0x2005, 0x2006, 0x2007, 0x2008, 0x2009, 0x200a, 0x2028, 0x2029, 0x202f, 0x205f, 0x3000]

def blankChars : List Char :=
  blankCodes.map Char.ofNat

theorem mem_blankChars {c : Char} (h : isBlank c = true) : c ∈ blankChars := by
  have hcode : c.toNat ∈ blankCodes := by
    simp only [isBlank, Bool.or_eq_true, Bool.and_eq_true, decide_eq_true_eq, beq_iff_eq] at h
    simp only [blankCodes, List.mem_cons, List.not_mem_nil, or_false]
    omega
  rw [← Char.ofNat_toNat c]
  exact List.mem_map_of_mem hcode

end VeriScript.Text

namespace VeriScript.Reading

open VeriScript.Reading.Parser

/-! ## Tails -/

def tailChars : List Char :=
  ';' :: Text.blankChars

/-- The text has blanks and semicolons only. -/
def IsTail (cs : List Char) : Prop :=
  ∀ c ∈ cs, c ∈ tailChars

theorem isTail_nil : IsTail [] := by simp [IsTail]

theorem isTail_semicolon : IsTail [';'] := by simp [IsTail, tailChars]

variable {cs : List Char}

theorem isTail_of_blank (h : ∀ c ∈ cs, Text.isBlank c = true) : IsTail cs :=
  fun c hc => List.mem_cons_of_mem _ (Text.mem_blankChars (h c hc))

section
variable {tail : List Char} (ht : IsTail tail)
include ht

theorem IsTail.of_suffix {cs : List Char} (h : cs <:+ tail) : IsTail cs :=
  fun c hc => ht c (h.subset hc)

theorem IsTail.not_mem {d : Char} (hd : tailChars.contains d = false) : d ∉ tail := by
  intro hmem
  have hcontains := List.contains_iff_mem.2 (ht d hmem)
  rw [hd] at hcontains
  cases hcontains

theorem IsTail.head {p : Char → Bool} (hp : tailChars.any p = false) : tail.head?.any p = false := by
  cases tail with
  | nil => rfl
  | cons c tail => exact Bool.eq_false_iff.2 (List.any_eq_false.1 hp c (ht c (by simp)))

theorem runLength_tail {p : Char → Bool} (hp : tailChars.any p = false) (cs : List Char) :
    runLength p (cs ++ tail) = runLength p cs := by
  induction cs with
  | nil =>
    cases tail with
    | nil => rfl
    | cons c tail =>
      have hc : p c = false := by simpa using ht.head hp
      simp [runLength, hc]
  | cons c cs ih =>
    simp only [runLength, List.cons_append, List.takeWhile_cons] at ih ⊢
    split
    · simp [ih]
    · rfl

theorem isPrefixOf_tail {word : List Char} (hword : word.any tailChars.contains = false) (cs : List Char) :
    word.isPrefixOf (cs ++ tail) = word.isPrefixOf cs := by
  induction word generalizing cs with
  | nil => simp
  | cons d word ih =>
    obtain ⟨hd, hword⟩ := Bool.or_eq_false_iff.1 hword
    cases cs with
    | nil =>
      cases tail with
      | nil => rfl
      | cons c tail =>
        have hne : d ≠ c := by
          rintro rfl
          exact ht.not_mem hd (by simp)
        simp [List.isPrefixOf, hne]
    | cons c cs => simp [List.isPrefixOf, ih hword]

end

/-! ## Shapes of tokens -/

/-- What the measure takes is never empty and never longer than the text, and a tail does not change it. -/
structure IgnoresTail (size? : List Char → Option Nat) : Prop where
  bounds : ∀ {cs n}, size? cs = some n → 0 < n ∧ n ≤ cs.length
  append : ∀ {tail}, IsTail tail → ∀ cs, size? (cs ++ tail) = size? cs

theorem runLength_le (p : Char → Bool) (cs : List Char) : runLength p cs ≤ cs.length :=
  (List.takeWhile_prefix p).length_le

theorem ignoresTail_run {size? : List Char → Option Nat} (size : Char → Nat → Option Nat) (inner : Char → Bool)
    (hnil : size? [] = none) (hcons : ∀ c cs, size? (c :: cs) = size c (runLength inner cs))
    (hinner : tailChars.any inner = false) (hsize : ∀ {c n k}, size c n = some k → 0 < k ∧ k ≤ n + 1)
    (htail : ∀ c ∈ tailChars, ∀ n, size c n = none) : IgnoresTail size? where
  bounds := by
    intro cs n h
    cases cs with
    | nil => simp [hnil] at h
    | cons c cs =>
      rw [hcons] at h
      have hrun := runLength_le inner cs
      have := hsize h
      simp only [List.length_cons]
      omega
  append := by
    intro tail ht cs
    cases cs with
    | cons c cs => rw [List.cons_append, hcons, hcons, runLength_tail ht hinner]
    | nil =>
      cases tail with
      | nil => rfl
      | cons c tail => rw [List.nil_append, hcons, hnil, htail c (ht c (by simp))]

theorem ignoresTail_name : IgnoresTail nameSize? := by
  refine ignoresTail_run
    (fun c n => if c.isAlpha then some (n + 1) else if c = '_' ∧ n ≠ 0 then some (n + 1) else none) isNameChar
    rfl (fun _ _ => rfl) (by decide) ?_ ?_
  · intro c n k h
    split at h
    · cases h
      omega
    · simp only [Option.ite_none_right_eq_some, Option.some.injEq] at h
      omega
  · have hclass : ∀ c ∈ tailChars, c.isAlpha = false ∧ c ≠ '_' := forall_mem_of_all rfl
    intro c hc n
    simp [hclass c hc]

theorem ignoresTail_wildcard : IgnoresTail wildcardSize? := by
  refine ignoresTail_run (fun c n => if c = '_' ∧ n = 0 then some 1 else none) isNameChar rfl (fun _ _ => rfl)
    (by decide) ?_ ?_
  · intro c n k h
    simp only [Option.ite_none_right_eq_some, Option.some.injEq] at h
    omega
  · have hclass : ∀ c ∈ tailChars, c ≠ '_' := forall_mem_of_all rfl
    intro c hc n
    simp [hclass c hc]

/-- Tokens of one first character of a class and a run behind it. -/
theorem ignoresTail_class {size? : List Char → Option Nat} (start inner : Char → Bool) (hnil : size? [] = none)
    (hcons : ∀ c cs, size? (c :: cs) = if start c then some (runLength inner cs + 1) else none)
    (hstart : tailChars.any start = false) (hinner : tailChars.any inner = false) :
    IgnoresTail size? := by
  refine ignoresTail_run (fun c n => if start c then some (n + 1) else none) inner hnil hcons hinner ?_ ?_
  · intro c n k h
    simp only [Option.ite_none_right_eq_some, Option.some.injEq] at h
    omega
  · intro c hc n
    exact if_neg (List.any_eq_false.1 hstart c hc)

theorem ignoresTail_typeName : IgnoresTail typeNameSize? :=
  ignoresTail_class Char.isUpper isTypeNameChar rfl (fun _ _ => rfl) rfl rfl

theorem ignoresTail_typeVar : IgnoresTail typeVarSize? :=
  ignoresTail_class Char.isLower isTypeNameChar rfl (fun _ _ => rfl) rfl rfl

theorem ignoresTail_decimal : IgnoresTail decimalSize? where
  bounds := by
    intro cs n h
    have hrun := runLength_le isDecimalDigit cs
    simp only [decimalSize?, Option.ite_none_left_eq_some, Option.some.injEq] at h
    omega
  append := by
    intro tail ht cs
    rw [decimalSize?, decimalSize?, runLength_tail ht (by decide)]

theorem basedLiteral?_bounds {bases : List Nat} {base n : Nat}
    (h : basedLiteral? bases cs = some (base, n)) : n + 2 ≤ cs.length := by
  unfold basedLiteral? at h
  split at h
  · rename_i c cs
    have hrun := fun base => runLength_le (isDigitIn base) cs
    split at h
    · rename_i base' hbase
      simp only [Option.ite_none_right_eq_some, Option.some.injEq, Prod.mk.injEq] at h
      have := hrun base'
      simp only [List.length_cons]
      omega
    · cases h
  · cases h

theorem basedLiteral?_tail {tail : List Char} (ht : IsTail tail) (bases : List Nat) (cs : List Char) :
    basedLiteral? bases (cs ++ tail) = basedLiteral? bases cs := by
  have hdigit : ∀ base, tailChars.any (isDigitIn base) = false := by
    intro base
    have hnone : ∀ c ∈ tailChars, Text.hexDigit? c = none := forall_mem_of_all rfl
    rw [List.any_eq_false]
    intro c hc
    simp [isDigitIn, hnone c hc]
  rcases cs with _ | ⟨c, _ | ⟨d, cs⟩⟩
  · cases tail with
    | nil => rfl
    | cons c tail =>
      have hc : c ≠ '0' := fun h => ht.not_mem (d := '0') (by decide) (by simp [h])
      simp [basedLiteral?, hc]
  · cases tail with
    | nil => rfl
    | cons d tail =>
      have hd : baseOfLetter? d = none := by
        have hnone : ∀ c ∈ tailChars, baseOfLetter? c = none := forall_mem_of_all rfl
        exact hnone d (ht d (by simp))
      by_cases hc : c = '0'
      · subst hc
        simp [basedLiteral?, hd]
      · simp [basedLiteral?, hc]
  · by_cases hc : c = '0'
    · subst hc
      simp only [List.cons_append, basedLiteral?, runLength_tail ht (hdigit _)]
    · simp [basedLiteral?, hc]

theorem ignoresTail_int (bases : List Nat) : IgnoresTail (intSize? bases) where
  bounds := by
    intro cs n h
    unfold intSize? at h
    split at h
    · rename_i base k hbased
      have hlength := basedLiteral?_bounds hbased
      cases h
      omega
    · exact ignoresTail_decimal.bounds h
  append := by
    intro tail ht cs
    rw [intSize?, intSize?, basedLiteral?_tail ht, ignoresTail_decimal.append ht]

/-! ## Texts between delimiters -/

theorem stringRest?_bounds {n : Nat} (h : stringRest? cs = some n) : 0 < n ∧ n ≤ cs.length := by
  fun_induction stringRest? cs generalizing n with
  | case1 => cases h
  | case2 cs => cases h; simp
  | case3 cs => cases h
  | case4 c cs hc ih =>
    obtain ⟨m, hm, rfl⟩ := Option.map_eq_some_iff.1 h
    have := ih hm
    simp only [List.length_cons]
    omega
  | case5 c cs => cases h
  | case6 c cs _ _ hc ih =>
    obtain ⟨m, hm, rfl⟩ := Option.map_eq_some_iff.1 h
    have := ih hm
    simp only [List.length_cons]
    omega

theorem stringRest?_of_not_mem (h : '"' ∉ cs) : stringRest? cs = none := by
  fun_induction stringRest? cs with
  | case1 => rfl
  | case2 cs => simp at h
  | case3 cs => rfl
  | case4 c cs hc ih => simp_all
  | case5 c cs => rfl
  | case6 c cs _ _ hc ih => simp_all

theorem stringRest?_tail {tail : List Char} (ht : IsTail tail) (cs : List Char) :
    stringRest? (cs ++ tail) = stringRest? cs := by
  have hquote : '"' ∉ tail := ht.not_mem (by decide)
  fun_induction stringRest? cs with
  | case1 => exact stringRest?_of_not_mem hquote
  | case2 cs => rfl
  | case3 cs => simp [stringRest?]
  | case4 c cs hc ih => simp [stringRest?, hc, ih]
  | case5 c cs hnot hescape hstop =>
    -- a backslash that ends the text escapes nothing that closes the string
    by_cases hc : c = '\\'
    · have hnil : cs = [] := by
        cases cs with
        | nil => rfl
        | cons d cs => exact absurd rfl (hescape d cs hc)
      subst hc hnil
      cases tail with
      | nil => rfl
      | cons d tail =>
        have hnone : stringRest? tail = none := stringRest?_of_not_mem fun h => hquote (List.mem_cons_of_mem _ h)
        simp [stringRest?, hnone]
    · rw [List.cons_append, stringRest?]
      · exact if_pos hstop
      · exact hnot
      · exact fun _ _ h _ => hc h
  | case6 c cs hnot hescape hstop ih =>
    rw [List.cons_append, stringRest?]
    · rw [if_neg hstop, ih]
    · exact hnot
    · exact fun _ _ h _ => hstop (.inr (.inr h))

theorem ignoresTail_string : IgnoresTail stringSize? where
  bounds := by
    intro cs n h
    unfold stringSize? at h
    split at h
    · obtain ⟨m, hm, rfl⟩ := Option.map_eq_some_iff.1 h
      have := stringRest?_bounds hm
      simp only [List.length_cons]
      omega
    · cases h
  append := by
    intro tail ht cs
    cases cs with
    | nil =>
      cases tail with
      | nil => rfl
      | cons c tail =>
        have hc : c ≠ '"' := fun h => ht.not_mem (d := '"') (by decide) (by simp [h])
        simp [stringSize?, hc]
    | cons c cs =>
      by_cases hc : c = '"'
      · subst hc
        simp [stringSize?, stringRest?_tail ht]
      · simp [stringSize?, hc]

theorem beforeSize?_bounds {close cs : List Char} {n : Nat} (h : beforeSize? close cs = some n) :
    n + close.length ≤ cs.length := by
  induction cs generalizing n with
  | nil =>
    cases close with
    | nil => cases h; simp
    | cons d close => cases h
  | cons c cs ih =>
    rw [beforeSize?] at h
    split at h
    · rename_i hstart
      cases h
      simpa using (List.isPrefixOf_iff_prefix.1 hstart).length_le
    · obtain ⟨m, hm, rfl⟩ := Option.map_eq_some_iff.1 h
      have := ih hm
      simp only [List.length_cons]
      omega

theorem beforeSize?_tail {tail close : List Char} (ht : IsTail tail) (hne : close ≠ [])
    (hclose : close.any tailChars.contains = false) (cs : List Char) :
    beforeSize? close (cs ++ tail) = beforeSize? close cs := by
  induction cs with
  | nil =>
    induction tail with
    | nil => rfl
    | cons c tail ih =>
      have hnot : close.isPrefixOf (c :: tail) = false := by
        have hnil : close.isPrefixOf [] = false := by cases close <;> simp_all
        rw [← hnil]
        exact isPrefixOf_tail ht hclose []
      have hrest : IsTail tail := ht.of_suffix (List.suffix_cons c tail)
      have hnone : beforeSize? close [] = none := by cases close <;> simp_all [beforeSize?]
      simp only [List.nil_append] at ih ⊢
      rw [hnone] at ih ⊢
      simp only [beforeSize?, hnot, ih hrest, Bool.false_eq_true, if_false, Option.map_none]
  | cons c cs ih =>
    rw [List.cons_append, beforeSize?, beforeSize?, ih, ← List.cons_append, isPrefixOf_tail ht hclose]

theorem ignoresTail_between {opening close : List Char} (hopening : opening ≠ [])
    (hclose : close ≠ []) (htail : (opening ++ close).any tailChars.contains = false) :
    IgnoresTail (betweenSize? opening close) where
  bounds := by
    intro cs n h
    unfold betweenSize? at h
    split at h
    · rename_i hstart
      obtain ⟨m, hm, rfl⟩ := Option.map_eq_some_iff.1 h
      have hle := (List.isPrefixOf_iff_prefix.1 hstart).length_le
      have hbefore := beforeSize?_bounds hm
      have hpos := List.length_pos_iff.2 hopening
      rw [List.length_drop] at hbefore
      omega
    · cases h
  append := by
    intro tail ht cs
    rw [List.any_append, Bool.or_eq_false_iff] at htail
    rw [betweenSize?, betweenSize?, isPrefixOf_tail ht htail.1]
    split
    · rename_i hstart
      have hle := (List.isPrefixOf_iff_prefix.1 hstart).length_le
      rw [List.drop_append_of_le_length hle, beforeSize?_tail ht hclose htail.2]
    · rfl

/-! ## Fixed characters -/

section
variable {tail word : List Char} {next : Char → Bool}

theorem startsWith_tail (ht : IsTail tail) (hword : word.any tailChars.contains = false)
    (hnext : tailChars.any next = false) (cs : List Char) :
    (word.isPrefixOf (cs ++ tail) && !((cs ++ tail).drop word.length).head?.any next) =
      (word.isPrefixOf cs && !(cs.drop word.length).head?.any next) := by
  rw [isPrefixOf_tail ht hword]
  cases hstart : word.isPrefixOf cs with
  | false => rfl
  | true =>
    rw [List.drop_append_of_le_length (List.isPrefixOf_iff_prefix.1 hstart).length_le]
    cases cs.drop word.length with
    | nil => simp [ht.head hnext]
    | cons c more => rfl

theorem ignoresTail_symbol (hne : word ≠ []) (hword : word.any tailChars.contains = false)
    (hnext : tailChars.any next = false) :
    IgnoresTail fun cs =>
      if word.isPrefixOf cs && !(cs.drop word.length).head?.any next then some word.length else none where
  bounds := by
    intro cs n h
    simp only [Option.ite_none_right_eq_some, Option.some.injEq, Bool.and_eq_true] at h
    obtain ⟨⟨hstart, -⟩, rfl⟩ := h
    exact ⟨List.length_pos_iff.2 hne, (List.isPrefixOf_iff_prefix.1 hstart).length_le⟩
  append := by
    intro tail ht cs
    simp only [startsWith_tail ht hword hnext]

theorem ignoresTail_start (hne : word ≠ []) (hword : word.any tailChars.contains = false) :
    IgnoresTail (startSize? word) where
  bounds := by
    intro cs n h
    simp only [startSize?, Option.ite_none_right_eq_some, Option.some.injEq] at h
    obtain ⟨hstart, rfl⟩ := h
    exact ⟨List.length_pos_iff.2 hne, (List.isPrefixOf_iff_prefix.1 hstart).length_le⟩
  append := by
    intro tail ht cs
    rw [startSize?, startSize?, isPrefixOf_tail ht hword]

end

/-! ## Gaps -/

section
variable {tail : List Char}

variable {cs : List Char} {c : Char}

theorem blockCommentEnd?_of_not_mem (h : '/' ∉ cs) : blockCommentEnd? cs = none := by
  fun_induction blockCommentEnd? cs with
  | case1 => rfl
  | case2 cs => simp at h
  | case3 c cs _ ih => simp_all

theorem blockCommentEnd?_tail (ht : IsTail tail) (cs : List Char) :
    blockCommentEnd? (cs ++ tail) = blockCommentEnd? cs := by
  have hslash : '/' ∉ tail := ht.not_mem (by decide)
  fun_induction blockCommentEnd? cs with
  | case1 => exact blockCommentEnd?_of_not_mem hslash
  | case2 cs => rfl
  | case3 c cs hnot ih =>
    rw [List.cons_append, blockCommentEnd?, ih]
    intro more hc hmore
    cases cs with
    | nil =>
      have htail : tail = '/' :: more := hmore
      exact hslash (by simp [htail])
    | cons d cs =>
      obtain ⟨rfl, -⟩ := List.cons.inj hmore
      exact hnot cs hc rfl

theorem lineCommentLength_pos (cs : List Char) (h : c ≠ '\n') : 0 < lineCommentLength (c :: cs) := by
  unfold lineCommentLength
  split
  · rename_i hnil
    cases hnil
  · omega
  · rename_i hcons
    cases hcons
    simp [h]

theorem lineCommentLength_cons (hc : c ≠ '\n')
    (hescape : ∀ more, c = '\\' → cs ≠ '\n' :: more) : lineCommentLength (c :: cs) = lineCommentLength cs + 1 := by
  rw [lineCommentLength, if_neg hc]
  exact fun more hc hcs => hescape more hc hcs

/-- A comment whose line ends is not changed by what follows, and a comment without the end of its line goes on. -/
theorem lineCommentLength_append (cs more : List Char) :
    (cs.drop (lineCommentLength cs) ≠ [] → lineCommentLength (cs ++ more) = lineCommentLength cs) ∧
      (cs.drop (lineCommentLength cs) = [] → cs.length ≤ lineCommentLength (cs ++ more)) := by
  fun_induction lineCommentLength cs with
  | case1 => simp
  | case2 cs ih =>
    refine ⟨fun h => ?_, fun h => ?_⟩
    · exact congrArg (· + 2) (ih.1 h)
    · exact Nat.add_le_add_right (ih.2 h) 2
  | case3 cs => exact ⟨fun _ => rfl, fun h => by simp at h⟩
  | case4 c cs hescape hc ih =>
    cases cs with
    | nil => exact ⟨fun h => absurd rfl h, fun _ => lineCommentLength_pos more hc⟩
    | cons d cs =>
      have hstep : lineCommentLength (c :: d :: cs ++ more) = lineCommentLength (d :: cs ++ more) + 1 := by
        refine lineCommentLength_cons hc fun rest hbackslash hrest => ?_
        obtain ⟨rfl, -⟩ := List.cons.inj hrest
        exact hescape cs hbackslash rfl
      rw [hstep]
      refine ⟨fun h => ?_, fun h => ?_⟩
      · rw [ih.1 h]
      · exact Nat.add_le_add_right (ih.2 h) 1

theorem commentLength?_block_tail (ht : IsTail tail) {body : List Char} {m : Nat}
    (hm : blockCommentEnd? body = some m) :
    commentLength? ('/' :: '*' :: body ++ tail) = some (m + 2) := by
  rw [List.cons_append, List.cons_append, commentLength?, blockCommentEnd?_tail ht, hm]
  rfl

/-- A comment goes on behind the text only if the text ends with it. -/
theorem commentLength?_tail (ht : IsTail tail) {n : Nat} (h : commentLength? cs = some n) :
    (cs.drop n ≠ [] → commentLength? (cs ++ tail) = some n) ∧
      (cs.drop n = [] → ∃ m, commentLength? (cs ++ tail) = some m ∧ cs.length ≤ m) := by
  rcases commentLength?_cases h with ⟨body, m, rfl, hm, rfl⟩ | ⟨body, rfl, rfl⟩
  · have hblock := commentLength?_block_tail ht hm
    exact ⟨fun _ => hblock, fun hdrop => ⟨m + 2, hblock, by simpa using hdrop⟩⟩
  · have hline : commentLength? ('/' :: '/' :: body ++ tail) = some (lineCommentLength (body ++ tail) + 2) := rfl
    obtain ⟨hends, hopen⟩ := lineCommentLength_append body tail
    refine ⟨fun hdrop => ?_, fun hdrop => ⟨_, hline, ?_⟩⟩
    · rw [hline, hends hdrop]
    · exact Nat.add_le_add_right (hopen hdrop) 2

theorem commentLength?_tail_none (ht : IsTail tail) (h : commentLength? (c :: cs) = none) :
    commentLength? (c :: cs ++ tail) = none := by
  by_cases hc : c = '/'
  · subst hc
    cases cs with
    | nil =>
      cases tail with
      | nil => rfl
      | cons d tail =>
        have hstar : d ≠ '*' := fun h => ht.not_mem (d := '*') (by decide) (by simp [h])
        have hslash : d ≠ '/' := fun h => ht.not_mem (d := '/') (by decide) (by simp [h])
        simp [commentLength?, hstar, hslash]
    | cons d cs =>
      by_cases hstar : d = '*'
      · subst hstar
        simp only [commentLength?, Option.map_eq_none_iff] at h
        simp [commentLength?, blockCommentEnd?_tail ht, h]
      · by_cases hslash : d = '/'
        · subst hslash
          cases h
        · simp [commentLength?, hstar, hslash]
  · simp [commentLength?, hc]

theorem gapLength_tail (ht : IsTail tail) (cs : List Char) :
    (cs.drop (gapLength cs) ≠ [] → gapLength (cs ++ tail) = gapLength cs) ∧
      (cs.drop (gapLength cs) = [] → cs.length ≤ gapLength (cs ++ tail)) := by
  induction cs using gap_induction with
  | nil => simp
  | blank c cs hgap ih =>
    rw [List.cons_append, gapLength_blank _ hgap, gapLength_blank _ hgap]
    refine ⟨fun h => ?_, fun h => ?_⟩
    · rw [ih.1 h]
    · exact Nat.add_le_add_right (ih.2 h) 1
  | comment cs n hcomment ih =>
    have hle := (commentLength?_bounds hcomment).2.1
    obtain ⟨hends, hopen⟩ := commentLength?_tail ht hcomment
    rw [gapLength_comment hcomment]
    by_cases hdrop : cs.drop n = []
    · obtain ⟨m, hm, hlength⟩ := hopen hdrop
      rw [hdrop, gapLength_nil, gapLength_comment hm, Nat.zero_add]
      exact ⟨fun h => absurd hdrop h, fun _ => Nat.le_trans hlength (Nat.le_add_left _ _)⟩
    · rw [gapLength_comment (hends hdrop), List.drop_append_of_le_length hle, Nat.add_comm, ← List.drop_drop]
      refine ⟨fun h => ?_, fun h => ?_⟩
      · rw [ih.1 h, Nat.add_comm]
      · have := ih.2 h
        rw [List.length_drop] at this
        omega
  | solid c cs hgap hcomment =>
    have htail := commentLength?_tail_none ht hcomment
    rw [gapLength_solid hgap hcomment]
    rw [List.cons_append] at htail ⊢
    rw [gapLength_solid hgap htail]
    exact ⟨fun _ => rfl, fun h => by simp at h⟩

end

/-! ## Positions -/

namespace Cursor

/-- The position with more text at the end. -/
def append (cur : Cursor) (cs : List Char) : Cursor :=
  { cur with rest := cur.rest ++ cs }

variable {cur : Cursor} {tail : List Char}

theorem rest_append (cur : Cursor) (cs : List Char) : (cur.append cs).rest = cur.rest ++ cs := rfl

theorem append_step (cur : Cursor) (c : Char) (rest cs : List Char) :
    (cur.append cs).step c (rest ++ cs) = (cur.step c rest).append cs := by
  unfold step
  split <;> rfl

theorem advance_append {n : Nat} (h : n ≤ cur.rest.length) (cs : List Char) :
    (cur.append cs).advance n = (cur.advance n).append cs := by
  induction n generalizing cur with
  | zero => rfl
  | succ n ih =>
    cases hrest : cur.rest with
    | nil => simp [hrest] at h
    | cons c rest =>
      simp only [advance, rest_append, hrest, List.cons_append]
      rw [append_step]
      exact ih (by simpa [hrest] using h)

theorem skipGap_append (ht : IsTail tail) (h : cur.skipGap.rest ≠ []) :
    (cur.append tail).skipGap = cur.skipGap.append tail := by
  rw [skipGap, rest_advance] at h
  rw [skipGap, rest_append, (gapLength_tail ht cur.rest).1 h]
  exact advance_append (gapLength_le _) tail

/-- Behind a gap that ends the text only a part of the tail is left. -/
theorem suffix_skipGap_append (ht : IsTail tail) (h : cur.skipGap.rest = []) :
    (cur.append tail).skipGap.rest <:+ tail := by
  rw [skipGap, rest_advance] at h
  rw [skipGap, rest_advance, rest_append, List.drop_append, List.drop_eq_nil_of_le ((gapLength_tail ht cur.rest).2 h)]
  exact List.drop_suffix _ _

end Cursor

end VeriScript.Reading
