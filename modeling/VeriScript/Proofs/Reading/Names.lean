import VeriScript.Proofs.Reading.Tokens
import VeriScript.Reading.Term
import VeriScript.Reading.Type

/-!
# What the readers of names take

The names of scripts, of types, of type variables and of terms are read alike: some words are no names, and the
shape of the token says where a name ends.

* `named`, `IsName` — the reader of names of a shape, and the names it gives back.
* `NameShape`, `RunShape` — shapes that take a name whole, wherever names may end; a run of characters is one.
* `IsName.reads` — a name that can be read is taken whole.
* `IsIdentifier`, `IsTypeName`, `IsTypeVar`, `IsTermName` — the four sorts of names.
-/

namespace VeriScript.Reading

open VeriScript.Reading.Parser

/-- A name of the shape that `size?` measures; none of the words is one. -/
def named (words : List String) (size? : List Char → Option Nat) : Parser String := do
  notKeyword words
  return String.ofList (← token size?)

/-- Reading the name gives it back. -/
def IsName (words : List String) (size? : List Char → Option Nat) (name : String) : Prop :=
  readAll (named words size?) "" name = .done name

/-- What a shape takes from a text is taken whole from every text in which it may end there. -/
structure NameShape (size? : List Char → Option Nat) : Prop where
  whole : ∀ {cs n}, size? cs = some n → ∀ rest, Stops rest → size? (cs.take n ++ rest) = some (cs.take n).length
  opens : ∀ {cs n}, size? cs = some n → Opens (cs.take n)
  tab_not_mem : ∀ {cs n}, size? cs = some n → '\t' ∉ cs.take n

section
variable {words : List String} {size? : List Char → Option Nat} {name : String} {cur cur' : Cursor}

theorem named_eq_some (h : named words size? cur = some (name, cur')) :
    (∀ word ∈ words, keyword word cur = none) ∧
      ∃ n, size? cur.skipGap.rest = some n ∧ name.toList = cur.skipGap.rest.take n ∧
        cur' = cur.skipGap.advance n := by
  cases hwords : words.any fun word => (keyword word cur).isSome with
  | true =>
    rw [named, bind_of_none (by simp [notKeyword, hwords])] at h
    cases h
  | false =>
    have hnot : notKeyword words cur = some ((), cur) := by simp [notKeyword, hwords]
    rw [named, bind_of_some hnot] at h
    cases hsize : size? cur.skipGap.rest with
    | none =>
      rw [bind_of_none (token_of_none rfl hsize)] at h
      cases h
    | some n =>
      have htoken : token size? cur = some (cur.skipGap.rest.take n, cur.skipGap.advance n) := by
        simp [token, hsize]
      rw [bind_of_some htoken, pure_run] at h
      cases h
      refine ⟨fun word hword => ?_, n, rfl, by simp, rfl⟩
      simpa using List.any_eq_false.1 hwords word hword

theorem named_of_none {cs : List Char} (h : cur.skipGap.rest = cs) (hcs : size? cs = none) :
    named words size? cur = none := by
  cases hname : named words size? cur with
  | none => rfl
  | some x =>
    obtain ⟨-, n, hsize, -⟩ := named_eq_some hname
    rw [h, hcs] at hsize
    cases hsize

theorem notKeyword_of_none (h : ∀ word ∈ words, keyword word cur = none) : notKeyword words cur = some ((), cur) := by
  simpa [notKeyword] using h

/-- A word that does not start a text starts no longer one either, if it cannot go on behind the text. -/
theorem startsWithWord_append {word cs rest : List Char} (hrest : ∀ c ∈ rest.head?, c ∉ word)
    (h : startsWithWord word cs = false) : startsWithWord word (cs ++ rest) = false := by
  rw [Bool.eq_false_iff]
  intro hstart
  simp only [startsWithWord, Bool.and_eq_true, List.isPrefixOf_iff_prefix] at hstart
  obtain ⟨⟨tail, htail⟩, hnext⟩ := hstart
  obtain ⟨more, rfl, -⟩ | ⟨more, rfl, rfl⟩ := List.append_eq_append_iff.1 htail
  -- the word ends within the name
  · cases more with
    | nil => simp [startsWithWord_self] at h
    | cons c more => simp_all [startsWithWord]
  -- the word goes on behind the name
  · cases more with
    | nil => simp [startsWithWord_self] at h
    | cons c more => exact absurd (by simp) (hrest c rfl)

/-- A word that does not start a text does not start the front of it either, if no word goes on behind the front. -/
theorem startsWithWord_of_append {word cs rest : List Char} (hrest : rest.head?.any isWordChar = false)
    (h : startsWithWord word (cs ++ rest) = false) : startsWithWord word cs = false := by
  rw [Bool.eq_false_iff]
  intro hstart
  simp only [startsWithWord, Bool.and_eq_true, List.isPrefixOf_iff_prefix] at hstart
  obtain ⟨⟨tail, rfl⟩, hnext⟩ := hstart
  cases tail with
  | nil => simp [startsWithWord, hrest, ← Bool.not_eq_true, List.isPrefixOf_iff_prefix] at h
  | cons c tail => simp_all [startsWithWord]

/-- What a shape takes is a name, if none of the words starts it. -/
theorem isName_of_size (hshape : NameShape size?) {cs : List Char} {n : Nat} (hsize : size? cs = some n)
    (hname : name.toList = cs.take n) (hwords : ∀ word ∈ words, startsWithWord word.toList name.toList = false) :
    IsName words size? name := by
  have hopens : Opens name.toList := hname ▸ hshape.opens hsize
  have htab : '\t' ∉ name.toList := hname ▸ hshape.tab_not_mem hsize
  have hat : (Cursor.start "" name).At (name.toList ++ []) := by
    simpa using Cursor.at_start htab (by simpa using hopens.solid [])
  have hnot : notKeyword words (Cursor.start "" name) = some ((), Cursor.start "" name) := by
    refine notKeyword_of_none fun word hword => ?_
    rw [keyword_eq hat, List.append_nil, hwords word hword]
    rfl
  have htoken := token_of_some hat.rest_eq (hname ▸ hshape.whole hsize [] stops_nil)
  have hread : named words size? (Cursor.start "" name) =
      some (name, (Cursor.start "" name).skipGap.advance name.toList.length) := by
    rw [named, bind_of_some hnot, bind_of_some htoken, pure_run, String.ofList_toList]
  simp [IsName, readAll, hread, Cursor.rest_skipGap_of_solid (rest_advance_skipGap hat.rest_eq) solid_nil]

theorem NameShape.size_nil (hshape : NameShape size?) : size? [] = none := by
  cases hsize : size? [] with
  | none => rfl
  | some n => simpa using (hshape.opens hsize).length_pos

/-- What is read as a name can be read again, if no word touches it from either side. -/
theorem isName_of_named (hshape : NameShape size?) (h : named words size? cur = some (name, cur'))
    (hapart : cur.skipGap.before.any isWordChar = false) (hnext : cur'.rest.head?.any isWordChar = false) :
    IsName words size? name := by
  obtain ⟨hwords, n, hsize, hname, rfl⟩ := named_eq_some h
  refine isName_of_size hshape hsize hname fun word hword => ?_
  have hnone := hwords word hword
  rw [keyword_eq ⟨rfl, hapart⟩, ite_eq_right_iff] at hnone
  have hstart : startsWithWord word.toList cur.skipGap.rest = false := by
    rw [Bool.eq_false_iff]
    exact fun hstart => by simpa using hnone hstart
  rw [← List.take_append_drop n cur.skipGap.rest, ← hname] at hstart
  rw [Cursor.rest_advance] at hnext
  exact startsWithWord_of_append hnext hstart

namespace IsName

variable (hshape : NameShape size?) (h : IsName words size? name)
include h

theorem exists_named : ∃ cur, named words size? (Cursor.start "" name) = some (name, cur) := by
  obtain ⟨cur, hread, -⟩ := readAll_eq_done.1 h
  exact ⟨cur, hread⟩

theorem exists_size : ∃ cs n, size? cs = some n ∧ name.toList = cs.take n := by
  obtain ⟨cur, hread⟩ := h.exists_named
  obtain ⟨-, n, hsize, hname, -⟩ := named_eq_some hread
  exact ⟨_, n, hsize, hname⟩

include hshape

theorem opens : Opens name.toList := by
  obtain ⟨cs, n, hsize, hname⟩ := h.exists_size
  exact hname ▸ hshape.opens hsize

theorem tab_not_mem : '\t' ∉ name.toList := by
  obtain ⟨cs, n, hsize, hname⟩ := h.exists_size
  exact hname ▸ hshape.tab_not_mem hsize

variable {rest : List Char}

theorem size_append (hrest : Stops rest) : size? (name.toList ++ rest) = some name.toList.length := by
  obtain ⟨cs, n, hsize, hname⟩ := h.exists_size
  exact hname ▸ hshape.whole hsize rest hrest

theorem not_keyword : ∀ word ∈ words, startsWithWord word.toList name.toList = false := by
  intro word hword
  obtain ⟨cur, hread⟩ := h.exists_named
  have hnone := (named_eq_some hread).1 word hword
  have hsolid : Solid name.toList := by simpa using (h.opens hshape).solid []
  rw [keyword_eq (Cursor.at_start (h.tab_not_mem hshape) hsolid)] at hnone
  simpa using hnone

/-- The words contain nothing that may follow a name. -/
theorem keyword_eq_none (hwords : ∀ word ∈ words, ∀ c ∈ stopChars, c ∉ word.toList)
    (hrest : Stops rest) (hcur : cur.At (name.toList ++ rest)) : ∀ word ∈ words, keyword word cur = none := by
  intro word hword
  rw [keyword_eq hcur, startsWithWord_append (fun c hc => hwords word hword c (hrest c hc))
    (h.not_keyword hshape word hword)]
  rfl

theorem reads (hwords : ∀ word ∈ words, ∀ c ∈ stopChars, c ∉ word.toList)
    (hrest : Stops rest) : Reads (named words size?) name.toList name rest := by
  intro cur hcur
  have hnot := notKeyword_of_none (h.keyword_eq_none hshape hwords hrest hcur)
  have htoken := token_of_some hcur.rest_eq (h.size_append hshape hrest)
  refine ⟨cur.skipGap.advance name.toList.length, ?_, rest_advance_skipGap hcur.rest_eq⟩
  rw [named, bind_of_some hnot, bind_of_some htoken, pure_run, String.ofList_toList]

end IsName

end

/-! ## Names of scripts and types -/

/-- A name is a run of characters of a class behind a first character; whether a name starts there depends on that
character and on whether the run is empty. -/
structure RunShape (starts : Char → Nat → Prop) (inner : Char → Bool) (size? : List Char → Option Nat) : Prop where
  nil : size? [] = none
  cons_pos : ∀ {c cs}, starts c (runLength inner cs) → size? (c :: cs) = some (runLength inner cs + 1)
  cons_neg : ∀ {c cs}, ¬ starts c (runLength inner cs) → size? (c :: cs) = none
  /-- Names start with a letter or an underscore. -/
  start : ∀ {c n}, starts c n → isNameStart c = true
  stop : stopChars.any inner = false
  tab : inner '\t' = false

namespace RunShape

variable {starts : Char → Nat → Prop} {inner : Char → Bool} {size? : List Char → Option Nat}
  (h : RunShape starts inner size?)
include h

variable {cs : List Char} {c : Char} {n : Nat}

theorem starts_of_size (hsize : size? (c :: cs) = some n) :
    starts c (runLength inner cs) ∧ runLength inner cs + 1 = n := by
  have hc : starts c (runLength inner cs) := by
    refine Classical.byContradiction fun hc => ?_
    simp [h.cons_neg hc] at hsize
  exact ⟨hc, by simpa [h.cons_pos hc] using hsize⟩

theorem exists_run (hsize : size? cs = some n) :
    ∃ c part, cs.take n = c :: part ∧ starts c part.length ∧ ∀ d ∈ part, inner d = true := by
  cases cs with
  | nil => simp [h.nil] at hsize
  | cons c more =>
    obtain ⟨hc, rfl⟩ := h.starts_of_size hsize
    refine ⟨c, more.takeWhile inner, ?_, hc, List.all_eq_true.1 List.all_takeWhile⟩
    rw [List.take_succ_cons, runLength, ← List.prefix_iff_eq_take.1 (List.takeWhile_prefix inner)]

theorem size_cons {part rest : List Char} (hc : starts c part.length) (hpart : ∀ d ∈ part, inner d = true)
    (hrest : Stops rest) : size? (c :: part ++ rest) = some (c :: part).length := by
  have hrun : runLength inner (part ++ rest) = part.length := runLength_append hpart (hrest.head h.stop)
  rw [List.cons_append, h.cons_pos (hrun.symm ▸ hc), hrun, List.length_cons]

/-- A run of characters of the class is taken whole or not at all. -/
theorem size_eq {part rest : List Char} (hpart : ∀ d ∈ part, inner d = true)
    (hrest : Stops rest) (hsize : size? (c :: part ++ rest) = some n) : n = (c :: part).length := by
  by_cases hc : starts c part.length
  · rw [h.size_cons hc hpart hrest] at hsize
    exact (Option.some.inj hsize).symm
  · have hrun : runLength inner (part ++ rest) = part.length := runLength_append hpart (hrest.head h.stop)
    rw [List.cons_append, h.cons_neg (hrun.symm ▸ hc)] at hsize
    cases hsize

/-- What is left behind a name starts with the first character outside the class. -/
theorem drop_size (hsize : size? (c :: cs) = some n) : (c :: cs).drop n = cs.dropWhile inner := by
  obtain ⟨-, rfl⟩ := h.starts_of_size hsize
  have hsplit : (cs.takeWhile inner ++ cs.dropWhile inner).drop (runLength inner cs) = cs.dropWhile inner :=
    List.drop_left
  rwa [List.takeWhile_append_dropWhile] at hsplit

theorem size_of_head (hcs : ∀ c ∈ cs.head?, isNameStart c = false) : size? cs = none := by
  cases cs with
  | nil => exact h.nil
  | cons c cs =>
    refine h.cons_neg fun hc => ?_
    have hstart := hcs c rfl
    rw [h.start hc] at hstart
    cases hstart

theorem size_of_not_start (hc : isNameStart c = false) : size? (c :: cs) = none := by
  refine h.size_of_head fun d hd => ?_
  cases hd
  exact hc

theorem nameShape : NameShape size? := by
  constructor
  · intro cs n hsize rest hrest
    obtain ⟨c, part, htake, hc, hpart⟩ := h.exists_run hsize
    rw [htake]
    exact h.size_cons hc hpart hrest
  · intro cs n hsize
    obtain ⟨c, part, htake, hc, -⟩ := h.exists_run hsize
    rw [htake]
    exact opens_of_class (h.start hc) rfl
  · intro cs n hsize
    obtain ⟨c, part, htake, hc, hpart⟩ := h.exists_run hsize
    rw [htake, List.mem_cons, not_or]
    refine ⟨(ne_of_class (h.start hc) rfl).symm, fun hmem => ?_⟩
    simpa [h.tab] using hpart _ hmem

theorem exists_chars {words : List String} {name : String} (hname : IsName words size? name) :
    ∃ c part, name.toList = c :: part ∧ starts c part.length ∧ ∀ d ∈ part, inner d = true := by
  obtain ⟨cs, n, hsize, hname⟩ := hname.exists_size
  rw [hname]
  exact h.exists_run hsize

end RunShape

theorem isAlpha_eq (c : Char) : c.isAlpha = (c.isUpper || c.isLower) := rfl

theorem isAlphanum_eq (c : Char) : c.isAlphanum = (c.isAlpha || c.isDigit) := rfl

theorem runShape_name :
    RunShape (fun c n => c.isAlpha = true ∨ c = '_' ∧ n ≠ 0) isNameChar nameSize? where
  nil := rfl
  cons_pos := by
    rintro c cs (hc | hc)
    · simp [nameSize?, hc]
    · simp [nameSize?, hc]
  cons_neg := by
    intro c cs hc
    obtain ⟨halpha, hunderscore⟩ := not_or.1 hc
    rw [nameSize?, if_neg halpha, if_neg hunderscore]
  start := by
    rintro c n (hc | ⟨rfl, -⟩)
    · simp [isNameStart, hc]
    · decide
  stop := by decide
  tab := by decide

theorem runShape_typeName : RunShape (fun c _ => c.isUpper = true) isTypeNameChar typeNameSize? where
  nil := rfl
  cons_pos hc := if_pos hc
  cons_neg hc := if_neg hc
  start hc := by simp [isNameStart, isAlpha_eq, hc]
  stop := by decide
  tab := by decide

theorem runShape_typeVar : RunShape (fun c _ => c.isLower = true) isTypeNameChar typeVarSize? where
  nil := rfl
  cons_pos hc := if_pos hc
  cons_neg hc := if_neg hc
  start hc := by simp [isNameStart, isAlpha_eq, hc]
  stop := by decide
  tab := by decide

theorem words_end {words : List String}
    (h : (words.all fun word => stopChars.all fun c => !word.toList.contains c) = true) :
    ∀ word ∈ words, ∀ c ∈ stopChars, c ∉ word.toList := by
  simpa using h

theorem keywords_end : ∀ word ∈ keywords, ∀ c ∈ stopChars, c ∉ word.toList :=
  words_end rfl

/-- Reading the name as a name of a script gives it back. -/
def IsIdentifier (name : String) : Prop :=
  readAll identifier "" name = .done name

/-- Reading the name as the name of a type constructor gives it back. -/
def IsTypeName (name : String) : Prop :=
  readAll typeName "" name = .done name

/-- Reading the name as the name of a type variable gives it back. -/
def IsTypeVar (name : String) : Prop :=
  readAll typeVar "" name = .done name

section
variable {name : String} {rest : List Char}

theorem IsIdentifier.isName (h : IsIdentifier name) : IsName keywords nameSize? name := h

theorem IsIdentifier.reads (h : IsIdentifier name) (hrest : Stops rest) :
    Reads identifier name.toList name rest :=
  h.isName.reads runShape_name.nameShape keywords_end hrest

/-- No word is excluded from the names of types. -/
theorem IsTypeName.isName (h : IsTypeName name) : IsName [] typeNameSize? name := h

theorem IsTypeName.reads (h : IsTypeName name) (hrest : Stops rest) : Reads typeName name.toList name rest :=
  h.isName.reads runShape_typeName.nameShape (List.forall_mem_nil _) hrest

theorem IsTypeVar.isName (h : IsTypeVar name) : IsName keywords typeVarSize? name := h

theorem IsTypeVar.reads (h : IsTypeVar name) (hrest : Stops rest) : Reads typeVar name.toList name rest :=
  h.isName.reads runShape_typeVar.nameShape keywords_end hrest

end

/-! ## Names of terms -/

/-- A letter or an underscore with more characters of names behind it. -/
def IsNamePart (cs : List Char) : Prop :=
  ∃ c part, cs = c :: part ∧ isNameStart c = true ∧ ∀ d ∈ part, isNameChar d = true

/-- A name, perhaps with a qualifier in front. -/
inductive IsNameText : List Char → Prop where
  | plain {part : List Char} (h : IsNamePart part) : IsNameText part
  | qualified {qualifier part : List Char} (hq : IsNamePart qualifier) (h : IsNamePart part) :
    IsNameText (qualifier ++ ':' :: ':' :: part)

theorem termNamePartSize?_append {part rest : List Char} (h : IsNamePart part)
    (hrest : ∀ d ∈ rest.head?, isNameChar d = false) : termNamePartSize? (part ++ rest) = some part.length := by
  obtain ⟨c, part, rfl, hc, hpart⟩ := h
  rw [List.cons_append, termNamePartSize?, if_pos (show (c.isAlpha || c = '_') = true from hc),
    runLength_append hpart hrest, List.length_cons]

variable {cs : List Char} {name : List Char}

theorem exists_part_of_termNamePartSize? {n : Nat} (h : termNamePartSize? cs = some n) :
    ∃ part rest, cs = part ++ rest ∧ part.length = n ∧ IsNamePart part := by
  cases cs with
  | nil => simp [termNamePartSize?] at h
  | cons c cs =>
    simp only [termNamePartSize?, Option.ite_none_right_eq_some, Option.some.injEq] at h
    obtain ⟨hc, rfl⟩ := h
    refine ⟨c :: cs.takeWhile isNameChar, cs.dropWhile isNameChar, ?_, rfl, c, _, rfl, hc, ?_⟩
    · simp
    · exact List.all_eq_true.1 List.all_takeWhile

theorem termNameSize?_qualified {qualifier part rest : List Char} (hq : IsNamePart qualifier) (h : IsNamePart part)
    (hrest : ∀ d ∈ rest.head?, isNameChar d = false) :
    termNameSize? (qualifier ++ ':' :: ':' :: part ++ rest) = some (qualifier ++ ':' :: ':' :: part).length := by
  rw [List.append_assoc, termNameSize?, termNamePartSize?_append hq (by simp; decide)]
  simp [termNamePartSize?_append h hrest]
  omega

theorem termNameSize?_append {name rest : List Char} (h : IsNameText name) (hrest : Stops rest) :
    termNameSize? (name ++ rest) = some name.length := by
  have hstop := hrest.head (p := isNameChar) (by decide)
  cases h with
  | plain h =>
    rw [termNameSize?, termNamePartSize?_append h hstop]
    simp only [List.drop_left]
    split
    · rename_i more
      exact absurd (hrest ':' rfl) (by decide)
    · rfl
  | qualified hq h => exact termNameSize?_qualified hq h hstop

theorem exists_name_of_termNameSize? {n : Nat} (h : termNameSize? cs = some n) :
    ∃ name rest, cs = name ++ rest ∧ name.length = n ∧ IsNameText name := by
  unfold termNameSize? at h
  split at h
  · cases h
  rename_i k hk
  obtain ⟨part, rest, rfl, rfl, hpart⟩ := exists_part_of_termNamePartSize? hk
  rw [List.drop_left] at h
  split at h
  · rename_i more
    split at h
    · rename_i m hm
      obtain ⟨second, rest, rfl, rfl, hsecond⟩ := exists_part_of_termNamePartSize? hm
      cases h
      exact ⟨part ++ ':' :: ':' :: second, rest, by simp, by simp; omega, .qualified hpart hsecond⟩
    · cases h
      exact ⟨part, _, rfl, rfl, .plain hpart⟩
  · cases h
    exact ⟨part, rest, rfl, rfl, .plain hpart⟩

theorem IsNamePart.isNameChar {part : List Char} (h : IsNamePart part) : ∀ d ∈ part, isNameChar d = true := by
  obtain ⟨c, part, rfl, hc, hpart⟩ := h
  refine List.forall_mem_cons.2 ⟨?_, hpart⟩
  simp only [isNameStart, Bool.or_eq_true, decide_eq_true_eq] at hc
  simp only [Reading.isNameChar, Char.isAlphanum, Bool.or_eq_true, decide_eq_true_eq]
  exact .inl (hc.imp_left .inl)

theorem IsNameText.exists_head (h : IsNameText name) : ∃ c cs, name = c :: cs ∧ isNameStart c = true := by
  cases h with
  | plain h =>
    obtain ⟨c, part, rfl, hc, -⟩ := h
    exact ⟨c, part, rfl, hc⟩
  | qualified hq h =>
    obtain ⟨c, part, rfl, hc, -⟩ := hq
    exact ⟨c, _, rfl, hc⟩

theorem IsNameText.tab_not_mem (h : IsNameText name) : '\t' ∉ name := by
  have hpart : ∀ {part}, IsNamePart part → '\t' ∉ part := by
    intro part h hmem
    exact absurd (h.isNameChar _ hmem) (by decide)
  cases h with
  | plain h => exact hpart h
  | qualified hq h => simp [hpart hq, hpart h]

theorem IsNameText.opens (h : IsNameText name) : Opens name := by
  obtain ⟨c, cs, rfl, hc⟩ := h.exists_head
  exact opens_of_class hc rfl

theorem nameShape_termName : NameShape termNameSize? := by
  constructor
  · intro cs n h rest hrest
    obtain ⟨name, more, rfl, rfl, hname⟩ := exists_name_of_termNameSize? h
    rw [List.take_left]
    exact termNameSize?_append hname hrest
  · intro cs n h
    obtain ⟨name, more, rfl, rfl, hname⟩ := exists_name_of_termNameSize? h
    rw [List.take_left]
    exact hname.opens
  · intro cs n h
    obtain ⟨name, more, rfl, rfl, hname⟩ := exists_name_of_termNameSize? h
    rw [List.take_left]
    exact hname.tab_not_mem

/-- Reading the name as the name of a term gives it back. -/
def IsTermName (name : String) : Prop :=
  readAll termName "" name = .done name

theorem termName_of_none {cur : Cursor} (h : cur.skipGap.rest = cs)
    (hcs : termNameSize? cs = none) : termName cur = none :=
  named_of_none h hcs

theorem termKeywords_end : ∀ word ∈ termKeywords, ∀ c ∈ stopChars, c ∉ word.toList :=
  words_end rfl

namespace IsTermName

variable {name : String} (h : IsTermName name)
include h

theorem isNameText : IsNameText name.toList := by
  have hname : IsName termKeywords termNameSize? name := h
  obtain ⟨cs, n, hsize, hname⟩ := hname.exists_size
  obtain ⟨text, rest, rfl, rfl, htext⟩ := exists_name_of_termNameSize? hsize
  rwa [hname, List.take_left]

theorem reads {rest : List Char} (hrest : Stops rest) : Reads termName name.toList name rest :=
  IsName.reads nameShape_termName h termKeywords_end hrest

end IsTermName

end VeriScript.Reading
