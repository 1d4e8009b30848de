import Mathlib.Algebra.Group.Int.Defs
import VeriScript.Reading.Lexeme

/-!
# What the readers of tokens take

* `Solid` — texts that start with neither a blank nor a comment.
* `Cursor.At` — the text that comes next behind blanks and comments, with no word to the left of it.
* `Reads` — a parser takes exactly a given text from what comes next.
* `many_of_some`, `many_of_none` — repetition never stops early.
* `Stops` — a blank, a comma, a closing bracket or nothing, where names and numbers end.
* `intSize?_decimal`, `intValue_decimal` — the decimal text of a number is taken whole and means the number.
-/

namespace VeriScript.Text

theorem expandTabsFrom_eq {cs : List Char} (h : '\t' ∉ cs) (col : Nat) : expandTabsFrom col cs = cs := by
  induction cs generalizing col with
  | nil => rfl
  | cons c cs ih =>
    obtain ⟨hc, hcs⟩ := not_or.1 (mt List.mem_cons.2 h)
    simp only [expandTabsFrom, ih hcs, beq_iff_eq, if_neg (Ne.symm hc), ite_self]

theorem expandTabs_eq {cs : List Char} (h : '\t' ∉ cs) : expandTabs cs = cs :=
  expandTabsFrom_eq h 0

end VeriScript.Text

namespace VeriScript.Reading

open VeriScript.Reading.Parser

/-! ## Gaps -/

/-- No blank and no comment stands at the start of the text. -/
def Solid (cs : List Char) : Prop :=
  gapLength cs = 0

theorem solid_nil : Solid [] := rfl

variable {cs : List Char} {c : Char} {p : Char → Bool} {rest : List Char}

theorem solid_of_commentLength (hgap : Text.isGap c = false)
    (hcomment : commentLength? (c :: cs) = none) : Solid (c :: cs) := by
  simp [Solid, gapLength, gapLengthIn, hgap, hcomment]

theorem solid_cons (hc : (Text.isGap c || c == '/') = false) : Solid (c :: cs) := by
  rw [Bool.or_eq_false_iff] at hc
  refine solid_of_commentLength hc.1 ?_
  unfold commentLength?
  split <;> simp_all

theorem gapLength_space (h : Solid cs) : gapLength (' ' :: cs) = 1 := by
  have hspace : Text.isGap ' ' = true := by decide
  rw [Solid, gapLength] at h
  simp [gapLength, gapLengthIn, hspace, h]

/-! ## Classes of characters -/

theorem ne_of_class {c d : Char} (hc : p c = true) (hd : p d = false) : c ≠ d := by
  rintro rfl
  simp [hc] at hd

/-- The text starts with a character that may start a term. -/
def Opens (cs : List Char) : Prop :=
  ∃ c more, cs = c :: more ∧ Text.isGap c = false ∧ c ≠ '/' ∧ c ≠ '='

theorem Opens.solid (h : Opens cs) (rest : List Char) : Solid (cs ++ rest) := by
  obtain ⟨c, more, rfl, hgap, hslash, -⟩ := h
  exact solid_cons (by simp [hgap, hslash])

theorem Opens.append (h : Opens cs) (rest : List Char) : Opens (cs ++ rest) := by
  obtain ⟨c, more, rfl, hc⟩ := h
  exact ⟨c, more ++ rest, rfl, hc⟩

theorem Opens.length_pos (h : Opens cs) : 1 ≤ cs.length := by
  obtain ⟨c, more, rfl, -⟩ := h
  simp

theorem Opens.not_equals {cs rest : List Char} (h : Opens cs) : '=' ∉ (cs ++ rest).head? := by
  obtain ⟨c, more, rfl, -, -, hc⟩ := h
  simpa using hc

theorem opens_of_class (hc : p c = true) (hp : [' ', '\t', '\n', '\r', '/', '='].any p = false) : Opens (c :: cs) := by
  have hne : ∀ d ∈ [' ', '\t', '\n', '\r', '/', '='], c ≠ d := by
    intro d hd
    exact ne_of_class hc (Bool.eq_false_iff.2 (List.any_eq_false.1 hp d hd))
  refine ⟨c, cs, rfl, ?_, hne '/' (by decide), hne '=' (by decide)⟩
  simp_all [Text.isGap]

/-! ## Positions -/

namespace Cursor

variable {cur : Cursor} {cs : List Char}

@[simp]
theorem rest_step (cur : Cursor) (c : Char) (rest : List Char) : (cur.step c rest).rest = rest := by
  unfold step
  split <;> rfl

@[simp]
theorem before_step (cur : Cursor) (c : Char) (rest : List Char) : (cur.step c rest).before = some c := by
  unfold step
  split <;> rfl

@[simp]
theorem rest_advance (n : Nat) (cur : Cursor) : (cur.advance n).rest = cur.rest.drop n := by
  induction n generalizing cur with
  | zero => rfl
  | succ n ih =>
    unfold advance
    split
    · rename_i h; simp [h]
    · rename_i h; simp [h, ih]

theorem before_advance_one {c : Char} (h : cur.rest = c :: cs) : (cur.advance 1).before = some c := by
  simp [advance, h]

theorem skipGap_of_solid (h : Solid cur.rest) : cur.skipGap = cur := by
  rw [skipGap, show gapLength cur.rest = 0 from h]
  rfl

theorem rest_skipGap_of_solid (h : cur.rest = cs) (hs : Solid cs) : cur.skipGap.rest = cs := by
  rw [skipGap_of_solid (h ▸ hs), h]

theorem rest_skipGap_of_space (h : cur.rest = ' ' :: cs) (hs : Solid cs) : cur.skipGap.rest = cs := by
  simp [skipGap, h, gapLength_space hs]

theorem length_skipGap_le (cur : Cursor) : cur.skipGap.rest.length ≤ cur.rest.length := by
  simp [skipGap]

/-- Behind blanks and comments the text comes next, and no word touches it from the left. -/
structure At (cur : Cursor) (cs : List Char) : Prop where
  rest_eq : cur.skipGap.rest = cs
  apart : cur.skipGap.before.any isWordChar = false

theorem At.of_solid (h : cur.rest = cs) (hs : Solid cs) (hbefore : cur.before.any isWordChar = false) :
    cur.At cs := by
  refine ⟨rest_skipGap_of_solid h hs, ?_⟩
  rwa [skipGap_of_solid (h ▸ hs)]

theorem At.of_space (h : cur.rest = ' ' :: cs) (hs : Solid cs) : cur.At cs := by
  refine ⟨rest_skipGap_of_space h hs, ?_⟩
  rw [skipGap, h, gapLength_space hs, before_advance_one h]
  decide

end Cursor

/-! ## Running parsers -/

section
variable {α β : Type} {p q : Parser α} {f : α → Parser β} {a : α} {cur cur' : Cursor}

theorem bind_of_some (h : p cur = some (a, cur')) : (p >>= f) cur = f a cur' := by
  simp [bind, StateT.bind, h]

theorem bind_of_none (h : p cur = none) : (p >>= f) cur = none := by
  simp [bind, StateT.bind, h]

theorem exists_of_bind_eq_some {r : β × Cursor} (h : (p >>= f) cur = some r) :
    ∃ a cur', p cur = some (a, cur') ∧ f a cur' = some r := by
  cases hp : p cur with
  | none => simp [bind_of_none hp] at h
  | some x => exact ⟨x.1, x.2, rfl, (bind_of_some hp).symm.trans h⟩

theorem orElse_of_some {r : α × Cursor} (h : p cur = some r) : (p <|> q) cur = some r := by
  simp [HOrElse.hOrElse, OrElse.orElse, Alternative.orElse, StateT.orElse, h]

theorem orElse_of_none (h : p cur = none) : (p <|> q) cur = q cur := by
  simp [HOrElse.hOrElse, OrElse.orElse, Alternative.orElse, StateT.orElse, h]

theorem orElse_bind_of_none {q : Parser β} (h : p cur = none) : ((p >>= f) <|> q) cur = q cur :=
  orElse_of_none (bind_of_none h)

theorem orElse_run : (p <|> q) cur = (p cur).or (q cur) := by
  cases h : p cur with
  | none => rw [orElse_of_none h, Option.none_or]
  | some r => rw [orElse_of_some h, Option.some_or]

theorem pure_run (a : α) (cur : Cursor) : (pure a : Parser α) cur = some (a, cur) := rfl

/-- Repetition does not run out of steps: a parser that consumes something succeeds at most as often as there
are characters. -/
theorem manyIn_eq_many (hp : ∀ cur a cur', p cur = some (a, cur') → cur'.rest.length < cur.rest.length)
    {n : Nat} (hn : cur.rest.length ≤ n) : manyIn p n cur = many p cur := by
  suffices h : ∀ m n cur, cur.rest.length ≤ m → cur.rest.length ≤ n → manyIn p n cur = manyIn p m cur from
    h _ n cur (Nat.le_refl _) hn
  intro m
  induction m with
  | zero =>
    intro n cur hm hn
    cases n with
    | zero => rfl
    | succ n =>
      have hnone : p cur = none := by
        cases h : p cur with
        | none => rfl
        | some r => have := hp cur r.1 r.2 h; omega
      simp [manyIn, hnone]
  | succ m ih =>
    intro n cur hm hn
    cases h : p cur with
    | none => cases n <;> simp [manyIn, h]
    | some r =>
      have hless := hp cur r.1 r.2 h
      cases n with
      | zero => omega
      | succ n => simp [manyIn, h, ih n r.2 (by omega) (by omega)]

theorem many_of_none (h : p cur = none) : many p cur = some ([], cur) := by
  unfold many
  cases cur.rest.length <;> simp [manyIn, h]

theorem many_of_some (hp : ∀ cur a cur', p cur = some (a, cur') → cur'.rest.length < cur.rest.length)
    {as : List α} {cur'' : Cursor} (h : p cur = some (a, cur')) (hmore : many p cur' = some (as, cur'')) :
    many p cur = some (a :: as, cur'') := by
  have hless := hp cur a cur' h
  rw [← manyIn_eq_many hp (Nat.le_succ cur.rest.length)]
  simp [manyIn, h, manyIn_eq_many hp (Nat.le_of_lt hless), hmore]

theorem manyIn_eq_nil {fuel : Nat} (h : manyIn p fuel cur = some ([], cur')) : cur' = cur := by
  cases fuel with
  | zero =>
    cases h
    rfl
  | succ fuel =>
    simp only [manyIn] at h
    split at h
    · cases h
      rfl
    · split at h <;> cases h

theorem manyIn_eq_cons {fuel : Nat} {as : List α} (h : manyIn p fuel cur = some (a :: as, cur')) :
    ∃ fuel' cur1, p cur = some (a, cur1) ∧ manyIn p fuel' cur1 = some (as, cur') := by
  cases fuel with
  | zero => cases h
  | succ fuel =>
    simp only [manyIn] at h
    split at h
    · cases h
    · rename_i hread
      split at h
      · rename_i hmore
        cases h
        exact ⟨fuel, _, hread, hmore⟩
      · cases h

theorem many_eq_singleton (h : many p cur = some ([a], cur')) : p cur = some (a, cur') := by
  obtain ⟨fuel, cur1, hread, hmore⟩ := manyIn_eq_cons h
  rwa [manyIn_eq_nil hmore]

theorem readAll_eq_done {file text : String} :
    readAll p file text = .done a ↔ ∃ cur, p (.start file text) = some (a, cur) ∧ cur.skipGap.rest = [] := by
  unfold readAll
  constructor
  · intro h
    split at h
    · cases h
    · rename_i b cur hread
      dsimp only at h
      split at h
      · rename_i hrest
        cases h
        exact ⟨cur, hread, by simpa using hrest⟩
      · cases h
  · rintro ⟨cur, hread, hrest⟩
    simp [hread, hrest]

end

/-! ## Tokens -/

theorem Cursor.at_start {file text : String} (htab : '\t' ∉ text.toList) (hs : Solid text.toList) :
    (Cursor.start file text).At text.toList :=
  .of_solid (Text.expandTabs_eq htab) hs rfl

theorem isPrefixOf_of_head {word cs : List Char} (hword : word ≠ [])
    (hhead : ∀ c ∈ cs.head?, c ∉ word.head?) : word.isPrefixOf cs = false := by
  cases word with
  | nil => exact absurd rfl hword
  | cons d word =>
    cases cs with
    | nil => rfl
    | cons c cs =>
      have hne : d ≠ c := by simpa using hhead c rfl
      simp [List.isPrefixOf, hne]

section
variable {size? : List Char → Option Nat} {cs rest : List Char} {cur : Cursor}

theorem token_of_none (h : cur.skipGap.rest = cs) (hsize : size? cs = none) : token size? cur = none := by
  simp [token, h, hsize]

theorem token_of_some (h : cur.skipGap.rest = cs ++ rest) (hsize : size? (cs ++ rest) = some cs.length) :
    token size? cur = some (cs, cur.skipGap.advance cs.length) := by
  simp [token, h, hsize]

theorem rest_advance_skipGap (h : cur.skipGap.rest = cs ++ rest) :
    (cur.skipGap.advance cs.length).rest = rest := by
  simp [h]

theorem startSize?_append (cs rest : List Char) : startSize? cs (cs ++ rest) = some cs.length := by
  simp [startSize?]

theorem literal_of_append {s : String} (h : cur.skipGap.rest = s.toList ++ rest) :
    literal s cur = some ((), cur.skipGap.advance s.toList.length) := by
  unfold literal
  rw [bind_of_some (token_of_some h (startSize?_append ..)), pure_run]

/-! ## Keywords -/

/-- The text starts with the word, and no word character comes right behind it. -/
def startsWithWord (word cs : List Char) : Bool :=
  word.isPrefixOf cs && !(cs.drop word.length).head?.any isWordChar

variable {word : String}

theorem keyword_eq (h : cur.At cs) : keyword word cur =
      if startsWithWord word.toList cs then some ((), cur.skipGap.advance word.toList.length) else none := by
  simp [keyword, startsWithWord, h.rest_eq, h.apart]

theorem keyword_of_append (h : cur.At (word.toList ++ rest)) (hrest : rest.head?.any isWordChar = false) :
    keyword word cur = some ((), cur.skipGap.advance word.toList.length) := by
  simp [keyword_eq h, startsWithWord, hrest]

theorem keyword_of_head (h : cur.skipGap.rest = cs) (hhead : ∀ c ∈ cs.head?, c ∉ word.toList.head?)
    (hword : word.toList ≠ []) : keyword word cur = none := by
  have hstart : word.toList.isPrefixOf cs = false := isPrefixOf_of_head hword hhead
  simp [keyword, h, hstart]

/-- The text starts with a character that is not among `ends`. -/
def startsOutside (ends : List Char) (s : String) : Bool :=
  s.toList.head?.any fun c => !ends.contains c

section
variable {ends : List Char} {s : String} (h : startsOutside ends s = true)
include h

theorem ne_nil_of_startsOutside : s.toList ≠ [] := by
  intro hs
  simp [startsOutside, hs] at h

theorem head_of_startsOutside (hends : ∀ c ∈ cs.head?, c ∈ ends) : ∀ c ∈ cs.head?, c ∉ s.toList.head? := by
  intro c hc hs
  simp [startsOutside, Option.mem_def.1 hs, hends c hc] at h

end

theorem keyword_of_outside (word : String) {ends : List Char} (hends : ∀ c ∈ cur.skipGap.rest.head?, c ∈ ends)
    (hword : startsOutside ends word = true) : keyword word cur = none :=
  keyword_of_head rfl (head_of_startsOutside hword hends) (ne_nil_of_startsOutside hword)

theorem keyword_of_cons (word : String) {c : Char} (h : cur.skipGap.rest = c :: cs)
    (hword : startsOutside [c] word = true) : keyword word cur = none :=
  keyword_of_outside word (by simp [h]) hword

theorem literal_of_head {s : String} (h : cur.skipGap.rest = cs) (hhead : ∀ c ∈ cs.head?, c ∉ s.toList.head?)
    (hs : s.toList ≠ []) : literal s cur = none := by
  unfold literal
  rw [bind_of_none (token_of_none h _)]
  simp [startSize?, isPrefixOf_of_head hs hhead]

theorem literal_of_outside (s : String) {ends : List Char} (hends : ∀ c ∈ cur.skipGap.rest.head?, c ∈ ends)
    (hs : startsOutside ends s = true) : literal s cur = none :=
  literal_of_head rfl (head_of_startsOutside hs hends) (ne_nil_of_startsOutside hs)

theorem literal_of_cons (s : String) {c : Char} (h : cur.skipGap.rest = c :: cs)
    (hs : startsOutside [c] s = true) : literal s cur = none :=
  literal_of_outside s (by simp [h]) hs

theorem startsWithWord_self (word : List Char) : startsWithWord word word = true := by
  simp [startsWithWord, List.isPrefixOf_iff_prefix]

end

/-! ## What a parser takes -/

/-- The parser takes `cs` and leaves `rest`, wherever they come next. -/
def Reads {α : Type} (p : Parser α) (cs : List Char) (a : α) (rest : List Char) : Prop :=
  ∀ cur : Cursor, cur.At (cs ++ rest) → ∃ cur', p cur = some (a, cur') ∧ cur'.rest = rest

/-- A property of some characters, tested on one after another. -/
theorem forall_mem_of_all {p : Char → Prop} [DecidablePred p] (h : (cs.all fun c => p c) = true) : ∀ c ∈ cs, p c := by
  simpa using h

/-- The characters that end a name or a number. -/
def stopChars : List Char := [' ', ')', ',', ']', '\x7d']

/-- Where a name or a number ends: at the end of the text, at a blank, at a comma or at a closing bracket. -/
def Stops (rest : List Char) : Prop :=
  ∀ c ∈ rest.head?, c ∈ stopChars

theorem stops_nil : Stops [] := by simp [Stops]

theorem Stops.head (h : Stops rest) (hp : stopChars.any p = false) : ∀ c ∈ rest.head?, p c = false := by
  intro c hc
  exact Bool.eq_false_iff.2 (List.any_eq_false.1 hp c (h c hc))

theorem Stops.not_word (h : Stops rest) : rest.head?.any isWordChar = false := by
  cases rest with
  | nil => rfl
  | cons c rest => exact h.head (p := isWordChar) (by decide) c rfl

theorem runLength_append {cs rest : List Char} (hcs : ∀ c ∈ cs, p c = true)
    (hrest : ∀ c ∈ rest.head?, p c = false) : runLength p (cs ++ rest) = cs.length := by
  have hnil : rest.takeWhile p = [] := by
    cases rest with
    | nil => rfl
    | cons c rest => simp [hrest c rfl]
  rw [runLength, List.takeWhile_append_of_pos hcs, hnil, List.append_nil]

/-! ## Numbers -/

theorem decimalDigit?_of_isDigit (h : c.isDigit) : Text.decimalDigit? c = some (c.toNat - 48) := by
  have hc : 48 ≤ c.toNat ∧ c.toNat ≤ 57 := by simpa [Char.isDigit, UInt32.le_iff_toNat_le] using h
  have hfirst : (0x30 ≤ c.toNat && c.toNat < 0x30 + 10) = true := by
    simp only [Bool.and_eq_true, decide_eq_true_eq]
    omega
  simp [Text.decimalDigit?, Text.decimalZeros, hfirst]

theorem isDecimalDigit_of_isDigit (h : c.isDigit) : isDecimalDigit c = true := by
  simp [isDecimalDigit, decimalDigit?_of_isDigit h]

theorem baseOfLetter?_of_isDigit (h : c.isDigit) : baseOfLetter? c = none := by
  have hne : ∀ d : Char, d.isDigit = false → c ≠ d := fun d hd => ne_of_class h hd
  simp [baseOfLetter?, hne 'x' (by decide), hne 'X' (by decide), hne 'b' (by decide), hne 'B' (by decide),
    hne 'o' (by decide), hne 'O' (by decide)]

theorem basedLiteral?_digits (bases : List Nat) {ds rest : List Char} (hds : ∀ c ∈ ds, c.isDigit)
    (hne : ds ≠ []) (hrest : Stops rest) : basedLiteral? bases (ds ++ rest) = none := by
  have hsecond : ∀ c cs, ds ++ rest = '0' :: c :: cs → baseOfLetter? c = none := by
    intro c cs h
    rcases ds with _ | ⟨d, _ | ⟨e, ds⟩⟩
    · exact absurd rfl hne
    · obtain ⟨-, rfl⟩ := List.cons.inj h
      simpa using hrest.head (p := fun c => (baseOfLetter? c).isSome) (by decide) c rfl
    · obtain ⟨-, h⟩ := List.cons.inj h
      obtain ⟨rfl, -⟩ := List.cons.inj h
      exact baseOfLetter?_of_isDigit (hds e (by simp))
  unfold basedLiteral?
  split
  · rename_i c cs h
    rw [hsecond c cs h]
  · rfl

theorem ofDigits_digitChars (ds : List Char) (n : Nat) (hds : ∀ c ∈ ds, c.isDigit) :
    (ds.filterMap Text.decimalDigit?).foldl (fun n d => 10 * n + d) n = Nat.ofDigitChars 10 ds n := by
  induction ds generalizing n with
  | nil => rfl
  | cons c ds ih =>
    rw [List.filterMap_cons, decimalDigit?_of_isDigit (hds c (by simp)), Nat.ofDigitChars_cons]
    exact ih _ fun d hd => hds d (List.mem_cons_of_mem _ hd)

theorem isDigit_of_mem_decimal {n : Nat} : ∀ c ∈ Nat.toDigits 10 n, c.isDigit :=
  fun _ hc => Nat.isDigit_of_mem_toDigits (by decide) (by decide) hc

theorem exists_digit_head (n : Nat) : ∃ c cs, Nat.toDigits 10 n = c :: cs ∧ c.isDigit = true := by
  have hds := isDigit_of_mem_decimal (n := n)
  cases h : Nat.toDigits 10 n with
  | nil => exact absurd h Nat.toDigits_ne_nil
  | cons c cs => exact ⟨c, cs, rfl, hds c (by simp [h])⟩

theorem opens_decimal (n : Nat) : Opens (Nat.toDigits 10 n) := by
  obtain ⟨c, cs, h, hc⟩ := exists_digit_head n
  rw [h]
  exact opens_of_class hc rfl

theorem intSize?_decimal (bases : List Nat) (n : Nat) (hrest : Stops rest) :
    intSize? bases (Nat.toDigits 10 n ++ rest) = some (Nat.toDigits 10 n).length := by
  have hds := isDigit_of_mem_decimal (n := n)
  have hrun := runLength_append (fun c hc => isDecimalDigit_of_isDigit (hds c hc))
    (hrest.head (p := isDecimalDigit) (by decide))
  simp [intSize?, basedLiteral?_digits _ hds Nat.toDigits_ne_nil hrest, decimalSize?, hrun,
    Nat.toDigits_ne_nil]

def isNameStart (c : Char) : Bool :=
  c.isAlpha || c = '_'

/-- The decimal digits of other scripts come after the characters of names. -/
theorem isDecimalDigit_of_isNameStart (h : isNameStart c = true) : isDecimalDigit c = false := by
  have hc : 58 ≤ c.toNat ∧ c.toNat < 128 := by
    simp only [isNameStart, Bool.or_eq_true, decide_eq_true_eq] at h
    rcases h with h | rfl
    · have hletter : (decide (c.val ≥ 65 ∧ c.val ≤ 90) || c.val ≥ 97 && c.val ≤ 122) = true := h
      simp only [UInt32.le_iff_toNat_le, Bool.or_eq_true, Bool.and_eq_true, decide_eq_true_eq, ge_iff_le] at hletter
      change 65 ≤ c.toNat ∧ c.toNat ≤ 90 ∨ 97 ≤ c.toNat ∧ c.toNat ≤ 122 at hletter
      omega
    · decide
  have hzeros : ∀ z ∈ Text.decimalZeros, z = 48 ∨ 128 ≤ z := by decide
  simp only [isDecimalDigit, Text.decimalDigit?, Option.isSome_map, Option.isSome_eq_false_iff,
    Option.isNone_iff_eq_none, List.find?_eq_none]
  intro z hz
  have := hzeros z hz
  simp only [Bool.and_eq_true, decide_eq_true_eq]
  omega

theorem intSize?_of_head (bases : List Nat) (h : isDecimalDigit c = false) : intSize? bases (c :: cs) = none := by
  have hzero : c ≠ '0' := by
    rintro rfl
    simp [isDecimalDigit_of_isDigit] at h
  have hbase : basedLiteral? bases (c :: cs) = none := by
    unfold basedLiteral?
    split
    · simp_all
    · rfl
  simp [intSize?, hbase, decimalSize?, runLength, h]

theorem ofDigits_decimal (n : Nat) : Text.ofDigits 10 ((Nat.toDigits 10 n).filterMap Text.decimalDigit?) = n :=
  (ofDigits_digitChars _ 0 isDigit_of_mem_decimal).trans Nat.ofDigitChars_ten_toDigits

theorem intValue_decimal (n : Nat) :
    intValue (Nat.toDigits 10 n) = if Text.hasDecimal n then .ok n else .error .digits := by
  have hbase : basedLiteral? [16, 8, 2] (Nat.toDigits 10 n) = none := by
    simpa using basedLiteral?_digits [16, 8, 2] isDigit_of_mem_decimal Nat.toDigits_ne_nil stops_nil
  simp [intValue, hbase, decimalValue, ofDigits_decimal, Text.hasDecimal]

/-- A power of ten has one digit more than its exponent says. -/
theorem length_toDigits_pow {k : Nat} (hk : 0 < k) : ¬ (Nat.toDigits 10 (10 ^ k : Int).natAbs).length ≤ k := by
  rw [Int.natAbs_pow, Nat.length_toDigits_le_iff (by decide) hk]
  exact Nat.lt_irrefl _

theorem hasDecimal_pow : Text.hasDecimal (10 ^ Text.maxDigits) = false :=
  decide_eq_false (length_toDigits_pow (by decide))

theorem hasDecimal_natAbs (n : Int) : Text.hasDecimal n.natAbs = Text.hasDecimal n := rfl

theorem readable_decimal {n : Nat} (h : Text.hasDecimal n = true) (cur : Cursor) :
    readable (intValue (Nat.toDigits 10 n)) cur = some (n, cur) := by
  rw [intValue_decimal, if_pos h]
  rfl

end VeriScript.Reading
