import VeriScript.Proofs.Reading.Tails
import VeriScript.Reading.Operators
import VeriScript.Reading.Pattern

/-!
# Reading a text with a tail behind it

Readers that take no semicolons read a text alike with and without a tail behind it, and leave the tail.  The depth to
which they follow nested forms has no part in it, if it is no less than the number of characters.

* `Cursor.Took` — what a reader took: at least one token, or nothing.
* `Ignores` — two readers agree on texts of bounded length, the second one with a tail behind the text.
* `Ignores.bind`, `Ignores.orElse`, `Ignores.many`, `token_ignores` and so on — one lemma for each way to put readers
  together.
* `typeExpr_ignores`, `pattern_ignores` — types and patterns.
-/

namespace VeriScript.Reading

open VeriScript.Reading.Parser

/-! ## What a reader took -/

namespace Cursor

/-- From `cur` to `cur'` at least one token was taken, or nothing if that is allowed. -/
def Took (takes : Bool) (cur cur' : Cursor) : Prop :=
  (∃ taken, taken ≠ [] ∧ cur.skipGap.rest = taken ++ cur'.rest) ∨ takes = false ∧ cur' = cur

variable {takes takes' : Bool} {cur cur1 cur2 : Cursor}

theorem rest_eq_append_skipGap (cur : Cursor) : cur.rest = cur.rest.take (gapLength cur.rest) ++ cur.skipGap.rest := by
  rw [skipGap, rest_advance, List.take_append_drop]

theorem Took.length_le (h : Took takes cur cur1) : cur1.rest.length ≤ cur.rest.length := by
  rcases h with ⟨taken, -, htaken⟩ | ⟨-, rfl⟩
  · have hskip := cur.length_skipGap_le
    rw [htaken, List.length_append] at hskip
    omega
  · exact Nat.le_refl _

theorem Took.length_lt (h : Took true cur cur1) : cur1.rest.length < cur.rest.length := by
  rcases h with ⟨taken, hne, htaken⟩ | ⟨hfalse, -⟩
  · have hskip := cur.length_skipGap_le
    have hpos := List.length_pos_iff.2 hne
    rw [htaken, List.length_append] at hskip
    omega
  · cases hfalse

theorem Took.trans (h1 : Took takes cur cur1) (h2 : Took takes' cur1 cur2) : Took (takes || takes') cur cur2 := by
  rcases h1 with ⟨taken, hne, htaken⟩ | ⟨rfl, rfl⟩
  · left
    rcases h2 with ⟨taken', -, htaken'⟩ | ⟨-, rfl⟩
    · refine ⟨taken ++ (cur1.rest.take (gapLength cur1.rest) ++ taken'), by simp [hne], ?_⟩
      rw [htaken, List.append_assoc, List.append_assoc, ← htaken', ← rest_eq_append_skipGap]
    · exact ⟨taken, hne, htaken⟩
  · simpa using h2

theorem Took.weaken (h : Took takes cur cur1) : Took false cur cur1 := by
  rcases h with h | ⟨-, h⟩
  · exact .inl h
  · exact .inr ⟨rfl, h⟩

theorem Took.skipGap_ne_nil (h : Took true cur cur1) : cur.skipGap.rest ≠ [] := by
  rcases h with ⟨taken, hne, htaken⟩ | ⟨hfalse, -⟩
  · simp [htaken, hne]
  · cases hfalse

end Cursor

/-- While the first reader succeeds, the second one does the same with the tail behind the text; then it goes on from
there. -/
theorem manyIn_append {α : Type} {tail : List Char} {n : Nat} {p q : Parser α} {cur : Cursor}
    (hp : ∀ {cur a cur'}, cur.rest.length < n → p cur = some (a, cur') →
      q (cur.append tail) = some (a, cur'.append tail) ∧ cur.Took true cur')
    {fuel fuel' : Nat} (hn : cur.rest.length < n) (hfuel : cur.rest.length ≤ fuel) (hfuel' : cur.rest.length ≤ fuel') :
    ∃ as cur' more, manyIn p fuel cur = some (as, cur') ∧ cur.Took false cur' ∧ p cur' = none ∧
      manyIn q fuel' (cur.append tail) = (manyIn q more (cur'.append tail)).map fun r => (as ++ r.1, r.2) := by
  induction fuel generalizing cur fuel' with
  | zero =>
    have hnone : p cur = none := by
      cases hread : p cur with
      | none => rfl
      | some r =>
        have hless := (hp hn hread).2.length_lt
        omega
    exact ⟨[], cur, fuel', rfl, .inr ⟨rfl, rfl⟩, hnone, by simp⟩
  | succ fuel ih =>
    cases hread : p cur with
    | none => exact ⟨[], cur, fuel', by simp [manyIn, hread], .inr ⟨rfl, rfl⟩, hread, by simp⟩
    | some r =>
      obtain ⟨a, cur1⟩ := r
      obtain ⟨hread', htook⟩ := hp hn hread
      have hless := htook.length_lt
      obtain ⟨fuel', rfl⟩ := Nat.exists_eq_succ_of_ne_zero (show fuel' ≠ 0 by omega)
      have hn1 : cur1.rest.length < n := by omega
      have hfuel1 : cur1.rest.length ≤ fuel ∧ cur1.rest.length ≤ fuel' := by omega
      obtain ⟨as, cur2, more, hmore, htook2, hnone, hmore'⟩ := ih hn1 hfuel1.1 hfuel1.2
      refine ⟨a :: as, cur2, more, by simp [manyIn, hread, hmore], (htook.trans htook2).weaken, hnone, ?_⟩
      simp only [manyIn, hread', hmore']
      cases manyIn q more (cur2.append tail) <;> rfl

/-! ## Readers that ignore a tail -/

/-- On texts of less than `n` characters, `q` reads the text with the tail behind it as `p` reads the text, and leaves
the tail. -/
structure Ignores {α : Type} (tail : List Char) (takes : Bool) (n : Nat) (p q : Parser α) : Prop where
  run_append : ∀ {cur : Cursor}, cur.rest.length < n →
    q (cur.append tail) = (p cur).map fun r => (r.1, r.2.append tail)
  took : ∀ {cur a cur'}, cur.rest.length < n → p cur = some (a, cur') → cur.Took takes cur'

namespace Ignores

variable {α β ο : Type} {tail : List Char} {takes : Bool} {m n : Nat} {p q : Parser α} {cur : Cursor}

theorem run_none (h : Ignores tail takes n p q) (hn : cur.rest.length < n) (hp : p cur = none) :
    q (cur.append tail) = none := by
  rw [h.run_append hn, hp]
  rfl

theorem run_some (h : Ignores tail takes n p q) (hn : cur.rest.length < n) {a : α} {cur' : Cursor}
    (hp : p cur = some (a, cur')) : q (cur.append tail) = some (a, cur'.append tail) := by
  rw [h.run_append hn, hp]
  rfl

theorem of_cases (h : ∀ cur : Cursor, cur.rest.length < n → p cur = none ∧ q (cur.append tail) = none ∨
    ∃ a cur', p cur = some (a, cur') ∧ q (cur.append tail) = some (a, cur'.append tail) ∧ cur.Took takes cur') :
    Ignores tail takes n p q where
  run_append := by
    intro cur hn
    rcases h cur hn with ⟨hp, hq⟩ | ⟨a, cur', hp, hq, -⟩
    · rw [hp, hq]
      rfl
    · rw [hp, hq]
      rfl
  took := by
    intro cur a cur' hn hread
    rcases h cur hn with ⟨hp, -⟩ | ⟨b, cur1, hp, -, htook⟩
    · rw [hp] at hread
      cases hread
    · rw [hp] at hread
      cases hread
      exact htook

theorem cases_at (h : Ignores tail takes n p q) (hn : cur.rest.length < n) :
    p cur = none ∧ q (cur.append tail) = none ∨
      ∃ a cur', p cur = some (a, cur') ∧ q (cur.append tail) = some (a, cur'.append tail) ∧ cur.Took takes cur' := by
  cases hp : p cur with
  | none => exact .inl ⟨rfl, h.run_none hn hp⟩
  | some r => exact .inr ⟨r.1, r.2, rfl, h.run_some hn hp, h.took hn hp⟩

theorem mono (h : Ignores tail takes n p q) (hm : m ≤ n) : Ignores tail takes m p q :=
  ⟨fun hcur => h.run_append (Nat.lt_of_lt_of_le hcur hm), fun hcur => h.took (Nat.lt_of_lt_of_le hcur hm)⟩

theorem weaken (h : Ignores tail takes n p q) : Ignores tail false n p q :=
  ⟨h.run_append, fun hcur hread => (h.took hcur hread).weaken⟩

theorem eq_none (h : Ignores tail true n p q) (hn : cur.rest.length < n) (hrest : cur.skipGap.rest = []) :
    p cur = none := by
  cases hp : p cur with
  | none => rfl
  | some r => exact absurd hrest (h.took hn hp).skipGap_ne_nil

/-! ### One reader after another -/

section
variable {f g : α → Parser β}

theorem bind {first second : Bool} (hp : Ignores tail first n p q) (hf : ∀ a, Ignores tail second m (f a) (g a))
    (hm : n ≤ m ∨ first = true ∧ n ≤ m + 1) : Ignores tail (first || second) n (p >>= f) (q >>= g) := by
  refine of_cases fun cur hn => ?_
  rcases hp.cases_at hn with ⟨hread, hread'⟩ | ⟨a, cur1, hread, hread', htook⟩
  · exact .inl ⟨bind_of_none hread, bind_of_none hread'⟩
  · have hless : cur1.rest.length < m := by
      rcases hm with hm | ⟨rfl, hm⟩
      · have := htook.length_le
        omega
      · have := htook.length_lt
        omega
    rw [bind_of_some hread, bind_of_some hread']
    refine ((hf a).cases_at hless).imp_right ?_
    rintro ⟨b, cur2, hmore, hmore', htook'⟩
    exact ⟨b, cur2, hmore, hmore', htook.trans htook'⟩

theorem andThen (hp : Ignores tail takes n p q) (hf : ∀ a, Ignores tail false n (f a) (g a)) :
    Ignores tail false n (p >>= f) (q >>= g) :=
  hp.weaken.bind hf (.inl (Nat.le_refl n))

theorem taking (hp : Ignores tail true n p q) (hf : ∀ a, Ignores tail takes n (f a) (g a)) :
    Ignores tail true n (p >>= f) (q >>= g) :=
  hp.bind hf (.inl (Nat.le_refl n))

theorem taking_succ (hp : Ignores tail true (n + 1) p q) (hf : ∀ a, Ignores tail false n (f a) (g a)) :
    Ignores tail true (n + 1) (p >>= f) (q >>= g) :=
  hp.bind hf (.inr ⟨rfl, Nat.le_refl _⟩)

theorem thenTaking (hp : Ignores tail false n p q) (hf : ∀ a, Ignores tail true n (f a) (g a)) :
    Ignores tail true n (p >>= f) (q >>= g) :=
  hp.bind hf (.inl (Nat.le_refl n))

end

theorem done (a : α) : Ignores tail false n (pure a) (pure a) :=
  of_cases fun cur _ => .inr ⟨a, cur, rfl, rfl, .inr ⟨rfl, rfl⟩⟩

/-- The value of a literal that has been taken does not depend on the text behind it. -/
theorem readable (r : Except Text.Fault α) : Ignores tail false n (Reading.readable r) (Reading.readable r) := by
  cases r with
  | ok a => exact .done a
  | error fault => exact of_cases fun cur _ => .inl ⟨rfl, rfl⟩

theorem map (f : α → β) (hp : Ignores tail takes n p q) :
    Ignores tail takes n (do return f (← p)) (do return f (← q)) := by
  have h := hp.bind (fun a => done (f a)) (.inl (Nat.le_refl n))
  rwa [Bool.or_false] at h

/-- The position of a token is the same with a tail behind the text, and so is what is read there. -/
theorem here_bind {f g : Span → Parser α} (h : ∀ span, Ignores tail true n (f span) (g span)) (ht : IsTail tail) :
    Ignores tail true n (here >>= f) (here >>= g) := by
  refine of_cases fun cur hn => ?_
  have hp : (here >>= f) cur = f cur.skipGap.span cur := rfl
  have hq : (here >>= g) (cur.append tail) = g (cur.append tail).skipGap.span (cur.append tail) := rfl
  rw [hp, hq]
  by_cases hrest : cur.skipGap.rest = []
  · exact .inl ⟨(h _).eq_none hn hrest, (h _).run_none hn ((h _).eq_none hn hrest)⟩
  · have hspan : (cur.append tail).skipGap.span = cur.skipGap.span := by
      rw [Cursor.skipGap_append ht hrest]
      rfl
    rw [hspan]
    exact (h _).cases_at hn

/-! ### Choice and repetition -/

theorem orElse {p' q' : Parser α} (hp : Ignores tail takes n p q) (hp' : Ignores tail takes n p' q') :
    Ignores tail takes n (p <|> p') (q <|> q') := by
  refine of_cases fun cur hn => ?_
  rcases hp.cases_at hn with ⟨hread, hread'⟩ | ⟨a, cur', hread, hread', htook⟩
  · rw [orElse_of_none hread, orElse_of_none hread']
    exact hp'.cases_at hn
  · exact .inr ⟨a, cur', orElse_of_some hread, orElse_of_some hread', htook⟩

theorem opt (hp : Ignores tail takes n p q) : Ignores tail false n (opt p) (opt q) := by
  refine of_cases fun cur hn => .inr ?_
  rcases hp.cases_at hn with ⟨hread, hread'⟩ | ⟨a, cur', hread, hread', htook⟩
  · exact ⟨none, cur, by simp [Parser.opt, hread], by simp [Parser.opt, hread'], .inr ⟨rfl, rfl⟩⟩
  · exact ⟨some a, cur', by simp [Parser.opt, hread], by simp [Parser.opt, hread'], htook.weaken⟩

theorem many (hp : Ignores tail true n p q) : Ignores tail false n (many p) (many q) := by
  refine of_cases fun cur hn => .inr ?_
  obtain ⟨as, cur', more, hmany, htook, hnone, hmany'⟩ := manyIn_append
    (fun hn hread => ⟨hp.run_some hn hread, hp.took hn hread⟩) hn (Nat.le_refl _)
    (show cur.rest.length ≤ (cur.append tail).rest.length by simp [Cursor.rest_append])
  have hstop := hp.run_none (Nat.lt_of_le_of_lt htook.length_le hn) hnone
  have hmore : manyIn q more (cur'.append tail) = some ([], cur'.append tail) := by
    cases more <;> simp [manyIn, hstop]
  rw [hmore, Option.map_some, List.append_nil] at hmany'
  exact ⟨as, cur', hmany, hmany', htook⟩

theorem many1 (hp : Ignores tail true n p q) : Ignores tail true n (many1 p) (many1 q) :=
  hp.taking fun _ => hp.many.andThen fun _ => done _

theorem operationsIn_alike {operator operator' : Parser ο} {operand operand' : Parser α}
    (ho : Ignores tail true n operator operator') (ha : Ignores tail true n operand operand') {fuel fuel' : Nat}
    (hn : cur.rest.length < n) (hfuel : cur.rest.length ≤ fuel) (hfuel' : cur.rest.length ≤ fuel') :
    operationsIn operator operand fuel cur = none ∧ operationsIn operator' operand' fuel' (cur.append tail) = none ∨
    ∃ as cur', operationsIn operator operand fuel cur = some (as, cur') ∧
      operationsIn operator' operand' fuel' (cur.append tail) = some (as, cur'.append tail) ∧
      cur.Took false cur' := by
  induction fuel generalizing cur fuel' with
  | zero =>
    have hnil : cur.rest = [] := List.length_eq_zero_iff.1 (by omega)
    have hread : operator cur = none := ho.eq_none hn (by simp [Cursor.skipGap, hnil])
    refine .inr ⟨[], cur, rfl, ?_, .inr ⟨rfl, rfl⟩⟩
    cases fuel' with
    | zero => rfl
    | succ fuel' => simp [operationsIn, ho.run_none hn hread]
  | succ fuel ih =>
    rcases ho.cases_at hn with ⟨hread, hread'⟩ | ⟨o, cur1, hread, hread', htook⟩
    · refine .inr ⟨[], cur, by simp [operationsIn, hread], ?_, .inr ⟨rfl, rfl⟩⟩
      cases fuel' with
      | zero => rfl
      | succ fuel' => simp [operationsIn, hread']
    · have hless := htook.length_lt
      obtain ⟨fuel', rfl⟩ := Nat.exists_eq_succ_of_ne_zero (show fuel' ≠ 0 by omega)
      have hn1 : cur1.rest.length < n := by omega
      rcases ha.cases_at hn1 with ⟨hoperand, hoperand'⟩ | ⟨a, cur2, hoperand, hoperand', htook2⟩
      · exact .inl ⟨by simp [operationsIn, hread, hoperand], by simp [operationsIn, hread', hoperand']⟩
      · have hless2 := htook2.length_lt
        have hn2 : cur2.rest.length < n := by omega
        have hfuel2 : cur2.rest.length ≤ fuel ∧ cur2.rest.length ≤ fuel' := by omega
        rcases ih hn2 hfuel2.1 hfuel2.2 with ⟨hmore, hmore'⟩ | ⟨as, cur3, hmore, hmore', htook3⟩
        · exact .inl ⟨by simp [operationsIn, hread, hoperand, hmore],
            by simp [operationsIn, hread', hoperand', hmore']⟩
        · exact .inr ⟨(o, a) :: as, cur3, by simp [operationsIn, hread, hoperand, hmore],
            by simp [operationsIn, hread', hoperand', hmore'], ((htook.trans htook2).trans htook3).weaken⟩

theorem operations {operator operator' : Parser ο} {operand operand' : Parser α}
    (ho : Ignores tail true n operator operator') (ha : Ignores tail true n operand operand') :
    Ignores tail false n (operations operator operand) (operations operator' operand') :=
  of_cases fun _ hn => operationsIn_alike ho ha hn (Nat.le_refl _) (by simp [Cursor.rest_append])

/-- The depth has no part in what is read, if it is no less than the number of characters. -/
theorem at_depth {p : Nat → Parser α} {d d' : Nat}
    (hstep : ∀ {n d d'}, Ignores tail true n (p d) (p d') → Ignores tail true (n + 1) (p (d + 1)) (p (d' + 1)))
    (hd : n ≤ d) (hd' : n ≤ d') : Ignores tail true n (p d) (p d') := by
  induction n generalizing d d' with
  | zero => exact .of_cases fun cur hn => absurd hn (Nat.not_lt_zero _)
  | succ n ih =>
    obtain ⟨d, rfl⟩ := Nat.exists_eq_add_of_le' (Nat.le_trans (Nat.le_add_left 1 n) hd)
    obtain ⟨d', rfl⟩ := Nat.exists_eq_add_of_le' (Nat.le_trans (Nat.le_add_left 1 n) hd')
    exact hstep (ih (by omega) (by omega))

/-- A reader that starts with as much depth as there are characters. -/
theorem of_depth {p : Nat → Parser α}
    (hstep : ∀ {n d d'}, Ignores tail true n (p d) (p d') → Ignores tail true (n + 1) (p (d + 1)) (p (d' + 1))) :
    Ignores tail true n (fun cur => p (cur.rest.length + 1) cur) fun cur => p (cur.rest.length + 1) cur := by
  have hself : ∀ cur : Cursor, Ignores tail true (cur.rest.length + 1) (p (cur.rest.length + 1))
      (p ((cur.append tail).rest.length + 1)) :=
    fun cur => at_depth hstep (Nat.le_refl _) (by simp [Cursor.rest_append])
  exact ⟨fun {cur} _ => (hself cur).run_append (Nat.lt_succ_self _),
    fun {cur} _ _ _ hread => (hself cur).took (Nat.lt_succ_self _) hread⟩

end Ignores

/-! ## Tokens -/

theorem keywords_tail : ∀ word ∈ keywords, word.toList ≠ [] ∧ word.toList.any tailChars.contains = false := by
  decide

/-- The size of a word with no word character behind it. -/
def wordSize? (word cs : List Char) : Option Nat :=
  if startsWithWord word cs then some word.length else none

/-- A word with no word character behind it. -/
def wordToken (word : String) : Parser Unit := do
  let _ ← token (wordSize? word.toList)

/-- A keyword is a word that no other word touches from the left either. -/
theorem keyword_eq_wordToken (word : String) (cur : Cursor) :
    keyword word cur = if cur.skipGap.before.any isWordChar then none else wordToken word cur := by
  by_cases hbefore : cur.skipGap.before.any isWordChar = true
  · simp [keyword, hbefore]
  · rw [if_neg hbefore, keyword_eq ⟨rfl, by simpa using hbefore⟩]
    split
    · rename_i hstart
      have htoken : token (wordSize? word.toList) cur =
          some (cur.skipGap.rest.take word.toList.length, cur.skipGap.advance word.toList.length) := by
        simp [token, wordSize?, hstart]
      rw [wordToken, bind_of_some htoken, pure_run]
    · rename_i hstart
      rw [wordToken, bind_of_none (token_of_none rfl (if_neg hstart))]

section
variable {tail : List Char} (ht : IsTail tail) {n : Nat}
include ht

theorem token_ignores {size? : List Char → Option Nat} (hsize : IgnoresTail size?) :
    Ignores tail true n (token size?) (token size?) := by
  refine .of_cases fun cur _ => ?_
  by_cases hrest : cur.skipGap.rest = []
  · have hnil : size? [] = none := by
      cases h : size? [] with
      | none => rfl
      | some k =>
        have := hsize.bounds h
        simp only [List.length_nil] at this
        omega
    have htail : size? (cur.append tail).skipGap.rest = none := by
      rw [← hnil]
      exact hsize.append (ht.of_suffix (Cursor.suffix_skipGap_append ht hrest)) []
    exact .inl ⟨token_of_none hrest hnil, token_of_none rfl htail⟩
  · have hskip : (cur.append tail).skipGap.rest = cur.skipGap.rest ++ tail := by
      rw [Cursor.skipGap_append ht hrest]
      rfl
    cases hread : size? cur.skipGap.rest with
    | none => exact .inl ⟨token_of_none rfl hread, token_of_none hskip ((hsize.append ht _).trans hread)⟩
    | some k =>
      obtain ⟨hpos, hle⟩ := hsize.bounds hread
      have htoken : token size? (cur.append tail) =
          some (cur.skipGap.rest.take k, (cur.skipGap.advance k).append tail) := by
        rw [token, Cursor.skipGap_append ht hrest, Cursor.rest_append, hsize.append ht, hread,
          ← Cursor.advance_append hle, ← List.take_append_of_le_length hle]
      refine .inr ⟨cur.skipGap.rest.take k, cur.skipGap.advance k, by simp [token, hread], htoken, .inl ?_⟩
      refine ⟨cur.skipGap.rest.take k, ?_, by simp⟩
      rw [Ne, List.take_eq_nil_iff, not_or]
      exact ⟨by omega, hrest⟩

theorem literal_ignores {s : String}
    (hs : s.toList ≠ [] ∧ s.toList.any tailChars.contains = false) :
    Ignores tail true n (literal s) (literal s) :=
  (token_ignores ht (ignoresTail_start hs.1 hs.2)).taking fun _ => .done _

theorem keyword_ignores {word : String}
    (hword : word.toList ≠ [] ∧ word.toList.any tailChars.contains = false) :
    Ignores tail true n (keyword word) (keyword word) := by
  have htoken : Ignores tail true n (wordToken word) (wordToken word) :=
    (token_ignores ht (ignoresTail_symbol hword.1 hword.2 (by decide))).taking fun _ => .done _
  refine .of_cases fun cur hn => ?_
  rw [keyword_eq_wordToken, keyword_eq_wordToken]
  by_cases hrest : cur.skipGap.rest = []
  · have hnone := htoken.eq_none hn hrest
    rw [hnone, htoken.run_none hn hnone, ite_self, ite_self]
    exact .inl ⟨rfl, rfl⟩
  · have hbefore : (cur.append tail).skipGap.before = cur.skipGap.before := by
      rw [Cursor.skipGap_append ht hrest]
      rfl
    rw [hbefore]
    split
    · exact .inl ⟨rfl, rfl⟩
    · exact htoken.cases_at hn

theorem notKeyword_ignores {words : List String}
    (hwords : ∀ word ∈ words, word.toList ≠ [] ∧ word.toList.any tailChars.contains = false) :
    Ignores tail false n (notKeyword words) (notKeyword words) := by
  refine .of_cases fun cur hn => ?_
  have hsame : words.any (fun word => (keyword word (cur.append tail)).isSome) =
      words.any fun word => (keyword word cur).isSome := by
    rw [Bool.eq_iff_iff, List.any_eq_true, List.any_eq_true]
    refine exists_congr fun word => and_congr_right fun hword => ?_
    rw [(keyword_ignores ht (hwords word hword)).run_append hn, Option.isSome_map]
  cases hfound : words.any fun word => (keyword word cur).isSome with
  | true => exact .inl ⟨by simp [notKeyword, hfound], by simp [notKeyword, hsame, hfound]⟩
  | false =>
    exact .inr ⟨(), cur, by simp [notKeyword, hfound], by simp [notKeyword, hsame, hfound], .inr ⟨rfl, rfl⟩⟩

theorem sepBy1_ignores {α : Type} {p q : Parser α} (hp : Ignores tail true n p q) :
    Ignores tail true n (sepBy1 p) (sepBy1 q) :=
  hp.taking fun _ => (Ignores.many ((literal_ignores ht (by decide)).taking fun _ => hp)).andThen fun _ => .done _

theorem sepBy_ignores {α : Type} {p q : Parser α} (hp : Ignores tail true n p q) :
    Ignores tail false n (sepBy p) (sepBy q) :=
  (sepBy1_ignores ht hp).opt.map _

/-! ## Names and types -/

theorem identifier_ignores : Ignores tail true n identifier identifier :=
  (notKeyword_ignores ht keywords_tail).thenTaking fun _ => (token_ignores ht ignoresTail_name).map _

theorem typeName_ignores : Ignores tail true n typeName typeName :=
  (token_ignores ht ignoresTail_typeName).map _

theorem typeVar_ignores : Ignores tail true n typeVar typeVar :=
  (notKeyword_ignores ht keywords_tail).thenTaking fun _ => (token_ignores ht ignoresTail_typeVar).map _

section
variable {type type' : Parser Ty} (h : Ignores tail true n type type')
include h

theorem fieldType_ignores : Ignores tail true (n + 1) (fieldType type) (fieldType type') :=
  (identifier_ignores ht).taking_succ fun _ => (literal_ignores ht (by decide)).andThen fun _ => (h.map _).weaken

theorem atomType_ignores : Ignores tail true (n + 1) (atomType type) (atomType type') := by
  have hfield : Ignores tail true n (fieldType type) (fieldType type') := (fieldType_ignores ht h).mono (by omega)
  refine .orElse ?unit (.orElse ?paren (.orElse ?list (.orElse ?record (.orElse ?con ?var))))
  case unit =>
    exact (literal_ignores ht (by decide)).taking fun _ => (literal_ignores ht (by decide)).taking fun _ => .done _
  case paren =>
    refine (literal_ignores ht (by decide)).taking_succ fun _ => (sepBy1_ignores ht h).andThen fun types => ?_
    refine (literal_ignores ht (by decide)).andThen fun _ => ?_
    split <;> exact .done _
  case list =>
    exact (literal_ignores ht (by decide)).taking_succ fun _ => h.andThen fun _ =>
      (literal_ignores ht (by decide)).andThen fun _ => .done _
  case record =>
    exact (literal_ignores ht (by decide)).taking_succ fun _ => (sepBy_ignores ht hfield).andThen fun _ =>
      (literal_ignores ht (by decide)).andThen fun _ => .done _
  case con => exact (typeName_ignores ht).map _
  case var => exact (typeVar_ignores ht).map _

omit h in
theorem contextType_ignores : Ignores tail true n contextType contextType := by
  refine .orElse ?_ (.orElse ?_ (.orElse ?_ ((typeVar_ignores ht).map _)))
  all_goals exact (keyword_ignores ht (by decide)).taking fun _ => .done _

theorem operandType_ignores : Ignores tail true (n + 1) (operandType type) (operandType type') := by
  have hatom := atomType_ignores ht h
  refine .orElse ?_ hatom
  exact (contextType_ignores ht).taking fun _ => hatom.taking fun _ => .done _

theorem typeWith_ignores : Ignores tail true (n + 1) (typeWith type) (typeWith type') := by
  have hoperand := operandType_ignores ht h
  refine hoperand.taking fun _ => (Ignores.many ?_).andThen fun _ => .done _
  exact (literal_ignores ht (by decide)).taking fun _ => hoperand

end

theorem typeExpr_ignores : Ignores tail true n typeExpr typeExpr :=
  .of_depth (typeWith_ignores ht)

/-! ## Patterns -/

theorem typing_ignores : Ignores tail false n (opt (do literal ":"; typeExpr)) (opt (do literal ":"; typeExpr)) :=
  ((literal_ignores ht (by decide)).taking fun _ => typeExpr_ignores ht).opt

section
variable {pattern pattern' : Parser Pattern} (h : Ignores tail true n pattern pattern')
include h

theorem typedPatternWith_ignores : Ignores tail true n (typedPatternWith pattern) (typedPatternWith pattern') := by
  refine h.taking fun p => (typing_ignores ht).andThen fun type? => ?_
  cases type? <;> exact .done _

theorem patternWith_ignores : Ignores tail true (n + 1) (patternWith pattern) (patternWith pattern') := by
  refine .here_bind (fun span => .orElse ?wildcard (.orElse ((identifier_ignores ht).map _) ?tuple)) ht
  case wildcard => exact (token_ignores ht ignoresTail_wildcard).taking fun _ => .done _
  case tuple =>
    refine (literal_ignores ht (by decide)).taking_succ fun _ =>
      (sepBy_ignores ht (typedPatternWith_ignores ht h)).andThen fun ps => ?_
    refine (literal_ignores ht (by decide)).andThen fun _ => ?_
    split <;> exact .done _

end

theorem pattern_ignores : Ignores tail true n pattern pattern :=
  .of_depth (patternWith_ignores ht)

theorem typedPattern_ignores : Ignores tail true n typedPattern typedPattern :=
  typedPatternWith_ignores ht (pattern_ignores ht)

end

end VeriScript.Reading
