import Mathlib.Data.List.Permutation
import VeriScript.Proofs.Reading.Names

/-!
# What the readers of lists take

* `Finds`, `Continues` — a parser takes a text and gives a result with a property, in front of the text or behind
  what was read before.
* `brackets_run`, `brackets_of_class` — what stands between two brackets.
* `many_continues` — items one after another.
* `ItemEnd`, `Closes` — what follows an item of a list, and what follows the last one.
* `sepBy1_finds`, `sepBy_reaches` — items with commas between them.
* `SortedFields`, `fields_reach` — what is read for the fields of a record, which are written in the order of their
  names.
-/

namespace VeriScript.Reading

open VeriScript.Reading.Parser

/-- The parser takes `cs`, leaves `rest` and gives a result with the property, wherever they come next. -/
def Finds {α : Type} (p : Parser α) (cs : List Char) (Q : α → Prop) (rest : List Char) : Prop :=
  ∀ cur : Cursor, cur.At (cs ++ rest) → ∃ a cur', p cur = some (a, cur') ∧ cur'.rest = rest ∧ Q a

/-- The same right behind what was read before, where a word may touch the text from the left. -/
def Continues {α : Type} (p : Parser α) (cs : List Char) (Q : α → Prop) (rest : List Char) : Prop :=
  ∀ cur : Cursor, cur.rest = cs ++ rest → ∃ a cur', p cur = some (a, cur') ∧ cur'.rest = rest ∧ Q a

/-- The parser takes `cs` and gives a result with the property; blanks may be left in front of `rest`. -/
def Reaches {α : Type} (p : Parser α) (cs : List Char) (Q : α → Prop) (rest : List Char) : Prop :=
  ∀ cur : Cursor, cur.At (cs ++ rest) → ∃ a cur', p cur = some (a, cur') ∧ cur'.skipGap.rest = rest ∧ Q a

section
variable {α β : Type} {p : Parser α} {cs rest : List Char} {Q Q' : α → Prop}

theorem Reads.finds {a : α} (h : Reads p cs a rest) : Finds p cs (· = a) rest := by
  intro cur hcur
  obtain ⟨cur', hread, hrest⟩ := h cur hcur
  exact ⟨a, cur', hread, hrest, rfl⟩

theorem Finds.imp (h : Finds p cs Q rest) (hQ : ∀ a, Q a → Q' a) : Finds p cs Q' rest := by
  intro cur hcur
  obtain ⟨a, cur', hread, hrest, ha⟩ := h cur hcur
  exact ⟨a, cur', hread, hrest, hQ a ha⟩

theorem Finds.reaches (h : Finds p cs Q rest) (hrest : Solid rest) : Reaches p cs Q rest := by
  intro cur hcur
  obtain ⟨a, cur', hread, hrest', ha⟩ := h cur hcur
  exact ⟨a, cur', hread, Cursor.rest_skipGap_of_solid hrest' hrest, ha⟩

theorem readAll_of_finds {file text : String} (h : Finds p text.toList Q []) (htab : '\t' ∉ text.toList)
    (hsolid : Solid text.toList) : ∃ a, readAll p file text = .done a ∧ Q a := by
  have hstart : (Cursor.start file text).At (text.toList ++ []) := by
    rw [List.append_nil]
    exact Cursor.at_start htab hsolid
  obtain ⟨a, cur, hread, hrest, ha⟩ := h _ hstart
  have hskip : cur.skipGap.rest = [] := Cursor.rest_skipGap_of_solid hrest solid_nil
  refine ⟨a, ?_, ha⟩
  simp [readAll, hread, hskip]

/-! ## Brackets and separators -/

variable {cur : Cursor} {s : String} {c d : Char} {xs : List β}

theorem literal_opening {c : Char} (h : cur.At (c :: cs)) (hcs : Solid cs)
    (hs : s.toList = [c]) (hc : isWordChar c = false) : ∃ cur', literal s cur = some ((), cur') ∧ cur'.At cs := by
  have hskip : cur.skipGap.rest = s.toList ++ cs := by rw [h.rest_eq, hs]; rfl
  refine ⟨_, literal_of_append hskip, .of_solid (rest_advance_skipGap hskip) hcs ?_⟩
  have hbefore : (cur.skipGap.advance 1).before = some c := Cursor.before_advance_one h.rest_eq
  rw [hs, List.length_singleton, hbefore]
  exact hc

theorem literal_of_ne (s : String) (h : cur.skipGap.rest = c :: cs)
    (hne : c ≠ d) (hs : s.toList = [d]) : literal s cur = none := by
  refine literal_of_head h (fun e he => ?_) (by simp [hs])
  cases he
  simpa [hs] using hne.symm

/-- A literal of one character is not read where another character comes next. -/
theorem literal_of_class {p : Char → Bool} (s : String) {c : Char}
    (h : ∀ d ∈ cur.skipGap.rest.head?, p d = false) (hc : p c = true) (hs : s.toList = [c]) : literal s cur = none := by
  refine literal_of_head rfl (fun d hd => ?_) (by simp [hs])
  rw [hs]
  simpa using (ne_of_class hc (h d hd))

theorem literal_closing (h : cur.skipGap.rest = s.toList ++ rest) :
    ∃ cur', literal s cur = some ((), cur') ∧ cur'.rest = rest :=
  ⟨_, literal_of_append h, rest_advance_skipGap h⟩

theorem brackets_run (opening closing : String) (hopening : opening.toList = [c])
    (hclosing : closing.toList = [d]) (hc : isWordChar c = false) (hsolid : Solid (cs ++ d :: rest))
    (hp : Reaches p cs Q (d :: rest)) (hcur : cur.At (c :: (cs ++ [d]) ++ rest)) : ∃ a cur', (∀ k : α → Parser β,
      (do literal opening; let a ← p; literal closing; k a) cur = k a cur') ∧ cur'.rest = rest ∧ Q a := by
  rw [List.cons_append, List.append_assoc, List.singleton_append] at hcur
  obtain ⟨cur1, hopen, hcur1⟩ := literal_opening hcur hsolid hopening hc
  obtain ⟨a, cur2, hread, hrest2, ha⟩ := hp cur1 hcur1
  have hskip : cur2.skipGap.rest = closing.toList ++ rest := by rw [hrest2, hclosing]; rfl
  obtain ⟨cur3, hclose, hrest3⟩ := literal_closing hskip
  refine ⟨a, cur3, fun k => ?_, hrest3, ha⟩
  rw [bind_of_some hopen, bind_of_some hread, bind_of_some hclose]

theorem brackets_of_class (opening closing : String) {isStart : Char → Bool}
    (hopening : opening.toList = [c]) (hclosing : closing.toList = [d]) (hc : isWordChar c = false)
    (hcs : ∃ e more, cs = e :: more ∧ isStart e = true) (hd : isStart d = false) (hsolid : Solid (cs ++ d :: rest))
    (hcur : cur.At (c :: (cs ++ [d]) ++ rest)) (k : Parser β) :
    (do literal opening; literal closing; k) cur = none := by
  rw [List.cons_append, List.append_assoc, List.singleton_append] at hcur
  obtain ⟨cur1, hopen, hcur1⟩ := literal_opening hcur hsolid hopening hc
  obtain ⟨e, more, rfl, he⟩ := hcs
  rw [bind_of_some hopen, bind_of_none (literal_of_ne closing hcur1.rest_eq (ne_of_class he hd) hclosing)]

/-- An item behind a separator and a blank. -/
theorem literal_then (h : cur.skipGap.rest = s.toList ++ ' ' :: (cs ++ rest))
    (hcs : Solid (cs ++ rest)) (hp : Finds p cs Q rest) :
    ∃ a cur', (do literal s; p) cur = some (a, cur') ∧ cur'.rest = rest ∧ Q a := by
  obtain ⟨a, cur', hread, hrest, ha⟩ := hp _ (.of_space (rest_advance_skipGap h) hcs)
  refine ⟨a, cur', ?_, hrest, ha⟩
  rw [bind_of_some (literal_of_append h)]
  exact hread

/-! ## Repetition -/

theorem length_le_flatMap {f : β → List α} {x : β} (h : x ∈ xs) : (f x).length ≤ (xs.flatMap f).length := by
  rw [List.flatMap_def]
  exact (List.sublist_flatten_of_mem (List.mem_map_of_mem h)).length_le

theorem exists_of_forall₂ {R : β → α → Prop} {as : List α} {a : α} (h : List.Forall₂ R xs as)
    (ha : a ∈ as) : ∃ x ∈ xs, R x a := by
  induction h with
  | nil => cases ha
  | cons hxa hrest ih =>
    obtain rfl | ha := List.mem_cons.1 ha
    · exact ⟨_, List.mem_cons_self, hxa⟩
    · obtain ⟨x, hx, hxa⟩ := ih ha
      exact ⟨x, List.mem_cons_of_mem _ hx, hxa⟩

/-- Items one after another: each of them is read where the next one or the end follows, and at the end there is
no further one. -/
theorem many_continues {text : β → List Char} {R : β → α → Prop} {E : List Char → Prop}
    (hitem : ∀ x ∈ xs, ∀ more, E more → Continues p (text x) (R x) more) (hpos : ∀ x ∈ xs, text x ≠ [])
    (hnext : ∀ x ∈ xs, ∀ more, E (text x ++ more)) (hrest : E rest)
    (hend : ∀ cur : Cursor, cur.rest = rest → p cur = none) :
    Continues (many p) (xs.flatMap text) (List.Forall₂ R xs) rest := by
  -- the number of characters bounds the number of items, so the repetition has a step for each of them
  have hlength : xs.length ≤ (xs.flatMap text).length := by
    induction xs with
    | nil => exact Nat.le_refl 0
    | cons x xs ih =>
      have hx := List.length_pos_iff.2 (hpos x List.mem_cons_self)
      have hxs := ih (fun y hy => hitem y (List.mem_cons_of_mem _ hy)) (fun y hy => hpos y (List.mem_cons_of_mem _ hy))
        (fun y hy => hnext y (List.mem_cons_of_mem _ hy))
      rw [List.flatMap_cons, List.length_append, List.length_cons]
      omega
  have hsteps : ∀ fuel, xs.length ≤ fuel → Continues (manyIn p fuel) (xs.flatMap text) (List.Forall₂ R xs) rest := by
    clear hlength
    induction xs with
    | nil =>
      intro fuel _ cur hcur
      refine ⟨[], cur, ?_, hcur, .nil⟩
      cases fuel with
      | zero => rfl
      | succ fuel => simp [manyIn, hend cur hcur]
    | cons x xs ih =>
      intro fuel hfuel cur hcur
      obtain ⟨fuel, rfl⟩ := Nat.exists_eq_add_of_le' (Nat.le_trans (Nat.le_add_left 1 xs.length) hfuel)
      rw [List.flatMap_cons, List.append_assoc] at hcur
      have hmore : E (xs.flatMap text ++ rest) := by
        cases xs with
        | nil => exact hrest
        | cons y ys =>
          rw [List.flatMap_cons, List.append_assoc]
          exact hnext y (by simp) _
      obtain ⟨a, cur1, hread, hrest1, ha⟩ := hitem x List.mem_cons_self _ hmore cur hcur
      obtain ⟨as, cur2, hreads, hrest2, has⟩ := ih (fun y hy => hitem y (List.mem_cons_of_mem _ hy))
        (fun y hy => hpos y (List.mem_cons_of_mem _ hy)) (fun y hy => hnext y (List.mem_cons_of_mem _ hy)) fuel
        (by simpa using hfuel) cur1 hrest1
      exact ⟨a :: as, cur2, by simp [manyIn, hread, hreads], hrest2, .cons ha has⟩
  intro cur hcur
  refine hsteps cur.rest.length ?_ cur hcur
  rw [hcur, List.length_append]
  omega

end

/-! ## Commas -/

/-- What comes right behind an item: nothing, a comma or a closing bracket. -/
def ItemEnd (rest : List Char) : Prop :=
  ∀ c ∈ rest.head?, c ∈ [',', ')', ']', '\x7d']

/-- A closing bracket, which comes right behind the last item. -/
def Closes (rest : List Char) : Prop :=
  ∃ c more, rest = c :: more ∧ c ∈ [')', ']', '\x7d']

variable {rest : List Char} {α : Type}

theorem ItemEnd.stops (h : ItemEnd rest) : Stops rest := by
  intro c hc
  have hstop : ∀ d ∈ [',', ')', ']', '\x7d'], d ∈ stopChars := forall_mem_of_all rfl
  exact hstop c (h c hc)

theorem itemEnd_nil : ItemEnd [] := by simp [ItemEnd]

theorem itemEnd_comma (more : List Char) : ItemEnd (',' :: more) := by simp [ItemEnd]

theorem Closes.itemEnd (h : Closes rest) : ItemEnd rest := by
  obtain ⟨c, more, rfl, hc⟩ := h
  intro d hd
  cases hd
  exact List.mem_cons_of_mem _ hc

theorem ItemEnd.solid (h : ItemEnd rest) : Solid rest := by
  cases rest with
  | nil => exact solid_nil
  | cons c rest =>
    have hc : ∀ d ∈ [',', ')', ']', '\x7d'], (Text.isGap d || d == '/') = false := forall_mem_of_all rfl
    exact solid_cons (hc c (h c rfl))

theorem ItemEnd.skipGap {cur : Cursor} (h : ItemEnd rest) (hcur : cur.rest = rest) : ItemEnd cur.skipGap.rest := by
  rw [Cursor.rest_skipGap_of_solid hcur h.solid]
  exact h

def commaChars (texts : List (List Char)) : List Char :=
  [',', ' '].intercalate texts

theorem toList_commas (texts : List String) :
    (String.intercalate ", " texts).toList = commaChars (texts.map String.toList) :=
  String.toList_intercalate

theorem commaChars_cons (cs : List Char) (texts : List (List Char)) :
    commaChars (cs :: texts) = cs ++ texts.flatMap fun text => ',' :: ' ' :: text := by
  induction texts generalizing cs with
  | nil => simp [commaChars]
  | cons text texts ih =>
    have := ih text
    simp_all [commaChars, List.intercalate_cons_cons]

theorem tab_not_mem_commaChars {texts : List (List Char)} (h : ∀ text ∈ texts, '\t' ∉ text) :
    '\t' ∉ commaChars texts := by
  cases texts with
  | nil => simp [commaChars]
  | cons text texts =>
    obtain ⟨htext, htexts⟩ := List.forall_mem_cons.1 h
    simpa [commaChars_cons, htext] using htexts

theorem tab_not_mem_sortedFields {fields : List (String × α)} {text : String × α → List Char}
    (h : ∀ f ∈ fields, '\t' ∉ text f) : '\t' ∉ commaChars ((Table.sortByName fields).map text) :=
  tab_not_mem_commaChars (List.forall_mem_map.2 fun f hf => h f ((Table.perm_sortByName fields).mem_iff.1 hf))

theorem solid_commaChars {xs : List α} {text : α → List Char}
    (hxs : ∀ x ∈ xs, Opens (text x)) (hrest : Solid rest) : Solid (commaChars (xs.map text) ++ rest) := by
  cases xs with
  | nil => exact hrest
  | cons x xs =>
    rw [List.map_cons, commaChars_cons, List.append_assoc]
    exact (hxs x List.mem_cons_self).solid _

theorem length_le_commaChars {text : List Char} {texts : List (List Char)} (h : text ∈ texts) :
    text.length ≤ (commaChars texts).length := by
  cases texts with
  | nil => cases h
  | cons first texts =>
    rw [commaChars_cons, List.length_append]
    obtain rfl | h := List.mem_cons.1 h
    · omega
    · have hle := length_le_flatMap (f := fun text => ',' :: ' ' :: text) h
      rw [List.length_cons, List.length_cons] at hle
      omega

theorem length_le_sortedFields {fields : List (String × α)} {f : String × α} (hf : f ∈ fields)
    (text : String × α → List Char) : (text f).length ≤ (commaChars ((Table.sortByName fields).map text)).length :=
  length_le_commaChars (List.mem_map_of_mem ((Table.perm_sortByName fields).mem_iff.2 hf))

section
variable {α β : Type} {p : Parser α} {text : β → List Char} {R : β → α → Prop} {rest : List Char}

theorem sepBy1_finds {x : β} {xs : List β} (hsolid : ∀ y ∈ x :: xs, ∀ more, Solid (text y ++ more))
    (hitem : ∀ y ∈ x :: xs, ∀ more, ItemEnd more → Finds p (text y) (R y) more) (hrest : Closes rest) :
    Finds (sepBy1 p) (commaChars ((x :: xs).map text)) (List.Forall₂ R (x :: xs)) rest := by
  intro cur hcur
  have htext : commaChars ((x :: xs).map text) = text x ++ xs.flatMap fun y => ',' :: ' ' :: text y := by
    rw [List.map_cons, commaChars_cons, List.flatMap_map]
  rw [htext, List.append_assoc] at hcur
  have hnext : ItemEnd ((xs.flatMap fun y => ',' :: ' ' :: text y) ++ rest) := by
    cases xs with
    | nil => exact hrest.itemEnd
    | cons y ys => exact itemEnd_comma _
  obtain ⟨a, cur1, hread, hrest1, ha⟩ := hitem x List.mem_cons_self _ hnext cur hcur
  have hmany : Continues (many (do literal ","; p)) (xs.flatMap fun y => ',' :: ' ' :: text y)
      (List.Forall₂ R xs) rest := by
    refine many_continues (fun y hy more hmore cur hcur => ?_) (by simp) (fun y _ more => itemEnd_comma _)
      hrest.itemEnd (fun cur hcur => ?_)
    · have hskip : cur.skipGap.rest = ",".toList ++ ' ' :: (text y ++ more) :=
        Cursor.rest_skipGap_of_solid hcur (itemEnd_comma _).solid
      exact literal_then hskip (hsolid y (List.mem_cons_of_mem _ hy) more)
        (hitem y (List.mem_cons_of_mem _ hy) more hmore)
    · have hclose : ∀ d ∈ cur.skipGap.rest.head?, d ∈ [')', ']', '\x7d'] := by
        rw [Cursor.rest_skipGap_of_solid hcur hrest.itemEnd.solid]
        obtain ⟨c, more, rfl, hc⟩ := hrest
        simpa using hc
      exact bind_of_none (literal_of_outside "," hclose rfl)
  obtain ⟨as, cur2, hreads, hrest2, has⟩ := hmany cur1 hrest1
  refine ⟨a :: as, cur2, ?_, hrest2, .cons ha has⟩
  rw [sepBy1, bind_of_some hread, bind_of_some hreads]
  rfl

theorem sepBy_reaches {xs : List β} (hsolid : ∀ y ∈ xs, ∀ more, Solid (text y ++ more))
    (hitem : ∀ y ∈ xs, ∀ more, ItemEnd more → Finds p (text y) (R y) more) (hrest : Closes rest)
    (hnone : ∀ cur : Cursor, cur.skipGap.rest = rest → p cur = none) :
    Reaches (sepBy p) (commaChars (xs.map text)) (List.Forall₂ R xs) rest := by
  intro cur hcur
  cases xs with
  | nil =>
    have hfail : sepBy1 p cur = none := bind_of_none (hnone cur hcur.rest_eq)
    refine ⟨[], cur, ?_, hcur.rest_eq, .nil⟩
    rw [sepBy, bind_of_some (show opt (sepBy1 p) cur = some (none, cur) by simp [opt, hfail])]
    rfl
  | cons x xs =>
    obtain ⟨as, cur1, hread, hrest1, has⟩ := sepBy1_finds hsolid hitem hrest cur hcur
    refine ⟨as, cur1, ?_, Cursor.rest_skipGap_of_solid hrest1 hrest.itemEnd.solid, has⟩
    rw [sepBy, bind_of_some (show opt (sepBy1 p) cur = some (some as, cur1) by simp [opt, hread])]
    rfl

end

/-! ## Fields -/

/-- The second fields are those of the first, in the order of their names and related one by one. -/
def SortedFields {α β : Type} (R : α → β → Prop) (fields : List (String × α)) (fields' : List (String × β)) : Prop :=
  List.Forall₂ (fun f g => g.1 = f.1 ∧ R f.2 g.2) (Table.sortByName fields) fields'

section
variable {α β : Type} {R : α → β → Prop} {fields : List (String × α)} {fields' : List (String × β)}

theorem SortedFields.names_perm (h : SortedFields R fields fields') :
    (Table.names fields).Perm (Table.names fields') := by
  have hnames : Table.names (Table.sortByName fields) = Table.names fields' := by
    rw [Table.names, Table.names, ← List.forall₂_eq_eq_eq, List.forall₂_map_left_iff, List.forall₂_map_right_iff]
    exact h.imp fun f g hfg => hfg.1.symm
  rw [← hnames]
  exact (Table.perm_sortByName fields).symm.map _

theorem SortedFields.related (h : SortedFields R fields fields') (hdistinct : (Table.names fields).Nodup)
    {name : String} {a : α} {b : β} (ha : (name, a) ∈ fields) (hb : (name, b) ∈ fields') : R a b := by
  obtain ⟨f, hf, hname, hfb⟩ := exists_of_forall₂ h hb
  -- the names are different, so the two fields are the same
  have hget := Table.get?_of_mem hdistinct ((Table.perm_sortByName fields).mem_iff.1 hf)
  rw [← hname, Table.get?_of_mem hdistinct ha] at hget
  obtain rfl : a = f.2 := Option.some.inj hget
  exact hfb

/-- A name, a separator and what is named. -/
def namedItem (separator : String) (item : Parser β) : Parser (String × β) := do
  let name ← identifier
  literal separator
  return (name, ← item)

variable {item : Parser β} (separator : String) {d : Char} {rest : List Char} (hseparator : separator.toList = [d])
  (hd : Text.isGap d = false ∧ d ≠ '/')
include hseparator hd

theorem namedItem_finds {name : String} {cs : List Char} {Q : β → Prop} (hname : IsIdentifier name) (hcs : Opens cs)
    (hitem : Finds item cs Q rest) :
    Finds (namedItem separator item) (name.toList ++ ' ' :: d :: ' ' :: cs) (fun f => f.1 = name ∧ Q f.2) rest := by
  intro cur hcur
  rw [List.append_assoc] at hcur
  obtain ⟨cur1, hread, hrest1⟩ := hname.reads (by simp [Stops, stopChars]) cur hcur
  have hskip : cur1.skipGap.rest = separator.toList ++ ' ' :: (cs ++ rest) := by
    rw [hseparator]
    exact Cursor.rest_skipGap_of_space hrest1 (solid_cons (by simp [hd]))
  obtain ⟨b, cur2, hread2, hrest2, hb⟩ := hitem _ (.of_space (rest_advance_skipGap hskip) (hcs.solid _))
  refine ⟨(name, b), cur2, ?_, hrest2, rfl, hb⟩
  rw [namedItem, bind_of_some hread, bind_of_some (literal_of_append hskip), bind_of_some hread2]
  rfl

theorem fields_reach {text : α → List Char} (hnames : ∀ f ∈ fields, IsIdentifier f.1)
    (hopens : ∀ f ∈ fields, Opens (text f.2))
    (hitem : ∀ f ∈ fields, ∀ more, ItemEnd more → Finds item (text f.2) (R f.2) more) {texts : List Char}
    (htexts : texts = commaChars ((Table.sortByName fields).map fun f => f.1.toList ++ ' ' :: d :: ' ' :: text f.2)) :
    Solid (texts ++ '\x7d' :: rest) ∧
      Reaches (sepBy (namedItem separator item)) texts (SortedFields R fields) ('\x7d' :: rest) := by
  subst htexts
  have hmem : ∀ f ∈ Table.sortByName fields, f ∈ fields := fun f => (Table.perm_sortByName fields).mem_iff.1
  have hstart : ∀ f ∈ Table.sortByName fields, Opens (f.1.toList ++ ' ' :: d :: ' ' :: text f.2) :=
    fun f hf => ((hnames f (hmem f hf)).isName.opens runShape_name.nameShape).append _
  refine ⟨solid_commaChars hstart (solid_cons rfl), ?_⟩
  refine sepBy_reaches (fun f hf => (hstart f hf).solid) (fun f hf more hmore => ?_) ⟨_, _, rfl, by decide⟩
    (fun cur hcur => ?_)
  · have hf' := hmem f hf
    exact namedItem_finds separator hseparator hd (hnames f hf') (hopens f hf') (hitem f hf' more hmore)
  · exact bind_of_none (named_of_none hcur (runShape_name.size_of_not_start (by decide)))

end

end VeriScript.Reading
