import Mathlib.Data.List.Nodup
import DocQuery.Proofs.Fingerprint.Escape
import DocQuery.Proofs.Number.Numeral

/-!
# DocQuery.Proofs.Fingerprint.JsonText — a form is known by its text

`Json.chars` can be read in one way only (`Json.chars_inj`).  The induction is over forms that stand
in a longer text: a form, and then something that begins with a separator or a closing mark, make
the same text as another form and what follows that one only if the two forms are the same
(`Json.chars_append_inj`).  Words and numbers end where their characters end; strings, arrays and
objects close themselves.
-/

namespace DocQuery.Json

/-! ### Words and numbers -/

/-- The forms that are written as a word. -/
def words : List (Json × List Char) :=
  [(null, "null".toList), (bool true, "true".toList), (bool false, "false".toList),
    (float (.infinite false), "Infinity".toList), (float (.infinite true), "-Infinity".toList),
    (float .nan, "NaN".toList)]

/-- The forms without a closing mark of their own: words and numbers. -/
inductive Bare : Json → Prop
  | word {j : Json} {w : List Char} (h : (j, w) ∈ words) : Bare j
  | int (n : Int) : Bare (int n)
  | decimal (d : Decimal) : Bare (float (.finite d))

/-- The characters of words and numbers. -/
def isBareChar (c : Char) : Bool := c.isAlphanum || ['-', '+', '.'].contains c

/-- The characters of decimals. -/
def isDecimalChar (c : Char) : Bool := c.isDigit || ['-', '+', '.', 'e'].contains c

theorem chars_of_mem_words {j : Json} {w : List Char} (h : (j, w) ∈ words) : chars j = w := by
  simp only [words, List.mem_cons, Prod.mk.injEq, List.not_mem_nil, or_false] at h
  rcases h with ⟨rfl, rfl⟩ | ⟨rfl, rfl⟩ | ⟨rfl, rfl⟩ | ⟨rfl, rfl⟩ | ⟨rfl, rfl⟩ | ⟨rfl, rfl⟩ <;> rfl

theorem words_texts : ∀ w ∈ words.map (·.2),
    w ≠ [] ∧ (w.all isBareChar = true) ∧ (w.all isDecimalChar = false) := by decide

theorem words_texts_nodup : (words.map (·.2)).Nodup := by decide

theorem mem_words_text {j : Json} {w : List Char} (h : (j, w) ∈ words) : w ∈ words.map (·.2) :=
  List.mem_map_of_mem (f := (·.2)) h

theorem isDecimalChar_of_mem_integer {n : Int} {c : Char} (h : c ∈ Integer.chars n) :
    isDecimalChar c = true ∧ c ≠ '.' ∧ c ≠ 'e' := by
  rcases Integer.mem_chars h with rfl | hd
  · decide
  · have hm := Decimal.digit_ne_mark hd
    exact ⟨by simp [isDecimalChar, hd], by simpa using hm.2.1, by simpa using hm.1⟩

theorem isDecimalChar_of_mem_decimal {d : Decimal} {c : Char} (h : c ∈ d.chars) :
    isDecimalChar c = true := by
  rcases Decimal.mem_chars h with hd | hm
  · simp [isDecimalChar, hd]
  · simp [isDecimalChar, hm]

theorem isBareChar_of_isDecimalChar {c : Char} (h : isDecimalChar c = true) :
    isBareChar c = true := by
  rcases Bool.or_eq_true_iff.mp h with hd | hm
  · simp [isBareChar, Char.isAlphanum, hd]
  · have hmarks : ['-', '+', '.', 'e'].all isBareChar = true := by decide
    exact List.all_eq_true.mp hmarks c (List.contains_iff_mem.mp hm)

/-- A number is no word. -/
theorem ne_word_of_isDecimalChar {j : Json} {w cs : List Char} (hw : (j, w) ∈ words)
    (h : ∀ c ∈ cs, isDecimalChar c = true) : cs ≠ w := by
  rintro rfl
  have hall : cs.all isDecimalChar = true := List.all_eq_true.mpr h
  rw [(words_texts cs (mem_words_text hw)).2.2] at hall
  exact absurd hall (by decide)

theorem integer_ne_decimal (n : Int) (d : Decimal) : Integer.chars n ≠ d.chars := by
  intro h
  obtain ⟨c, hc, hm⟩ := d.exists_mark_mem_chars
  rw [← h] at hc
  obtain ⟨-, hdot, he⟩ := isDecimalChar_of_mem_integer hc
  exact hm.elim hdot he

theorem isBareChar_of_bare {j : Json} (h : Bare j) : ∀ c ∈ chars j, isBareChar c = true := by
  cases h with
  | word hw =>
    rw [chars_of_mem_words hw]
    exact List.all_eq_true.mp (words_texts _ (mem_words_text hw)).2.1
  | int n => exact fun c hc => isBareChar_of_isDecimalChar (isDecimalChar_of_mem_integer hc).1
  | decimal d => exact fun c hc => isBareChar_of_isDecimalChar (isDecimalChar_of_mem_decimal hc)

theorem chars_ne_nil_of_bare {j : Json} (h : Bare j) : chars j ≠ [] := by
  cases h with
  | word hw =>
    rw [chars_of_mem_words hw]
    exact (words_texts _ (mem_words_text hw)).1
  | int n => exact Integer.chars_ne_nil n
  | decimal d =>
    obtain ⟨c, hc, -⟩ := d.exists_mark_mem_chars
    exact List.ne_nil_of_mem hc

theorem word_inj {j k : Json} {w : List Char} (hj : (j, w) ∈ words) (hk : (k, w) ∈ words) :
    j = k := by
  have h := List.inj_on_of_nodup_map words_texts_nodup hj hk rfl
  exact congrArg Prod.fst h

theorem bare_inj {j k : Json} (hj : Bare j) (hk : Bare k) (h : chars j = chars k) : j = k := by
  cases hj with
  | word hw =>
    rw [chars_of_mem_words hw] at h
    cases hk with
    | word hv =>
      rw [chars_of_mem_words hv] at h
      subst h
      exact word_inj hw hv
    | int n =>
      exact absurd h.symm
        (ne_word_of_isDecimalChar hw fun c hc => (isDecimalChar_of_mem_integer hc).1)
    | decimal d =>
      exact absurd h.symm (ne_word_of_isDecimalChar hw fun c hc => isDecimalChar_of_mem_decimal hc)
  | int m =>
    cases hk with
    | word hv =>
      rw [chars_of_mem_words hv] at h
      exact absurd h (ne_word_of_isDecimalChar hv fun c hc => (isDecimalChar_of_mem_integer hc).1)
    | int n => exact congrArg int (Integer.chars_inj h)
    | decimal d => exact absurd h (integer_ne_decimal m d)
  | decimal d =>
    cases hk with
    | word hv =>
      rw [chars_of_mem_words hv] at h
      exact absurd h (ne_word_of_isDecimalChar hv fun c hc => isDecimalChar_of_mem_decimal hc)
    | int n => exact absurd h.symm (integer_ne_decimal n d)
    | decimal e => rw [Decimal.chars_inj h]

/-! ### Where a word or a number ends -/

/-- A text that can follow a form: it begins with no character of a word or a number. -/
def Closed (r : List Char) : Prop := ∀ c ∈ r.head?, isBareChar c = false

theorem closed_nil : Closed [] := by simp [Closed]

theorem closed_cons {c : Char} {r : List Char} (h : isBareChar c = false) : Closed (c :: r) := by
  simpa [Closed] using h

theorem Closed.takeWhile {r : List Char} (h : Closed r) : r.takeWhile isBareChar = [] := by
  cases r with
  | nil => rfl
  | cons c r =>
    have hc : isBareChar c = false := h c rfl
    simp [hc]

theorem bare_chars_append_inj {a b r s : List Char} (ha : ∀ c ∈ a, isBareChar c = true)
    (hb : ∀ c ∈ b, isBareChar c = true) (hr : Closed r) (hs : Closed s) (h : a ++ r = b ++ s) :
    a = b ∧ r = s := by
  have hw := congrArg (List.takeWhile isBareChar) h
  rw [List.takeWhile_append_of_pos ha, List.takeWhile_append_of_pos hb, hr.takeWhile,
    hs.takeWhile, List.append_nil, List.append_nil] at hw
  subst hw
  exact ⟨rfl, List.append_cancel_left h⟩

/-! ### How a form begins -/

/-- The mark that opens a form; words and numbers have none. -/
def opening : Json → Option Char
  | str _ => some Text.doubleQuote
  | arr _ => some '['
  | obj _ => some '\x7b'
  | _ => none

theorem bare_of_opening_eq_none {j : Json} (h : j.opening = none) : Bare j := by
  cases j with
  | null => exact .word (w := "null".toList) (by simp [words])
  | bool b =>
    cases b with
    | true => exact .word (w := "true".toList) (by simp [words])
    | false => exact .word (w := "false".toList) (by simp [words])
  | int n => exact .int n
  | float x =>
    cases x with
    | finite d => exact .decimal d
    | infinite negative =>
      cases negative with
      | true => exact .word (w := "-Infinity".toList) (by simp [words])
      | false => exact .word (w := "Infinity".toList) (by simp [words])
    | nan => exact .word (w := "NaN".toList) (by simp [words])
  | str s => simp [opening] at h
  | arr xs => simp [opening] at h
  | obj ms => simp [opening] at h

/-- The first character of a text tells how its form opens. -/
theorem exists_chars_eq_cons (j : Json) :
    ∃ c cs, chars j = c :: cs ∧ j.opening = if isBareChar c then none else some c := by
  cases h : j.opening with
  | none =>
    have hb := bare_of_opening_eq_none h
    obtain ⟨c, cs, hc⟩ := List.exists_cons_of_ne_nil (chars_ne_nil_of_bare hb)
    have hbc : isBareChar c = true := isBareChar_of_bare hb c (by simp [hc])
    exact ⟨c, cs, hc, by simp [hbc]⟩
  | some q =>
    match j with
    | str s => exact ⟨_, _, rfl, by rw [← h]; rfl⟩
    | arr [] => exact ⟨_, _, rfl, by rw [← h]; rfl⟩
    | arr (_ :: _) => exact ⟨_, _, rfl, by rw [← h]; rfl⟩
    | obj [] => exact ⟨_, _, rfl, by rw [← h]; rfl⟩
    | obj (_ :: _) => exact ⟨_, _, rfl, by rw [← h]; rfl⟩

theorem opening_eq_of_append_eq {j k : Json} {r s : List Char} (h : chars j ++ r = chars k ++ s) :
    j.opening = k.opening := by
  obtain ⟨c, cs, hc, hj⟩ := j.exists_chars_eq_cons
  obtain ⟨d, ds, hd, hk⟩ := k.exists_chars_eq_cons
  rw [hc, hd] at h
  rw [hj, hk, (List.cons.inj h).1]

theorem exists_eq_str {k : Json} (h : k.opening = some Text.doubleQuote) : ∃ s, k = str s := by
  cases k with
  | str s => exact ⟨s, rfl⟩
  | arr _ => exact absurd (Option.some.inj h) (by decide)
  | obj _ => exact absurd (Option.some.inj h) (by decide)
  | null | bool _ | int _ | float _ => simp [opening] at h

theorem exists_eq_arr {k : Json} (h : k.opening = some '[') : ∃ xs, k = arr xs := by
  cases k with
  | arr xs => exact ⟨xs, rfl⟩
  | str _ => exact absurd (Option.some.inj h) (by decide)
  | obj _ => exact absurd (Option.some.inj h) (by decide)
  | null | bool _ | int _ | float _ => simp [opening] at h

theorem exists_eq_obj {k : Json} (h : k.opening = some '\x7b') : ∃ ms, k = obj ms := by
  cases k with
  | obj ms => exact ⟨ms, rfl⟩
  | str _ => exact absurd (Option.some.inj h) (by decide)
  | arr _ => exact absurd (Option.some.inj h) (by decide)
  | null | bool _ | int _ | float _ => simp [opening] at h

theorem bare_append_inj {j k : Json} {r s : List Char} (hj : j.opening = none)
    (hjk : j.opening = k.opening) (hr : Closed r) (hs : Closed s)
    (h : chars j ++ r = chars k ++ s) : j = k ∧ r = s := by
  have hbj := bare_of_opening_eq_none hj
  have hbk := bare_of_opening_eq_none (hjk.symm.trans hj)
  obtain ⟨hc, hrs⟩ :=
    bare_chars_append_inj (isBareChar_of_bare hbj) (isBareChar_of_bare hbk) hr hs h
  exact ⟨bare_inj hbj hbk hc, hrs⟩

/-- No form begins with a separator or a closing mark. -/
theorem chars_append_ne_cons {j : Json} {c : Char} {r s : List Char}
    (hc : c ∈ [',', ']', '\x7d']) : chars j ++ r ≠ c :: s := by
  intro h
  obtain ⟨d, ds, hd, hj⟩ := j.exists_chars_eq_cons
  rw [hd] at h
  obtain rfl : d = c := (List.cons.inj h).1
  have hmarks : [',', ']', '\x7d'].all (fun d => !([none, some Text.doubleQuote, some '[',
      some '\x7b'].contains (if isBareChar d then none else some d))) = true := by decide
  have hd := List.all_eq_true.mp hmarks d hc
  rw [Bool.not_eq_true', ← Bool.not_eq_true, List.contains_iff_mem] at hd
  refine hd ?_
  rw [← hj]
  cases j <;> simp [opening]

theorem closed_itemsTail_append (xs : List Json) (r : List Char) : Closed (itemsTail xs ++ r) := by
  cases xs with
  | nil => exact closed_cons (by decide)
  | cons x xs => exact closed_cons (by decide)

theorem closed_membersTail_append (ms : List (String × Json)) (r : List Char) :
    Closed (membersTail ms ++ r) := by
  cases ms with
  | nil => exact closed_cons (by decide)
  | cons m ms => exact closed_cons (by decide)

/-! ### Whole forms -/

mutual

/-- Forms inside a text: each is found again, and so is what follows it. -/
theorem chars_append_inj (j : Json) {k : Json} {r s : List Char} (hr : Closed r) (hs : Closed s)
    (h : chars j ++ r = chars k ++ s) : j = k ∧ r = s := by
  have hopen := opening_eq_of_append_eq h
  match j with
  | null => exact bare_append_inj rfl hopen hr hs h
  | bool _ => exact bare_append_inj rfl hopen hr hs h
  | int _ => exact bare_append_inj rfl hopen hr hs h
  | float _ => exact bare_append_inj rfl hopen hr hs h
  | str a =>
    obtain ⟨b, rfl⟩ := exists_eq_str hopen.symm
    obtain ⟨rfl, rfl⟩ := stringChars_append_inj h
    exact ⟨rfl, rfl⟩
  | arr xs =>
    obtain ⟨ys, rfl⟩ := exists_eq_arr hopen.symm
    obtain ⟨rfl, rfl⟩ := items_append_inj xs h
    exact ⟨rfl, rfl⟩
  | obj ms =>
    obtain ⟨ns, rfl⟩ := exists_eq_obj hopen.symm
    obtain ⟨rfl, rfl⟩ := members_append_inj ms h
    exact ⟨rfl, rfl⟩

theorem items_append_inj (xs : List Json) {ys : List Json} {r s : List Char}
    (h : chars (arr xs) ++ r = chars (arr ys) ++ s) : xs = ys ∧ r = s := by
  match xs, ys with
  | [], [] => simpa [chars] using h
  | [], y :: ys =>
    simp only [chars, List.cons_append, List.nil_append, List.cons.injEq, true_and,
      List.append_assoc] at h
    exact absurd h.symm (chars_append_ne_cons (by simp))
  | x :: xs, [] =>
    simp only [chars, List.cons_append, List.nil_append, List.cons.injEq, true_and,
      List.append_assoc] at h
    exact absurd h (chars_append_ne_cons (by simp))
  | x :: xs, y :: ys =>
    simp only [chars, List.cons_append, List.cons.injEq, true_and, List.append_assoc] at h
    obtain ⟨rfl, ht⟩ :=
      chars_append_inj x (closed_itemsTail_append xs r) (closed_itemsTail_append ys s) h
    obtain ⟨rfl, rfl⟩ := itemsTail_append_inj xs ht
    exact ⟨rfl, rfl⟩

theorem itemsTail_append_inj (xs : List Json) {ys : List Json} {r s : List Char}
    (h : itemsTail xs ++ r = itemsTail ys ++ s) : xs = ys ∧ r = s := by
  match xs, ys with
  | [], [] => simpa [itemsTail] using h
  | [], y :: ys => simp [itemsTail] at h
  | x :: xs, [] => simp [itemsTail] at h
  | x :: xs, y :: ys =>
    simp only [itemsTail, List.cons_append, List.cons.injEq, true_and, List.append_assoc] at h
    obtain ⟨rfl, ht⟩ :=
      chars_append_inj x (closed_itemsTail_append xs r) (closed_itemsTail_append ys s) h
    obtain ⟨rfl, rfl⟩ := itemsTail_append_inj xs ht
    exact ⟨rfl, rfl⟩

theorem members_append_inj (ms : List (String × Json)) {ns : List (String × Json)}
    {r s : List Char} (h : chars (obj ms) ++ r = chars (obj ns) ++ s) : ms = ns ∧ r = s := by
  match ms, ns with
  | [], [] => simpa [chars] using h
  | [], (k, v) :: ns => simp [chars, stringChars, Text.doubleQuote] at h
  | (k, v) :: ms, [] => simp [chars, stringChars, Text.doubleQuote] at h
  | (k, v) :: ms, (l, w) :: ns =>
    simp only [chars, List.cons_append, List.cons.injEq, true_and, List.append_assoc] at h
    obtain ⟨rfl, hv⟩ := stringChars_append_inj h
    obtain ⟨rfl, ht⟩ := chars_append_inj v (closed_membersTail_append ms r)
      (closed_membersTail_append ns s) (List.cons.inj hv).2
    obtain ⟨rfl, rfl⟩ := membersTail_append_inj ms ht
    exact ⟨rfl, rfl⟩

theorem membersTail_append_inj (ms : List (String × Json)) {ns : List (String × Json)}
    {r s : List Char} (h : membersTail ms ++ r = membersTail ns ++ s) : ms = ns ∧ r = s := by
  match ms, ns with
  | [], [] => simpa [membersTail] using h
  | [], (k, v) :: ns => simp [membersTail] at h
  | (k, v) :: ms, [] => simp [membersTail] at h
  | (k, v) :: ms, (l, w) :: ns =>
    simp only [membersTail, List.cons_append, List.cons.injEq, true_and, List.append_assoc] at h
    obtain ⟨rfl, hv⟩ := stringChars_append_inj h
    obtain ⟨rfl, ht⟩ := chars_append_inj v (closed_membersTail_append ms r)
      (closed_membersTail_append ns s) (List.cons.inj hv).2
    obtain ⟨rfl, rfl⟩ := membersTail_append_inj ms ht
    exact ⟨rfl, rfl⟩

end

/-- A form is known by its text. -/
theorem chars_inj {j k : Json} (h : chars j = chars k) : j = k :=
  (chars_append_inj j closed_nil closed_nil (congrArg (· ++ []) h)).1

theorem text_inj {j k : Json} : j.text = k.text ↔ j = k :=
  ⟨fun h => chars_inj (String.ofList_injective h), fun h => h ▸ rfl⟩

end DocQuery.Json
