import Mathlib.Algebra.Group.Nat.Defs
import Mathlib.Tactic.SplitIfs
import DocQuery.Number.Decimal
import DocQuery.Number.Integer

/-!
# DocQuery.Proofs.Number.Numeral — numerals read back

`Integer.chars` and `Decimal.chars` write a number in one way only.  For integers the digits give
the number back (`Integer.chars_inj`); for decimals the library's own reader does
(`Decimal.magnitudeOfChars?_magnitudeChars`), so two decimals with the same text are the same
(`Decimal.chars_inj`).  The characters of a decimal tell it from an integer: it has a point or an
exponent mark.
-/

namespace DocQuery

/-! ### Integers -/

theorem isDigit_of_mem_toDigits {c : Char} {n : Nat} (h : c ∈ Nat.toDigits 10 n) :
    c.isDigit = true :=
  Nat.isDigit_of_mem_toDigits (by decide) (by decide) h

theorem toDigits_ten_inj {m n : Nat} (h : Nat.toDigits 10 m = Nat.toDigits 10 n) : m = n := by
  have hv := congrArg (fun cs => Nat.ofDigitChars 10 cs 0) h
  simpa using hv

/-- A list that starts with a sign is no list of digits. -/
theorem minus_cons_ne_toDigits {cs : List Char} {n : Nat} : '-' :: cs ≠ Nat.toDigits 10 n := by
  intro h
  have hd : ('-' : Char).isDigit = true := isDigit_of_mem_toDigits (n := n) (by rw [← h]; simp)
  exact absurd hd (by decide)

namespace Integer

theorem chars_inj {m n : Int} (h : chars m = chars n) : m = n := by
  unfold chars at h
  split_ifs at h with hm hn hn
  · have := toDigits_ten_inj (List.cons.inj h).2
    omega
  · exact absurd h minus_cons_ne_toDigits
  · exact absurd h.symm minus_cons_ne_toDigits
  · have := toDigits_ten_inj h
    omega

theorem mem_chars {c : Char} {n : Int} (h : c ∈ chars n) : c = '-' ∨ c.isDigit = true := by
  unfold chars at h
  split_ifs at h with hn
  · rcases List.mem_cons.mp h with rfl | h
    · exact .inl rfl
    · exact .inr (isDigit_of_mem_toDigits h)
  · exact .inr (isDigit_of_mem_toDigits h)

theorem chars_ne_nil (n : Int) : chars n ≠ [] := by
  unfold chars
  split_ifs
  · simp
  · exact Nat.toDigits_ne_nil

end Integer

/-! ### Reading digits -/

namespace Binary64

theorem natOfDigits?_of_isDigit {cs : List Char} (hne : cs ≠ []) (h : ∀ c ∈ cs, c.isDigit = true) :
    natOfDigits? cs = some (Nat.ofDigitChars 10 cs 0) := by
  have hall : cs.all Char.isDigit = true := List.all_eq_true.mpr h
  have hemp : cs.isEmpty = false := by simpa using hne
  rw [natOfDigits?, hall, hemp]
  rfl

theorem natOfDigits?_twoDigits (n : Nat) : natOfDigits? (Decimal.twoDigits n) = some n := by
  have hd : ∀ c ∈ Decimal.twoDigits n, c.isDigit = true := by
    intro c hc
    unfold Decimal.twoDigits at hc
    split_ifs at hc
    · rcases List.mem_cons.mp hc with rfl | hc
      · decide
      · exact isDigit_of_mem_toDigits hc
    · exact isDigit_of_mem_toDigits hc
  have hne : Decimal.twoDigits n ≠ [] := by
    unfold Decimal.twoDigits
    split_ifs
    · simp
    · exact Nat.toDigits_ne_nil
  rw [natOfDigits?_of_isDigit hne hd]
  unfold Decimal.twoDigits
  split_ifs
  · simp [Nat.ofDigitChars_cons]
  · simp

theorem exponentOfChars?_signed (power : Int) :
    exponentOfChars? ((if power < 0 then '-' else '+') :: Decimal.twoDigits power.natAbs)
      = some power := by
  split_ifs with h
  · rw [exponentOfChars?, natOfDigits?_twoDigits]
    simp only [Option.bind_eq_bind, Option.bind_some, Option.pure_def, Option.map_some,
      Option.some.injEq]
    omega
  · rw [exponentOfChars?, natOfDigits?_twoDigits]
    simp only [Option.map_some, Option.some.injEq, Int.ofNat_eq_natCast]
    omega

/-- A mantissa without an exponent mark, followed by nothing or by a mark and an exponent. -/
theorem magnitudeOfChars?_append {negative : Bool} {m tail : List Char} {power : Int}
    (hm : ∀ c ∈ m, (c != 'e') = true)
    (ht : tail = [] ∧ power = 0 ∨ ∃ rest, tail = 'e' :: rest ∧ exponentOfChars? rest = some power) :
    magnitudeOfChars? negative (m ++ tail) =
      (natOfDigits? (m.takeWhile (· != '.') ++ (m.dropWhile (· != '.')).drop 1)).map fun n =>
        Decimal.ofScaled negative n (power - ((m.dropWhile (· != '.')).drop 1).length) := by
  unfold magnitudeOfChars?
  rw [List.takeWhile_append_of_pos hm, List.dropWhile_append_of_pos hm]
  rcases ht with ⟨rfl, rfl⟩ | ⟨rest, rfl, hr⟩
  · simp only [List.takeWhile_nil, List.dropWhile_nil, List.append_nil, Option.map_eq_bind]
    rfl
  · simp only [List.takeWhile_cons, List.dropWhile_cons, bne_self_eq_false, Bool.false_eq_true,
      if_false, List.append_nil, hr, Option.map_eq_bind]
    rfl

end Binary64

/-! ### Normal forms of decimals -/

namespace Decimal

theorem strip_mul_pow {s : Nat} (hs : s % 10 ≠ 0) {k fuel : Nat} (hk : k ≤ fuel) (e : Int) :
    strip fuel (s * 10 ^ k) e = (s, e + k) := by
  induction k generalizing fuel e with
  | zero =>
    cases fuel with
    | zero => simp [strip]
    | succ fuel => simp [strip, hs]
  | succ k ih =>
    obtain ⟨fuel, rfl⟩ : ∃ f, fuel = f + 1 := ⟨fuel - 1, by omega⟩
    have hpow : s * 10 ^ (k + 1) = s * 10 ^ k * 10 := by rw [Nat.pow_succ, Nat.mul_assoc]
    have hpos : 0 < s * 10 ^ k := Nat.mul_pos (by omega) (Nat.pow_pos (by decide))
    have hcond : s * 10 ^ k * 10 % 10 = 0 ∧ s * 10 ^ k * 10 ≠ 0 := by omega
    rw [hpow, strip, if_pos hcond, Nat.mul_div_cancel _ (by decide), ih (by omega)]
    simp only [Prod.mk.injEq, true_and]
    omega

/-- Zeros that were moved out of the exponent are moved back. -/
theorem ofScaled_mul_pow (d : Decimal) (k : Nat) (e : Int)
    (he : d.significand ≠ 0 → d.exponent = e + k) :
    ofScaled d.negative (d.significand * 10 ^ k) e = d := by
  obtain ⟨negative, s, x, hn⟩ := d
  by_cases hs : s % 10 = 0
  · obtain ⟨rfl, rfl⟩ : s = 0 ∧ x = 0 := hn.resolve_left (by simpa using hs)
    simp [ofScaled, strip]
  · have hs0 : s ≠ 0 := by rintro rfl; exact hs rfl
    have hk : k ≤ s * 10 ^ k := calc
      k ≤ 10 ^ k := Nat.le_of_lt (Nat.lt_pow_self (by decide))
      _ ≤ s * 10 ^ k := Nat.le_mul_of_pos_left _ (by omega)
    have hstrip := strip_mul_pow hs hk e
    simp only [ofScaled, hstrip, dif_pos hs, Decimal.mk.injEq, true_and]
    exact (he hs0).symm

/-! ### Reading a decimal back -/

/-- The text of a numeral without its sign. -/
def magnitudeChars (d : Decimal) : List Char :=
  if d.isPositional then positional d.digits (d.magnitude + 1) else scientific d.digits d.magnitude

theorem chars_eq (d : Decimal) :
    d.chars = (if d.negative then ['-'] else []) ++ d.magnitudeChars := rfl

theorem isDigit_of_mem_digits {d : Decimal} {c : Char} (h : c ∈ d.digits) : c.isDigit = true :=
  isDigit_of_mem_toDigits h

theorem digits_ne_nil (d : Decimal) : d.digits ≠ [] := Nat.toDigits_ne_nil

@[simp] theorem ofDigitChars_digits (d : Decimal) :
    Nat.ofDigitChars 10 d.digits 0 = d.significand := Nat.ofDigitChars_ten_toDigits

theorem digit_ne_mark {c : Char} (h : c.isDigit = true) :
    (c != 'e') = true ∧ (c != '.') = true ∧ c ≠ '-' ∧ c ≠ '+' := by
  refine ⟨?_, ?_, ?_, ?_⟩
  · rw [bne_iff_ne]; rintro rfl; exact absurd h (by decide)
  · rw [bne_iff_ne]; rintro rfl; exact absurd h (by decide)
  · rintro rfl; exact absurd h (by decide)
  · rintro rfl; exact absurd h (by decide)

open Binary64 (magnitudeOfChars? natOfDigits?_of_isDigit magnitudeOfChars?_append
  exponentOfChars?_signed)

/-- What follows a mantissa: nothing, or the mark and an exponent. -/
def exponentTail : Option Int → List Char
  | none => []
  | some power => 'e' :: (if power < 0 then '-' else '+') :: twoDigits power.natAbs

/-- Digits with a point among them, or none after them, are read as one number and scaled. -/
theorem magnitudeOfChars?_mantissa (negative : Bool) {whole point : List Char}
    (hw : ∀ c ∈ whole, c.isDigit = true) (hp : ∀ c ∈ point, c.isDigit = true)
    (hne : whole ++ point ≠ []) (pointed : Bool) (hb : pointed = false → point = [])
    (power : Option Int) :
    magnitudeOfChars? negative
        (whole ++ (if pointed then '.' :: point else []) ++ exponentTail power)
      = some (ofScaled negative (Nat.ofDigitChars 10 (whole ++ point) 0)
          (power.getD 0 - point.length)) := by
  have hmark : ∀ c ∈ whole ++ (if pointed then '.' :: point else []), (c != 'e') = true := by
    intro c hc
    rcases List.mem_append.mp hc with hc | hc
    · exact (digit_ne_mark (hw c hc)).1
    · split_ifs at hc
      · rcases List.mem_cons.mp hc with rfl | hc
        · decide
        · exact (digit_ne_mark (hp c hc)).1
      · simp at hc
  have htail : exponentTail power = [] ∧ power.getD 0 = 0 ∨
      ∃ rest, exponentTail power = 'e' :: rest ∧
        Binary64.exponentOfChars? rest = some (power.getD 0) := by
    cases power with
    | none => exact .inl ⟨rfl, rfl⟩
    | some p => exact .inr ⟨_, rfl, exponentOfChars?_signed p⟩
  have hdot : ∀ c ∈ whole, (c != '.') = true := fun c hc => (digit_ne_mark (hw c hc)).2.1
  have hall : ∀ c ∈ whole ++ point, c.isDigit = true := by
    intro c hc
    rcases List.mem_append.mp hc with hc | hc
    · exact hw c hc
    · exact hp c hc
  rw [magnitudeOfChars?_append hmark htail, List.takeWhile_append_of_pos hdot,
    List.dropWhile_append_of_pos hdot]
  cases pointed with
  | true => simp [natOfDigits?_of_isDigit hne hall]
  | false =>
    obtain rfl := hb rfl
    rw [List.append_nil] at hne hall
    simp [natOfDigits?_of_isDigit hne hw]

/-- A layout of `d`: digits, perhaps a point and more digits, perhaps an exponent; both layouts
move the point and, with it, the exponent. -/
structure Laid (d : Decimal) (whole point : List Char) (pointed : Bool) (power : Option Int) :
    Prop where
  chars : d.magnitudeChars = whole ++ (if pointed then '.' :: point else []) ++ exponentTail power
  whole_digit : ∀ c ∈ whole, c.isDigit = true
  point_digit : ∀ c ∈ point, c.isDigit = true
  whole_ne_nil : whole ≠ []
  unpointed : pointed = false → point = []
  marked : pointed = true ∨ power.isSome = true
  scaled : ∃ k : Nat, Nat.ofDigitChars 10 (whole ++ point) 0 = d.significand * 10 ^ k ∧
    (d.significand ≠ 0 → d.exponent = power.getD 0 - point.length + (k : Int))

theorem isDigit_of_mem_zeros_append {n : Nat} {cs : List Char} (h : ∀ c ∈ cs, c.isDigit = true) :
    ∀ c ∈ List.replicate n '0' ++ cs, c.isDigit = true := by
  intro c hc
  rcases List.mem_append.mp hc with hc | hc
  · rw [List.eq_of_mem_replicate hc]
    decide
  · exact h c hc

theorem exists_laid_positional (d : Decimal) (h : d.isPositional = true) :
    ∃ whole point, Laid d whole point true none := by
  have hchars : d.magnitudeChars = positional d.digits (d.magnitude + 1) := by
    rw [magnitudeChars, if_pos h]
  have hds : ∀ c ∈ d.digits, c.isDigit = true := fun c => isDigit_of_mem_digits
  have hplace : d.magnitude + 1 = d.exponent + d.digits.length := by unfold magnitude; omega
  by_cases h0 : d.magnitude + 1 ≤ 0
  · -- the point stands before all digits
    refine ⟨['0'], List.replicate (-(d.magnitude + 1)).toNat '0' ++ d.digits, ?_, ?_,
      isDigit_of_mem_zeros_append hds, by simp, by simp, .inl rfl, 0, ?_, ?_⟩
    · rw [hchars, positional, if_pos h0]
      simp [exponentTail]
    · simp
    · simp [Nat.ofDigitChars_append, Nat.ofDigitChars_cons]
    · simp only [Option.getD_none, List.length_append, List.length_replicate]
      omega
  · by_cases h1 : d.digits.length ≤ (d.magnitude + 1).toNat
    · -- the point stands after all digits
      refine ⟨d.digits ++ List.replicate ((d.magnitude + 1).toNat - d.digits.length) '0', ['0'], ?_,
        ?_, by simp, ?_, by simp, .inl rfl,
        (d.magnitude + 1).toNat - d.digits.length + 1, ?_, ?_⟩
      · rw [hchars, positional, if_neg h0, if_pos h1]
        simp [exponentTail]
      · intro c hc
        rcases List.mem_append.mp hc with hc | hc
        · exact hds c hc
        · rw [List.eq_of_mem_replicate hc]
          decide
      · simp [digits_ne_nil]
      · simp [Nat.ofDigitChars_append, Nat.ofDigitChars_cons, Nat.pow_succ, Nat.mul_comm,
          Nat.mul_left_comm]
      · simp only [Option.getD_none, List.length_singleton]
        omega
    · refine ⟨d.digits.take (d.magnitude + 1).toNat, d.digits.drop (d.magnitude + 1).toNat, ?_,
        fun c hc => hds c (List.mem_of_mem_take hc), fun c hc => hds c (List.mem_of_mem_drop hc),
        ?_, by simp, .inl rfl, 0, ?_, ?_⟩
      · rw [hchars, positional, if_neg h0, if_neg h1]
        simp [exponentTail]
      · have hpos : 0 < d.digits.length := List.length_pos_iff.mpr d.digits_ne_nil
        intro hnil
        have := congrArg List.length hnil
        simp only [List.length_take, List.length_nil] at this
        omega
      · simp
      · simp only [Option.getD_none, List.length_drop]
        omega

theorem exists_laid_scientific (d : Decimal) (h : d.isPositional = false) :
    ∃ whole point pointed, Laid d whole point pointed (some d.magnitude) := by
  have hchars : d.magnitudeChars = scientific d.digits d.magnitude := by
    rw [magnitudeChars, h]
    rfl
  have hds : ∀ c ∈ d.digits, c.isDigit = true := fun c => isDigit_of_mem_digits
  have hval : Nat.ofDigitChars 10 d.digits 0 = d.significand := d.ofDigitChars_digits
  have hmag : d.magnitude = d.exponent + d.digits.length - 1 := rfl
  -- a lone digit has no point after it
  match hd : d.digits with
  | [] => exact absurd hd d.digits_ne_nil
  | [c] =>
    rw [hd] at hchars hds hval hmag
    refine ⟨[c], [], false, ?_, hds, by simp, by simp, by simp, .inr rfl, 0, by simp [hval], ?_⟩
    · rw [hchars]
      simp [scientific, exponentTail]
    · simp only [Option.getD_some, List.length_nil, List.length_singleton] at hmag ⊢
      omega
  | c :: e :: rest =>
    rw [hd] at hchars hds hval hmag
    refine ⟨[c], e :: rest, true, ?_, fun x hx => hds x ?_, fun x hx => hds x ?_, by simp,
      by simp, .inl rfl, 0, by simp [hval], ?_⟩
    · rw [hchars]
      simp [scientific, exponentTail]
    · simp only [List.mem_singleton] at hx
      simp [hx]
    · exact List.mem_cons_of_mem _ hx
    · simp only [Option.getD_some, List.length_cons] at hmag ⊢
      omega

theorem exists_laid (d : Decimal) :
    ∃ whole point pointed power, Laid d whole point pointed power := by
  cases h : d.isPositional with
  | true =>
    obtain ⟨whole, point, hl⟩ := exists_laid_positional d h
    exact ⟨whole, point, true, none, hl⟩
  | false =>
    obtain ⟨whole, point, pointed, hl⟩ := exists_laid_scientific d h
    exact ⟨whole, point, pointed, _, hl⟩

/-- The reader gives back what was written. -/
theorem magnitudeOfChars?_magnitudeChars (d : Decimal) :
    magnitudeOfChars? d.negative d.magnitudeChars = some d := by
  obtain ⟨whole, point, pointed, power, hl⟩ := d.exists_laid
  obtain ⟨k, hk, he⟩ := hl.scaled
  have hne : whole ++ point ≠ [] := by simp [hl.whole_ne_nil]
  rw [hl.chars, magnitudeOfChars?_mantissa _ hl.whole_digit hl.point_digit hne _ hl.unpointed, hk,
    ofScaled_mul_pow d k _ he]

theorem exists_magnitudeChars_eq_cons (d : Decimal) :
    ∃ c cs, d.magnitudeChars = c :: cs ∧ c.isDigit = true := by
  obtain ⟨whole, point, pointed, power, hl⟩ := d.exists_laid
  obtain ⟨c, cs, rfl⟩ := List.exists_cons_of_ne_nil hl.whole_ne_nil
  exact ⟨c, _, by rw [hl.chars]; rfl, hl.whole_digit c (by simp)⟩

theorem mem_exponentTail {power : Option Int} {c : Char} (h : c ∈ exponentTail power) :
    c.isDigit = true ∨ c ∈ ['-', '+', '.', 'e'] := by
  cases power with
  | none => simp [exponentTail] at h
  | some p =>
    simp only [exponentTail, List.mem_cons] at h
    rcases h with rfl | rfl | h
    · exact .inr (by simp)
    · split_ifs <;> exact .inr (by simp)
    · unfold twoDigits at h
      split_ifs at h
      · rcases List.mem_cons.mp h with rfl | h
        · exact .inl (by decide)
        · exact .inl (isDigit_of_mem_toDigits h)
      · exact .inl (isDigit_of_mem_toDigits h)

theorem mem_chars {d : Decimal} {c : Char} (h : c ∈ d.chars) :
    c.isDigit = true ∨ c ∈ ['-', '+', '.', 'e'] := by
  obtain ⟨whole, point, pointed, power, hl⟩ := d.exists_laid
  rw [chars_eq, hl.chars] at h
  rcases List.mem_append.mp h with h | h
  · split_ifs at h
    · exact .inr (by simp_all)
    · simp at h
  rcases List.mem_append.mp h with h | h
  · rcases List.mem_append.mp h with h | h
    · exact .inl (hl.whole_digit c h)
    · split_ifs at h
      · rcases List.mem_cons.mp h with rfl | h
        · exact .inr (by simp)
        · exact .inl (hl.point_digit c h)
      · simp at h
  · exact mem_exponentTail h

/-- A decimal shows that it is none of the integers. -/
theorem exists_mark_mem_chars (d : Decimal) : ∃ c ∈ d.chars, c = '.' ∨ c = 'e' := by
  obtain ⟨whole, point, pointed, power, hl⟩ := d.exists_laid
  rw [chars_eq, hl.chars]
  rcases hl.marked with rfl | h
  · exact ⟨'.', by simp, .inl rfl⟩
  · obtain ⟨p, rfl⟩ := Option.isSome_iff_exists.mp h
    exact ⟨'e', by simp [exponentTail], .inr rfl⟩

/-- A decimal is known by its text. -/
theorem chars_inj {d e : Decimal} (h : d.chars = e.chars) : d = e := by
  obtain ⟨c, cs, hc, hcd⟩ := d.exists_magnitudeChars_eq_cons
  obtain ⟨c', cs', hc', hcd'⟩ := e.exists_magnitudeChars_eq_cons
  have hneg : d.negative = e.negative ∧ d.magnitudeChars = e.magnitudeChars := by
    rw [chars_eq, chars_eq] at h
    cases hd : d.negative <;> cases he : e.negative <;> rw [hd, he] at h
    · exact ⟨rfl, h⟩
    · rw [hc] at h
      exact absurd (List.cons.inj h).1 (digit_ne_mark hcd).2.2.1
    · rw [hc'] at h
      exact absurd (List.cons.inj h).1.symm (digit_ne_mark hcd').2.2.1
    · exact ⟨rfl, (List.cons.inj h).2⟩
  have hd := d.magnitudeOfChars?_magnitudeChars
  rw [hneg.1, hneg.2, e.magnitudeOfChars?_magnitudeChars] at hd
  exact (Option.some.inj hd).symm

end Decimal

end DocQuery
