import Mathlib.Algebra.Group.Nat.Defs
import Mathlib.Tactic.Set
import Mathlib.Tactic.SplitIfs
import DocQuery.Fingerprint.Json

/-!
# DocQuery.Proofs.Fingerprint.Escape — escaped characters read back

`Json.readChar?` reads one character of a string of a canonical text: a plain one, an escape by a
letter, a UTF-16 code unit, or a pair of units.  It gives back every character that `Json.escape`
has written (`Json.readChar?_escape`), so a string is known by its text and ends where it ends
(`Json.stringChars_append_inj`).
-/

namespace DocQuery

/-! ### Hexadecimal digits -/

namespace Text

/-- The value of a hexadecimal digit in lower case. -/
def hexValue (c : Char) : Nat := if c.isDigit then c.toNat - 48 else c.toNat - 87

/-- The value of hexadecimal digits, most significant first. -/
def hexNumber (cs : List Char) : Nat := cs.foldl (fun n c => 16 * n + hexValue c) 0

theorem hexValue_digitChar : ∀ d < 16, hexValue (Nat.digitChar d) = d := by decide

@[simp] theorem hexValue_hexDigit (n : Nat) : hexValue (hexDigit n) = n % 16 :=
  hexValue_digitChar _ (Nat.mod_lt _ (by decide))

theorem hexNumber_hexDigits (width n : Nat) : hexNumber (hexDigits width n) = n % 16 ^ width := by
  induction width generalizing n with
  | zero => simp [hexDigits, hexNumber, Nat.mod_one]
  | succ w ih =>
    have hrec : hexNumber (hexDigits (w + 1) n)
        = 16 * hexNumber (hexDigits w (n / 16)) + n % 16 := by
      simp [hexNumber, hexDigits]
    rw [hrec, ih, Nat.pow_succ, Nat.mul_comm (16 ^ w) 16, Nat.mod_mul]
    omega

end Text

namespace Json

open Text (hexDigits hexNumber hexNumber_hexDigits backslash doubleQuote)

/-! ### One character -/

/-- The character that is escaped by a letter. -/
def ofLetter (c : Char) : Char :=
  if c = 'n' then '\n' else if c = 'r' then '\r' else if c = 't' then '\t'
  else if c = 'b' then Char.ofNat 8 else if c = 'f' then Char.ofNat 12 else c

/-- A character by its code unit, or by the first unit of a pair and the second. -/
def readUnits (cs : List Char) : Char × List Char :=
  let n := hexNumber (cs.take 4)
  if 0xd800 ≤ n ∧ n < 0xdc00 then
    let m := hexNumber ((cs.drop 6).take 4)
    (Char.ofNat (0x10000 + (n - 0xd800) * 0x400 + (m - 0xdc00)), cs.drop 10)
  else (Char.ofNat n, cs.drop 4)

/-- The next character of a string, and what follows it. -/
def readChar? : List Char → Option (Char × List Char)
  | [] => none
  | c :: cs =>
    if c = backslash then
      match cs with
      | [] => none
      | l :: rest => some (if l = 'u' then readUnits rest else (ofLetter l, rest))
    else some (c, cs)

theorem take_unitEscape (n : Nat) (r : List Char) :
    (hexDigits 4 n ++ r).take 4 = hexDigits 4 n ∧ (hexDigits 4 n ++ r).drop 4 = r := by
  have hlen : (hexDigits 4 n).length = 4 := Text.length_hexDigits 4 n
  exact ⟨List.take_left' hlen, List.drop_left' hlen⟩

theorem readUnits_codeEscape (c : Char) (r : List Char) :
    ∃ rest, codeEscape c.toNat ++ r = backslash :: 'u' :: rest ∧ readUnits rest = (c, r) := by
  have hvalid : c.toNat < 0xd800 ∨ 0xdfff < c.toNat ∧ c.toNat < 0x110000 := c.valid
  unfold codeEscape
  split_ifs with hc
  · refine ⟨hexDigits 4 c.toNat ++ r, rfl, ?_⟩
    obtain ⟨ht, hd⟩ := take_unitEscape c.toNat r
    have hn : c.toNat % 16 ^ 4 = c.toNat := Nat.mod_eq_of_lt hc
    have hunit : ¬(0xd800 ≤ c.toNat ∧ c.toNat < 0xdc00) := by omega
    simp only [readUnits, ht, hd, hexNumber_hexDigits, hn, if_neg hunit, Char.ofNat_toNat]
  · set m := c.toNat - 0x10000 with hm
    refine ⟨hexDigits 4 (0xd800 + m / 0x400) ++
      (backslash :: 'u' :: (hexDigits 4 (0xdc00 + m % 0x400) ++ r)), by simp [unitEscape], ?_⟩
    obtain ⟨ht, hd⟩ := take_unitEscape (0xd800 + m / 0x400)
      (backslash :: 'u' :: (hexDigits 4 (0xdc00 + m % 0x400) ++ r))
    obtain ⟨ht', hd'⟩ := take_unitEscape (0xdc00 + m % 0x400) r
    have hhigh : (0xd800 + m / 0x400) % 16 ^ 4 = 0xd800 + m / 0x400 := Nat.mod_eq_of_lt (by omega)
    have hlow : (0xdc00 + m % 0x400) % 16 ^ 4 = 0xdc00 + m % 0x400 := Nat.mod_eq_of_lt (by omega)
    have hunit : 0xd800 ≤ 0xd800 + m / 0x400 ∧ 0xd800 + m / 0x400 < 0xdc00 := by omega
    have hcode : 0x10000 + (0xd800 + m / 0x400 - 0xd800) * 0x400 + (0xdc00 + m % 0x400 - 0xdc00)
        = c.toNat := by omega
    -- the second unit stands six places further on, the next character ten
    have hsix (cs : List Char) : cs.drop 6 = (cs.drop 4).drop 2 := by rw [List.drop_drop]
    have hten (cs : List Char) : cs.drop 10 = ((cs.drop 4).drop 2).drop 4 := by
      rw [List.drop_drop, List.drop_drop]
    simp only [readUnits, hsix, hten, ht, hd, List.drop_succ_cons, List.drop_zero, ht', hd',
      hexNumber_hexDigits, hhigh, hlow, if_pos hunit, hcode, Char.ofNat_toNat]

/-- Every character is read back as it was written. -/
theorem readChar?_escape (c : Char) (r : List Char) : readChar? (escape c ++ r) = some (c, r) := by
  unfold escape
  split_ifs with hq hn hr ht hb hf hp
  · have hl : c ≠ 'u' ∧ ofLetter c = c := by
      rcases (by simpa using hq : c = doubleQuote ∨ c = backslash) with rfl | rfl <;> decide
    simp [readChar?, hl]
  · rw [beq_iff_eq] at hn
    subst hn
    rfl
  · rw [beq_iff_eq] at hr
    subst hr
    rfl
  · rw [beq_iff_eq] at ht
    subst ht
    rfl
  · have hc : c = Char.ofNat 8 := by
      rw [← Char.ofNat_toNat c, beq_iff_eq.mp hb]
    subst hc
    rfl
  · have hc : c = Char.ofNat 12 := by
      rw [← Char.ofNat_toNat c, beq_iff_eq.mp hf]
    subst hc
    rfl
  · have hc : c ≠ backslash := by
      rintro rfl
      exact hq (by simp)
    simp [readChar?, hc]
  · obtain ⟨rest, he, hread⟩ := readUnits_codeEscape c r
    rw [he]
    simp [readChar?, hread]

/-! ### Whole strings -/

theorem escape_append_inj {c d : Char} {r s : List Char} (h : escape c ++ r = escape d ++ s) :
    c = d ∧ r = s := by
  have hread := congrArg readChar? h
  rw [readChar?_escape, readChar?_escape] at hread
  simpa using hread

/-- No character is written with a quote in front, so a bare quote ends a string. -/
theorem escape_append_ne_quote (c : Char) (r s : List Char) : escape c ++ r ≠ doubleQuote :: s := by
  intro h
  have hread := readChar?_escape c r
  have hquote : readChar? (doubleQuote :: s) = some (doubleQuote, s) := rfl
  rw [h, hquote] at hread
  obtain rfl : doubleQuote = c := by simpa using congrArg (Option.map (·.1)) hread
  exact absurd (List.cons.inj h).1 (by decide)

theorem flatMap_escape_append_inj {cs ds r s : List Char}
    (h : cs.flatMap escape ++ doubleQuote :: r = ds.flatMap escape ++ doubleQuote :: s) :
    cs = ds ∧ r = s := by
  induction cs generalizing ds with
  | nil =>
    cases ds with
    | nil => exact ⟨rfl, (List.cons.inj h).2⟩
    | cons d ds =>
      rw [List.flatMap_cons, List.append_assoc] at h
      exact absurd h.symm (escape_append_ne_quote d _ _)
  | cons c cs ih =>
    cases ds with
    | nil =>
      rw [List.flatMap_cons, List.append_assoc] at h
      exact absurd h (escape_append_ne_quote c _ _)
    | cons d ds =>
      rw [List.flatMap_cons, List.flatMap_cons, List.append_assoc, List.append_assoc] at h
      obtain ⟨rfl, hrest⟩ := escape_append_inj h
      obtain ⟨rfl, rfl⟩ := ih hrest
      exact ⟨rfl, rfl⟩

theorem stringChars_append_inj {s t : String} {r u : List Char}
    (h : stringChars s ++ r = stringChars t ++ u) : s = t ∧ r = u := by
  simp only [stringChars, List.cons_append, List.append_assoc, List.nil_append] at h
  obtain ⟨hst, hr⟩ := flatMap_escape_append_inj (List.cons.inj h).2
  exact ⟨String.toList_injective hst, hr⟩

end Json

end DocQuery
