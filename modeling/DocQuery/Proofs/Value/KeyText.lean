import DocQuery.Operator
import DocQuery.Proofs.Number.Numeral
import DocQuery.Value.Display
import DocQuery.Value.Hashable

/-!
# DocQuery.Proofs.Value.KeyText — the texts of keys

A key that is no text is named by digits, by a word or by a bracket, as long as identifiers are
spelled the way they are; so its text never begins with the mark of operators, and an operator key
is told from every other key by its text (`exists_str_of_isOperatorKey`).
-/

namespace DocQuery

/-! ### Texts that begin otherwise -/

theorem isOperatorKey_append {s : String} (hs : s ≠ "") (t : String) :
    isOperatorKey (s ++ t) = isOperatorKey s := by
  have hne : s.toList ≠ [] := by simpa using hs
  obtain ⟨c, cs, hcs⟩ := List.exists_cons_of_ne_nil hne
  rw [isOperatorKey, isOperatorKey, String.toList_append, hcs]
  rfl

theorem isOperatorKey_of_forall_ne {s : String} (h : ∀ c ∈ s.toList, c ≠ operatorMark) :
    isOperatorKey s = false := by
  rw [isOperatorKey, Bool.eq_false_iff]
  intro hmark
  exact h operatorMark (List.mem_of_head? (beq_iff_eq.mp hmark)) rfl

theorem isOperatorKey_call {name : String} (hname : name ≠ "") (arguments : List String) :
    isOperatorKey (call name arguments) = isOperatorKey name := by
  have hopen : name ++ "(" ≠ "" := by simp
  have hinner : name ++ "(" ++ commaSeparated arguments ≠ "" := by simp
  rw [call, isOperatorKey_append hinner, isOperatorKey_append hopen, isOperatorKey_append hname]

theorem ne_operatorMark_of_isDigit {c : Char} (h : c.isDigit = true) : c ≠ operatorMark := by
  rintro rfl
  exact Bool.noConfusion h

/-! ### Scalars -/

theorem isOperatorKey_integer (n : Int) : isOperatorKey (Integer.text n) = false := by
  refine isOperatorKey_of_forall_ne fun c hc => ?_
  rw [Integer.text, String.toList_ofList] at hc
  rcases Integer.mem_chars hc with rfl | hdigit
  · decide
  · exact ne_operatorMark_of_isDigit hdigit

theorem isOperatorKey_float (x : Binary64) : isOperatorKey x.text = false := by
  cases x with
  | finite d =>
    refine isOperatorKey_of_forall_ne fun c hc => ?_
    rw [Binary64.text, String.toList_ofList] at hc
    rcases Decimal.mem_chars hc with hdigit | hmark
    · exact ne_operatorMark_of_isDigit hdigit
    · rintro rfl
      exact absurd hmark (by decide)
  | infinite negative => cases negative <;> decide
  | nan => decide

theorem padded_ne_empty (width n : Nat) : padded width n ≠ "" := by
  intro h
  have hlist : (padded width n).toList = [] := by rw [h]; rfl
  rw [padded, String.toList_ofList] at hlist
  exact Nat.toDigits_ne_nil (List.append_eq_nil_iff.mp hlist).2

theorem isOperatorKey_padded (width n : Nat) : isOperatorKey (padded width n) = false := by
  refine isOperatorKey_of_forall_ne fun c hc => ?_
  rw [padded, String.toList_ofList] at hc
  rcases List.mem_append.mp hc with hzero | hdigit
  · rw [List.eq_of_mem_replicate hzero]
    decide
  · exact ne_operatorMark_of_isDigit (isDigit_of_mem_toDigits hdigit)

/-- A date begins with its year. -/
theorem exists_date_eq (d : Date) : ∃ rest, d.text = padded 4 d.year ++ rest := by
  refine ⟨"-" ++ (padded 2 d.month ++ ("-" ++ padded 2 d.day)), ?_⟩
  simp only [Date.text, String.append_assoc]

theorem exists_moment_eq (separator : String) (m : Moment) :
    ∃ rest, m.textWith separator = padded 4 m.date.year ++ rest := by
  obtain ⟨rest, hdate⟩ := exists_date_eq m.date
  simp only [Moment.textWith, hdate, String.append_assoc]
  exact ⟨_, rfl⟩

theorem textWith_ne_empty (separator : String) (m : Moment) : m.textWith separator ≠ "" := by
  obtain ⟨rest, hm⟩ := exists_moment_eq separator m
  simp [hm, padded_ne_empty]

theorem isOperatorKey_date (d : Date) : isOperatorKey d.text = false := by
  obtain ⟨rest, hd⟩ := exists_date_eq d
  rw [hd, isOperatorKey_append (padded_ne_empty _ _), isOperatorKey_padded]

theorem isOperatorKey_moment (m : Moment) : isOperatorKey m.plainText = false := by
  obtain ⟨rest, hm⟩ := exists_moment_eq " " m
  rw [Moment.plainText, hm, isOperatorKey_append (padded_ne_empty _ _), isOperatorKey_padded]

theorem isOperatorKey_bytesBetween (quote escaped : Char) (bs : List UInt8) :
    isOperatorKey (Text.bytesBetween quote escaped bs) = false := by
  rw [isOperatorKey, Text.bytesBetween, String.toList_ofList]
  rfl

/-- A hexadecimal digit as identifiers have it, in lower case. -/
def isHexDigit (c : Char) : Bool := c.isDigit || ('a' ≤ c && c ≤ 'f')

/-- Identifiers are spelled in hexadecimal digits: an object identifier in 24 of them, a universally
unique one in 36 characters, dashes among them. -/
def Scalar.IsSpelled : Scalar → Prop
  | .objectId hex => hex.toList.length = 24 ∧ ∀ c ∈ hex.toList, isHexDigit c
  | .uuid text => text.toList.length = 36 ∧ ∀ c ∈ text.toList, isHexDigit c ∨ c = '-'
  | _ => True

theorem ne_operatorMark_of_isHexDigit {c : Char} (h : isHexDigit c = true) : c ≠ operatorMark := by
  rintro rfl
  exact absurd h (by decide)

theorem Scalar.isOperatorKey_text {s : Scalar} (hs : s.IsSpelled)
    (hk : (Value.scalar s).IsHashable) (hstr : ∀ t, s ≠ .str t) : isOperatorKey s.text = false := by
  cases s with
  | null => decide
  | bool b => cases b <;> decide
  | int n => exact isOperatorKey_integer n
  | float x => exact isOperatorKey_float x
  | str t => exact absurd rfl (hstr t)
  | bytes bs => exact isOperatorKey_bytesBetween _ _ bs
  | byteArray bs => cases hk
  | objectId hex =>
    exact isOperatorKey_of_forall_ne fun c hc => ne_operatorMark_of_isHexDigit (hs.2 c hc)
  | moment m => exact isOperatorKey_moment m
  | date d => exact isOperatorKey_date d
  | uuid t =>
    refine isOperatorKey_of_forall_ne fun c hc => ?_
    rcases hs.2 c hc with hhex | rfl
    · exact ne_operatorMark_of_isHexDigit hhex
    · decide
  | decimal128 t => cases hk
  | timestamp time increment => exact isOperatorKey_call (by decide) _
  | minKey => exact isOperatorKey_call (by decide) _
  | maxKey => exact isOperatorKey_call (by decide) _
  | comparisonOp op => exact isOperatorKey_append (by decide) _
  | updateOp op => exact isOperatorKey_append (by decide) _

/-! ### Other values -/

theorem isOperatorKey_tupleShown (parts : List String) :
    isOperatorKey (tupleShown parts) = false := by
  unfold tupleShown
  split
  · rw [String.append_assoc]
    exact isOperatorKey_append (by decide) _
  · rw [String.append_assoc]
    exact isOperatorKey_append (by decide) _

theorem Value.isOperatorKey_text {k : Value} (hs : ∀ s, k = .scalar s → s.IsSpelled)
    (hk : k.IsHashable) (hstr : ∀ t, k ≠ .str t) : isOperatorKey k.text = false := by
  cases k with
  | scalar s => exact Scalar.isOperatorKey_text (hs s rfl) hk fun t ht => hstr t (ht ▸ rfl)
  | list | set | doc => cases hk
  | tuple xs => exact isOperatorKey_tupleShown _
  | stream xs =>
    show isOperatorKey "<generator>" = false
    decide
  | filter f => cases f <;> exact isOperatorKey_call (by decide) _
  | update u => cases u <;> exact isOperatorKey_call (by decide) _
  | stage s =>
    cases s
    exact isOperatorKey_call (by decide) _
  | pipeline name stages => exact isOperatorKey_call (by decide) _

/-- A key whose text is an operator key is this text. -/
theorem eq_str_of_isOperatorKey {k : Value} (hs : ∀ s, k = .scalar s → s.IsSpelled)
    (hk : k.IsHashable) (h : isOperatorKey k.text = true) : k = .str k.text := by
  by_cases hstr : ∃ t, k = .str t
  · obtain ⟨t, rfl⟩ := hstr
    rfl
  · rw [Value.isOperatorKey_text hs hk fun t ht => hstr ⟨t, ht⟩] at h
    cases h

end DocQuery
