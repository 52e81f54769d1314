import DocQuery.Proofs.Value.Copies
import DocQuery.Proofs.Value.Equivalence

/-!
# DocQuery.Proofs.Value.Comparable — copies and truth of comparable values

A comparable value holds no stream and no pipeline, so it can be copied and is its own copy.  Equal
values, comparable or not, are given or not given alike: emptiness and zero are seen by equality.
-/

namespace DocQuery

namespace Value

variable {v : Value}

/-! ### Copies -/

/-- A comparable value is its own copy. -/
theorem IsComparable.isCopy (h : v.IsComparable) : v.IsCopy := by
  induction v using part_induction with
  | step v ih =>
    have hpart : ∀ w, v.HasPart w → w.IsCopy := fun w hw => ih w hw (h.part hw)
    cases v.shape with
    | scalar s => exact isCopy_scalar s
    | list xs => exact isCopy_list.mpr fun x hx => hpart x (.listItem hx)
    | tuple xs => exact isCopy_tuple.mpr fun x hx => hpart x (.tupleItem hx)
    | set xs => exact isCopy_set.mpr fun x hx => hpart x (.member hx)
    | doc d => exact isCopy_doc.mpr fun e he => ⟨hpart e.1 (.key he), hpart e.2 (.value he)⟩
    | stream xs => exact h.self.elim
    | pipeline name stages => exact h.self.elim
    | node hv => exact (isCopy_node hv).mpr fun x hx => hpart x (.field hv hx)

theorem IsComparable.isCopyable (h : v.IsComparable) : v.isCopyable := (isCopy_iff.mp h.isCopy).1

theorem IsComparable.detached_eq (h : v.IsComparable) : v.detached = v :=
  (isCopy_iff.mp h.isCopy).2

end Value

/-! ### Scalars that equal themselves only -/

theorem Scalar.eq_of_identity? {s t : Scalar} (h : t.identity? = some (.other s)) : t = s := by
  cases t with
  | float x =>
    cases x with
    | finite d =>
      have hidentity : (d.integer?.map Identity.number).getD (.fraction (.finite d)) = .other s :=
        Option.some.inj h
      cases hd : d.integer? <;> rw [hd] at hidentity <;> cases hidentity
    | _ => cases h
  | moment m =>
    have hidentity : (m.instant?.map Identity.instant).getD (.other (.moment m)) = .other s :=
      Option.some.inj h
    cases hm : m.instant? with
    | some i =>
      rw [hm] at hidentity
      cases hidentity
    | none =>
      rw [hm] at hidentity
      exact Identity.other.inj hidentity
  | _ => cases h <;> rfl

/-- Null, texts and operators are equal to themselves only. -/
theorem Value.scalar_beq_iff_eq {s : Scalar} {v : Value} (hs : s.identity? = some (.other s)) :
    (Value.scalar s == v) = true ↔ v = .scalar s := by
  rw [scalar_beq_iff]
  constructor
  · rintro ⟨t, rfl, hst⟩
    obtain ⟨a, ha, ht⟩ := Scalar.equal_iff.mp hst
    obtain rfl := Option.some.inj (ha.symm.trans hs)
    rw [Scalar.eq_of_identity? ht]
  · rintro rfl
    exact ⟨s, rfl, Scalar.equal_iff.mpr ⟨_, hs, hs⟩⟩

/-! ### Emptiness and zero -/

theorem Decimal.toBits53_pos {n : Nat} (h : 0 < n) : 0 < toBits53 n := by
  unfold toBits53
  split
  · exact h
  · have hexponent : 2 ^ (n.log2 - 52) ≤ 2 ^ n.log2 :=
      Nat.pow_le_pow_right Nat.two_pos (Nat.sub_le _ _)
    have hpow : 2 ^ (n.log2 - 52) ≤ n :=
      Nat.le_trans hexponent (Nat.log2_self_le (Nat.ne_of_gt h))
    have hq : 0 < n >>> (n.log2 - 52) := by
      rw [Nat.shiftRight_eq_div_pow]
      exact Nat.div_pos hpow (Nat.two_pow_pos _)
    rw [Nat.shiftLeft_eq]
    exact Nat.mul_pos (Nat.add_pos_left hq _) (Nat.two_pow_pos _)

/-- The integer that a numeral names is zero only if the significand is. -/
theorem Decimal.eq_zero_iff_of_integer? {d : Decimal} {m : Int} (h : d.integer? = some m) :
    m = 0 ↔ d.significand = 0 := by
  unfold integer? at h
  split at h
  · cases h
  · have hm := Option.some.inj h
    rcases Nat.eq_zero_or_pos d.significand with hs | hs
    · have hzero : toBits53 0 = 0 := rfl
      rw [hs, Nat.zero_mul, hzero] at hm
      simp [← hm, hs]
    · have hpow : 0 < Nat.pow 10 d.exponent.toNat := Nat.pow_pos (Nat.succ_pos 9)
      have hpos := toBits53_pos (Nat.mul_pos hs hpow)
      refine iff_of_false (fun hzero => ?_) (Nat.ne_of_gt hs)
      split at hm <;> omega

/-- A numeral that names no integer is not zero. -/
theorem Decimal.significand_ne_zero_of_integer? {d : Decimal} (h : d.integer? = none) :
    d.significand ≠ 0 := by
  intro hs
  unfold integer? at h
  rcases d.normal with hdigit | ⟨-, hexponent⟩
  · exact hdigit (by rw [hs])
  · rw [hexponent] at h
    cases h

namespace Scalar

/-- Whether what equal scalars have in common is neither zero nor empty. -/
def Identity.isGiven : Identity → Bool
  | .number n => n != 0
  | .fraction _ | .instant _ => true
  | .bytes bs => !bs.isEmpty
  | .other s => s.isGiven

theorem isGiven_of_identity? {s : Scalar} {a : Identity} (h : s.identity? = some a) :
    s.isGiven = a.isGiven := by
  cases s with
  | bool b =>
    obtain rfl := Option.some.inj h
    cases b <;> rfl
  | float x =>
    cases x with
    | finite d =>
      have hidentity :
          some ((d.integer?.map Identity.number).getD (.fraction (.finite d))) = some a := h
      have hgiven : (Scalar.float (.finite d)).isGiven = (d.significand != 0) := rfl
      rw [hgiven]
      cases hd : d.integer? with
      | some m =>
        rw [hd] at hidentity
        obtain rfl := Option.some.inj hidentity
        have hzero := Decimal.eq_zero_iff_of_integer? hd
        rw [Bool.eq_iff_iff]
        simp [Identity.isGiven, hzero]
      | none =>
        rw [hd] at hidentity
        obtain rfl := Option.some.inj hidentity
        exact bne_iff_ne.mpr (Decimal.significand_ne_zero_of_integer? hd)
    | infinite negative =>
      obtain rfl := Option.some.inj h
      rfl
    | nan => cases h
  | moment m =>
    have hidentity : some ((m.instant?.map Identity.instant).getD (.other (.moment m))) = some a :=
      h
    cases hm : m.instant? with
    | some i =>
      rw [hm] at hidentity
      obtain rfl := Option.some.inj hidentity
      rfl
    | none =>
      rw [hm] at hidentity
      obtain rfl := Option.some.inj hidentity
      rfl
  | _ =>
    obtain rfl := Option.some.inj h
    rfl

theorem isGiven_eq_of_equal {s t : Scalar} (h : s.equal t = true) : s.isGiven = t.isGiven := by
  obtain ⟨a, hs, ht⟩ := equal_iff.mp h
  rw [isGiven_of_identity? hs, isGiven_of_identity? ht]

end Scalar

namespace Value

theorem isGiven_of_nodeParts {v : Value} {xs : List Value} (h : v.nodeParts? = some xs) :
    v.isGiven = true := by
  cases v with
  | filter | update | stage => rfl
  | _ => cases h

theorem isEmpty_eq_of_length_eq {α : Type} {xs ys : List α} (h : xs.length = ys.length) :
    xs.isEmpty = ys.isEmpty := by
  rw [Bool.eq_iff_iff, List.isEmpty_iff_length_eq_zero, List.isEmpty_iff_length_eq_zero, h]

/-- Equal values are given or not given alike, pipelines apart: those are compared by name, and may
differ in their stages. -/
theorem IsDefinite.isGiven_eq_of_beq {v w : Value} (hv : v.IsDefinite) (h : v == w) :
    v.isGiven = w.isGiven := by
  cases v.shape with
  | scalar s =>
    obtain ⟨t, rfl, hst⟩ := scalar_beq_iff.mp h
    exact Scalar.isGiven_eq_of_equal hst
  | list xs =>
    obtain ⟨ys, rfl, hxs⟩ := list_beq_iff.mp h
    exact congrArg not (isEmpty_eq_of_length_eq hxs.length_eq)
  | tuple xs =>
    obtain ⟨ys, rfl, hxs⟩ := tuple_beq_iff.mp h
    exact congrArg not (isEmpty_eq_of_length_eq hxs.length_eq)
  | set xs =>
    obtain ⟨ys, rfl, hlength, -⟩ := set_beq_iff.mp h
    exact congrArg not (isEmpty_eq_of_length_eq hlength)
  | doc d =>
    obtain ⟨es, rfl, hlength, -⟩ := doc_beq_iff.mp h
    exact congrArg not (isEmpty_eq_of_length_eq hlength)
  | stream xs => exact absurd h not_stream_beq
  | pipeline name stages => exact hv.elim
  | node hxs =>
    obtain ⟨ys, hys, -⟩ := (beq_node_iff hxs).mp h
    rw [isGiven_of_nodeParts hxs, isGiven_of_nodeParts hys]

end Value

end DocQuery
