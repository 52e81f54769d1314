import DocQuery.Proofs.Value.Equivalence
import DocQuery.Value.Hashable

/-!
# DocQuery.Proofs.Value.KeyEquality — equality of keys

No set and no document stands in a key or in a value that is equal to one, so equality with a key is
symmetric (`Value.IsHashable.beq_comm`), and equal keys are equal to the same values.  It is not
reflexive, since a NaN is equal to nothing.
-/

namespace DocQuery

/-! ### Parts of keys -/

theorem unhashableItem?_eq_none_iff {xs : List Value} :
    unhashableItem? xs = none ↔ ∀ x ∈ xs, x.IsHashable := by
  induction xs with
  | nil => simp [unhashableItem?]
  | cons x xs ih => simp [unhashableItem?, ih, Value.IsHashable]

theorem unhashablePair?_eq (ps : List (Value × Value)) :
    unhashablePair? ps = unhashableItem? (ps.flatMap fun p => [p.1, p.2]) := by
  induction ps with
  | nil => rfl
  | cons p ps ih => simp [unhashablePair?, unhashableItem?, ih]

namespace Value

variable {v w : Value}

theorem unhashable?_node {xs : List Value} (hv : v.nodeParts? = some xs) :
    v.unhashable? = unhashableItem? xs := by
  unfold nodeParts? at hv
  split at hv <;> cases hv <;>
    simp [unhashable?, Filter.unhashable?, Update.unhashable?, Stage.unhashable?, unhashableItem?,
      unhashablePair?_eq]

namespace IsHashable

theorem part (hv : v.IsHashable) (hw : v.HasPart w) : w.IsHashable := by
  cases hw with
  | tupleItem hx => exact unhashableItem?_eq_none_iff.mp hv w hx
  | field hparts hx => exact unhashableItem?_eq_none_iff.mp (unhashable?_node hparts ▸ hv) w hx
  | _ => cases hv

theorem everywhere_hasDistinctParts (hv : v.IsHashable) : v.Everywhere HasDistinctParts := by
  induction v using part_induction with
  | step v ih =>
    refine everywhere_iff.mpr ⟨?_, fun w hw => ih w hw (hv.part hw)⟩
    cases v with
    | set | doc => cases hv
    | _ => trivial

/-- A value that is equal to a key need not be a key, but no set or document stands in it. -/
theorem everywhere_hasDistinctParts_of_beq (hv : v.IsHashable) (h : w == v) :
    w.Everywhere HasDistinctParts := by
  induction w using part_induction generalizing v with
  | step w ih =>
    refine everywhere_iff.mpr ⟨?_, fun p hp => ?_⟩
    · cases w with
      | set xs =>
        obtain ⟨ys, rfl, -⟩ := set_beq_iff.mp h
        cases hv
      | doc d =>
        obtain ⟨es, rfl, -⟩ := doc_beq_iff.mp h
        cases hv
      | _ => trivial
    · obtain ⟨q, hq, hpq⟩ := exists_part_of_beq hp h
      exact ih p hp (hv.part hq) hpq

/-! ### Keys -/

variable {x y z : Value}

theorem beq_comm (hx : x.IsHashable) (y : Value) : (x == y) = (y == x) := by
  rw [Bool.eq_iff_iff]
  exact ⟨beq_symm hx.everywhere_hasDistinctParts,
    fun h => beq_symm (hx.everywhere_hasDistinctParts_of_beq h) h⟩

/-- What is equal to one of two different keys is not equal to the other. -/
theorem not_beq_of_beq (hy : y.IsHashable) (hxy : ¬(x == y) = true) (hyz : (y == z) = true) :
    ¬(x == z) = true := by
  intro hxz
  have hzy : (z == y) = true := (hy.beq_comm z).symm.trans hyz
  exact hxy (Value.beq_trans hxz hzy)

/-- A key and what is equal to it are equal to the same values. -/
theorem beq_congr (hy : y.IsHashable) (hxy : (x == y) = true) (z : Value) :
    (x == z) = (y == z) := by
  rw [Bool.eq_iff_iff]
  have hyx : (y == x) = true := (hy.beq_comm x).trans hxy
  exact ⟨fun h => Value.beq_trans hyx h, fun h => Value.beq_trans hxy h⟩

/-- A value is equal to a key exactly if it is equal to what the key is equal to. -/
theorem beq_congr_right (hy : y.IsHashable) (hyz : (y == z) = true) :
    (x == y) = (x == z) := by
  rw [Bool.eq_iff_iff]
  refine ⟨fun hxy => Value.beq_trans hxy hyz, fun hxz => Decidable.byContradiction fun hxy => ?_⟩
  exact hy.not_beq_of_beq hxy hyz hxz

end IsHashable

end Value

end DocQuery
