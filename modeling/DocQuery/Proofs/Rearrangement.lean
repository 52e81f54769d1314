import Mathlib.Data.List.FinRange
import Mathlib.Logic.Equiv.Defs

/-!
# DocQuery.Proofs.Rearrangement — orders that keep conflicts

A sequence is rearranged if its items are permuted and items that conflict stay in their order.
Items that conflict with each other, all of them, then make the same sequence before and after
(`Rearranged.filter_eq`).
-/

namespace DocQuery

/-- `ys` has the items of `xs`, each at the place that `σ` tells, and any two that conflict in the
same order. -/
def Rearranged {α : Type} (conflict : α → α → Prop) (xs ys : List α) : Prop :=
  ∃ σ : Fin ys.length ≃ Fin xs.length, (∀ i, ys.get i = xs.get (σ i)) ∧
    ∀ i j, i < j → conflict (ys.get i) (ys.get j) → σ i < σ j

namespace Rearranged

variable {α : Type} {conflict : α → α → Prop} {xs ys : List α}

theorem map_finRange_perm {m n : Nat} (σ : Fin m ≃ Fin n) :
    ((List.finRange m).map σ).Perm (List.finRange n) := by
  have hnodup : ((List.finRange m).map σ).Nodup := (List.nodup_finRange m).map σ.injective
  refine (List.perm_ext_iff_of_nodup hnodup (List.nodup_finRange n)).mpr fun k => ?_
  constructor
  · intro _
    exact List.mem_finRange k
  · intro _
    exact List.mem_map.mpr ⟨σ.symm k, List.mem_finRange _, σ.apply_symm_apply k⟩

theorem perm (h : Rearranged conflict xs ys) : ys.Perm xs := by
  obtain ⟨σ, hσ, -⟩ := h
  have hys : ys = ((List.finRange ys.length).map σ).map xs.get :=
    calc ys = (List.finRange ys.length).map ys.get := (List.map_get_finRange ys).symm
      _ = (List.finRange ys.length).map fun i => xs.get (σ i) := List.map_congr_left fun i _ => hσ i
      _ = ((List.finRange ys.length).map σ).map xs.get := List.map_map.symm
  have hxs : (((List.finRange ys.length).map σ).map xs.get).Perm xs := by
    have hperm := (map_finRange_perm σ).map xs.get
    rwa [List.map_get_finRange] at hperm
  exact hys ▸ hxs

theorem filter_eq_map_get (p : α → Bool) (xs : List α) :
    xs.filter p = ((List.finRange xs.length).filter (p ∘ xs.get)).map xs.get := by
  rw [← List.filter_map, List.map_get_finRange]

/-- Items that conflict, each with each, keep their order. -/
theorem filter_eq (h : Rearranged conflict xs ys) {p : α → Bool}
    (hp : ∀ x ∈ ys, ∀ y ∈ ys, p x = true → p y = true → conflict x y) :
    ys.filter p = xs.filter p := by
  obtain ⟨σ, hσ, hmono⟩ := h
  -- The places of these items in `ys`, sent to `xs`, are their places in `xs`, in order.
  have hplaces : ((List.finRange ys.length).filter (p ∘ ys.get)).map σ =
      (List.finRange xs.length).filter (p ∘ xs.get) := by
    have hsame : p ∘ ys.get = (p ∘ xs.get) ∘ σ := funext fun i => congrArg p (hσ i)
    have hperm : (((List.finRange ys.length).filter (p ∘ ys.get)).map σ).Perm
        ((List.finRange xs.length).filter (p ∘ xs.get)) := by
      rw [hsame, ← List.filter_map]
      exact (map_finRange_perm σ).filter _
    have hsorted : (((List.finRange ys.length).filter (p ∘ ys.get)).map σ).Pairwise (· < ·) := by
      refine List.pairwise_map.mpr ?_
      refine ((List.pairwise_lt_finRange ys.length).filter _).imp_of_mem ?_
      intro i j hi hj hij
      exact hmono i j hij (hp _ (List.get_mem ys i) _ (List.get_mem ys j)
        (List.mem_filter.mp hi).2 (List.mem_filter.mp hj).2)
    have hsorted' : ((List.finRange xs.length).filter (p ∘ xs.get)).Pairwise (· < ·) :=
      (List.pairwise_lt_finRange xs.length).filter _
    exact hperm.eq_of_pairwise (fun i j _ _ hij hji => absurd hji (Nat.lt_asymm hij)) hsorted
      hsorted'
  calc ys.filter p
      = ((List.finRange ys.length).filter (p ∘ ys.get)).map ys.get := filter_eq_map_get p ys
    _ = ((List.finRange ys.length).filter (p ∘ ys.get)).map fun i => xs.get (σ i) :=
        List.map_congr_left fun i _ => hσ i
    _ = (((List.finRange ys.length).filter (p ∘ ys.get)).map σ).map xs.get := List.map_map.symm
    _ = ((List.finRange xs.length).filter (p ∘ xs.get)).map xs.get := by rw [hplaces]
    _ = xs.filter p := (filter_eq_map_get p xs).symm

end Rearranged

end DocQuery
