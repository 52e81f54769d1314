import DocQuery.Proofs.Value.Reference

/-!
# DocQuery.Proofs.Value.Copies — values that are their own copies

No stream stands in a value that is its own copy, and no pipeline with a name (`Value.isCopy_iff`).
So it can be read off what stands in a value whether it is its own copy: one lemma for each shape.
-/

namespace DocQuery

namespace Value

variable {v : Value} {xs : List Value}

/-- A value that is its own copy. -/
def IsCopy (v : Value) : Prop := v.copy = .ok v

/-- No stream stands in a value that is its own copy, and no pipeline in it has a name. -/
theorem isCopy_iff : v.IsCopy ↔ v.isCopyable ∧ v.FixedBy unnamed := by
  rw [IsCopy, copy_eq_ok_iff]
  exact and_congr_right fun _ => eq_comm

@[simp] theorem isCopy_scalar (s : Scalar) : (Value.scalar s).IsCopy := rfl

@[simp] theorem isCopy_list : (Value.list xs).IsCopy ↔ ∀ x ∈ xs, x.IsCopy := by
  simp only [isCopy_iff, isCopyable, itemsCopyable_iff, fixedBy_list, forall₂_and]

@[simp] theorem isCopy_tuple : (Value.tuple xs).IsCopy ↔ ∀ x ∈ xs, x.IsCopy := by
  simp only [isCopy_iff, isCopyable, itemsCopyable_iff, fixedBy_tuple, forall₂_and]

@[simp] theorem isCopy_set : (Value.set xs).IsCopy ↔ ∀ x ∈ xs, x.IsCopy := by
  simp only [isCopy_iff, isCopyable, itemsCopyable_iff, fixedBy_set, forall₂_and]

theorem entries_isCopy_iff {es : List (Value × Value)} :
    entriesCopyable es ∧ Document.FixedBy unnamed es
      ↔ ∀ e ∈ es, e.1.IsCopy ∧ e.2.IsCopy := by
  simp only [isCopy_iff, entriesCopyable_iff, Document.FixedBy, ← forall₂_and,
    and_and_and_comm]

@[simp] theorem isCopy_doc {d : Document} :
    (Value.doc d).IsCopy ↔ ∀ e ∈ d, e.1.IsCopy ∧ e.2.IsCopy := by
  rw [isCopy_iff, fixedBy_doc, isCopyable, entries_isCopy_iff]

theorem isCopyable_node (hv : v.nodeParts? = some xs) :
    v.isCopyable = true ↔ ∀ x ∈ xs, x.isCopyable = true := by
  unfold nodeParts? at hv
  split at hv <;> cases hv
  case h_8 ps =>
    rw [forall_mem_pairParts (p := fun v => v.isCopyable = true)]
    exact entriesCopyable_iff
  all_goals simp [isCopyable, Filter.isCopyable, Update.isCopyable, Stage.isCopyable, and_assoc]

theorem fixedBy_node {g : Option String → List Stage → Value} (hv : v.nodeParts? = some xs) :
    v.FixedBy g ↔ ∀ x ∈ xs, x.FixedBy g := by
  unfold nodeParts? at hv
  split at hv <;> cases hv
  case h_8 ps =>
    rw [FixedBy, mapPipelines, Update.mapPipelines, update.injEq, Update.assignAll.injEq,
      mapPipelinesEntries_eq_self]
    exact (forall_mem_pairParts (p := FixedBy g)).symm
  all_goals simp [FixedBy, mapPipelines, Filter.mapPipelines, Update.mapPipelines,
    Stage.mapPipelines]

/-- A node is its own copy if its fields are. -/
theorem isCopy_node (hv : v.nodeParts? = some xs) : v.IsCopy ↔ ∀ x ∈ xs, x.IsCopy := by
  simp only [isCopy_iff, isCopyable_node hv, fixedBy_node hv, forall₂_and]

theorem stagesCopyable_iff {ss : List Stage} :
    stagesCopyable ss = true ↔ ∀ s ∈ ss, s.isCopyable = true := by
  induction ss with
  | nil => simp [stagesCopyable]
  | cons s ss ih => simp [stagesCopyable, ih]

/-- A pipeline is its own copy if it has no name and its stages are their own copies. -/
theorem isCopy_pipeline {name : Option String} {ss : List Stage} :
    (Value.pipeline name ss).IsCopy ↔ name = none ∧ ∀ x ∈ ss.map Value.stage, x.IsCopy := by
  have hfixed : (Value.pipeline name ss).FixedBy unnamed
      ↔ name = none ∧ ∀ s ∈ ss, s.FixedBy unnamed := by
    rw [FixedBy, mapPipelines, unnamed, pipeline.injEq, mapPipelinesStages_eq_self, eq_comm]
  have hstage : ∀ s : Stage, (Value.stage s).IsCopy ↔ s.isCopyable = true ∧ s.FixedBy unnamed := by
    intro s
    rw [isCopy_iff, isCopyable, FixedBy, mapPipelines, stage.injEq, Stage.FixedBy]
  rw [isCopy_iff, isCopyable, stagesCopyable_iff, hfixed, List.forall_mem_map]
  simp only [hstage, forall₂_and, and_left_comm]

end Value

theorem Document.copy_eq_ok_iff {d e : Document} :
    d.copy = .ok e ↔ entriesCopyable d ∧ e = d.detached := by
  unfold Document.copy
  split
  · rename_i h
    simp [h, eq_comm]
  · rename_i h
    simp [h]

theorem Document.copy_eq_self_iff {d : Document} : d.copy = .ok d ↔ (Value.doc d).IsCopy := by
  rw [Document.copy_eq_ok_iff, Value.isCopy_iff, Value.FixedBy, Value.mapPipelines, Value.doc.injEq]
  exact and_congr_right fun _ => eq_comm

/-- A document with one plain key is copied with its value. -/
theorem Document.copy_single (k : Scalar) (v : Value) :
    Document.copy [(.scalar k, v)] = v.copy.map fun w => [(.scalar k, w)] := by
  have hcopyable : entriesCopyable [(.scalar k, v)] = v.isCopyable := by
    simp only [entriesCopyable, Value.isCopyable, Bool.true_and, Bool.and_true]
  unfold Document.copy Value.copy
  rw [hcopyable]
  split <;> rfl

end DocQuery
