import DocQuery.Pipeline.Workspace
import DocQuery.Proofs.Pipeline.Addition
import Mathlib.Logic.Function.Basic

/-!
# DocQuery.Proofs.Pipeline.Snapshot — building as a function of the stages

A snapshot gives the stages of every pipeline at one moment.  What a call adds is a function of the
snapshot and the call (`Snapshot.addition`), and a call changes the snapshot at one name only
(`Snapshot.build`).  A workspace does the same (`Workspace.stagesOf_build`) as long as compiling
leaves its stages as they are and every reference among them is up to date (`Snapshot.IsSteady`).
Building keeps this: what a call adds is made of its arguments and of copies.
-/

namespace DocQuery

open Pipeline (Call)

variable {f : Option String → List Stage → Value}

/-- The stages of every pipeline. -/
abbrev Snapshot := String → List Stage

namespace Snapshot

variable {σ : Snapshot} {name : String} {c : Call}

/-- The documents of stages as one value. -/
def compiled (stages : List Stage) : Except Fault Value := do
  return .list ((← Pipeline.documents stages).map .doc)

/-- The documents of a sub-pipeline. -/
def captured (σ : Snapshot) : Value → Except Fault Value
  | .pipeline (some name) _ => compiled (σ name)
  | .pipeline none stages => compiled stages
  | v => do return .list ((← (← v.items?).mapM Value.document?).map .doc)

/-- The stage that a call adds. -/
def addition (σ : Snapshot) (c : Call) : Except Fault (Option Stage) := do
  let vs ← c.subPipelines
  let subs ← vs.mapM σ.captured
  c.stage subs

/-- What a call appends to its pipeline. -/
def added (σ : Snapshot) (c : Call) : List Stage :=
  match σ.addition c with
  | .ok s => s.toList
  | .error _ => []

/-- The snapshot after a call on a pipeline. -/
def build (σ : Snapshot) (name : String) (c : Call) : Snapshot :=
  Function.update σ name (σ name ++ σ.added c)

@[simp] theorem build_self : σ.build name c name = σ name ++ σ.added c :=
  Function.update_self ..

theorem build_of_ne {n : String} (h : n ≠ name) : σ.build name c n = σ n :=
  Function.update_of_ne h ..

theorem build_of_added_eq_nil (h : σ.added c = []) : σ.build name c = σ := by
  rw [build, h, List.append_nil, Function.update_eq_self]

/-! ### What an addition refers to -/

theorem fixedBy_compiled (hf : KeepsUnnamed f) {stages : List Stage} {v : Value}
    (hstages : ∀ s ∈ stages, s.operator.FixedBy f) (h : compiled stages = .ok v) : v.FixedBy f := by
  obtain ⟨ds, hds, h⟩ := exists_of_bind_eq_ok h
  obtain rfl := Except.ok.inj h
  refine Value.fixedBy_list.mpr (List.forall_mem_map.mpr fun d hd => Value.fixedBy_doc.mpr ?_)
  obtain ⟨s, hs, hsd⟩ := exists_of_mem_mapM hds hd
  exact Stage.fixedBy_document hf (hstages s hs) hsd

theorem fixedBy_items_documents {v w : Value} (hv : v.FixedBy f)
    (h : (do return .list ((← (← v.items?).mapM Value.document?).map .doc)) = Except.ok w) :
    w.FixedBy f := by
  obtain ⟨xs, hxs, h⟩ := exists_of_bind_eq_ok h
  obtain ⟨ds, hds, h⟩ := exists_of_bind_eq_ok h
  obtain rfl := Except.ok.inj h
  refine Value.fixedBy_list.mpr (List.forall_mem_map.mpr fun d hd => Value.fixedBy_doc.mpr ?_)
  obtain ⟨x, hx, hd⟩ := exists_of_mem_mapM hds hd
  exact (hv.items hxs x hx).document hd

/-- The operator of every stage is a plain key, and compiling leaves the stage as it is. -/
structure IsPlain (σ : Snapshot) : Prop where
  operator : ∀ n, ∀ s ∈ σ n, ∃ k, s.operator = .scalar k
  reread : ∀ n, ∀ s ∈ σ n, s.afterReading = s

theorem fixedBy_captured (hf : KeepsUnnamed f) (hσ : σ.IsPlain) {v w : Value}
    (hv : Call.referenceName? v = none → v.FixedBy f) (h : σ.captured v = .ok w) :
    w.FixedBy f := by
  cases v with
  | pipeline n stages =>
    cases n with
    | some n =>
      refine fixedBy_compiled hf (fun s hs => ?_) h
      obtain ⟨k, hk⟩ := hσ.operator n s hs
      rw [hk]
      exact Value.fixedBy_scalar k
    | none =>
      have hstages := (Value.fixedBy_pipeline_none hf).mp (hv rfl)
      exact fixedBy_compiled hf (fun s hs => (Stage.fixedBy_iff.mp (hstages s hs)).1) h
  | _ => exact fixedBy_items_documents (hv rfl) h

/-- The sub-pipelines without a name are arguments. -/
theorem mem_arguments {vs : List Value} (h : c.subPipelines = .ok vs) {v : Value} (hv : v ∈ vs)
    (hname : Call.referenceName? v = none) : v ∈ c.arguments := by
  unfold Call.subPipelines at h
  split at h
  · obtain rfl := Except.ok.inj h
    exact List.mem_append_right _ (List.mem_filter.mpr ⟨hv, by simp [hname]⟩)
  · cases h
  · obtain rfl := Except.ok.inj h
    exact List.mem_append_right _ (List.mem_filter.mpr ⟨hv, by simp [hname]⟩)
  · obtain rfl := Except.ok.inj h
    cases hv

/-- What leaves the arguments of a call alone leaves its stage alone. -/
theorem fixedBy_addition (hf : KeepsUnnamed f) (hσ : σ.IsPlain) {s : Stage}
    (hargs : ∀ v ∈ c.arguments, v.FixedBy f) (h : σ.addition c = .ok (some s)) : s.FixedBy f := by
  obtain ⟨vs, hvs, h⟩ := exists_of_bind_eq_ok h
  obtain ⟨subs, hsubs, h⟩ := exists_of_bind_eq_ok h
  refine Call.fixedBy_stage hf h hargs fun w hw => ?_
  obtain ⟨v, hv, hvw⟩ := exists_of_mem_mapM hsubs hw
  exact fixedBy_captured hf hσ (fun hname => hargs v (mem_arguments hvs hv hname)) hvw

/-! ### Steady snapshots -/

/-- What the stages refer to is up to date. -/
structure IsSteady (σ : Snapshot) : Prop extends σ.IsPlain where
  current : ∀ n m, n ≠ m → ∀ s ∈ σ m, s.FixedBy (refresh n (σ n))

/-- The stages refer to no named pipeline. -/
structure IsDetached (σ : Snapshot) : Prop extends σ.IsPlain where
  unnamed : ∀ n, ∀ s ∈ σ n, s.FixedBy unnamed

/-- No other pipeline refers to the pipeline. -/
def Unreferred (σ : Snapshot) (name : String) : Prop :=
  ∀ m ≠ name, ∀ s ∈ σ m, ∀ stages, s.FixedBy (refresh name stages)

theorem mem_added {s : Stage} : s ∈ σ.added c ↔ σ.addition c = .ok (some s) := by
  cases h : σ.addition c with
  | error e => simp [added, h]
  | ok r => simp [added, h]

theorem mem_build {m : String} {s : Stage} (h : s ∈ σ.build name c m) :
    s ∈ σ m ∨ m = name ∧ σ.addition c = .ok (some s) := by
  by_cases hm : m = name
  · subst hm
    rw [build_self, List.mem_append, mem_added] at h
    exact h.imp id fun h => ⟨rfl, h⟩
  · rw [build_of_ne hm] at h
    exact .inl h

theorem Unreferred.build (hname : σ.Unreferred name) : (σ.build name c).Unreferred name := by
  intro m hm s hs
  rw [build_of_ne hm] at hs
  exact hname m hm s hs

theorem exists_of_addition {r : Option Stage} (h : σ.addition c = .ok r) :
    ∃ subs, c.stage subs = .ok r := by
  obtain ⟨_, -, h⟩ := exists_of_bind_eq_ok h
  obtain ⟨subs, -, h⟩ := exists_of_bind_eq_ok h
  exact ⟨subs, h⟩

theorem IsPlain.build (hσ : σ.IsPlain) (hc : c.IsRereadable) : (σ.build name c).IsPlain where
  operator m s hs := by
    obtain hs | ⟨-, hadd⟩ := mem_build hs
    · exact hσ.operator m s hs
    · obtain ⟨subs, h⟩ := exists_of_addition hadd
      exact Call.operator_of_stage h
  reread m s hs := by
    obtain hs | ⟨-, hadd⟩ := mem_build hs
    · exact hσ.reread m s hs
    · obtain ⟨subs, h⟩ := exists_of_addition hadd
      exact Call.afterReading_of_stage hc h

/-- A call on a pipeline that no other one refers to keeps references up to date. -/
theorem IsSteady.build (hσ : σ.IsSteady) (hname : σ.Unreferred name) (hc : c.IsRereadable)
    (hargs : ∀ v ∈ c.arguments, ∀ n ≠ name, v.FixedBy (refresh n (σ n))) :
    (σ.build name c).IsSteady where
  toIsPlain := hσ.toIsPlain.build hc
  current n m hnm s hs := by
    by_cases hn : n = name
    · subst hn
      rw [build_of_ne hnm.symm] at hs
      exact hname m hnm.symm s hs _
    · rw [build_of_ne hn]
      obtain hs | ⟨rfl, hadd⟩ := mem_build hs
      · exact hσ.current n m hnm s hs
      · exact fixedBy_addition (keepsUnnamed_refresh n _) hσ.toIsPlain
          (fun v hv => hargs v hv n hn) hadd

/-- A call whose arguments refer to nothing keeps the stages so. -/
theorem IsDetached.build (hσ : σ.IsDetached) (hc : c.IsRereadable)
    (hargs : ∀ v ∈ c.arguments, v.detached = v) : (σ.build name c).IsDetached where
  toIsPlain := hσ.toIsPlain.build hc
  unnamed m s hs := by
    obtain hs | ⟨rfl, hadd⟩ := mem_build hs
    · exact hσ.unnamed m s hs
    · exact fixedBy_addition keepsUnnamed_unnamed hσ.toIsPlain hargs hadd

theorem IsDetached.unreferred (hσ : σ.IsDetached) (name : String) : σ.Unreferred name :=
  fun m _ s hs stages => .of_unnamed (keepsUnnamed_refresh name stages) (hσ.unnamed m s hs)

theorem IsDetached.isSteady (hσ : σ.IsDetached) : σ.IsSteady where
  toIsPlain := hσ.toIsPlain
  current n m hnm s hs := hσ.unreferred n m hnm.symm s hs _

end Snapshot

/-! ### Workspaces -/

namespace Workspace

variable {w : Workspace} {name : String}

theorem stagesOf_set_eq_update {stages : List Stage}
    (h : ∀ m ≠ name, ∀ s ∈ w.stagesOf m, s.FixedBy (refresh name stages)) :
    (w.set name stages).stagesOf = Function.update w.stagesOf name stages := by
  funext m
  by_cases hm : m = name
  · rw [hm, stagesOf_set_self, Function.update_self]
  · rw [stagesOf_set_of_ne w hm, Function.update_of_ne hm]
    exact (List.map_congr_left fun s hs => h m hm s hs).trans (List.map_id _)

theorem compileStages_fst (stages : List Stage) :
    (w.compileStages stages).1 = Snapshot.compiled stages := by
  unfold compileStages Snapshot.compiled
  cases Pipeline.documents stages <;> rfl

theorem stagesOf_compileStages (stages : List Stage) :
    (w.compileStages stages).2.stagesOf = w.stagesOf := by
  unfold compileStages
  cases Pipeline.documents stages <;> rfl

theorem compile_fst (name : String) : (w.compile name).1 = Snapshot.compiled (w.stagesOf name) :=
  compileStages_fst _

/-- The documents of a pipeline are the conversions of its stages, one by one. -/
theorem forall₂_of_compile {v : Value} (h : (w.compile name).1 = .ok v) :
    ∃ ds : List Document, v = .list (ds.map .doc)
      ∧ List.Forall₂ (fun s d => s.document = .ok d) (w.stagesOf name) ds := by
  rw [compile_fst] at h
  obtain ⟨ds, hds, h⟩ := exists_of_bind_eq_ok h
  exact ⟨ds, (Except.ok.inj h).symm, forall₂_of_mapM_eq_ok hds⟩

theorem capture_fst (v : Value) : (w.capture v).1 = Snapshot.captured w.stagesOf v := by
  cases v with
  | pipeline n stages =>
    cases n with
    | some n => exact compile_fst n
    | none => exact compileStages_fst stages
  | _ => rfl

theorem afterReading_eq_self {stages : List Stage} (h : ∀ s ∈ stages, s.afterReading = s) :
    Pipeline.afterReading stages = stages := by
  induction stages with
  | nil => rfl
  | cons s ss ih =>
    obtain ⟨hs, hss⟩ := List.forall_mem_cons.mp h
    rw [Pipeline.afterReading, hs, ih hss, ite_self]

theorem stagesOf_compile (hw : Snapshot.IsSteady w.stagesOf) (name : String) :
    (w.compile name).2.stagesOf = w.stagesOf := by
  have hread := afterReading_eq_self (hw.reread name)
  calc (w.compile name).2.stagesOf
      = (w.set name (Pipeline.afterReading (w.stagesOf name))).stagesOf := stagesOf_compileStages _
    _ = (w.set name (w.stagesOf name)).stagesOf := by rw [hread]
    _ = Function.update w.stagesOf name (w.stagesOf name) :=
        stagesOf_set_eq_update fun m hm => hw.current name m hm.symm
    _ = w.stagesOf := Function.update_eq_self ..

theorem stagesOf_capture (hw : Snapshot.IsSteady w.stagesOf) (v : Value) :
    (w.capture v).2.stagesOf = w.stagesOf := by
  cases v with
  | pipeline n stages =>
    cases n with
    | some n => exact stagesOf_compile hw n
    | none => exact stagesOf_compileStages stages
  | _ => rfl

/-- Sub-pipelines are all read as they stand before the first of them is read. -/
theorem captureAll_eq (hw : Snapshot.IsSteady w.stagesOf) (vs : List Value) :
    (w.captureAll vs).1 = vs.mapM (Snapshot.captured w.stagesOf)
      ∧ (w.captureAll vs).2.stagesOf = w.stagesOf := by
  induction vs generalizing w with
  | nil => exact ⟨rfl, rfl⟩
  | cons v vs ih =>
    have hfst := capture_fst (w := w) v
    have hsnd := stagesOf_capture hw v
    rw [captureAll, List.mapM_cons, ← hfst]
    rcases hcap : w.capture v with ⟨_ | d, w'⟩
    · rw [hcap] at hsnd
      exact ⟨rfl, hsnd⟩
    · rw [hcap] at hsnd
      obtain ⟨hvs, hstages⟩ := ih (w := w') (hsnd ▸ hw)
      rw [hsnd] at hvs hstages
      rw [← hvs]
      dsimp only
      rcases hrest : w'.captureAll vs with ⟨_ | ds, w''⟩
      all_goals
        rw [hrest] at hstages
        exact ⟨rfl, hstages⟩

/-- A call makes the stage that the snapshot tells, and leaves the stages of all pipelines. -/
theorem stage_eq (hw : Snapshot.IsSteady w.stagesOf) (c : Call) :
    (w.stage c).1 = Snapshot.addition w.stagesOf c ∧ (w.stage c).2.stagesOf = w.stagesOf := by
  unfold stage Snapshot.addition
  cases hvs : c.subPipelines with
  | error e => exact ⟨rfl, rfl⟩
  | ok vs =>
    obtain ⟨hfst, hsnd⟩ := captureAll_eq hw vs
    change _ = (vs.mapM (Snapshot.captured w.stagesOf) >>= fun subs => c.stage subs) ∧ _
    rw [← hfst]
    dsimp only
    rcases hcap : w.captureAll vs with ⟨_ | subs, w'⟩
    all_goals
      rw [hcap] at hsnd
      exact ⟨rfl, hsnd⟩

/-- A call on a pipeline that no other one refers to appends what the snapshot tells. -/
theorem build_eq (hw : Snapshot.IsSteady w.stagesOf) (hname : Snapshot.Unreferred w.stagesOf name)
    (c : Call) :
    (w.build name c).1 = (Snapshot.addition w.stagesOf c).map (fun _ => ())
      ∧ (w.build name c).2.stagesOf = Snapshot.build w.stagesOf name c := by
  obtain ⟨hfst, hsnd⟩ := stage_eq hw c
  unfold build
  rw [← hfst]
  rcases hstage : w.stage c with ⟨e | r, w'⟩
  · rw [hstage] at hfst hsnd
    have hadded : Snapshot.added w.stagesOf c = [] := by rw [Snapshot.added, ← hfst]
    exact ⟨rfl, hsnd.trans (Snapshot.build_of_added_eq_nil hadded).symm⟩
  · rw [hstage] at hfst hsnd
    have hadded : Snapshot.added w.stagesOf c = r.toList := by rw [Snapshot.added, ← hfst]
    rw [Snapshot.build, hadded]
    refine ⟨rfl, ?_⟩
    rw [← hsnd] at hname ⊢
    exact stagesOf_set_eq_update fun m hm s hs => hname m hm s hs _

theorem isDetached_empty : Snapshot.IsDetached empty.stagesOf where
  operator _ _ hs := nomatch hs
  reread _ _ hs := nomatch hs
  unnamed _ _ hs := nomatch hs

/-- A call whose arguments refer to nothing keeps the stages of a workspace so. -/
theorem isDetached_build {c : Call} (hw : Snapshot.IsDetached w.stagesOf) (hc : c.IsRereadable)
    (hargs : ∀ v ∈ c.arguments, v.detached = v) :
    Snapshot.IsDetached (w.build name c).2.stagesOf := by
  rw [(build_eq hw.isSteady (hw.unreferred name) c).2]
  exact hw.build hc hargs

end Workspace

end DocQuery
