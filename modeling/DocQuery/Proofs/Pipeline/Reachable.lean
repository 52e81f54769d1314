import DocQuery.Proofs.Pipeline.Isolation
import DocQuery.Proofs.Pipeline.Run
import DocQuery.Proofs.Value.Refreshed

/-!
# DocQuery.Proofs.Pipeline.Reachable — what holds of pipelines after any run of calls

A call gives one pipeline new stages, which the references to it in other pipelines take over
(`Snapshot.set`).  A property of stages that survives this and readings holds along a run once every
call adds stages that have it (`Workspace.every_run`).

Arguments may hold references to other pipelines.  As long as each is up to date when it is passed,
and none leads back to the pipeline that it is passed to, all references stay up to date and none
ever leads back (`Snapshot.IsLinked`); a value that contained itself would be no value.  So what
`Snapshot` says of steady workspaces holds after any such run (`Workspace.isLinked_run`).
-/

namespace DocQuery

open Pipeline (Call)

/-! ### Properties of stages -/

/-- A property that a stage keeps when other pipelines change and when it is read. -/
structure Stage.Lasting (P : Stage → Prop) : Prop where
  refreshed : ∀ s, P s → ∀ name stages, P (s.refreshed name stages)
  afterReading : ∀ s, P s → P s.afterReading

theorem Stage.lasting_operator : Lasting fun s => ∃ k, s.operator = .scalar k where
  refreshed s hs name stages := by
    obtain ⟨k, hk⟩ := hs
    obtain ⟨o, v⟩ := s
    obtain rfl : o = .scalar k := hk
    exact ⟨k, rfl⟩
  afterReading s hs := by
    unfold afterReading
    split
    · exact hs
    · exact hs

theorem Stage.lasting_reread : Lasting fun s => s.afterReading = s where
  refreshed s hs name stages := by rw [afterReading_refreshed, hs]
  afterReading s hs := by rw [hs, hs]

namespace Snapshot

variable {σ : Snapshot} {name : String} {X : List Stage} {P : Stage → Prop}

/-- Every stage of every pipeline has the property. -/
def Every (P : Stage → Prop) (σ : Snapshot) : Prop := ∀ n, ∀ s ∈ σ n, P s

/-- The snapshot after a pipeline got new stages, which the references to it take over. -/
def set (σ : Snapshot) (name : String) (X : List Stage) : Snapshot :=
  Function.update (fun n => (σ n).map (Stage.refreshed name X)) name X

@[simp] theorem set_self : σ.set name X name = X := Function.update_self ..

theorem set_of_ne {n : String} (h : n ≠ name) :
    σ.set name X n = (σ n).map (Stage.refreshed name X) :=
  Function.update_of_ne h ..

theorem Every.set (hP : Stage.Lasting P) (hσ : σ.Every P) (hX : ∀ s ∈ X, P s) :
    (σ.set name X).Every P := by
  intro n s hs
  by_cases hn : n = name
  · rw [hn, set_self] at hs
    exact hX s hs
  · rw [set_of_ne hn] at hs
    obtain ⟨t, ht, rfl⟩ := List.mem_map.mp hs
    exact hP.refreshed t (hσ n t ht) name X

/-! ### Pipelines that follow each other -/

/-- What the stages refer to is up to date, and no pipeline leads back to itself. -/
structure IsLinked (σ : Snapshot) : Prop extends σ.IsSteady where
  apart : ∀ n, ∀ s ∈ σ n, s.Avoids n

/-- A stage that a pipeline can have: its operator is a plain key, compiling leaves it as it is, its
references to other pipelines are up to date, and none leads back. -/
structure Admits (σ : Snapshot) (name : String) (s : Stage) : Prop where
  operator : ∃ k, s.operator = .scalar k
  reread : s.afterReading = s
  current : ∀ n ≠ name, s.FixedBy (refresh n (σ n))
  apart : s.Avoids name

theorem IsLinked.admits (hσ : σ.IsLinked) {s : Stage} (hs : s ∈ σ name) : σ.Admits name s where
  operator := hσ.operator name s hs
  reread := hσ.reread name s hs
  current n hn := hσ.current n name hn s hs
  apart := hσ.apart name s hs

/-- The new stages are up to date with pipelines that have taken them over. -/
theorem Admits.current_set {s : Stage} (hs : σ.Admits name s) {n : String} (hn : n ≠ name) :
    s.FixedBy (refresh n (σ.set name X n)) := by
  obtain hnone | hfixed := hs.apart.of_current hn (hs.current n hn)
  · exact hnone _
  · have hsame : σ.set name X n = σ n := by
      rw [set_of_ne hn]
      exact (List.map_congr_left fun t ht => hfixed t ht X).trans (List.map_id _)
    rw [hsame]
    exact hs.current n hn

/-- New stages keep what refers to other pipelines up to date. -/
theorem IsLinked.current_set (hσ : σ.IsLinked) (hX : ∀ x ∈ X, σ.Admits name x) {n m : String}
    (hnm : n ≠ m) {s : Stage} (hs : s ∈ σ.set name X m) :
    s.FixedBy (refresh n (σ.set name X n)) := by
  by_cases hm : m = name
  · subst hm
    rw [set_self] at hs
    exact (hX s hs).current_set hnm
  · rw [set_of_ne hm] at hs
    obtain ⟨t, ht, rfl⟩ := List.mem_map.mp hs
    by_cases hn : n = name
    · subst hn
      rw [set_self]
      exact t.refreshed_refreshed
    · have hnew : ∀ x ∈ X, x.FixedBy (refresh n ((σ n).map (Stage.refreshed name X))) := by
        intro x hx
        rw [← set_of_ne hn]
        exact (hX x hx).current_set hn
      have hold : t.refreshed n (σ n) = t := hσ.current n m hnm t ht
      rw [set_of_ne hn]
      exact (Stage.refreshed_comm hn hnew t).trans (by rw [hold])

/-- New stages lead no pipeline back to itself. -/
theorem IsLinked.apart_set (hσ : σ.IsLinked) (hX : ∀ x ∈ X, σ.Admits name x) {m : String}
    {s : Stage} (hs : s ∈ σ.set name X m) : s.Avoids m := by
  by_cases hm : m = name
  · subst hm
    rw [set_self] at hs
    exact (hX s hs).apart
  · rw [set_of_ne hm] at hs
    obtain ⟨t, ht, rfl⟩ := List.mem_map.mp hs
    by_cases hnew : ∀ x ∈ X, x.Avoids m
    · exact (hσ.apart m t ht).refreshed hm hnew
    · -- a new stage refers to the pipeline, which therefore does not refer to the new stages
      simp only [not_forall] at hnew
      obtain ⟨x, hx, hrefers⟩ := hnew
      have havoids : ∀ t ∈ σ m, t.Avoids name :=
        ((hX x hx).apart.of_current hm ((hX x hx).current m hm)).resolve_left hrefers
      rw [show t.refreshed name X = t from havoids t ht X]
      exact hσ.apart m t ht

theorem IsLinked.set (hσ : σ.IsLinked) (hX : ∀ x ∈ X, σ.Admits name x) :
    (σ.set name X).IsLinked where
  operator := Every.set Stage.lasting_operator hσ.operator fun x hx => (hX x hx).operator
  reread := Every.set Stage.lasting_reread hσ.reread fun x hx => (hX x hx).reread
  current _ _ hnm _ hs := hσ.current_set hX hnm hs
  apart _ _ hs := hσ.apart_set hX hs

end Snapshot

/-- A call that fits the workspace and passes no value that leads back to its pipeline.  The
condition is on the arguments, so that it can be read off the call alone.  It asks more than some
stages need: a match with a filter that holds the pipeline itself is shut out, although its stage
has a copy of the pipeline only. -/
structure Pipeline.Call.Suits (w : Workspace) (name : String) (c : Call) : Prop
    extends c.Fits w name where
  apart : ∀ v ∈ c.arguments, v.Avoids name

theorem Pipeline.Call.suits_of_detached {w : Workspace} {name : String} {c : Call}
    (hargs : ∀ v ∈ c.arguments, v.detached = v) (hc : c.IsRereadable) : c.Suits w name where
  toFits := fits_of_detached hargs hc
  apart v hv stages := .of_detached (keepsUnnamed_refresh name stages) (hargs v hv)

/-- The stage that a suitable call adds is one that its pipeline can have. -/
theorem Pipeline.Call.Suits.admits {w : Workspace} {name : String} {c : Call}
    (hc : c.Suits w name) (hw : Snapshot.IsPlain w.stagesOf) {s : Stage}
    (h : Snapshot.addition w.stagesOf c = .ok (some s)) : Snapshot.Admits w.stagesOf name s := by
  obtain ⟨subs, hsubs⟩ := Snapshot.exists_of_addition h
  exact {
    operator := operator_of_stage hsubs
    reread := afterReading_of_stage hc.rereadable hsubs
    current := fun n hn => Snapshot.fixedBy_addition (keepsUnnamed_refresh n _) hw
      (fun v hv => hc.current v hv n hn) h
    apart := fun stages => Snapshot.fixedBy_addition (keepsUnnamed_refresh name stages) hw
      (fun v hv => hc.apart v hv stages) h }

/-! ### Workspaces -/

namespace Workspace

variable {w : Workspace} {name : String} {c : Call} {P : Stage → Prop}

theorem stagesOf_set (w : Workspace) (name : String) (stages : List Stage) :
    (w.set name stages).stagesOf = Snapshot.set w.stagesOf name stages := by
  funext n
  by_cases hn : n = name
  · rw [hn, stagesOf_set_self, Snapshot.set_self]
  · rw [stagesOf_set_of_ne w hn, Snapshot.set_of_ne hn]

theorem every_set (hP : Stage.Lasting P) (hw : Snapshot.Every P w.stagesOf) {stages : List Stage}
    (hstages : ∀ s ∈ stages, P s) : Snapshot.Every P (w.set name stages).stagesOf := by
  rw [stagesOf_set]
  exact hw.set hP hstages

theorem forall_afterReading (hP : Stage.Lasting P) {stages : List Stage}
    (h : ∀ s ∈ stages, P s) : ∀ s ∈ Pipeline.afterReading stages, P s := by
  induction stages with
  | nil => exact h
  | cons s ss ih =>
    obtain ⟨hs, hss⟩ := List.forall_mem_cons.mp h
    rw [Pipeline.afterReading]
    refine List.forall_mem_cons.mpr ⟨hP.afterReading s hs, ?_⟩
    split
    · exact ih hss
    · exact hss

theorem every_capture (hP : Stage.Lasting P) (hw : Snapshot.Every P w.stagesOf) (v : Value) :
    Snapshot.Every P (w.capture v).2.stagesOf := by
  cases v with
  | pipeline n stages =>
    cases n with
    | some n =>
      have hafter : (w.compile n).2.stagesOf
          = (w.set n (Pipeline.afterReading (w.stagesOf n))).stagesOf := stagesOf_compileStages _
      rw [capture, hafter]
      exact every_set hP hw (forall_afterReading hP (hw n))
    | none =>
      have hafter : (w.compileStages stages).2.stagesOf = w.stagesOf := stagesOf_compileStages _
      rw [capture, hafter]
      exact hw
  | _ => exact hw

theorem every_captureAll (hP : Stage.Lasting P) (hw : Snapshot.Every P w.stagesOf)
    (vs : List Value) : Snapshot.Every P (w.captureAll vs).2.stagesOf := by
  induction vs generalizing w with
  | nil => exact hw
  | cons v vs ih =>
    have hv := every_capture hP hw v
    rw [captureAll]
    rcases hcap : w.capture v with ⟨_ | d, w'⟩
    · rw [hcap] at hv
      exact hv
    · rw [hcap] at hv
      have hvs := ih hv
      dsimp only at hvs ⊢
      rcases hrest : w'.captureAll vs with ⟨_ | ds, w''⟩
      all_goals
        rw [hrest] at hvs
        exact hvs

/-- Each sub-pipeline is compiled where all stages have the property. -/
theorem forall₂_captureAll (hP : Stage.Lasting P) (hw : Snapshot.Every P w.stagesOf)
    {vs ds : List Value} (h : (w.captureAll vs).1 = .ok ds) :
    List.Forall₂ (fun v d => ∃ u : Workspace, Snapshot.Every P u.stagesOf ∧ (u.capture v).1 = .ok d)
      vs ds := by
  induction vs generalizing w ds with
  | nil =>
    obtain rfl := Except.ok.inj h
    exact .nil
  | cons v vs ih =>
    have hv := every_capture hP hw v
    rw [captureAll] at h
    rcases hcap : w.capture v with ⟨_ | d, w'⟩
    · rw [hcap] at h
      cases h
    · rw [hcap] at hv h
      dsimp only at hv h
      rcases hrest : w'.captureAll vs with ⟨_ | es, w''⟩
      · rw [hrest] at h
        cases h
      · rw [hrest] at h
        obtain rfl := Except.ok.inj h
        exact .cons ⟨w, hw, by rw [hcap]⟩ (ih hv (by rw [hrest]))

/-- A call keeps a property of stages if the stage that it adds has it, where those of its
sub-pipelines have. -/
theorem every_build_of_captured (hP : Stage.Lasting P) (hw : Snapshot.Every P w.stagesOf)
    (hc : ∀ vs subs s, c.subPipelines = .ok vs →
      List.Forall₂
        (fun v d => ∃ u : Workspace, Snapshot.Every P u.stagesOf ∧ (u.capture v).1 = .ok d)
        vs subs → c.stage subs = .ok (some s) → P s) :
    Snapshot.Every P (w.build name c).2.stagesOf := by
  unfold build stage
  cases hvs : c.subPipelines with
  | error e => exact hw
  | ok vs =>
    have hall := every_captureAll hP hw vs
    dsimp only
    rcases hcap : w.captureAll vs with ⟨_ | subs, w'⟩
    · rw [hcap] at hall
      exact hall
    · rw [hcap] at hall
      dsimp only
      cases hstage : c.stage subs with
      | error e => exact hall
      | ok r =>
        refine every_set hP hall (List.forall_mem_append.mpr ⟨hall name, fun s hs => ?_⟩)
        obtain rfl := Option.mem_toList.mp hs
        exact hc vs subs s hvs (forall₂_captureAll hP hw (by rw [hcap])) hstage

/-- A call keeps a property of stages if the stage that it adds has it. -/
theorem every_build (hP : Stage.Lasting P) (hw : Snapshot.Every P w.stagesOf)
    (hc : ∀ subs s, c.stage subs = .ok (some s) → P s) :
    Snapshot.Every P (w.build name c).2.stagesOf :=
  every_build_of_captured hP hw fun _ subs s _ _ h => hc subs s h

/-- What every call of a run keeps holds after the run. -/
theorem every_run_of_build {as : List Action}
    (has : ∀ a ∈ as, ∀ u : Workspace, Snapshot.Every P u.stagesOf →
      Snapshot.Every P (u.build a.pipeline a.call).2.stagesOf)
    (hw : Snapshot.Every P w.stagesOf) : Snapshot.Every P (w.run as).stagesOf := by
  induction as generalizing w with
  | nil => exact hw
  | cons a as ih =>
    obtain ⟨ha, has⟩ := List.forall_mem_cons.mp has
    exact ih has (ha w hw)

theorem every_run (hP : Stage.Lasting P) {as : List Action}
    (has : ∀ a ∈ as, ∀ subs s, a.call.stage subs = .ok (some s) → P s)
    (hw : Snapshot.Every P w.stagesOf) : Snapshot.Every P (w.run as).stagesOf :=
  every_run_of_build (fun a ha _ hu => every_build hP hu (has a ha)) hw

theorem every_empty : Snapshot.Every P empty.stagesOf := fun _ _ hs => nomatch hs

/-- Whatever was called, the operators of stages are plain keys. -/
theorem operator_run (as : List Action) :
    Snapshot.Every (fun s => ∃ k, s.operator = .scalar k) (empty.run as).stagesOf :=
  every_run Stage.lasting_operator (fun _ _ _ _ h => Call.operator_of_stage h) every_empty

/-! ### Runs of suitable calls -/

/-- The calls of a run suit the workspace, each when its turn comes. -/
def Admits (w : Workspace) : List Action → Prop
  | [] => True
  | a :: as => a.call.Suits w a.pipeline ∧ (w.build a.pipeline a.call).2.Admits as

theorem isLinked_build (hw : Snapshot.IsLinked w.stagesOf) (hc : c.Suits w name) :
    Snapshot.IsLinked (w.build name c).2.stagesOf := by
  obtain ⟨hfst, hsnd⟩ := stage_eq hw.toIsSteady c
  unfold build
  rcases hstage : w.stage c with ⟨e | r, w'⟩
  · rw [hstage] at hsnd
    exact hsnd ▸ hw
  · rw [hstage] at hfst hsnd
    dsimp only at hfst hsnd ⊢
    rw [stagesOf_set, hsnd]
    refine hw.set (List.forall_mem_append.mpr ⟨fun s hs => hw.admits hs, fun s hs => ?_⟩)
    obtain rfl := Option.mem_toList.mp hs
    exact hc.admits hw.toIsPlain hfst.symm

theorem isLinked_empty : Snapshot.IsLinked empty.stagesOf where
  toIsSteady := isDetached_empty.isSteady
  apart _ _ hs := nomatch hs

/-- After suitable calls, what pipelines refer to is up to date. -/
theorem isLinked_run {as : List Action} (hw : Snapshot.IsLinked w.stagesOf) (has : w.Admits as) :
    Snapshot.IsLinked (w.run as).stagesOf := by
  induction as generalizing w with
  | nil => exact hw
  | cons a as ih => exact ih (isLinked_build hw has.1) has.2

/-- Calls that pass pipelines only as sub-pipelines suit every workspace. -/
theorem admits_of_isIsolated {as : List Action} (has : ∀ a ∈ as, a.IsIsolated) : w.Admits as := by
  induction as generalizing w with
  | nil => trivial
  | cons a as ih =>
    obtain ⟨ha, has⟩ := List.forall_mem_cons.mp has
    exact ⟨Call.suits_of_detached ha.detached ha.rereadable, ih has⟩

end Workspace

end DocQuery
