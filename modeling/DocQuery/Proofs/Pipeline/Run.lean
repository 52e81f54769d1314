import DocQuery.Proofs.Pipeline.Snapshot
import DocQuery.Value.Display

/-!
# DocQuery.Proofs.Pipeline.Run — what a run of calls leaves of a pipeline

A call on a pipeline fails and leaves its stages, or succeeds and leaves them since its filter is
missing, or appends the one stage that it makes (`Workspace.Outcome`).  By induction over the run,
the stages of a fresh pipeline are those of its successful calls, in order, and the calls that
appended nothing might as well not have been made.
-/

namespace DocQuery

open Pipeline (Call)

/-- The arguments of a call refer to other pipelines as these are in the workspace, and hold no
stream that compiling would use up. -/
structure Pipeline.Call.Fits (w : Workspace) (name : String) (c : Call) : Prop where
  current : ∀ v ∈ c.arguments, ∀ n ≠ name, v.FixedBy (refresh n (w.stagesOf n))
  rereadable : c.IsRereadable

theorem Pipeline.Call.fits_of_detached {w : Workspace} {name : String} {c : Call}
    (hargs : ∀ v ∈ c.arguments, v.detached = v) (hc : c.IsRereadable) : c.Fits w name where
  current v hv n _ := .of_detached (keepsUnnamed_refresh n _) (hargs v hv)
  rereadable := hc

namespace Workspace

variable {w u : Workspace} {name : String} {c : Call} {cs : List Call}

/-- The workspace after calls on one pipeline. -/
def buildAll (w : Workspace) (name : String) : List Call → Workspace
  | [] => w
  | c :: cs => (w.build name c).2.buildAll name cs

/-- The calls of a run that succeed and do not lack their filter. -/
def effective (w : Workspace) (name : String) : List Call → List Call
  | [] => []
  | c :: cs =>
    let rest := (w.build name c).2.effective name cs
    if (w.build name c).1.isOk && !c.lacksFilter then c :: rest else rest

/-- The calls of a run that make a stage, each with the stage that it makes. -/
def additions (w : Workspace) (name : String) : List Call → List (Call × Stage)
  | [] => []
  | c :: cs =>
    let rest := (w.build name c).2.additions name cs
    match (w.stage c).1 with
    | .ok (some s) => (c, s) :: rest
    | _ => rest

/-- No other pipeline refers to the pipeline, compiling leaves all stages as they are, and the calls
fit the workspace.  A new pipeline is referred to by none.  One that another has taken over is shut
out, since a call on it changes the stages of both, which `Outcome` does not say; an own stage may
refer to it. -/
structure Accepts (w : Workspace) (name : String) (cs : List Call) : Prop where
  steady : Snapshot.IsSteady w.stagesOf
  unreferred : Snapshot.Unreferred w.stagesOf name
  fits : ∀ c ∈ cs, c.Fits w name

/-! ### One call -/

/-- What a call on a pipeline can do. -/
inductive Outcome (w : Workspace) (name : String) (c : Call) : Prop
  | failed (e : Fault) (hresult : (w.build name c).1 = .error e) (hstage : (w.stage c).1 = .error e)
    (hafter : (w.build name c).2.stagesOf = w.stagesOf)
  | skipped (hfilter : c.lacksFilter = true) (hresult : (w.build name c).1 = .ok ())
    (hstage : (w.stage c).1 = .ok none) (hafter : (w.build name c).2.stagesOf = w.stagesOf)
  | appended (s : Stage) (hfilter : c.lacksFilter = false) (hresult : (w.build name c).1 = .ok ())
    (hstage : (w.stage c).1 = .ok (some s))
    (hafter : (w.build name c).2.stagesOf
      = Function.update w.stagesOf name (w.stagesOf name ++ [s]))

theorem outcome (hw : Snapshot.IsSteady w.stagesOf) (hname : Snapshot.Unreferred w.stagesOf name)
    (c : Call) : Outcome w name c := by
  obtain ⟨hresult, hafter⟩ := build_eq hw hname c
  have hstage := (stage_eq hw c).1
  cases hadd : Snapshot.addition w.stagesOf c with
  | error e =>
    have hadded : Snapshot.added w.stagesOf c = [] := by rw [Snapshot.added, hadd]
    rw [Snapshot.build_of_added_eq_nil hadded] at hafter
    rw [hadd] at hresult hstage
    exact .failed e hresult hstage hafter
  | ok r =>
    obtain ⟨subs, hsubs⟩ := Snapshot.exists_of_addition hadd
    have hfilter := Call.eq_none_iff_lacksFilter hsubs
    have hadded : Snapshot.added w.stagesOf c = r.toList := by rw [Snapshot.added, hadd]
    rw [hadd] at hresult hstage
    cases r with
    | none =>
      rw [Snapshot.build_of_added_eq_nil hadded] at hafter
      exact .skipped (hfilter.mp rfl) hresult hstage hafter
    | some s =>
      rw [Snapshot.build, hadded] at hafter
      refine .appended s (Bool.eq_false_iff.mpr fun h => ?_) hresult hstage hafter
      cases hfilter.mpr h

theorem Accepts.outcome (h : w.Accepts name cs) (c : Call) : Outcome w name c :=
  Workspace.outcome h.steady h.unreferred c

/-- A match without a filter never fails. -/
theorem build_of_lacksFilter (h : c.lacksFilter = true) : (w.build name c).1 = .ok () := by
  cases c with
  | matching filter | matchDocument filter =>
    obtain rfl := Value.isNull_iff.mp h
    rfl
  | _ => cases h

/-- After a call, the others still fit. -/
theorem Accepts.build (h : w.Accepts name (c :: cs)) : (w.build name c).2.Accepts name cs := by
  obtain ⟨hc, hcs⟩ := List.forall_mem_cons.mp h.fits
  obtain ⟨-, hafter⟩ := build_eq h.steady h.unreferred c
  refine ⟨?_, ?_, fun d hd => ⟨fun v hv n hn => ?_, (hcs d hd).rereadable⟩⟩
  · rw [hafter]
    exact h.steady.build h.unreferred hc.rereadable hc.current
  · rw [hafter]
    exact h.unreferred.build
  · rw [hafter, Snapshot.build_of_ne hn]
    exact (hcs d hd).current v hv n hn

/-! ### A run -/

theorem Accepts.buildAll {before after : List Call} (h : w.Accepts name (before ++ after)) :
    (w.buildAll name before).Accepts name after := by
  induction before generalizing w with
  | nil => exact h
  | cons c before ih => exact ih h.build

theorem Accepts.map_fst_additions (h : w.Accepts name cs) :
    (w.additions name cs).map Prod.fst = w.effective name cs := by
  induction cs generalizing w with
  | nil => rfl
  | cons c cs ih =>
    have hrest := ih h.build
    unfold additions effective
    cases h.outcome c with
    | failed e hresult hstage => simpa [hresult, hstage, Except.isOk, Except.toBool] using hrest
    | skipped hfilter hresult hstage => simpa [hfilter, hstage] using hrest
    | appended s hfilter hresult hstage =>
      simpa [hfilter, hresult, hstage, Except.isOk, Except.toBool] using hrest

/-- The stages of a pipeline after a run are those that it had and those that the calls made. -/
theorem Accepts.stagesOf_buildAll (h : w.Accepts name cs) :
    (w.buildAll name cs).stagesOf name
      = w.stagesOf name ++ (w.additions name cs).map Prod.snd := by
  induction cs generalizing w with
  | nil => exact (List.append_nil _).symm
  | cons c cs ih =>
    have hrest := ih h.build
    unfold Workspace.buildAll additions
    cases h.outcome c with
    | failed e hresult hstage hafter => rw [hrest, hafter, hstage]
    | skipped hfilter hresult hstage hafter => rw [hrest, hafter, hstage]
    | appended s hfilter hresult hstage hafter =>
      rw [hrest, hafter, hstage, Function.update_self, List.map_cons, List.append_assoc]
      rfl

/-- Calls that append nothing can be left out. -/
theorem Accepts.stagesOf_effective (h : w.Accepts name cs) (hu : u.stagesOf = w.stagesOf) :
    (u.buildAll name (w.effective name cs)).stagesOf = (w.buildAll name cs).stagesOf := by
  induction cs generalizing w u with
  | nil => exact hu
  | cons c cs ih =>
    unfold effective
    cases h.outcome c with
    | failed e hresult hstage hafter =>
      rw [hresult]
      exact ih h.build (hu.trans hafter.symm)
    | skipped hfilter hresult hstage hafter =>
      rw [hfilter, Bool.not_true, Bool.and_false, if_neg Bool.false_ne_true]
      exact ih h.build (hu.trans hafter.symm)
    | appended s hfilter hresult hstage hafter =>
      rw [hresult, hfilter]
      refine ih h.build ?_
      have hsteady := h.steady
      have hname := h.unreferred
      rw [(build_eq hsteady hname c).2]
      rw [← hu] at hsteady hname ⊢
      exact (build_eq hsteady hname c).2

/-- A run of calls on a fresh pipeline: each call leaves the stages or appends the one that it
makes, so the pipeline has the stages of the effective calls in order and compiles to their
conversions, and the effective calls alone give the same pipeline. -/
theorem run_appends_in_order (hempty : w.stagesOf name = []) (h : w.Accepts name cs) :
    (∀ before c after, cs = before ++ c :: after →
      let u := w.buildAll name before
      let u' := (u.build name c).2
      (∀ e, (u.build name c).1 = .error e → u'.stagesOf name = u.stagesOf name)
        ∧ (c.lacksFilter = true →
            (u.build name c).1 = .ok () ∧ u'.stagesOf name = u.stagesOf name)
        ∧ ((u.build name c).1 = .ok () → c.lacksFilter = false →
            ∃ s, (u.stage c).1 = .ok (some s) ∧ u'.stagesOf name = u.stagesOf name ++ [s]))
    ∧ ((w.buildAll name cs).stagesOf name).length = (w.effective name cs).length
    ∧ (w.additions name cs).map Prod.fst = w.effective name cs
    ∧ (w.buildAll name cs).stagesOf name = (w.additions name cs).map Prod.snd
    ∧ (∀ v, ((w.buildAll name cs).compile name).1 = .ok v →
        ∃ ds : List Document, v = .list (ds.map .doc)
          ∧ List.Forall₂ (fun a d => a.2.document = .ok d) (w.additions name cs) ds)
    ∧ (let kept := w.buildAll name (w.effective name cs)
      kept.stagesOf name = (w.buildAll name cs).stagesOf name
        ∧ (kept.compile name).1 = ((w.buildAll name cs).compile name).1
        ∧ (Value.pipeline none (kept.stagesOf name)).shown
          = (Value.pipeline none ((w.buildAll name cs).stagesOf name)).shown) := by
  have hcalls := h.map_fst_additions
  have hstages : (w.buildAll name cs).stagesOf name = (w.additions name cs).map Prod.snd := by
    rw [h.stagesOf_buildAll, hempty, List.nil_append]
  have hkept := congrFun (h.stagesOf_effective rfl) name
  refine ⟨?_, ?_, hcalls, hstages, fun v hv => ?_, hkept, ?_, by rw [hkept]⟩
  · rintro before c after rfl u u'
    have hc : Outcome u name c := h.buildAll.outcome c
    refine ⟨fun e he => ?_, fun hfilter => ⟨build_of_lacksFilter hfilter, ?_⟩,
      fun hok hfilter => ?_⟩
    · cases hc with
      | failed _ _ _ hafter => exact congrFun hafter name
      | skipped _ hresult | appended _ _ hresult => rw [hresult] at he; cases he
    · cases hc with
      | failed _ _ _ hafter | skipped _ _ _ hafter => exact congrFun hafter name
      | appended _ hgiven => rw [hfilter] at hgiven; cases hgiven
    · cases hc with
      | failed _ hresult => rw [hresult] at hok; cases hok
      | skipped hmissing => rw [hfilter] at hmissing; cases hmissing
      | appended s _ _ hstage hafter =>
        exact ⟨s, hstage, (congrFun hafter name).trans (Function.update_self ..)⟩
  · rw [hstages, ← hcalls, List.length_map, List.length_map]
  · obtain ⟨ds, rfl, hds⟩ := forall₂_of_compile hv
    rw [hstages, List.forall₂_map_left_iff] at hds
    exact ⟨ds, rfl, hds⟩
  · rw [compile_fst, compile_fst, hkept]

/-- A run with a match without a filter, two calls that fail, and a pipeline passed to itself. -/
theorem run_appends_in_order_facets :
    let page : Value := .pipeline (some "page") []
    let main : Value := .pipeline (some "main") []
    let stats : Call := .raw (.single "$indexStats" (.doc []))
    let both : Call := .facet (.doc [(.str "page", page), (.str "all", main)])
    let skip : Call := .plain .skip (.int 1)
    let cs : List Call := [.matching .null, skip,
      .facet (.doc [(.str "page", page), (.str "count", .int 3)]), both, .sort (.int 3), stats]
    let w := empty.buildAll "page" [.plain .limit (.int 5)]
    w.stagesOf "main" = [] ∧ w.Accepts "main" cs ∧
      ((w.buildAll "main" cs).stagesOf "main").length = 3 ∧
      (w.buildAll "main" [skip, both, stats]).stagesOf "main"
        = (w.buildAll "main" cs).stagesOf "main" := by
  intro page main stats both skip cs w
  have hdetached : ∀ c ∈ cs, (∀ v ∈ c.arguments, v.detached = v) ∧ c.IsRereadable := by
    simp [cs, stats, both, skip, page, main, Call.arguments, Call.referenceName?, Call.IsRereadable,
      Value.detached, Value.mapPipelines, mapPipelinesEntries, Value.afterDocument]
  have hw : Snapshot.IsDetached w.stagesOf :=
    isDetached_build isDetached_empty trivial (by simp [Call.arguments, Value.detached,
      Value.mapPipelines])
  have haccepts : w.Accepts "main" cs := ⟨hw.isSteady, hw.unreferred "main", fun c hc =>
    Call.fits_of_detached (hdetached c hc).1 (hdetached c hc).2⟩
  have heffective : w.effective "main" cs = [skip, both, stats] := rfl
  obtain ⟨-, hlength, -, -, -, hkept, -⟩ := run_appends_in_order rfl haccepts
  rw [heffective] at hlength hkept
  exact ⟨rfl, haccepts, hlength, hkept⟩

end Workspace

end DocQuery
