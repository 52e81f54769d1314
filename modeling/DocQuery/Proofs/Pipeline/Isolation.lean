import DocQuery.Proofs.Pipeline.Snapshot

/-!
# DocQuery.Proofs.Pipeline.Isolation — pipelines built side by side

Calls on several pipelines, in any order, where pipelines are passed on only as sub-pipelines: a
call reads the pipelines that it passes as they stand (`Snapshot.addition_congr`) and changes its
own alone.  So the stages of a pipeline depend on those calls only that `needs` finds, reading a run
from its end, and two calls of which neither passes the pipeline of the other commute.
-/

namespace DocQuery

open Pipeline (Call)

namespace Pipeline.Call

/-- The names of the pipelines that a call passes as sub-pipelines. -/
def passed (c : Call) : List String :=
  match c.subPipelines with
  | .ok vs => vs.filterMap referenceName?
  | .error _ => []

/-- A call without its sub-pipelines. -/
def blank : Call → Call
  | facet (.doc es) => facet (.doc (es.map fun e => (e.1, .null)))
  | lookupWith source _ target bindings => lookupWith source .null target bindings
  | c => c

/-- What compiling each sub-pipeline of a call gives; of a named one, it is what `compile` gives. -/
def captures (w : Workspace) (c : Call) : Except Fault (List (Except Fault Value)) :=
  c.subPipelines.map fun vs => vs.map fun v => (w.capture v).1

/-- The stage of a call is made of the documents of its sub-pipelines and of its other arguments. -/
theorem stage_blank {c : Call} {vs : List Value} (h : c.subPipelines = .ok vs) (subs : List Value) :
    c.blank.stage subs = c.stage subs := by
  unfold blank
  split
  · rename_i es
    have hkeys : (es.map fun e => (e.1, Value.null)).map (·.1) = es.map (·.1) := by
      rw [List.map_map]
      rfl
    simp only [stage, facetSpec, hkeys]
  · rfl
  · rfl

end Pipeline.Call

/-- A call on one of several pipelines. -/
structure Action where
  pipeline : String
  call : Call

/-- Pipelines are passed as sub-pipelines only, and no stream is there that compiling would use
up. -/
structure Action.IsIsolated (a : Action) : Prop where
  detached : ∀ v ∈ a.call.arguments, v.detached = v
  rereadable : a.call.IsRereadable

/-- The pipelines that some pipelines depend on before a run, given the run that follows. -/
def needs (wanted : List String) : List Action → List String
  | [] => wanted
  | a :: as =>
    let later := needs wanted as
    if a.pipeline ∈ later then a.call.passed ++ later else later

/-! ### Snapshots -/

namespace Snapshot

variable {σ τ : Snapshot} {c c' : Call}

/-- The snapshot after calls. -/
def run (σ : Snapshot) : List Action → Snapshot
  | [] => σ
  | a :: as => (σ.build a.pipeline a.call).run as

/-- The documents of the sub-pipelines and the other arguments decide what a call adds. -/
theorem addition_eq_of_captured (hblank : c.blank = c'.blank)
    (hcaptured : (c.subPipelines.map fun vs => vs.map σ.captured)
      = c'.subPipelines.map fun vs => vs.map τ.captured) :
    σ.addition c = τ.addition c' := by
  unfold addition
  cases hvs : c.subPipelines with
  | error e =>
    cases hvs' : c'.subPipelines with
    | error e' =>
      rw [hvs, hvs'] at hcaptured
      cases hcaptured
      rfl
    | ok vs' =>
      rw [hvs, hvs'] at hcaptured
      cases hcaptured
  | ok vs =>
    cases hvs' : c'.subPipelines with
    | error e' =>
      rw [hvs, hvs'] at hcaptured
      cases hcaptured
    | ok vs' =>
      rw [hvs, hvs'] at hcaptured
      have hdocuments := mapM_eq_of_map_eq (Except.ok.inj hcaptured)
      have hstage : ∀ subs, c.stage subs = c'.stage subs := fun subs => by
        rw [← Call.stage_blank hvs, ← Call.stage_blank hvs', hblank]
      change (vs.mapM σ.captured >>= fun subs => c.stage subs)
        = vs'.mapM τ.captured >>= fun subs => c'.stage subs
      simp only [hdocuments, hstage]

theorem captured_congr {v : Value} (h : ∀ n, Call.referenceName? v = some n → σ n = τ n) :
    σ.captured v = τ.captured v := by
  cases v with
  | pipeline n stages =>
    cases n with
    | some n => exact congrArg compiled (h n rfl)
    | none => rfl
  | _ => rfl

/-- A call reads no pipeline but those that it passes. -/
theorem addition_congr (h : ∀ n ∈ c.passed, σ n = τ n) : σ.addition c = τ.addition c := by
  refine addition_eq_of_captured rfl ?_
  unfold Call.passed at h
  cases hvs : c.subPipelines with
  | error e => rfl
  | ok vs =>
    rw [hvs] at h
    refine congrArg Except.ok (List.map_congr_left fun v hv => captured_congr fun n hn => ?_)
    exact h n (List.mem_filterMap.mpr ⟨v, hv, hn⟩)

theorem added_congr (h : ∀ n ∈ c.passed, σ n = τ n) : σ.added c = τ.added c := by
  rw [added, added, addition_congr h]

/-- Calls on other pipelines leave a pipeline as it is. -/
theorem run_of_forall_ne {as : List Action} {n : String} (h : ∀ a ∈ as, a.pipeline ≠ n) :
    σ.run as n = σ n := by
  induction as generalizing σ with
  | nil => rfl
  | cons a as ih =>
    obtain ⟨ha, has⟩ := List.forall_mem_cons.mp h
    exact (ih has).trans (build_of_ne ha.symm)

/-- The pipelines that a run needs decide what becomes of those that are wanted. -/
theorem run_congr (wanted : List String) {as : List Action}
    (h : ∀ n ∈ needs wanted as, σ n = τ n) : ∀ n ∈ wanted, σ.run as n = τ.run as n := by
  induction as generalizing σ τ with
  | nil => exact h
  | cons a as ih =>
    refine ih fun n hn => ?_
    rw [needs] at h
    by_cases ha : a.pipeline ∈ needs wanted as
    · rw [if_pos ha] at h
      obtain ⟨hpassed, hlater⟩ := List.forall_mem_append.mp h
      by_cases hna : n = a.pipeline
      · rw [hna, build_self, build_self, hlater a.pipeline ha, added_congr hpassed]
      · rw [build_of_ne hna, build_of_ne hna, hlater n hn]
    · rw [if_neg ha] at h
      have hna : n ≠ a.pipeline := fun hna => ha (hna ▸ hn)
      rw [build_of_ne hna, build_of_ne hna, h n hn]

/-- Calls of which neither reads or changes the pipeline of the other commute. -/
theorem build_comm {p q : String} (hne : p ≠ q) (hp : p ∉ c'.passed) (hq : q ∉ c.passed) :
    (σ.build p c).build q c' = (σ.build q c').build p c := by
  have hc' : (σ.build p c).added c' = σ.added c' :=
    added_congr fun n hn => build_of_ne fun hnp => hp (hnp ▸ hn)
  have hc : (σ.build q c').added c = σ.added c :=
    added_congr fun n hn => build_of_ne fun hnq => hq (hnq ▸ hn)
  calc (σ.build p c).build q c'
      = Function.update (σ.build p c) q (σ q ++ σ.added c') := by
        rw [build, build_of_ne hne.symm, hc']
    _ = Function.update (σ.build q c') p (σ p ++ σ.added c) := Function.update_comm hne ..
    _ = (σ.build q c').build p c := by
        rw [build.eq_def (σ.build q c'), build_of_ne hne, hc]

theorem run_append (as bs : List Action) : σ.run (as ++ bs) = (σ.run as).run bs := by
  induction as generalizing σ with
  | nil => rfl
  | cons a as ih => exact ih

end Snapshot

/-! ### Workspaces -/

namespace Workspace

variable {w w' : Workspace}

/-- The workspace after calls. -/
def run (w : Workspace) : List Action → Workspace
  | [] => w
  | a :: as => (w.build a.pipeline a.call).2.run as

theorem run_eq (hw : Snapshot.IsDetached w.stagesOf) {as : List Action}
    (has : ∀ a ∈ as, a.IsIsolated) :
    (w.run as).stagesOf = Snapshot.run w.stagesOf as
      ∧ Snapshot.IsDetached (w.run as).stagesOf := by
  induction as generalizing w with
  | nil => exact ⟨rfl, hw⟩
  | cons a as ih =>
    obtain ⟨ha, has⟩ := List.forall_mem_cons.mp has
    have hbuild := (build_eq hw.isSteady (hw.unreferred a.pipeline) a.call).2
    obtain ⟨hrun, hdetached⟩ := ih (isDetached_build hw ha.rereadable ha.detached) has
    rw [hbuild] at hrun
    exact ⟨hrun, hdetached⟩

theorem isDetached_run {as : List Action} (has : ∀ a ∈ as, a.IsIsolated) :
    Snapshot.IsDetached (empty.run as).stagesOf :=
  (run_eq isDetached_empty has).2

/-- What a call appends is decided by the documents of its sub-pipelines and its other arguments,
whichever pipelines these are and whichever the pipeline of the call is. -/
theorem build_of_captures (hw : Snapshot.IsDetached w.stagesOf)
    (hw' : Snapshot.IsDetached w'.stagesOf) {c c' : Call} (hblank : c.blank = c'.blank)
    (hcaptures : c.captures w = c'.captures w') (p p' : String) :
    (w.build p c).1 = (w'.build p' c').1
      ∧ ∃ stages, (w.build p c).2.stagesOf p = w.stagesOf p ++ stages
        ∧ (w'.build p' c').2.stagesOf p' = w'.stagesOf p' ++ stages := by
  obtain ⟨hresult, hafter⟩ := build_eq hw.isSteady (hw.unreferred p) c
  obtain ⟨hresult', hafter'⟩ := build_eq hw'.isSteady (hw'.unreferred p') c'
  have hadd : Snapshot.addition w.stagesOf c = Snapshot.addition w'.stagesOf c' := by
    unfold Call.captures at hcaptures
    simp only [capture_fst] at hcaptures
    exact Snapshot.addition_eq_of_captured hblank hcaptures
  refine ⟨by rw [hresult, hresult', hadd], Snapshot.added w.stagesOf c, ?_, ?_⟩
  · rw [hafter, Snapshot.build_self]
  · rw [hafter', Snapshot.build_self, Snapshot.added, Snapshot.added, hadd]

/-- Calls on pipelines that are not needed any more do not matter. -/
theorem stagesOf_run_of_not_needed (hw : Snapshot.IsDetached w.stagesOf)
    {later after : List Action} (hlater : ∀ a ∈ later, a.IsIsolated)
    (hafter : ∀ a ∈ after, a.IsIsolated) {p : String}
    (hneeds : ∀ a ∈ later, a.pipeline ∉ needs [p] after) :
    (w.run (later ++ after)).stagesOf p = (w.run after).stagesOf p := by
  have hall := List.forall_mem_append.mpr ⟨hlater, hafter⟩
  rw [(run_eq hw hall).1, (run_eq hw hafter).1, Snapshot.run_append]
  refine Snapshot.run_congr [p] (fun n hn => ?_) p List.mem_cons_self
  exact Snapshot.run_of_forall_ne fun a ha hna => hneeds a ha (hna ▸ hn)

/-- Two calls of which neither passes the pipeline of the other can be swapped. -/
theorem stagesOf_run_swap (hw : Snapshot.IsDetached w.stagesOf) {a b : Action} {after : List Action}
    (ha : a.IsIsolated) (hb : b.IsIsolated) (hafter : ∀ x ∈ after, x.IsIsolated)
    (hne : a.pipeline ≠ b.pipeline) (hpassed : a.pipeline ∉ b.call.passed)
    (hpassed' : b.pipeline ∉ a.call.passed) :
    (w.run (a :: b :: after)).stagesOf = (w.run (b :: a :: after)).stagesOf := by
  have hab := List.forall_mem_cons.mpr ⟨ha, List.forall_mem_cons.mpr ⟨hb, hafter⟩⟩
  have hba := List.forall_mem_cons.mpr ⟨hb, List.forall_mem_cons.mpr ⟨ha, hafter⟩⟩
  rw [(run_eq hw hab).1, (run_eq hw hba).1, Snapshot.run, Snapshot.run, Snapshot.run, Snapshot.run,
    Snapshot.build_comm hne hpassed hpassed']

/-- Pipelines are captured by snapshot, and building one leaves the others: what a call appends is
decided by its other arguments and by what compiling its sub-pipelines gives there and then, later
calls on pipelines that are not needed any more can be any, and independent calls can be swapped. -/
theorem pipelines_independent {before : List Action} (hbefore : ∀ a ∈ before, a.IsIsolated) :
    let w := empty.run before
    (∀ p c, ∀ n ≠ p, (w.build p c).2.stagesOf n = w.stagesOf n)
    ∧ (∀ other : List Action, (∀ a ∈ other, a.IsIsolated) → ∀ c c' : Call, c.blank = c'.blank →
        c.captures w = c'.captures (empty.run other) → ∀ p p' : String,
          (w.build p c).1 = ((empty.run other).build p' c').1
            ∧ ∃ stages, (w.build p c).2.stagesOf p = w.stagesOf p ++ stages
              ∧ ((empty.run other).build p' c').2.stagesOf p'
                = (empty.run other).stagesOf p' ++ stages)
    ∧ (∀ later later' after : List Action, (∀ a ∈ later ++ later', a.IsIsolated) →
        (∀ a ∈ after, a.IsIsolated) → ∀ p, (∀ a ∈ later ++ later', a.pipeline ∉ needs [p] after) →
          (w.run (later ++ after)).stagesOf p = (w.run (later' ++ after)).stagesOf p
            ∧ ((w.run (later ++ after)).compile p).1 = ((w.run (later' ++ after)).compile p).1)
    ∧ (∀ a b : Action, ∀ after : List Action, a.IsIsolated → b.IsIsolated →
        (∀ x ∈ after, x.IsIsolated) → a.pipeline ≠ b.pipeline → a.pipeline ∉ b.call.passed →
          b.pipeline ∉ a.call.passed →
            ∀ n, (w.run (a :: b :: after)).stagesOf n = (w.run (b :: a :: after)).stagesOf n) := by
  intro w
  have hw : Snapshot.IsDetached w.stagesOf := isDetached_run hbefore
  refine ⟨fun p c n hn => ?_, fun other hother c c' hblank hcaptures p p' => ?_,
    fun later later' after hlater hafter p hneeds => ?_,
    fun a b after ha hb hafter hne hpassed hpassed' n => ?_⟩
  · rw [(build_eq hw.isSteady (hw.unreferred p) c).2, Snapshot.build_of_ne hn]
  · exact build_of_captures hw (isDetached_run hother) hblank hcaptures p p'
  · obtain ⟨hlater, hlater'⟩ := List.forall_mem_append.mp hlater
    obtain ⟨hneeds, hneeds'⟩ := List.forall_mem_append.mp hneeds
    have hstages := (stagesOf_run_of_not_needed hw hlater hafter hneeds).trans
      (stagesOf_run_of_not_needed hw hlater' hafter hneeds').symm
    exact ⟨hstages, by rw [compile_fst, compile_fst, hstages]⟩
  · exact congrFun (stagesOf_run_swap hw ha hb hafter hne hpassed hpassed') n

/-- A pipeline passed to another, and one passed to itself, which are then built further. -/
theorem pipelines_independent_facets :
    let page : Value := .pipeline (some "page") []
    let main : Value := .pipeline (some "main") []
    let limit : Call := .plain .limit (.int 5)
    let facet : Call := .facet (.doc [(.str "page", page), (.str "all", main)])
    let join : Call := .lookupWith (.str "orders") page (.str "found") .null
    let copy : Value := .pipeline (some "copy") []
    let join' : Call := .lookupWith (.str "orders") copy (.str "found") .null
    let skip : Action := ⟨"page", .plain .skip (.int 1)⟩
    let out : Action := ⟨"main", .plain .out (.str "done")⟩
    let before : List Action := [⟨"page", limit⟩, ⟨"main", limit⟩, ⟨"main", facet⟩]
    let w := empty.run before
    let w' := empty.run [⟨"copy", limit⟩]
    (w.build "main" skip.call).2.stagesOf "page" = w.stagesOf "page"
      ∧ (w.build "main" join).1 = (w'.build "main" join').1
      ∧ (w.run [skip, skip, out]).stagesOf "main" = (w.run [out]).stagesOf "main"
      ∧ (w.run [skip, out]).stagesOf "page" = (w.run [out, skip]).stagesOf "page" := by
  intro page main limit facet join copy join' skip out before w w'
  have hplain : ∀ name kind (s : Scalar), Action.IsIsolated ⟨name, .plain kind (.scalar s)⟩ :=
    fun _ _ _ => ⟨List.forall_mem_singleton.mpr rfl, trivial⟩
  have hlimit : ∀ name, Action.IsIsolated ⟨name, limit⟩ := fun name => hplain name .limit _
  have hskip : skip.IsIsolated := hplain ..
  have hout : out.IsIsolated := hplain ..
  have hfacet : Action.IsIsolated ⟨"main", facet⟩ :=
    ⟨by simp [facet, page, main, Call.arguments, Call.referenceName?, Value.detached,
      Value.mapPipelines], trivial⟩
  have hbefore : ∀ a ∈ before, a.IsIsolated := by
    simp [before, hlimit, hfacet]
  obtain ⟨hframe, hdetermined, hlater, hswap⟩ := pipelines_independent hbefore
  refine ⟨hframe "main" skip.call "page" (by decide), ?_, ?_, ?_⟩
  · have hpage : join.captures w = .ok [.ok (.list [.single "$limit" (.int 5)])] := rfl
    have hcopy : join'.captures w' = .ok [.ok (.list [.single "$limit" (.int 5)])] := rfl
    have hother : ∀ a ∈ [Action.mk "copy" limit], a.IsIsolated := by simp [hlimit]
    exact (hdetermined _ hother join join' rfl (hpage.trans hcopy.symm) "main" "main").1
  · exact (hlater [skip, skip] [] [out] (by simp [hskip]) (by simp [hout]) "main" (by decide)).1
  · exact hswap skip out [] hskip hout (by simp) (by decide) (by decide) (by decide) "page"

end Workspace

end DocQuery
