import DocQuery.Proofs.Pipeline.Reachable
import Mathlib.Data.List.TakeWhile

/-!
# DocQuery.Proofs.Pipeline.Messages — where compiling fails, and what it logs

A pipeline is compiled stage by stage up to the first stage that cannot be converted, and a call
compiles its sub-pipelines one by one up to the first of them that fails (`StopsAfter`).  A message
is logged for every pipeline that was compiled to its end (`Snapshot.messages`); what the stages of
that pipeline are made of plays no part in it, since the pipelines inside were compiled when they
were passed.
-/

namespace DocQuery

open Pipeline (Call)

/-- A call that passes sub-pipelines, in the order in which it compiles them. -/
inductive Pipeline.Call.Passes : Call → List Value → Prop
  | facet (es : Document) : Passes (.facet (.doc es)) (es.map (·.2))
  | lookup (source pipeline target bindings : Value) :
    Passes (.lookupWith source pipeline target bindings) [pipeline]

theorem Pipeline.Call.Passes.subPipelines {c : Call} {vs : List Value} (h : c.Passes vs) :
    c.subPipelines = .ok vs := by
  cases h <;> rfl

/-- Once its sub-pipelines are compiled, the call succeeds. -/
theorem Pipeline.Call.Passes.exists_stage {c : Call} {vs : List Value} (h : c.Passes vs)
    (subs : List Value) : ∃ s, c.stage subs = .ok (some s) := by
  cases h <;> exact ⟨_, rfl⟩

theorem Pipeline.Call.Passes.events {c : Call} {vs : List Value} (h : c.Passes vs) :
    c.events = [] := by
  cases h <;> rfl

/-- What is logged when a sub-pipeline was compiled: the number of stages of a pipeline, and nothing
for documents that were passed as they are. -/
def Snapshot.messages (σ : Snapshot) : Value → List Event
  | .pipeline (some name) _ => [.compiled (σ name).length]
  | .pipeline none stages => [.compiled stages.length]
  | _ => []

namespace Workspace

variable {w : Workspace} {name : String} {c : Call} {v : Value} {vs : List Value}

/-! ### One pipeline -/

/-- What compiling stages can do. -/
inductive CompileOutcome (w : Workspace) (stages : List Stage) :
    Except Fault Value × Workspace → Prop
  | failed (before : List Stage) (e : Fault) (h : StopsAfter Stage.document stages before e) :
    CompileOutcome w stages (.error e, w)
  | finished (ds : List Document) (h : Pipeline.documents stages = .ok ds)
    (hlength : ds.length = stages.length) :
    CompileOutcome w stages (.ok (.list (ds.map .doc)), w.note [.compiled stages.length])

theorem compileOutcome (w : Workspace) (stages : List Stage) :
    CompileOutcome w stages (w.compileStages stages) := by
  unfold compileStages
  cases h : Pipeline.documents stages with
  | error e =>
    obtain ⟨before, hbefore⟩ := mapM_eq_error_iff.mp h
    exact .failed before e hbefore
  | ok ds =>
    have hlength : ds.length = stages.length := (forall₂_of_mapM_eq_ok h).length_eq.symm
    dsimp only
    rw [hlength]
    exact .finished ds h hlength

theorem log_compileStages (stages : List Stage) :
    (w.compileStages stages).2.log
      = w.log ++ if (Snapshot.compiled stages).isOk then [.compiled stages.length] else [] := by
  rw [← compileStages_fst (w := w)]
  generalize hr : w.compileStages stages = r
  have h := compileOutcome w stages
  rw [hr] at h
  cases h with
  | failed before e h => exact (List.append_nil _).symm
  | finished ds h hlength => rfl

/-- Compiling a pipeline fails exactly where a stage cannot be converted, as the first such stage,
and without a message; otherwise there is a document for every stage and one message. -/
theorem compile_reports (hread : ∀ s ∈ w.stagesOf name, s.afterReading = s) :
    let stages := w.stagesOf name
    ((∃ e, (w.compile name).1 = .error e) ↔ ∃ s ∈ stages, ∃ e, s.document = .error e)
    ∧ (∀ e, (w.compile name).1 = .error e →
        (∃ before, StopsAfter Stage.document stages before e) ∧ (w.compile name).2.log = w.log)
    ∧ (∀ v, (w.compile name).1 = .ok v →
        (∃ ds : List Document, v = .list (ds.map .doc) ∧ ds.length = stages.length)
          ∧ (w.compile name).2.log = w.log ++ [.compiled stages.length])
    ∧ (w.compile name).2.stagesOf name = stages := by
  intro stages
  have hstages : (w.compile name).2.stagesOf name = stages := by
    change ((w.set name (Pipeline.afterReading stages)).compileStages stages).2.stagesOf name = _
    rw [stagesOf_compileStages, stagesOf_set_self, afterReading_eq_self hread]
  have h := compileOutcome (w.set name (Pipeline.afterReading stages)) stages
  change CompileOutcome _ stages (w.compile name) at h
  generalize w.compile name = r at h hstages
  refine ⟨?_, ?_, ?_, hstages⟩
  · rw [← exists_mapM_eq_error_iff]
    cases h with
    | failed before e h =>
      exact ⟨fun _ => ⟨e, mapM_eq_error_iff.mpr ⟨before, h⟩⟩, fun _ => ⟨e, rfl⟩⟩
    | finished ds h =>
      constructor
      · rintro ⟨e, he⟩
        cases he
      · rintro ⟨e, he⟩
        rw [show stages.mapM Stage.document = .ok ds from h] at he
        cases he
  · intro e he
    cases h with
    | failed before e' h =>
      obtain rfl := Except.error.inj he
      exact ⟨⟨before, h⟩, rfl⟩
    | finished ds h => cases he
  · intro v hv
    cases h with
    | failed before e h => cases hv
    | finished ds h hlength =>
      obtain rfl := Except.ok.inj hv
      exact ⟨⟨ds, rfl, hlength⟩, rfl⟩

/-! ### Sub-pipelines -/

theorem log_capture (v : Value) :
    (w.capture v).2.log
      = w.log ++ if (Snapshot.captured w.stagesOf v).isOk then Snapshot.messages w.stagesOf v
        else [] := by
  cases v with
  | pipeline n stages =>
    cases n with
    | some n =>
      exact log_compileStages (w := w.set n (Pipeline.afterReading (w.stagesOf n))) (w.stagesOf n)
    | none => exact log_compileStages stages
  | _ =>
    change w.log = w.log ++ if _ then [] else []
    rw [ite_self, List.append_nil]

/-- Every sub-pipeline up to the first failure leaves its message. -/
theorem log_captureAll (hw : Snapshot.IsSteady w.stagesOf) (vs : List Value) :
    (w.captureAll vs).2.log
      = w.log ++ (vs.takeWhile fun v => (Snapshot.captured w.stagesOf v).isOk).flatMap
          (Snapshot.messages w.stagesOf) := by
  induction vs generalizing w with
  | nil => exact (List.append_nil _).symm
  | cons v vs ih =>
    have hfst := capture_fst (w := w) v
    have hlog := log_capture (w := w) v
    have hstages := stagesOf_capture hw v
    rw [captureAll, List.takeWhile_cons]
    rcases hcap : w.capture v with ⟨e | d, w'⟩
    · rw [hcap] at hfst hlog
      rw [← hfst] at hlog ⊢
      exact hlog
    · rw [hcap] at hfst hlog hstages
      rw [← hfst] at hlog ⊢
      have hrest := ih (w := w') (hstages ▸ hw)
      rw [hstages, show w'.log = _ from hlog, List.append_assoc] at hrest
      dsimp only
      rcases hvs : w'.captureAll vs with ⟨e | ds, w''⟩
      all_goals
        rw [hvs] at hrest
        exact hrest

/-- A call that passes sub-pipelines fails as the first that does, and logs what the sub-pipelines
before it log; it succeeds if none does. -/
theorem build_reports (hw : Snapshot.IsSteady w.stagesOf) (h : c.Passes vs) (name : String) :
    (∀ before e, StopsAfter (fun v => (w.capture v).1) vs before e →
        (w.build name c).1 = .error e
          ∧ (w.build name c).2.log = w.log ++ before.flatMap (Snapshot.messages w.stagesOf)
          ∧ ∀ n, (w.build name c).2.stagesOf n = w.stagesOf n)
    ∧ ((∀ v ∈ vs, ∃ ds, (w.capture v).1 = .ok ds) →
        (w.build name c).1 = .ok ()
          ∧ (w.build name c).2.log = w.log ++ vs.flatMap (Snapshot.messages w.stagesOf)) := by
  have hlog := log_captureAll hw vs
  obtain ⟨hfst, hsnd⟩ := captureAll_eq hw vs
  simp only [show ∀ v, (w.capture v).1 = _ from capture_fst]
  unfold build stage
  rw [h.subPipelines]
  dsimp only
  constructor
  · intro before e hstops
    rw [hstops.takeWhile] at hlog
    rw [mapM_eq_error_iff.mpr ⟨before, hstops⟩] at hfst
    rcases hcap : w.captureAll vs with ⟨e' | subs, w'⟩
    · rw [hcap] at hfst hlog hsnd
      obtain rfl := Except.error.inj hfst
      exact ⟨rfl, hlog, fun n => congrFun hsnd n⟩
    · rw [hcap] at hfst
      cases hfst
  · intro hok
    have hall : (vs.takeWhile fun v => (Snapshot.captured w.stagesOf v).isOk) = vs := by
      refine List.takeWhile_eq_self_iff.mpr fun v hv => ?_
      obtain ⟨ds, hds⟩ := hok v hv
      rw [hds]
      rfl
    obtain ⟨ds, hds⟩ := exists_mapM_eq_ok hok
    rw [hall] at hlog
    rw [hds] at hfst
    rcases hcap : w.captureAll vs with ⟨e' | subs, w'⟩
    · rw [hcap] at hfst
      cases hfst
    · rw [hcap] at hlog
      obtain ⟨s, hs⟩ := h.exists_stage subs
      dsimp only
      rw [hs]
      refine ⟨rfl, ?_⟩
      change w'.log ++ c.events = _
      rw [h.events, List.append_nil]
      exact hlog

/-- After any calls, as long as no raw stage holds a stream that reading it uses up, compiling a
pipeline fails exactly where one of its stages cannot be converted: as the first such stage, and
without a message.  Otherwise it gives a document for every stage and logs their number.  The stages
stay as they are.

A call that passes sub-pipelines, a facet or a lookup, fails as the first of them that does, and the
log then has the messages of those before it; if none fails, it has the messages of all.  Neither a
compilation nor a failed call changes any pipeline, whatever pipelines hold references to others. -/
theorem failures_and_messages {as : List Action} (hread : ∀ a ∈ as, a.call.IsRereadable) :
    let w := empty.run as
    (∀ p, let stages := w.stagesOf p
      ((∃ e, (w.compile p).1 = .error e) ↔ ∃ s ∈ stages, ∃ e, s.document = .error e)
      ∧ (∀ e, (w.compile p).1 = .error e →
          (∃ before, StopsAfter Stage.document stages before e) ∧ (w.compile p).2.log = w.log)
      ∧ (∀ v, (w.compile p).1 = .ok v →
          (∃ ds : List Document, v = .list (ds.map .doc) ∧ ds.length = stages.length)
            ∧ (w.compile p).2.log = w.log ++ [.compiled stages.length])
      ∧ (w.compile p).2.stagesOf p = stages)
    ∧ (empty.Admits as →
      (∀ p n, (w.compile p).2.stagesOf n = w.stagesOf n)
      ∧ ∀ p c vs, Call.Passes c vs →
        (∀ before e, StopsAfter (fun v => (w.capture v).1) vs before e →
            (w.build p c).1 = .error e
              ∧ (w.build p c).2.log = w.log ++ before.flatMap (Snapshot.messages w.stagesOf)
              ∧ ∀ n, (w.build p c).2.stagesOf n = w.stagesOf n)
        ∧ ((∀ v ∈ vs, ∃ ds, (w.capture v).1 = .ok ds) →
            (w.build p c).1 = .ok ()
              ∧ (w.build p c).2.log = w.log ++ vs.flatMap (Snapshot.messages w.stagesOf))) := by
  intro w
  have hreread : Snapshot.Every (fun s => s.afterReading = s) w.stagesOf :=
    every_run Stage.lasting_reread (fun a ha _ _ h => Call.afterReading_of_stage (hread a ha) h)
      fun _ _ hs => nomatch hs
  refine ⟨fun p => compile_reports (hreread p), fun has => ?_⟩
  have hw : Snapshot.IsSteady w.stagesOf := (isLinked_run isLinked_empty has).toIsSteady
  exact ⟨fun p => congrFun (stagesOf_compile hw p), fun p c vs h => build_reports hw h p⟩

/-- A facet whose second sub-pipeline cannot be compiled, on a pipeline that holds a reference. -/
theorem failures_and_messages_partial :
    let page : Value := .pipeline (some "page") [⟨.str "$limit", .int 5⟩]
    let bad : Value := .pipeline (some "bad") []
    let inner : Value := .pipeline none [⟨.str "$skip", .int 1⟩, ⟨.str "$limit", .int 2⟩]
    let hold : Call := .plain .project (.single "p" page)
    let as : List Action :=
      [⟨"page", .plain .limit (.int 5)⟩, ⟨"main", hold⟩, ⟨"bad", .raw (.int 3)⟩]
    let w := empty.run as
    let broken : Call := .facet (.doc [(.str "a", inner), (.str "b", bad), (.str "c", page)])
    let whole : Call := .facet (.doc [(.str "a", inner), (.str "c", page)])
    (∀ a ∈ as, a.call.IsRereadable) ∧ empty.Admits as
      ∧ (w.compile "bad").2.log = w.log
      ∧ (w.build "main" broken).1 = .error .notIterable
      ∧ (w.build "main" broken).2.log = w.log ++ [.compiled 2]
      ∧ (w.build "main" broken).2.stagesOf "main" = w.stagesOf "main"
      ∧ (w.build "main" whole).2.log = w.log ++ [.compiled 2, .compiled 1] := by
  intro page bad inner hold as w broken whole
  have hlimit : Call.Suits empty "page" (.plain .limit (.int 5)) :=
    Call.suits_of_detached (List.forall_mem_singleton.mpr rfl) trivial
  have hhold : hold.Suits (empty.run [⟨"page", .plain .limit (.int 5)⟩]) "main" := by
    refine ⟨⟨List.forall_mem_singleton.mpr fun n hn => ?_, trivial⟩,
      List.forall_mem_singleton.mpr fun stages => rfl⟩
    by_cases hpage : n = "page"
    · subst hpage
      rfl
    · have hother : some "page" ≠ some n := fun h => hpage (Option.some.inj h).symm
      refine Value.fixedBy_doc.mpr (Document.fixedBy_cons.mpr ⟨⟨rfl, ?_⟩, Document.fixedBy_nil⟩)
      exact congrArg (Value.pipeline _) (if_neg hother)
  have hbad : ∀ a ∈ [Action.mk "bad" (.raw (.int 3))], a.IsIsolated :=
    List.forall_mem_singleton.mpr ⟨List.forall_mem_singleton.mpr rfl, rfl⟩
  have has : empty.Admits as := ⟨hlimit, hhold, admits_of_isIsolated hbad⟩
  have hread : ∀ a ∈ as, a.call.IsRereadable :=
    List.forall_mem_cons.mpr ⟨trivial, List.forall_mem_cons.mpr
      ⟨trivial, List.forall_mem_singleton.mpr (hbad _ List.mem_cons_self).rereadable⟩⟩
  obtain ⟨hcompile, hpassed⟩ := failures_and_messages hread
  obtain ⟨-, hbuild⟩ := hpassed has
  have hfault : (w.compile "bad").1 = .error .notIterable := rfl
  have hinner : ∃ ds, (w.capture inner).1 = .ok ds := ⟨_, rfl⟩
  have hpage : ∃ ds, (w.capture page).1 = .ok ds := ⟨_, rfl⟩
  have hstops : StopsAfter (fun v => (w.capture v).1) [inner, bad, page] [inner] .notIterable :=
    ⟨bad, [page], rfl, List.forall_mem_singleton.mpr hinner, hfault⟩
  obtain ⟨hresult, hlog, hstages⟩ := (hbuild "main" broken _ (.facet _)).1 _ _ hstops
  obtain ⟨-, hwhole⟩ := (hbuild "main" whole _ (.facet _)).2
    (List.forall_mem_cons.mpr ⟨hinner, List.forall_mem_singleton.mpr hpage⟩)
  exact ⟨hread, has, ((hcompile "bad").2.1 _ hfault).2, hresult, hlog, hstages "main", hwhole⟩

end Workspace

end DocQuery
