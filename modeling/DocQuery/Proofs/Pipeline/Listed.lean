import DocQuery.Fingerprint.Basic
import DocQuery.Proofs.Pipeline.Reachable

/-!
# DocQuery.Proofs.Pipeline.Listed — sub-pipelines given as lists of stage documents

A sub-pipeline can be given as a pipeline, which the call compiles, or as the list to which it
compiles, made just before the call (`Workspace.buildListed`).  Reading the documents of such a list
gives the list again (`Snapshot.captured_of_compiled`), so both calls add the same stage.  By
induction over a run, it does not matter for any call of it, at any depth, which of its
sub-pipelines were given as lists (`Workspace.stagesOf_runListed`).
-/

namespace DocQuery

open Pipeline (Call)

/-! ### Calls with other sub-pipelines -/

namespace Pipeline.Call

variable {c : Call} {vs xs : List Value}

/-- A call with other sub-pipelines. -/
def withSubPipelines : Call → List Value → Call
  | facet facets, vs => facet (facetSpec facets vs)
  | lookupWith source _ target bindings, vs => lookupWith source (vs.headD .null) target bindings
  | c, _ => c

theorem subPipelines_withSubPipelines (h : c.subPipelines = .ok vs)
    (hlength : xs.length = vs.length) : (c.withSubPipelines xs).subPipelines = .ok xs := by
  cases c with
  | facet facets =>
    cases facets with
    | doc es =>
      obtain rfl := Except.ok.inj h
      have hvalues : ((es.map (·.1)).zip xs).map (·.2) = xs := List.map_snd_zip (by simp [hlength])
      exact congrArg Except.ok hvalues
    | _ => cases h
  | lookupWith source pipeline target bindings =>
    obtain rfl := Except.ok.inj h
    obtain ⟨x, rfl⟩ := List.length_eq_one_iff.mp hlength
    rfl
  | _ =>
    obtain rfl := Except.ok.inj h
    obtain rfl := List.length_eq_zero_iff.mp hlength
    rfl

/-- Nothing else about the call changes. -/
theorem blank_withSubPipelines (h : c.subPipelines = .ok vs) (hlength : xs.length = vs.length) :
    (c.withSubPipelines xs).blank = c.blank := by
  cases c with
  | facet facets =>
    cases facets with
    | doc es =>
      obtain rfl := Except.ok.inj h
      have hkeys : ((es.map (·.1)).zip xs).map (·.1) = es.map (·.1) :=
        List.map_fst_zip (by simp [hlength])
      have hentries := congrArg (List.map fun k => (k, Value.null)) hkeys
      rw [List.map_map, List.map_map] at hentries
      exact congrArg (fun d => facet (.doc d)) hentries
    | _ => cases h
  | _ => rfl

end Pipeline.Call

/-! ### The list to which a sub-pipeline compiles -/

namespace Snapshot

variable {σ : Snapshot} {c : Call} {vs xs : List Value}

/-- Reading the documents of a list of documents gives them back. -/
theorem captured_documents (σ : Snapshot) (ds : List Document) :
    σ.captured (.list (ds.map .doc)) = .ok (.list (ds.map .doc)) := by
  have hread : (ds.map Value.doc).mapM Value.document? = .ok ds := by
    induction ds with
    | nil => rfl
    | cons d ds ih =>
      rw [List.map_cons, List.mapM_cons, ih]
      rfl
  change ((ds.map Value.doc).mapM Value.document? >>= fun ds => _) = _
  rw [hread]
  rfl

theorem captured_of_compiled {stages : List Stage} {out : Value} (h : compiled stages = .ok out) :
    σ.captured out = .ok out := by
  obtain ⟨ds, -, h⟩ := exists_of_bind_eq_ok h
  obtain rfl := Except.ok.inj h
  exact captured_documents σ ds

/-- What a call adds with sub-pipelines that have the same documents. -/
theorem addition_withSubPipelines (hvs : c.subPipelines = .ok vs)
    (h : xs.map σ.captured = vs.map σ.captured) :
    σ.addition (c.withSubPipelines xs) = σ.addition c := by
  have hlength : xs.length = vs.length := by simpa using congrArg List.length h
  refine addition_eq_of_captured (Call.blank_withSubPipelines hvs hlength) ?_
  rw [Call.subPipelines_withSubPipelines hvs hlength, hvs]
  exact congrArg Except.ok h

/-- A call for which a sub-pipeline does not compile adds nothing. -/
theorem addition_eq_error {v : Value} {e : Fault} (hvs : c.subPipelines = .ok vs) (hv : v ∈ vs)
    (h : σ.captured v = .error e) : ∃ e, σ.addition c = .error e := by
  obtain ⟨e, he⟩ := exists_mapM_eq_error_iff.mpr ⟨v, hv, e, h⟩
  refine ⟨e, ?_⟩
  unfold addition
  rw [hvs]
  change (vs.mapM σ.captured >>= fun subs => _) = _
  rw [he]
  rfl

end Snapshot

namespace Workspace

variable {w u : Workspace} {name : String} {c : Call}

/-- A sub-pipeline as it is given: a pipeline that is marked is given as the list to which it
compiles. -/
def listed (w : Workspace) : Bool → Value → Except Fault Value × Workspace
  | true, .pipeline name stages => w.capture (.pipeline name stages)
  | _, v => (.ok v, w)

/-- Sub-pipelines as they are given, those that are marked as lists. -/
def listAll (w : Workspace) : List Bool → List Value → Except Fault (List Value) × Workspace
  | mark :: marks, v :: vs =>
    match w.listed mark v with
    | (.error e, w') => (.error e, w')
    | (.ok x, w') =>
      match w'.listAll marks vs with
      | (.error e, w'') => (.error e, w'')
      | (.ok xs, w'') => (.ok (x :: xs), w'')
  | _, vs => (.ok vs, w)

/-- A call whose marked sub-pipelines are compiled first and given as lists. -/
def buildListed (w : Workspace) (name : String) (c : Call) (marks : List Bool) :
    Except Fault Unit × Workspace :=
  match c.subPipelines with
  | .error _ => w.build name c
  | .ok vs =>
    match w.listAll marks vs with
    | (.error e, w') => (.error e, w')
    | (.ok xs, w') => w'.build name (c.withSubPipelines xs)

/-- The workspace after calls whose marked sub-pipelines are given as lists. -/
def runListed (w : Workspace) : List (Action × List Bool) → Workspace
  | [] => w
  | (a, marks) :: as => (w.buildListed a.pipeline a.call marks).2.runListed as

/-- What stands for a sub-pipeline has its documents. -/
theorem listed_eq (hw : Snapshot.IsSteady w.stagesOf) (mark : Bool) (v : Value) :
    (w.listed mark v).2.stagesOf = w.stagesOf
      ∧ (∀ x, (w.listed mark v).1 = .ok x →
          Snapshot.captured w.stagesOf x = Snapshot.captured w.stagesOf v)
      ∧ ∀ e, (w.listed mark v).1 = .error e → Snapshot.captured w.stagesOf v = .error e := by
  unfold listed
  split
  · rename_i n stages
    refine ⟨stagesOf_capture hw _, fun x hx => ?_, fun e he => by rw [← he, capture_fst]⟩
    rw [capture_fst] at hx
    rw [hx]
    cases n <;> exact Snapshot.captured_of_compiled hx
  · refine ⟨rfl, fun x hx => ?_, fun e he => ?_⟩
    · rw [Except.ok.inj hx]
    · cases he

/-- What stands for sub-pipelines: values with the same documents, or the fault of one of them. -/
inductive StandsFor (w : Workspace) (vs : List Value) : Except Fault (List Value) → Prop
  | documents {xs : List Value}
    (h : xs.map (Snapshot.captured w.stagesOf) = vs.map (Snapshot.captured w.stagesOf)) :
    StandsFor w vs (.ok xs)
  | fault {v : Value} {e : Fault} (hv : v ∈ vs) (h : Snapshot.captured w.stagesOf v = .error e) :
    StandsFor w vs (.error e)

theorem StandsFor.of_stagesOf {vs : List Value} {r : Except Fault (List Value)}
    (h : u.StandsFor vs r) (hu : u.stagesOf = w.stagesOf) : w.StandsFor vs r := by
  cases h with
  | documents h => exact .documents (by rw [← hu, h])
  | fault hv h => exact .fault hv (by rw [← hu, h])

theorem listAll_eq (hw : Snapshot.IsSteady w.stagesOf) (marks : List Bool) (vs : List Value) :
    (w.listAll marks vs).2.stagesOf = w.stagesOf ∧ w.StandsFor vs (w.listAll marks vs).1 := by
  induction vs generalizing w marks with
  | nil => cases marks <;> exact ⟨rfl, .documents rfl⟩
  | cons v vs ih =>
    cases marks with
    | nil => exact ⟨rfl, .documents rfl⟩
    | cons mark marks =>
      obtain ⟨hstages, hok, herror⟩ := listed_eq hw mark v
      unfold listAll
      rcases hv : w.listed mark v with ⟨e | x, w'⟩
      all_goals rw [hv] at hstages hok herror
      -- making a list logs, and leaves the stages for the sub-pipelines that follow
      · exact ⟨hstages, .fault List.mem_cons_self (herror e rfl)⟩
      · obtain ⟨hrest, hstands⟩ := ih (w := w') (hstages ▸ hw) marks
        have hlater := hstands.of_stagesOf hstages
        dsimp only
        rcases hvs : w'.listAll marks vs with ⟨r, w''⟩
        rw [hvs] at hrest hlater
        cases hlater with
        | documents h =>
          exact ⟨hrest.trans hstages,
            .documents (by rw [List.map_cons, List.map_cons, hok x rfl, h])⟩
        | fault hmem h => exact ⟨hrest.trans hstages, .fault (List.mem_cons_of_mem _ hmem) h⟩

/-! ### Calls and runs -/

/-- What a call does to the stages is decided by what it adds. -/
theorem build_congr (hw : Snapshot.IsSteady w.stagesOf) (hu : u.stagesOf = w.stagesOf) {c' : Call}
    (h : Snapshot.addition w.stagesOf c' = Snapshot.addition w.stagesOf c) (name : String) :
    (u.build name c').1 = (w.build name c).1
      ∧ (u.build name c').2.stagesOf = (w.build name c).2.stagesOf := by
  obtain ⟨hfst, hsnd⟩ := stage_eq hw c
  obtain ⟨hfst', hsnd'⟩ := stage_eq (hu ▸ hw : Snapshot.IsSteady u.stagesOf) c'
  rw [hu, h, ← hfst] at hfst'
  rw [hu, ← hsnd] at hsnd'
  unfold build
  rcases hstage : w.stage c with ⟨r, w₁⟩
  rcases hstage' : u.stage c' with ⟨r', u₁⟩
  rw [hstage, hstage'] at hfst' hsnd'
  obtain rfl : r' = r := hfst'
  have hstages : u₁.stagesOf = w₁.stagesOf := hsnd'
  cases r' with
  | error e => exact ⟨rfl, hstages⟩
  | ok s => exact ⟨rfl, by rw [stagesOf_set, stagesOf_set, hstages]⟩

theorem build_of_addition_eq_error (hw : Snapshot.IsSteady w.stagesOf) {e : Fault}
    (h : Snapshot.addition w.stagesOf c = .error e) (name : String) :
    (w.build name c).1 = .error e ∧ (w.build name c).2.stagesOf = w.stagesOf := by
  obtain ⟨hfst, hsnd⟩ := stage_eq hw c
  rw [h] at hfst
  unfold build
  rcases hstage : w.stage c with ⟨r, w'⟩
  rw [hstage] at hfst hsnd
  obtain rfl : r = .error e := hfst
  exact ⟨rfl, hsnd⟩

/-- A call does the same to the same stages, whichever of its sub-pipelines are given as lists. -/
theorem buildListed_eq (hw : Snapshot.IsSteady w.stagesOf) (hu : u.stagesOf = w.stagesOf)
    (name : String) (c : Call) (marks : List Bool) :
    (u.buildListed name c marks).1.isOk = (w.build name c).1.isOk
      ∧ (u.buildListed name c marks).2.stagesOf = (w.build name c).2.stagesOf := by
  unfold buildListed
  cases hvs : c.subPipelines with
  | error e =>
    have hadd : Snapshot.addition w.stagesOf c = Snapshot.addition w.stagesOf c := rfl
    obtain ⟨hresult, hafter⟩ := build_congr hw hu hadd name
    exact ⟨congrArg Except.isOk hresult, hafter⟩
  | ok vs =>
    obtain ⟨hstages, hstands⟩ := listAll_eq (hu ▸ hw : Snapshot.IsSteady u.stagesOf) marks vs
    have hgiven := hstands.of_stagesOf hu
    dsimp only
    rcases hlist : u.listAll marks vs with ⟨r, u'⟩
    rw [hlist] at hstages hgiven
    cases hgiven with
    | documents h =>
      have hadd := Snapshot.addition_withSubPipelines hvs h
      obtain ⟨hresult, hafter⟩ := build_congr hw (hstages.trans hu) hadd name
      exact ⟨congrArg Except.isOk hresult, hafter⟩
    | fault hv h =>
      obtain ⟨e, he⟩ := Snapshot.addition_eq_error hvs hv h
      obtain ⟨hresult, hafter⟩ := build_of_addition_eq_error hw he name
      exact ⟨by rw [hresult]; rfl, (hstages.trans hu).trans hafter.symm⟩

theorem stagesOf_runListed {as : List (Action × List Bool)} (hw : Snapshot.IsLinked w.stagesOf)
    (hu : u.stagesOf = w.stagesOf) (has : w.Admits (as.map (·.1))) :
    (u.runListed as).stagesOf = (w.run (as.map (·.1))).stagesOf := by
  induction as generalizing w u with
  | nil => exact hu
  | cons x as ih =>
    obtain ⟨a, marks⟩ := x
    exact ih (isLinked_build hw has.1) (buildListed_eq hw.toIsSteady hu ..).2 has.2

/-- Sub-pipelines can be given as the lists to which they compile.  After a run in which any of them
were, pipelines have the same stages, documents and fingerprints as if none was, and the next call
fails or succeeds in the same way and leaves the same. -/
theorem lists_stand_for_pipelines {as : List (Action × List Bool)}
    (has : empty.Admits (as.map (·.1))) :
    let w := empty.run (as.map (·.1))
    let u := empty.runListed as
    (∀ p, u.stagesOf p = w.stagesOf p ∧ (u.compile p).1 = (w.compile p).1)
    ∧ (∀ p filter update, (u.compile p).1.map (Fingerprint.digest filter update)
        = (w.compile p).1.map (Fingerprint.digest filter update))
    ∧ ∀ p c marks,
        let w' := (w.build p c).2
        let u' := (u.buildListed p c marks).2
        (u.buildListed p c marks).1.isOk = (w.build p c).1.isOk
          ∧ (∀ q, u'.stagesOf q = w'.stagesOf q ∧ (u'.compile q).1 = (w'.compile q).1)
          ∧ ∀ q filter update, (u'.compile q).1.map (Fingerprint.digest filter update)
              = (w'.compile q).1.map (Fingerprint.digest filter update) := by
  intro w u
  have hw : Snapshot.IsLinked w.stagesOf := isLinked_run isLinked_empty has
  have hu : u.stagesOf = w.stagesOf := stagesOf_runListed isLinked_empty rfl has
  have hcompile : ∀ {x y : Workspace}, x.stagesOf = y.stagesOf → ∀ p,
      x.stagesOf p = y.stagesOf p ∧ (x.compile p).1 = (y.compile p).1 := by
    intro x y hxy p
    exact ⟨congrFun hxy p, by rw [compile_fst, compile_fst, hxy]⟩
  refine ⟨hcompile hu, fun p filter update => by rw [(hcompile hu p).2], fun p c marks => ?_⟩
  obtain ⟨hresult, hafter⟩ := buildListed_eq hw.toIsSteady hu p c marks
  exact ⟨hresult, hcompile hafter, fun q filter update => by rw [(hcompile hafter q).2]⟩

/-- A raw stage given as pairs, an empty pipeline and a pipeline passed to itself, partly as lists
at three levels; then a sub-pipeline that does not compile. -/
theorem lists_stand_for_pipelines_nested :
    let page : Value := .pipeline (some "page") []
    let main : Value := .pipeline (some "main") []
    let both : Call := .facet (.doc [(.str "p", page), (.str "none", .pipeline (some "none") [])])
    let all : Call := .facet (.doc [(.str "p", page), (.str "all", main)])
    let join : Call := .lookupWith (.str "orders") main (.str "found") .null
    let broken : Call := .facet (.doc [(.str "b", .pipeline (some "broken") [])])
    let as : List (Action × List Bool) :=
      [(⟨"page", .raw (.list [.tuple [.str "$limit", .int 5]])⟩, []),
        (⟨"main", both⟩, [true, true]), (⟨"main", all⟩, [false, true]), (⟨"main", join⟩, [true]),
        (⟨"broken", .raw (.int 3)⟩, [])]
    let w := empty.run (as.map (·.1))
    let u := empty.runListed as
    empty.Admits (as.map (·.1)) ∧ (w.stagesOf "main").length = 3
      ∧ (w.compile "main").1.isOk = true ∧ (u.compile "main").1 = (w.compile "main").1
      ∧ (w.build "main" broken).1.isOk = false
      ∧ (u.buildListed "main" broken [true]).1.isOk = false := by
  intro page main both all join broken as w u
  have has : empty.Admits (as.map (·.1)) := by
    refine admits_of_isIsolated ?_
    have hraw : ∀ name document, document.detached = document →
        document.afterDocument = document → Action.IsIsolated ⟨name, .raw document⟩ :=
      fun _ _ hdetached hread => ⟨List.forall_mem_singleton.mpr hdetached, hread⟩
    have hboth : Action.IsIsolated ⟨"main", both⟩ := ⟨by simp [both, page, Call.arguments,
      Call.referenceName?, Value.detached, Value.mapPipelines], trivial⟩
    have hall : Action.IsIsolated ⟨"main", all⟩ := ⟨by simp [all, page, main, Call.arguments,
      Call.referenceName?, Value.detached, Value.mapPipelines], trivial⟩
    have hjoin : Action.IsIsolated ⟨"main", join⟩ := ⟨by simp [join, main, Call.arguments,
      Call.referenceName?, Value.detached, Value.mapPipelines], trivial⟩
    simp only [as, List.map_cons, List.map_nil, List.forall_mem_cons]
    exact ⟨hraw _ _ rfl rfl, hboth, hall, hjoin, hraw _ _ rfl rfl, by simp⟩
  have hfails : (w.build "main" broken).1.isOk = false := by decide
  obtain ⟨hcompile, -, hnext⟩ := lists_stand_for_pipelines has
  refine ⟨has, by decide, by decide, (hcompile "main").2, hfails, ?_⟩
  rw [(hnext "main" broken [true]).1, hfails]

end Workspace

end DocQuery
