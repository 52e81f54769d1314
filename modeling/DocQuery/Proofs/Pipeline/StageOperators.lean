import DocQuery.Proofs.Pipeline.Reimport
import DocQuery.Proofs.Value.OperatorKeys

/-!
# DocQuery.Proofs.Pipeline.StageOperators — the operators of compiled pipelines

A facet keeps the documents of its sub-pipelines under their names, a lookup under `pipeline`; the
rest of a specification is the stage's own (`ownPart`).  `IsStageOf` finds the stage documents of
compiled output at every level.  What a call adds has the key of a stage and captures the documents
of its sub-pipelines (`Call.Makes`), so after any run each stage document is one key of a stage with
such documents captured in it (`StageDocument`), and a walk meets the keys of the stages and what
their own parts hold.
-/

namespace DocQuery

open Pipeline (Call)

/-! ### Sub-pipelines in specifications -/

namespace Value

/-- The items of a list. -/
def listItems : Value → List Value
  | .list xs => xs
  | _ => []

/-- A list without its items. -/
def emptied : Value → Value
  | .list _ => .list []
  | v => v

variable {v : Value} {k : String}

theorem reaches_iff_listItems :
    v.Reaches k ↔ v.emptied.Reaches k ∨ ∃ x ∈ v.listItems, x.Reaches k := by
  cases v with
  | list xs => simp [emptied, listItems, reaches_list]
  | _ => simp [emptied, listItems]

end Value

namespace Stage

/-- Whether the specification of an operator keeps a sub-pipeline under the key. -/
def keepsPipeline (operator : String) : Value → Bool
  | .str k => operator == Key.facet || operator == Key.lookup && k == "pipeline"
  | _ => operator == Key.facet

/-- The stage documents that an entry captures. -/
def capturedAt (operator : String) (e : Value × Value) : List Value :=
  if keepsPipeline operator e.1 then e.2.listItems else []

/-- An entry without the stage documents that it captures. -/
def ownEntry (operator : String) (e : Value × Value) : Value × Value :=
  if keepsPipeline operator e.1 then (e.1, e.2.emptied) else e

/-- The stage documents that are captured in the specification of an operator. -/
def capturedIn (operator : String) : Value → List Value
  | .doc d => d.flatMap (capturedAt operator)
  | _ => []

/-- The specification of an operator apart from the sub-pipelines captured in it. -/
def ownPart (operator : String) : Value → Value
  | .doc d => .doc (d.map (ownEntry operator))
  | v => v

variable {operator k : String} {spec : Value}

theorem reaches_iff_ownEntry (operator : String) (e : Value × Value) :
    (e.1 = .str k ∨ e.2.Reaches k)
      ↔ ((ownEntry operator e).1 = .str k ∨ (ownEntry operator e).2.Reaches k)
        ∨ ∃ x ∈ capturedAt operator e, x.Reaches k := by
  unfold ownEntry capturedAt
  split
  · rw [Value.reaches_iff_listItems, or_assoc]
  · simp

/-- A key within reach of a specification is within reach of its own part or of a captured
document. -/
theorem reaches_iff_ownPart (operator : String) (spec : Value) :
    spec.Reaches k ↔ (ownPart operator spec).Reaches k
      ∨ ∃ x ∈ capturedIn operator spec, x.Reaches k := by
  cases spec with
  | doc d =>
    simp only [ownPart, capturedIn, Value.reaches_doc, List.mem_map, List.mem_flatMap,
      exists_exists_and_eq_and]
    constructor
    · rintro ⟨e, he, h⟩
      obtain hown | ⟨x, hx, hreach⟩ := (reaches_iff_ownEntry operator e).mp h
      · exact .inl ⟨e, he, hown⟩
      · exact .inr ⟨x, ⟨e, he, hx⟩, hreach⟩
    · rintro (⟨e, he, hown⟩ | ⟨x, ⟨e, he, hx⟩, hreach⟩)
      · exact ⟨e, he, (reaches_iff_ownEntry operator e).mpr (.inl hown)⟩
      · exact ⟨e, he, (reaches_iff_ownEntry operator e).mpr (.inr ⟨x, hx, hreach⟩)⟩
  | _ => simp [ownPart, capturedIn]

theorem capturedIn_of_plain (hfacet : operator ≠ Key.facet) (hlookup : operator ≠ Key.lookup)
    (spec : Value) : capturedIn operator spec = [] := by
  have hkeeps : ∀ v, keepsPipeline operator v = false := by
    intro v
    unfold keepsPipeline
    split <;> simp [hfacet, hlookup]
  unfold capturedIn
  split
  · simp [capturedAt, hkeeps]
  · rfl

end Stage

/-! ### Stage documents -/

/-- One key of a stage, with a specification in which nothing but stage documents are captured. -/
inductive StageDocument : Value → Prop
  | mk {key : String} {spec : Value} (hkey : OperatorClass.stage.contains key = true)
    (hcaptured : ∀ x ∈ Stage.capturedIn key spec, StageDocument x) :
    StageDocument (.doc [(.str key, spec)])

/-- A stage document of compiled output, or one captured in another, at any level. -/
inductive IsStageOf (out : Value) : Value → Prop
  | top {x : Value} (h : x ∈ out.listItems) : IsStageOf out x
  | captured {d : Document} {key : String} {spec x : Value} (hd : IsStageOf out (.doc d))
    (he : (.str key, spec) ∈ d) (hx : x ∈ Stage.capturedIn key spec) : IsStageOf out x

/-- The change of pipelines makes nothing else of a pipeline. -/
def GivesPipelines (f : Option String → List Stage → Value) : Prop :=
  ∀ n ss, ∃ m ts, f n ss = .pipeline m ts

section GivesPipelines

variable {f : Option String → List Stage → Value} (hf : GivesPipelines f)
include hf

theorem GivesPipelines.listItems (v : Value) :
    (v.mapPipelines f).listItems = v.listItems.map (Value.mapPipelines f) := by
  cases v with
  | list xs => exact mapPipelinesItems_eq_map f xs
  | pipeline n ss =>
    obtain ⟨m, ts, h⟩ := hf n (mapPipelinesStages f ss)
    rw [Value.mapPipelines, h]
    rfl
  | _ => rfl

theorem GivesPipelines.keepsPipeline (operator : String) (k : Value) :
    Stage.keepsPipeline operator (k.mapPipelines f) = Stage.keepsPipeline operator k := by
  cases k with
  | pipeline n ss =>
    obtain ⟨m, ts, h⟩ := hf n (mapPipelinesStages f ss)
    rw [Value.mapPipelines, h]
    rfl
  | _ => rfl

theorem GivesPipelines.capturedIn (operator : String) (spec : Value) :
    Stage.capturedIn operator (spec.mapPipelines f)
      = (Stage.capturedIn operator spec).map (Value.mapPipelines f) := by
  cases spec with
  | doc d =>
    change Stage.capturedIn operator (.doc (mapPipelinesEntries f d)) = _
    unfold Stage.capturedIn
    dsimp only
    induction d with
    | nil => rfl
    | cons e d ih =>
      obtain ⟨k, v⟩ := e
      rw [mapPipelinesEntries, List.flatMap_cons, List.flatMap_cons, List.map_append, ih]
      unfold Stage.capturedAt
      dsimp only
      rw [hf.keepsPipeline, hf.listItems]
      split <;> rfl
  | pipeline n ss =>
    obtain ⟨m, ts, h⟩ := hf n (mapPipelinesStages f ss)
    rw [Value.mapPipelines, h]
    rfl
  | _ => rfl

/-- A change of pipelines leaves stage documents stage documents. -/
theorem StageDocument.mapPipelines {x : Value} (h : StageDocument x) :
    StageDocument (x.mapPipelines f) := by
  induction h with
  | @mk key spec hkey _ ih =>
    refine .mk hkey fun y hy => ?_
    change y ∈ Stage.capturedIn key (spec.mapPipelines f) at hy
    rw [hf.capturedIn] at hy
    obtain ⟨x, hx, rfl⟩ := List.mem_map.mp hy
    exact ih x hx

end GivesPipelines

theorem givesPipelines_unnamed : GivesPipelines unnamed := fun _ _ => ⟨_, _, rfl⟩

theorem givesPipelines_refresh (name : String) (stages : List Stage) :
    GivesPipelines (refresh name stages) := fun _ _ => ⟨_, _, rfl⟩

/-- Operator and specification of the stage make a stage document. -/
def Stage.IsSound (s : Stage) : Prop := StageDocument (.doc [(s.operator, s.spec)])

theorem Stage.IsSound.mapPipelines {f : Option String → List Stage → Value} {s : Stage}
    (hs : s.IsSound) (hf : GivesPipelines f) : (s.mapPipelines f).IsSound := by
  obtain ⟨o, v⟩ := s
  exact StageDocument.mapPipelines hf hs

theorem Stage.lasting_isSound : Stage.Lasting Stage.IsSound where
  refreshed s hs name stages := hs.mapPipelines (givesPipelines_refresh name stages)
  afterReading s hs := by
    obtain ⟨o, v⟩ := s
    cases hs with
    | mk hkey hcaptured => exact .mk hkey hcaptured

/-! ### The stage that a call makes -/

namespace Pipeline.Call

variable {c : Call} {subs vs : List Value} {s : Stage}

/-- The stage that a call other than a raw one makes: a facet, a lookup, or a stage with the key of
another operator, for which no sub-pipeline is passed. -/
inductive Makes (subs : List Value) : Call → Stage → Prop
  | facet (facets : Value) : Makes subs (facet facets) (stageOf Key.facet (facetSpec facets subs))
  | lookup (source localField foreignField target : Value) :
    Makes subs (lookup source localField foreignField target)
      (stageOf Key.lookup (.doc (lookupSpec source localField foreignField target)))
  | lookupWith (source pipeline target bindings : Value) :
    Makes subs (lookupWith source pipeline target bindings)
      (stageOf Key.lookup (.doc (lookupWithSpec source (subs.headD .null) target bindings)))
  | other {c : Call} {key : String} (hsubs : c.subPipelines = .ok [])
    (hkey : OperatorClass.stage.contains key = true)
    (hplain : key ≠ Key.facet ∧ key ≠ Key.lookup) (spec : Value) : Makes subs c (stageOf key spec)

theorem makes_of_stage (hraw : ∀ d, c ≠ raw d) (h : c.stage subs = .ok (some s)) :
    Makes subs c s := by
  cases c with
  | plain kind spec =>
    obtain rfl := Option.some.inj (Except.ok.inj h)
    exact .other rfl (by cases kind <;> decide) (by cases kind <;> decide) spec
  | matching filter =>
    rw [Call.stage] at h
    split at h
    · cases h
    · obtain ⟨d, -, h⟩ := exists_of_bind_eq_ok h
      obtain rfl := Option.some.inj (Except.ok.inj h)
      exact .other rfl (by decide) (by decide) d
  | matchDocument query =>
    rw [Call.stage] at h
    split at h
    · cases h
    · obtain ⟨d, -, h⟩ := exists_of_bind_eq_ok h
      obtain rfl := Option.some.inj (Except.ok.inj h)
      exact .other rfl (by decide) (by decide) (.doc d)
  | facet facets =>
    obtain rfl := Option.some.inj (Except.ok.inj h)
    exact .facet facets
  | lookup source localField foreignField target =>
    obtain rfl := Option.some.inj (Except.ok.inj h)
    exact .lookup source localField foreignField target
  | lookupWith source pipeline target bindings =>
    obtain rfl := Option.some.inj (Except.ok.inj h)
    exact .lookupWith source pipeline target bindings
  | groupBy _ _ | bucket _ _ _ _ | sort _ | sortBy _ _ | merge _ _ _ _ =>
    obtain ⟨d, -, h⟩ := exists_of_bind_eq_ok h
    obtain rfl := Option.some.inj (Except.ok.inj h)
    exact .other rfl (by decide) (by decide) _
  | unset _ | replaceRoot _ | sample _ | unwindWith _ _ _ =>
    obtain rfl := Option.some.inj (Except.ok.inj h)
    exact .other rfl (by decide) (by decide) _
  | raw document => exact absurd rfl (hraw document)

theorem capturedIn_facet (keys : List Value) (hlength : subs.length = keys.length) :
    Stage.capturedIn Key.facet (.doc (keys.zip subs)) = subs.flatMap Value.listItems := by
  have hcaptured : Stage.capturedAt Key.facet = fun e => e.2.listItems := by
    funext e
    refine if_pos ?_
    unfold Stage.keepsPipeline
    split <;> rfl
  have hvalues : (keys.zip subs).map (·.2) = subs := List.map_snd_zip (Nat.le_of_eq hlength)
  calc Stage.capturedIn Key.facet (.doc (keys.zip subs))
      = (keys.zip subs).flatMap fun e => e.2.listItems := by rw [Stage.capturedIn, hcaptured]
    _ = ((keys.zip subs).map (·.2)).flatMap Value.listItems := (List.flatMap_map ..).symm
    _ = subs.flatMap Value.listItems := by rw [hvalues]

theorem capturedIn_lookup (source localField foreignField target : Value) :
    Stage.capturedIn Key.lookup (.doc (lookupSpec source localField foreignField target)) = [] :=
  rfl

theorem capturedIn_lookupWith (source documents target bindings : Value) :
    Stage.capturedIn Key.lookup (.doc (lookupWithSpec source documents target bindings))
      = documents.listItems := by
  have hkeeps : Stage.keepsPipeline Key.lookup (.str "pipeline") = true := by decide
  have hfrom : Stage.keepsPipeline Key.lookup (.str "from") = false := by decide
  have has : Stage.keepsPipeline Key.lookup (.str "as") = false := by decide
  have hlet : Stage.keepsPipeline Key.lookup (.str "let") = false := by decide
  unfold lookupWithSpec optional
  split <;> simp [Stage.capturedIn, Stage.capturedAt, hkeeps, hfrom, has, hlet]

/-- The key of a made stage is the key of a stage, and the stage captures the documents of the
sub-pipelines. -/
theorem Makes.captures (h : Makes subs c s) (hvs : c.subPipelines = .ok vs)
    (hlength : subs.length = vs.length) :
    ∃ key, s.operator = .str key ∧ OperatorClass.stage.contains key = true
      ∧ Stage.capturedIn key s.spec = subs.flatMap Value.listItems := by
  cases h with
  | facet facets =>
    cases facets with
    | doc es =>
      obtain rfl := Except.ok.inj hvs
      exact ⟨Key.facet, rfl, by decide, capturedIn_facet _ (by simpa using hlength)⟩
    | _ => cases hvs
  | lookup source localField foreignField target =>
    obtain rfl := Except.ok.inj hvs
    obtain rfl := List.length_eq_zero_iff.mp hlength
    exact ⟨Key.lookup, rfl, by decide, capturedIn_lookup ..⟩
  | lookupWith source pipeline target bindings =>
    obtain rfl := Except.ok.inj hvs
    obtain ⟨documents, rfl⟩ := List.length_eq_one_iff.mp hlength
    refine ⟨Key.lookup, rfl, by decide, ?_⟩
    rw [List.flatMap_singleton]
    exact capturedIn_lookupWith ..
  | @other _ key hsubs hkey hplain spec =>
    obtain rfl := Except.ok.inj (hsubs.symm.trans hvs)
    obtain rfl := List.length_eq_zero_iff.mp hlength
    exact ⟨key, rfl, hkey, Stage.capturedIn_of_plain hplain.1 hplain.2 spec⟩

end Pipeline.Call

/-! ### Compiled output -/

theorem Stage.IsSound.exists_key {s : Stage} (hs : s.IsSound) :
    ∃ key, s.operator = .str key ∧ OperatorClass.stage.contains key = true := by
  obtain ⟨o, v⟩ := s
  cases hs with
  | mk hkey _ => exact ⟨_, rfl, hkey⟩

theorem Stage.IsSound.document_eq {s : Stage} {d : Document} (hs : s.IsSound)
    (h : s.document = .ok d) : d = [(s.operator, s.spec.detached)] := by
  obtain ⟨key, hkey, -⟩ := hs.exists_key
  obtain ⟨o, v⟩ := s
  obtain rfl : o = .str key := hkey
  have hnull : Scalar.str key ≠ .null := by simp
  rw [Stage.document_scalar hnull] at h
  obtain ⟨w, hw, h⟩ := exists_of_bind_eq_ok h
  obtain ⟨-, rfl⟩ := Value.copy_eq_ok_iff.mp hw
  exact (Document.add_eq_ok_iff.mp h).2

theorem Snapshot.compiled_eq {stages : List Stage} {out : Value}
    (hstages : ∀ s ∈ stages, s.IsSound) (h : compiled stages = .ok out) :
    out = .list (stages.map fun s => .doc [(s.operator, s.spec.detached)]) := by
  obtain ⟨ds, hds, hout⟩ := exists_of_bind_eq_ok h
  obtain rfl := Except.ok.inj hout
  have hall := forall₂_of_mapM_eq_ok hds
  refine congrArg Value.list ?_
  clear h hds hout
  induction hall with
  | nil => rfl
  | @cons s d stages ds hd _ ih =>
    obtain ⟨hs, hstages⟩ := List.forall_mem_cons.mp hstages
    rw [List.map_cons, List.map_cons, ih hstages, hs.document_eq hd]

theorem Snapshot.stageDocument_of_compiled {stages : List Stage} {out : Value}
    (hstages : ∀ s ∈ stages, s.IsSound) (h : compiled stages = .ok out) :
    ∀ x ∈ out.listItems, StageDocument x := by
  rw [compiled_eq hstages h]
  refine List.forall_mem_map.mpr fun s hs => ?_
  have hsound := StageDocument.mapPipelines givesPipelines_unnamed (hstages s hs)
  obtain ⟨key, hkey, -⟩ := (hstages s hs).exists_key
  rw [hkey] at hsound ⊢
  exact hsound

/-! ### What a walk meets -/

theorem IsStageOf.stageDocument {out x : Value} (hout : ∀ x ∈ out.listItems, StageDocument x)
    (h : IsStageOf out x) : StageDocument x := by
  induction h with
  | top h => exact hout _ h
  | captured _ he hx ih =>
    cases ih with
    | mk hkey hcaptured =>
      cases List.mem_singleton.mp he
      exact hcaptured _ hx

theorem IsStageOf.reaches {out x : Value} {k : String} (h : IsStageOf out x) (hx : x.Reaches k) :
    out.Reaches k := by
  induction h with
  | top h => exact Value.reaches_iff_listItems.mpr (.inr ⟨_, h, hx⟩)
  | @captured d key spec x _ he hmem ih =>
    have hspec : spec.Reaches k := (Stage.reaches_iff_ownPart key spec).mpr (.inr ⟨x, hmem, hx⟩)
    exact ih (.entry he hspec)

/-- A negation within reach of a stage document is within reach of its own part or, going down, of
that of a captured document. -/
theorem StageDocument.exists_ownPart {out x : Value} {k : String} (hx : StageDocument x)
    (hk : OperatorClass.negation.contains k = true) (h : IsStageOf out x) (hreach : x.Reaches k) :
    ∃ key spec, IsStageOf out (.doc [(.str key, spec)]) ∧ (Stage.ownPart key spec).Reaches k := by
  induction hx with
  | @mk key spec hkey _ ih =>
    obtain ⟨e, he, hreach⟩ := Value.reaches_doc.mp hreach
    obtain rfl := List.mem_singleton.mp he
    obtain hsame | hspec := hreach
    · -- the key of a stage is no negation
      obtain rfl := Scalar.str.inj (Value.scalar.inj hsame)
      rw [OperatorClass.not_negation_of_contains (.inr rfl) hkey] at hk
      cases hk
    · obtain hown | ⟨y, hy, hreach⟩ := (Stage.reaches_iff_ownPart key spec).mp hspec
      · exact ⟨key, spec, h, hown⟩
      · exact ih y hy (h.captured he hy) hreach

theorem negates_iff_ownPart {xs : List Value} (hxs : ∀ x ∈ xs, StageDocument x) :
    (Value.list xs).negates = true ↔ ∃ key spec, IsStageOf (.list xs) (.doc [(.str key, spec)])
      ∧ ∃ k, OperatorClass.negation.contains k = true ∧ (Stage.ownPart key spec).Reaches k := by
  rw [Value.negates_iff]
  constructor
  · rintro ⟨k, hk, hreach⟩
    obtain ⟨x, hx, hreach⟩ := Value.reaches_list.mp hreach
    have htop : IsStageOf (.list xs) x := .top hx
    obtain ⟨key, spec, hstage, hown⟩ := (hxs x hx).exists_ownPart hk htop hreach
    exact ⟨key, spec, hstage, k, hk, hown⟩
  · rintro ⟨key, spec, hstage, k, hk, hown⟩
    have hspec := (Stage.reaches_iff_ownPart key spec).mpr (.inl hown)
    exact ⟨k, hk, hstage.reaches (.entry List.mem_cons_self hspec)⟩

theorem mem_operators_documents {stages : List Stage} (hstages : ∀ s ∈ stages, s.IsSound)
    (k : String) :
    k ∈ (Value.list (stages.map fun s => .doc [(s.operator, s.spec.detached)])).operators
      ↔ ∃ s ∈ stages, s.operator = .str k ∨ k ∈ s.spec.operators := by
  have hstage : ∀ s ∈ stages, (k ∈ (Value.doc [(s.operator, s.spec.detached)]).operatorKeys
      ↔ s.operator = .str k ∨ k ∈ s.spec.operators) := by
    intro s hs
    obtain ⟨key, hoperator, hkey⟩ := (hstages s hs).exists_key
    rw [Value.operatorKeys, operatorKeysOfEntries_singleton, List.mem_append, mem_operatorKeyOf,
      Value.operatorKeys_detached, Value.mem_operators, and_iff_left_of_imp]
    intro hk
    obtain rfl := Scalar.str.inj (Value.scalar.inj (hoperator.symm.trans hk))
    exact OperatorClass.isOperatorKey_of_contains hkey
  rw [Value.mem_operators, Value.operatorKeys, mem_operatorKeysOfItems]
  simp only [List.mem_map, exists_exists_and_eq_and]
  exact exists_congr fun s => and_congr_right (hstage s)

/-! ### Runs of regular calls -/

namespace Pipeline

mutual

/-- A call other than a raw one that is passed only pipelines which such calls have built. -/
inductive IsRegularCall : Call → Prop
  | mk {c : Call} (hraw : ∀ d, c ≠ .raw d)
    (hsubs : ∀ vs, c.subPipelines = .ok vs → ∀ v ∈ vs, IsRegular v) : IsRegularCall c

/-- A pipeline of the workspace, or a copy of one that regular calls have built elsewhere. -/
inductive IsRegular : Value → Prop
  | named (name : String) (stages : List Stage) : IsRegular (.pipeline (some name) stages)
  | copied {as : List Action} (has : ∀ a ∈ as, IsRegularCall a.call) (name : String) :
    IsRegular (Value.pipeline (some name) ((Workspace.empty.run as).stagesOf name)).detached

end

theorem IsRegularCall.of_eq {c : Call} {vs : List Value} (hraw : ∀ d, c ≠ .raw d)
    (h : c.subPipelines = .ok vs) (hvs : ∀ v ∈ vs, IsRegular v) : IsRegularCall c := by
  refine .mk hraw fun ws hws => ?_
  obtain rfl := Except.ok.inj (h.symm.trans hws)
  exact hvs

end Pipeline

namespace Workspace

mutual

/-- A regular call keeps all stages sound, since what its sub-pipelines compile to are stage
documents; by recursion on how these were built. -/
theorem every_build_of_isRegular {c : Call} (hc : Pipeline.IsRegularCall c) {w : Workspace}
    (hw : Snapshot.Every Stage.IsSound w.stagesOf) (name : String) :
    Snapshot.Every Stage.IsSound (w.build name c).2.stagesOf := by
  match hc with
  | .mk hraw hsubs =>
    refine every_build_of_captured Stage.lasting_isSound hw fun vs subs s hvs hcaptured hstage => ?_
    obtain ⟨key, hoperator, hkey, hsame⟩ :=
      (Call.makes_of_stage hraw hstage).captures hvs hcaptured.length_eq.symm
    unfold Stage.IsSound
    rw [hoperator]
    refine .mk hkey fun x hx => ?_
    rw [hsame] at hx
    obtain ⟨d, hd, hx⟩ := List.mem_flatMap.mp hx
    -- the document was captured in a workspace on the way, where all stages are sound
    obtain ⟨v, hv, u, hu, hcapture⟩ := exists_of_mem_forall₂ hcaptured hd
    exact stageDocument_of_capture (hsubs vs hvs v hv) hu hcapture x hx

theorem stageDocument_of_capture {v : Value} (hv : Pipeline.IsRegular v) {u : Workspace}
    (hu : Snapshot.Every Stage.IsSound u.stagesOf) {d : Value} (hd : (u.capture v).1 = .ok d) :
    ∀ x ∈ d.listItems, StageDocument x := by
  match hv with
  | .named name stages =>
    rw [capture_fst] at hd
    exact Snapshot.stageDocument_of_compiled (hu name) hd
  | @Pipeline.IsRegular.copied as has name =>
    -- the copy was made of a pipeline that a run of its own had built
    have hrun : Snapshot.Every Stage.IsSound (empty.run as).stagesOf :=
      every_run_of_build (fun a ha w hw => every_build_of_isRegular (has a ha) hw a.pipeline)
        every_empty
    rw [capture_fst] at hd
    refine Snapshot.stageDocument_of_compiled ?_ hd
    rw [mapPipelinesStages_eq_map]
    refine List.forall_mem_map.mpr fun s hs => ?_
    exact (hrun name s hs).mapPipelines givesPipelines_unnamed

end

theorem isSound_run {as : List Action} (has : ∀ a ∈ as, Pipeline.IsRegularCall a.call) :
    Snapshot.Every Stage.IsSound (empty.run as).stagesOf :=
  every_run_of_build (fun a ha _ hw => every_build_of_isRegular (has a ha) hw a.pipeline)
    every_empty

/-- The stage that a call makes captures what its sub-pipelines compile to there and then. -/
theorem stage_captures {w : Workspace} (hw : Snapshot.Every Stage.IsSound w.stagesOf) {c : Call}
    {s : Stage} (hc : Pipeline.IsRegularCall c) (h : (w.stage c).1 = .ok (some s)) :
    ∃ vs outs key, c.subPipelines = .ok vs ∧ (w.captureAll vs).1 = .ok outs
      ∧ s.operator = .str key ∧ Stage.capturedIn key s.spec = outs.flatMap Value.listItems := by
  obtain ⟨hraw, -⟩ := hc
  unfold stage at h
  cases hvs : c.subPipelines with
  | error e =>
    rw [hvs] at h
    cases h
  | ok vs =>
    rw [hvs] at h
    dsimp only at h
    rcases hcap : w.captureAll vs with ⟨_ | outs, w'⟩
    · rw [hcap] at h
      cases h
    · rw [hcap] at h
      have hcaptured := forall₂_captureAll Stage.lasting_isSound hw (congrArg Prod.fst hcap)
      obtain ⟨key, hoperator, -, hsame⟩ :=
        (Call.makes_of_stage hraw h).captures hvs hcaptured.length_eq.symm
      exact ⟨vs, outs, key, rfl, by rw [hcap], hoperator, hsame⟩

/-- The stage that a match makes holds the document of its filter. -/
theorem stage_matching {w : Workspace} {filter : Value} {s : Stage}
    (h : (w.stage (.matching filter)).1 = .ok (some s)) :
    s.operator = .str Key.matching ∧ Filter.compile filter = .ok s.spec := by
  change Call.stage [] (.matching filter) = .ok (some s) at h
  rw [Call.stage] at h
  split at h
  · cases h
  · obtain ⟨d, hd, h⟩ := exists_of_bind_eq_ok h
    obtain rfl := Option.some.inj (Except.ok.inj h)
    exact ⟨rfl, hd⟩

/-- Builder and inspection agree.  After any run of regular calls, what a pipeline compiles to is
one document for each of its stages; each stage document at every level is one key of a stage; the
operators are those of the stages and of their specifications; and some operator negates exactly if
some stage at some level reaches a negation in its specification, sub-pipelines apart.  These are
what the sub-pipelines compile to when a call passes them, and a match holds the document of its
filter. -/
theorem operators_of_regular_run {as : List Action}
    (has : ∀ a ∈ as, Pipeline.IsRegularCall a.call) :
    let w := empty.run as
    (∀ p out, (w.compile p).1 = .ok out →
      out = .list ((w.stagesOf p).map fun s => .doc [(s.operator, s.spec.detached)])
      ∧ (∀ x, IsStageOf out x →
          ∃ key spec, x = .doc [(.str key, spec)] ∧ OperatorClass.stage.contains key = true)
      ∧ (∀ k, k ∈ out.operators ↔ ∃ s ∈ w.stagesOf p, s.operator = .str k ∨ k ∈ s.spec.operators)
      ∧ (out.negates = true ↔ ∃ key spec, IsStageOf out (.doc [(.str key, spec)])
          ∧ ∃ k, OperatorClass.negation.contains k = true ∧ (Stage.ownPart key spec).Reaches k))
    ∧ (∀ c s, Pipeline.IsRegularCall c → (w.stage c).1 = .ok (some s) →
        ∃ vs outs key, c.subPipelines = .ok vs ∧ (w.captureAll vs).1 = .ok outs
          ∧ s.operator = .str key ∧ Stage.capturedIn key s.spec = outs.flatMap Value.listItems)
    ∧ ∀ filter s, (w.stage (.matching filter)).1 = .ok (some s) →
        s.operator = .str Key.matching ∧ Filter.compile filter = .ok s.spec := by
  intro w
  have hw : Snapshot.Every Stage.IsSound w.stagesOf := isSound_run has
  refine ⟨fun p out hout => ?_, fun c s hc h => stage_captures hw hc h,
    fun filter s h => stage_matching h⟩
  rw [compile_fst] at hout
  have hdocuments := Snapshot.stageDocument_of_compiled (hw p) hout
  obtain rfl := Snapshot.compiled_eq (hw p) hout
  refine ⟨rfl, fun x hx => ?_, mem_operators_documents (hw p), negates_iff_ownPart hdocuments⟩
  obtain ⟨hkey, -⟩ := hx.stageDocument hdocuments
  exact ⟨_, _, rfl, hkey⟩

/-- A negation two sub-pipelines down, in a pipeline that is also passed as a copy. -/
theorem operators_of_regular_run_hidden :
    let filter : Value := .filter (.comparison (.str "a") (.scalar (.comparisonOp .ne)) (.int 1))
    let inner : Action := ⟨"inner", .matching filter⟩
    let copy : Value :=
      (Value.pipeline (some "inner") ((empty.run [inner]).stagesOf "inner")).detached
    let as : List Action := [inner,
      ⟨"mid", .facet (.doc [(.str "f", .pipeline (some "inner") [])])⟩,
      ⟨"main", .lookupWith (.str "orders") (.pipeline (some "mid") []) (.str "found") .null⟩,
      ⟨"main", .facet (.doc [(.str "c", copy)])⟩, ⟨"main", .plain .limit (.int 5)⟩]
    let w := empty.run as
    let found : Value := .list [.single "$match" (.single "a" (.single "$ne" (.int 1)))]
    let joined : Document := [(.str "from", .str "orders"),
      (.str "pipeline", .list [.single "$facet" (.single "f" found)]), (.str "as", .str "found")]
    let out : Value := .list [.single "$lookup" (.doc joined), .single "$facet" (.single "c" found),
      .single "$limit" (.int 5)]
    (∀ a ∈ as, Pipeline.IsRegularCall a.call) ∧ (w.compile "main").1 = .ok out
      ∧ (∀ x, IsStageOf out x →
          ∃ key spec, x = .doc [(.str key, spec)] ∧ OperatorClass.stage.contains key = true)
      ∧ (∃ s ∈ w.stagesOf "main", s.operator = .str "$ne" ∨ "$ne" ∈ s.spec.operators)
      ∧ ∃ key spec, IsStageOf out (.doc [(.str key, spec)])
        ∧ ∃ k, OperatorClass.negation.contains k = true ∧ (Stage.ownPart key spec).Reaches k := by
  intro filter inner copy as w found joined out
  have hinner : Pipeline.IsRegularCall inner.call := .of_eq (by simp [inner]) rfl (by simp)
  have has : ∀ a ∈ as, Pipeline.IsRegularCall a.call := by
    have hcopy : Pipeline.IsRegular copy := .copied (List.forall_mem_singleton.mpr hinner) "inner"
    simp only [as, List.forall_mem_cons]
    exact ⟨hinner, .of_eq (by simp) rfl (List.forall_mem_singleton.mpr (.named ..)),
      .of_eq (by simp) rfl (List.forall_mem_singleton.mpr (.named ..)),
      .of_eq (by simp) rfl (List.forall_mem_singleton.mpr hcopy), .of_eq (by simp) rfl (by simp),
      by simp⟩
  have hout : (w.compile "main").1 = .ok out := by
    rw [compile_fst]
    rfl
  obtain ⟨-, hkeys, hoperators, hnegates⟩ := (operators_of_regular_run has).1 "main" out hout
  exact ⟨has, hout, hkeys, (hoperators "$ne").mp (by decide), hnegates.mp (by decide)⟩

end Workspace

end DocQuery
