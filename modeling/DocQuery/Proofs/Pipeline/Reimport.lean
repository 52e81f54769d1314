import DocQuery.Fingerprint.Basic
import DocQuery.Proofs.Filter.Flat
import DocQuery.Proofs.Pipeline.Reachable
import DocQuery.Proofs.Value.SetOrder

/-!
# DocQuery.Proofs.Pipeline.Reimport — compiled output as raw stages

A raw stage over the document of a stage compiles to that document again: the document is a copy,
and a copy of it is the same, but for the order in which the members of its sets are met.  So the
output of a pipeline, added document by document to an empty pipeline, compiles to itself up to that
order, whatever calls have built the pipeline.  In the same way a filter, its compiled form and a
raw stage over that form contribute one stage document, if compiling leaves the filter as it is.
-/

namespace DocQuery

open Pipeline (Call)

/-! ### The document of a raw stage -/

theorem Stage.document_raw (d : Document) : Stage.document ⟨.null, .doc d⟩ = d.copy := rfl

theorem Stage.document_scalar {k : Scalar} (hk : k ≠ .null) (v : Value) :
    Stage.document ⟨.scalar k, v⟩ = (do Document.add [] (.scalar k) (← v.copy)) := by
  have hraw : Stage.isRaw ⟨.scalar k, v⟩ = false := by
    refine Bool.eq_false_iff.mpr fun h => hk ?_
    exact Value.scalar.inj (Value.isNull_iff.mp h)
  rw [Stage.document, hraw]
  rfl

/-- The document of a stage is a copy, however the stage was built. -/
theorem Stage.isCopy_document {s : Stage} {d : Document} (hs : ∃ k, s.operator = .scalar k)
    (h : s.document = .ok d) : (Value.doc d).IsCopy := by
  obtain ⟨o, v⟩ := s
  obtain ⟨k, rfl⟩ := hs
  by_cases hk : k = .null
  · subst hk
    obtain ⟨e, -, h⟩ := exists_of_bind_eq_ok h
    exact Document.isCopy_of_copy h
  · rw [Stage.document_scalar hk] at h
    obtain ⟨w, hw, h⟩ := exists_of_bind_eq_ok h
    obtain ⟨-, rfl⟩ := Document.add_eq_ok_iff.mp h
    have hvalue := Value.isCopy_of_copy hw
    exact Value.isCopy_doc.mpr
      (List.forall_mem_singleton.mpr ⟨Value.isCopy_scalar k, hvalue⟩)

/-- Raw stages over documents that are copies have these documents. -/
theorem Pipeline.documents_raw {ds : List Document} (h : ∀ d ∈ ds, (Value.doc d).IsCopy) :
    documents (ds.map fun d => ⟨.null, .doc d⟩) = .ok ds := by
  induction ds with
  | nil => rfl
  | cons d ds ih =>
    obtain ⟨hd, hds⟩ := List.forall_mem_cons.mp h
    have hhead : Stage.document ⟨.null, .doc d⟩ = .ok d := Document.copy_eq_self_iff.mpr hd
    have htail := ih hds
    unfold documents at htail ⊢
    rw [List.map_cons, List.mapM_cons, hhead, htail]
    rfl

namespace Workspace

variable {w : Workspace} {name : String}

/-! ### Building from raw stages -/

/-- A call without sub-pipelines appends the stage that it makes. -/
theorem build_of_stage {c : Call} {s : Stage} (hsubs : c.subPipelines = .ok [])
    (hstage : c.stage [] = .ok (some s)) (w : Workspace) (name : String) :
    (w.build name c).1 = .ok () ∧ (w.build name c).2.stagesOf name = w.stagesOf name ++ [s] := by
  have hmade : w.stage c = (.ok (some s), w.note c.events) := by
    unfold stage
    rw [hsubs, ← hstage]
    rfl
  unfold build
  rw [hmade]
  exact ⟨rfl, stagesOf_set_self ..⟩

theorem stagesOf_buildAll_raw (w : Workspace) (name : String) (vs : List Value) :
    (w.buildAll name (vs.map .raw)).stagesOf name
      = w.stagesOf name ++ vs.map fun v => ⟨.null, v⟩ := by
  induction vs generalizing w with
  | nil => exact (List.append_nil _).symm
  | cons v vs ih =>
    rw [List.map_cons, buildAll, ih, (build_of_stage rfl rfl w name).2, List.append_assoc]
    rfl

theorem stagesOf_compile_of_nil {other : String} (h : w.stagesOf other = []) (name : String) :
    (w.compile name).2.stagesOf other = [] := by
  change ((w.set name _).compileStages _).2.stagesOf other = []
  rw [stagesOf_compileStages]
  by_cases hother : other = name
  · subst hother
    rw [stagesOf_set_self, h]
    rfl
  · rw [stagesOf_set_of_ne w hother, h]
    rfl

/-! ### Three ways to match -/

/-- The stage that a match with a compiled filter contributes, up to the way in which it is made. -/
theorem build_match {c : Call} {filter query : Value} (hfilter : filter ≠ .null)
    (hquery : Filter.compile filter = .ok query)
    (hc : c ∈ [Call.matching filter, .matchDocument query, .raw (.single Key.matching query)])
    (w : Workspace) (name : String) :
    (w.build name c).1 = .ok ()
      ∧ ∃ s, (w.build name c).2.stagesOf name = w.stagesOf name ++ [s]
        ∧ s.document = query.copy.map fun v => [(.str Key.matching, v)] := by
  have hgiven : filter.isNull = false := by
    refine Bool.eq_false_iff.mpr fun h => hfilter (Value.isNull_iff.mp h)
  obtain ⟨d, -, h⟩ := exists_of_bind_eq_ok hquery
  obtain rfl := Except.ok.inj h
  have hmatch : (Pipeline.stageOf Key.matching (.doc d)).document
      = (Value.doc d).copy.map fun v => [(.str Key.matching, v)] := by
    have hkey : Scalar.str Key.matching ≠ .null := by simp
    rw [Pipeline.stageOf, Stage.document_scalar hkey]
    cases (Value.doc d).copy with
    | error e => rfl
    | ok v => exact Document.add_of_isHashable (Value.isHashable_str _) v
  simp only [List.mem_cons, List.not_mem_nil, or_false] at hc
  obtain rfl | rfl | rfl := hc
  · have hstage : (Call.matching filter).stage []
        = .ok (some (Pipeline.stageOf Key.matching (.doc d))) := by
      rw [Call.stage, hgiven, hquery]
      rfl
    obtain ⟨hresult, hafter⟩ := build_of_stage rfl hstage w name
    exact ⟨hresult, _, hafter, hmatch⟩
  · obtain ⟨hresult, hafter⟩ := build_of_stage (c := .matchDocument (.doc d)) rfl rfl w name
    exact ⟨hresult, _, hafter, hmatch⟩
  · have hraw : Stage.document ⟨.null, .single Key.matching (.doc d)⟩
        = (Value.doc d).copy.map fun v => [(.str Key.matching, v)] :=
      (Stage.document_raw _).trans (Document.copy_single _ _)
    obtain ⟨hresult, hafter⟩ := build_of_stage
      (c := .raw (.single Key.matching (.doc d))) rfl rfl w name
    exact ⟨hresult, _, hafter, hraw⟩

/-! ### Re-importing -/

/-- What a pipeline compiles to is a copy. -/
theorem isCopy_of_compile (hw : ∀ s ∈ w.stagesOf name, ∃ k, s.operator = .scalar k) {out : Value}
    (h : (w.compile name).1 = .ok out) : out.IsCopy := by
  obtain ⟨ds, rfl, hds⟩ := forall₂_of_compile h
  refine Value.isCopy_list.mpr (List.forall_mem_map.mpr fun d hd => ?_)
  obtain ⟨s, hs, hdocument⟩ := exists_of_mem_forall₂ hds hd
  exact Stage.isCopy_document (hw s hs) hdocument

/-- Documents that are copies, as raw stages of an empty pipeline, compile to themselves. -/
theorem compile_raw (hname : w.stagesOf name = []) {ds : List Document}
    (hds : (Value.list (ds.map .doc)).IsCopy) :
    let u := w.buildAll name ((ds.map Value.doc).map .raw)
    (u.compile name).1 = .ok (.list (ds.map .doc)) ∧ (u.stagesOf name).length = ds.length := by
  intro u
  have hstages : u.stagesOf name = ds.map fun d => ⟨.null, .doc d⟩ := by
    rw [stagesOf_buildAll_raw, hname, List.nil_append, List.map_map]
    rfl
  have hdocuments := Pipeline.documents_raw
    (List.forall_mem_map.mp (Value.isCopy_list.mp hds))
  constructor
  · rw [compile_fst, hstages, Snapshot.compiled, hdocuments]
    rfl
  · rw [hstages, List.length_map]

/-- Re-importing compiled output is lossless up to the order of sets.  After any calls, let `given`
be what a pipeline compiles to, its sets met in any order.  Its documents, added one by one as raw
stages to an empty pipeline, make a pipeline of the same length that compiles to `given` again.
Where the sets of this second output come in the orders that `order` allows, it still has the same
operators; and it is the same value, and stands for `given` in every fingerprint, if each set of
`given` is met in the same order again.  A match with a filter that compiling leaves as it is, a
match with its compiled form and a raw stage over that form add a stage with the same document to
any pipeline. -/
theorem reimport_lossless (as : List Action) (order : SetOrder) :
    let w := empty.run as
    (∀ p q out, (w.compile p).1 = .ok out → w.stagesOf q = [] →
      out.CopiesTo .any out ∧ ∀ given, out.CopiesTo .any given →
        ∃ ds : List Document, given = .list (ds.map .doc)
          ∧ (let u := (w.compile p).2.buildAll q ((ds.map Value.doc).map .raw)
            (u.stagesOf q).length = (w.stagesOf p).length
              ∧ (u.compile q).1 = .ok given
              ∧ ∀ again, given.CopiesTo order again →
                again.operators = given.operators
                  ∧ ((∀ ms ∈ given.sets, order.Keeps ms) → again = given
                    ∧ ∀ filter update, Fingerprint.digest filter update again
                      = Fingerprint.digest filter update given)))
    ∧ ∀ filter query, filter ≠ .null → Filter.IsRereadable filter →
        Filter.compile filter = .ok query →
          let left := Filter.nodeCompiled filter
          Filter.compile left = .ok query
          ∧ ∀ c ∈ [Call.matching left, .matchDocument query, .raw (.single Key.matching query)],
            ∀ u : Workspace, ∀ p, (u.build p c).1 = .ok ()
              ∧ ∃ s, (u.build p c).2.stagesOf p = u.stagesOf p ++ [s]
                ∧ s.document = query.copy.map fun v => [(.str Key.matching, v)] := by
  intro w
  constructor
  · intro p q out hout hq
    have hcopy := isCopy_of_compile (operator_run as p) hout
    refine ⟨hcopy.copiesTo_self List.Perm.refl, fun given hgiven => ?_⟩
    obtain ⟨_, rfl, hlength⟩ := forall₂_of_compile hout
    obtain ⟨ds, rfl, hsame⟩ := hgiven.exists_documents
    obtain ⟨hcompile, hstages⟩ := compile_raw (stagesOf_compile_of_nil hq p) hgiven.isCopy
    refine ⟨ds, rfl, hstages.trans (hsame.trans hlength.length_eq.symm), hcompile, ?_⟩
    intro again hagain
    refine ⟨by rw [Value.operators, Value.operators, hagain.operatorKeys_eq], fun hkeeps => ?_⟩
    obtain rfl := hagain.eq_of_keeps hgiven.isCopy hkeeps
    exact ⟨rfl, fun _ _ => rfl⟩
  · intro filter query hfilter hrereadable hquery left
    have hleft : left = filter := hrereadable
    rw [hleft]
    exact ⟨hquery, fun c hc u p => build_match hfilter hquery hc u p⟩

/-- A pipeline with a facet, a reference, a set of one member and a raw stage that was given as
pairs, and a filter that compiling leaves as it is. -/
theorem reimport_lossless_pairs :
    let page : Value := .pipeline (some "page") [⟨.str "$limit", .int 5⟩]
    let as : List Action := [⟨"page", .plain .limit (.int 5)⟩,
      ⟨"main", .facet (.doc [(.str "p", page)])⟩,
      ⟨"main", .plain .project (.doc [(.str "p", page), (.str "s", .set [.int 7])])⟩,
      ⟨"main", .raw (.list [.tuple [.str "$count", .str "n"]])⟩]
    let w := empty.run as
    let ds : List Document := [[(.str "$facet", .single "p" (.list [.single "$limit" (.int 5)]))],
      [(.str "$project", .doc [(.str "p", .pipeline none [⟨.str "$limit", .int 5⟩]),
        (.str "s", .set [.int 7])])],
      [(.str "$count", .str "n")]]
    let given : Value := .list (ds.map .doc)
    let u := (w.compile "main").2.buildAll "copy" ((ds.map Value.doc).map .raw)
    let filter : Value := .filter (.comparison (.str "a") (.scalar (.comparisonOp .gt)) (.int 1))
    let query : Value := .single "a" (.single "$gt" (.int 1))
    (w.compile "main").1 = .ok given ∧ w.stagesOf "copy" = [] ∧ given.CopiesTo .any given
      ∧ (u.compile "copy").1 = .ok given ∧ (u.stagesOf "copy").length = 3
      ∧ (∀ ms ∈ given.sets, SetOrder.any.Keeps ms)
      ∧ (∀ again, given.CopiesTo .any again → again = given)
      ∧ filter ≠ .null ∧ Filter.IsRereadable filter ∧ Filter.compile filter = .ok query
      ∧ (u.build "copy" (.raw (.single Key.matching query))).1 = .ok () := by
  intro page as w ds given u filter query
  have hout : (w.compile "main").1 = .ok given := rfl
  have hfilter : filter ≠ .null := by simp [filter]
  have hrereadable : Filter.IsRereadable filter :=
    Filter.Constructed.isRereadable (.comparison .gt (.str "a") (.int 1))
  have hquery : Filter.compile filter = .ok query := rfl
  have hkeeps : ∀ ms ∈ given.sets, SetOrder.any.Keeps ms := by
    have hsets : given.sets = [[.int 7]] := rfl
    rw [hsets]
    exact List.forall_mem_singleton.mpr (SetOrder.any.keeps_of_length_le_one (Nat.le_refl 1))
  obtain ⟨hreimport, hmatch⟩ := reimport_lossless as .any
  obtain ⟨hself, hgiven⟩ := hreimport "main" "copy" given hout rfl
  obtain ⟨ds', hds, hlength, hsame, hagain⟩ := hgiven given hself
  have hdocuments : ds' = ds := by
    have hmap : ds.map Value.doc = ds'.map Value.doc := Value.list.inj hds
    exact (List.map_injective_iff.mpr (fun _ _ => Value.doc.inj) hmap).symm
  subst hdocuments
  exact ⟨hout, rfl, hself, hsame, hlength, hkeeps,
    fun again h => ((hagain again h).2 hkeeps).1, hfilter, hrereadable, hquery,
    ((hmatch filter query hfilter hrereadable hquery).2 _ (by simp) u "copy").1⟩

/-- Neither goes without its condition.  A set of two members may come in the other order after the
second copy, and then the fingerprints differ; and of a conjunction whose children come from a
stream compiling leaves one without children, so that a match with it adds another document than a
match with what it was compiled to. -/
theorem reimport_not_lossless :
    (let w := empty.run [⟨"p", .plain .project (.single "a" (.set [.int 7, .int 15]))⟩]
      let projected (members : List Value) : Value :=
        .list [.single "$project" (.single "a" (.set members))]
      let again := projected [.int 15, .int 7]
      (w.compile "p").1 = .ok (projected [.int 7, .int 15])
        ∧ (projected [.int 7, .int 15]).CopiesTo .any again
        ∧ Fingerprint.ofPipeline again ≠ Fingerprint.ofPipeline (projected [.int 7, .int 15]))
    ∧ (let filter : Value := .filter (.conj (.stream [.filter (Filter.eq (.str "a") (.int 1))]))
      let query : Value := .single "a" (.int 1)
      Filter.compile filter = .ok query
        ∧ ((empty.run [⟨"p", .matchDocument query⟩]).compile "p").1
          = .ok (.list [.single Key.matching query])
        ∧ ((empty.run [⟨"p", .matching (Filter.nodeCompiled filter)⟩]).compile "p").1
          = .ok (.list [.single Key.matching (.single Key.and (.list []))])) := by
  constructor
  · intro w projected again
    refine ⟨rfl, ?_, by decide +kernel⟩
    have hset : (Value.set [.int 7, .int 15]).CopiesTo .any (.set [.int 15, .int 7]) :=
      .set (List.Perm.swap ..) (.cons (.scalar _) (.cons (.scalar _) .nil))
    exact .list (.cons (.doc (.cons (.scalar _) (.doc (.cons (.scalar _) hset .nil)) .nil)) .nil)
  · exact ⟨rfl, rfl, rfl⟩

end Workspace

end DocQuery
