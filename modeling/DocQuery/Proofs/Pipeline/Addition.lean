import DocQuery.Pipeline.Call
import DocQuery.Proofs.Value.Reference

/-!
# DocQuery.Proofs.Pipeline.Addition — the stage that a call adds

`Call.Adds` says once what a call can do, and `Call.adds_of_stage` that it does nothing else: it
adds nothing, since its filter is missing, or a raw stage, or a stage with an operator whose
specification is made of the arguments of the call and of the documents of its sub-pipelines.  What
the stage refers to is then what these refer to.  Compiled filters and the documents of stages are
copies of their values and refer to nothing.
-/

namespace DocQuery

variable {f : Option String → List Stage → Value}

/-! ### Compiled filters -/

namespace Filter

theorem fixedBy_operatorKey {op key : Value} (h : op.FixedBy f) (hkey : op.operatorKey? = .ok key) :
    key.FixedBy f := by
  unfold Value.operatorKey? at hkey
  split at hkey
  · obtain rfl := Except.ok.inj hkey
    exact Value.fixedBy_scalar _
  · obtain rfl := Except.ok.inj hkey
    exact Value.fixedBy_scalar _
  · obtain rfl := Except.ok.inj hkey
    exact (Filter.comparison.inj (Value.filter.inj h)).2.2
  · obtain rfl := Except.ok.inj hkey
    exact (Update.assign.inj (Value.update.inj h)).2.2
  · cases hkey

theorem fixedBy_operand (hf : KeepsUnnamed f) {v w : Value} (h : v.operand = .ok w) :
    w.FixedBy f := by
  unfold Value.operand at h
  split at h
  · obtain ⟨ys, hys, h⟩ := exists_of_bind_eq_ok h
    obtain rfl := Except.ok.inj h
    refine Value.fixedBy_list.mpr fun y hy => ?_
    obtain ⟨x, -, hx⟩ := exists_of_mem_mapM hys hy
    exact Value.fixedBy_copy hf hx
  · exact Value.fixedBy_copy hf h

theorem fixedBy_comparisonDocument (hf : KeepsUnnamed f) {field op value : Value} {d : Document}
    (h : (Filter.comparison field op value).FixedBy f)
    (hd : comparisonDocument field op value = .ok d) : d.FixedBy f := by
  obtain ⟨hfield, hop, -⟩ := Filter.comparison.inj h
  unfold comparisonDocument at hd
  split at hd
  · obtain ⟨w, hw, hd⟩ := exists_of_bind_eq_ok hd
    exact Document.fixedBy_nil.add hfield (Value.fixedBy_copy hf hw) hd
  · obtain ⟨key, hkey, hd⟩ := exists_of_bind_eq_ok hd
    obtain ⟨w, hw, hd⟩ := exists_of_bind_eq_ok hd
    obtain ⟨inner, hinner, hd⟩ := exists_of_bind_eq_ok hd
    have hfixed : Document.FixedBy f inner :=
      Document.fixedBy_nil.add (fixedBy_operatorKey hop hkey) (fixedBy_operand hf hw) hinner
    exact Document.fixedBy_nil.add hfield (Value.fixedBy_doc.mpr hfixed) hd

theorem fixedBy_patternDocument {field regex flags : Value}
    (h : (Filter.pattern field regex flags).FixedBy f) :
    (patternDocument regex flags).FixedBy f := by
  obtain ⟨-, hregex, hflags⟩ := Filter.pattern.inj h
  refine Document.fixedBy_cons.mpr ⟨⟨Value.fixedBy_scalar _, hregex⟩, ?_⟩
  split
  · exact Document.fixedBy_cons.mpr ⟨⟨Value.fixedBy_scalar _, hflags⟩, Document.fixedBy_nil⟩
  · exact Document.fixedBy_nil

theorem fixedBy_joined {c : Connective} {ds : List Document} (h : ∀ d ∈ ds, d.FixedBy f) :
    (joined c ds).FixedBy f := by
  unfold joined
  split
  · exact h _ (by simp)
  · simpa using h

mutual

/-- A compiled filter refers to what its keys, patterns and flags refer to; values are copied. -/
theorem fixedBy_document (hf : KeepsUnnamed f) (g : Filter) (h : g.FixedBy f) (d : Document)
    (hd : g.document = .ok d) : d.FixedBy f := by
  match g with
  | .comparison field op value => exact fixedBy_comparisonDocument hf h hd
  | .pattern field regex flags =>
    have hfield := (Filter.pattern.inj h).1
    exact Document.fixedBy_nil.add hfield (Value.fixedBy_doc.mpr (fixedBy_patternDocument h)) hd
  | .elemMatch field inner =>
    obtain ⟨hfield, hinner⟩ := Filter.elemMatch.inj h
    obtain ⟨e, he, hd⟩ := exists_of_bind_eq_ok hd
    have hfixed := fixedBy_nodeDocument hf inner hinner e he
    exact Document.fixedBy_nil.add hfield (by simpa using hfixed) hd
  | .conj children =>
    obtain ⟨ds, hds, hd⟩ := exists_of_bind_eq_ok hd
    obtain rfl := Except.ok.inj hd
    exact fixedBy_joined (fixedBy_childDocuments hf children (Filter.conj.inj h) ds hds)
  | .disj children =>
    obtain ⟨ds, hds, hd⟩ := exists_of_bind_eq_ok hd
    obtain rfl := Except.ok.inj hd
    exact fixedBy_joined (fixedBy_childDocuments hf children (Filter.disj.inj h) ds hds)
  | .neg inner =>
    obtain ⟨e, he, hd⟩ := exists_of_bind_eq_ok hd
    obtain rfl := Except.ok.inj hd
    simpa using fixedBy_nodeDocument hf inner (Filter.neg.inj h) e he

theorem fixedBy_nodeDocument (hf : KeepsUnnamed f) (v : Value) (h : v.FixedBy f) (d : Document)
    (hd : nodeDocument v = .ok d) : d.FixedBy f := by
  match v with
  | .null =>
    obtain rfl := Except.ok.inj hd
    exact Document.fixedBy_nil
  | .filter g => exact fixedBy_document hf g (Value.fixedBy_filter.mp h) d hd

theorem fixedBy_childDocuments (hf : KeepsUnnamed f) (v : Value) (h : v.FixedBy f)
    (ds : List Document) (hds : childDocuments v = .ok ds) : ∀ d ∈ ds, d.FixedBy f := by
  match v with
  | .list xs => exact fixedBy_nodeDocuments hf xs (Value.fixedBy_list.mp h) ds hds
  | .tuple xs => exact fixedBy_nodeDocuments hf xs (Value.fixedBy_tuple.mp h) ds hds
  | .set xs => exact fixedBy_nodeDocuments hf xs (Value.fixedBy_set.mp h) ds hds
  | .stream xs => exact fixedBy_nodeDocuments hf xs (Value.fixedBy_stream.mp h) ds hds
  | .doc es => exact fixedBy_keyDocuments hf es (Value.fixedBy_doc.mp h) ds hds
  | .scalar s =>
    obtain ⟨items, -, hds⟩ := exists_of_bind_eq_ok hds
    split at hds
    · obtain rfl := Except.ok.inj hds
      simp
    · cases hds

theorem fixedBy_nodeDocuments (hf : KeepsUnnamed f) (xs : List Value) (h : ∀ x ∈ xs, x.FixedBy f)
    (ds : List Document) (hds : nodeDocuments xs = .ok ds) : ∀ d ∈ ds, d.FixedBy f := by
  match xs with
  | [] =>
    obtain rfl := Except.ok.inj hds
    simp
  | x :: xs =>
    obtain ⟨hx, hxs⟩ := List.forall_mem_cons.mp h
    obtain ⟨d, hd, hds⟩ := exists_of_bind_eq_ok hds
    obtain ⟨es, hes, hds⟩ := exists_of_bind_eq_ok hds
    obtain rfl := Except.ok.inj hds
    exact List.forall_mem_cons.mpr
      ⟨fixedBy_nodeDocument hf x hx d hd, fixedBy_nodeDocuments hf xs hxs es hes⟩

theorem fixedBy_keyDocuments (hf : KeepsUnnamed f) (es : Document) (h : es.FixedBy f)
    (ds : List Document) (hds : keyDocuments es = .ok ds) : ∀ d ∈ ds, d.FixedBy f := by
  match es with
  | [] =>
    obtain rfl := Except.ok.inj hds
    simp
  | (k, v) :: es =>
    obtain ⟨⟨hk, -⟩, hes⟩ := Document.fixedBy_cons.mp h
    obtain ⟨d, hd, hds⟩ := exists_of_bind_eq_ok hds
    obtain ⟨ds', hds', hds⟩ := exists_of_bind_eq_ok hds
    obtain rfl := Except.ok.inj hds
    exact List.forall_mem_cons.mpr
      ⟨fixedBy_nodeDocument hf k hk d hd, fixedBy_keyDocuments hf es hes ds' hds'⟩

end

theorem fixedBy_compile (hf : KeepsUnnamed f) {v w : Value} (h : v.FixedBy f)
    (hw : compile v = .ok w) : w.FixedBy f := by
  obtain ⟨d, hd, hw⟩ := exists_of_bind_eq_ok hw
  obtain rfl := Except.ok.inj hw
  exact Value.fixedBy_doc.mpr (fixedBy_nodeDocument hf v h d hd)

end Filter

/-! ### Compiled stages -/

/-- The document of a stage refers to what its operator refers to. -/
theorem Stage.fixedBy_document (hf : KeepsUnnamed f) {s : Stage} {d : Document}
    (hoperator : s.operator.FixedBy f) (h : s.document = .ok d) : d.FixedBy f := by
  unfold Stage.document at h
  split at h
  · obtain ⟨e, -, h⟩ := exists_of_bind_eq_ok h
    exact Document.fixedBy_copy hf h
  · obtain ⟨v, hv, h⟩ := exists_of_bind_eq_ok h
    exact Document.fixedBy_nil.add hoperator (Value.fixedBy_copy hf hv) h

/-! ### Specifications -/

namespace Pipeline

/-- Whatever leaves the parts as they are leaves the value as it is. -/
def MadeOf (v : Value) (parts : List Value) : Prop :=
  ∀ f, KeepsUnnamed f → (∀ p ∈ parts, p.FixedBy f) → v.FixedBy f

theorem fixedBy_optional {b : Bool} {key : String} {v : Value} (h : v.FixedBy f) :
    (optional b key v).FixedBy f := by
  unfold optional
  split
  · exact Document.fixedBy_cons.mpr ⟨⟨Value.fixedBy_scalar _, h⟩, Document.fixedBy_nil⟩
  · exact Document.fixedBy_nil

theorem fixedBy_entry {key : String} {v : Value} {d : Document} (hv : v.FixedBy f)
    (hd : d.FixedBy f) : Document.FixedBy f ((.str key, v) :: d) :=
  Document.fixedBy_cons.mpr ⟨⟨Value.fixedBy_scalar _, hv⟩, hd⟩

theorem fixedBy_listOf {v w : Value} (h : v.FixedBy f) (hw : listOf v = .ok w) : w.FixedBy f := by
  obtain ⟨xs, hxs, hw⟩ := exists_of_bind_eq_ok hw
  obtain rfl := Except.ok.inj hw
  exact Value.fixedBy_list.mpr (h.items hxs)

namespace Call

/-- A match for which there is no filter. -/
def lacksFilter : Call → Bool
  | matching filter => filter.isNull
  | matchDocument query => query.isNull
  | _ => false

/-- The name of a named pipeline. -/
def referenceName? : Value → Option String
  | .pipeline name _ => name
  | _ => none

/-- The arguments of a call, named pipelines left out where they stand for sub-pipelines. -/
def arguments : Call → List Value
  | plain _ spec => [spec]
  | matching filter => [filter]
  | matchDocument query => [query]
  | unset fields => fields
  | replaceRoot root => [root]
  | groupBy key accumulators => [key, accumulators]
  | bucket key boundaries fallback output => [key, boundaries, fallback, output]
  | facet (.doc es) => es.map (·.1) ++ (es.map (·.2)).filter fun v => (referenceName? v).isNone
  | facet facets => [facets]
  | sort spec => [spec]
  | sortBy field direction => [field, direction]
  | sample size => [size]
  | unwindWith path keepEmpty indexField => [path, keepEmpty, indexField]
  | lookup source localField foreignField target => [source, localField, foreignField, target]
  | lookupWith source pipeline target bindings =>
    [source, target, bindings] ++ [pipeline].filter fun v => (referenceName? v).isNone
  | merge target on whenMatched whenNotMatched => [target, on, whenMatched, whenNotMatched]
  | raw document => [document]

/-! ### What a call adds -/

theorem madeOf_unset (fields : List Value) : MadeOf (unsetSpec fields) fields := by
  intro f _ h
  unfold unsetSpec
  split
  · exact h _ (by simp)
  · exact Value.fixedBy_list.mpr h

theorem madeOf_groupBy {key accumulators : Value} {d : Document}
    (h : groupBySpec key accumulators = .ok d) : MadeOf (.doc d) [key, accumulators] := by
  intro f _ hparts
  have hkey : Document.FixedBy f [(.str Key.groupId, key)] :=
    fixedBy_entry (hparts key (by simp)) Document.fixedBy_nil
  unfold groupBySpec at h
  split at h
  · exact Value.fixedBy_doc.mpr (hkey.update (hparts accumulators (by simp)) h)
  · obtain rfl := Except.ok.inj h
    exact Value.fixedBy_doc.mpr hkey

theorem madeOf_bucket {key boundaries fallback output : Value} {d : Document}
    (h : bucketSpec key boundaries fallback output = .ok d) :
    MadeOf (.doc d) [key, boundaries, fallback, output] := by
  intro f _ hparts
  obtain ⟨bounds, hbounds, h⟩ := exists_of_bind_eq_ok h
  obtain rfl := Except.ok.inj h
  have hfallback : fallback.FixedBy f := hparts fallback (by simp)
  have houtput : output.FixedBy f := hparts output (by simp)
  have hfixed : bounds.FixedBy f := fixedBy_listOf (hparts boundaries (by simp)) hbounds
  refine Value.fixedBy_doc.mpr (Document.fixedBy_append.mpr
    ⟨Document.fixedBy_append.mpr ⟨?_, fixedBy_optional hfallback⟩, fixedBy_optional houtput⟩)
  exact fixedBy_entry (hparts key (by simp)) (fixedBy_entry hfixed Document.fixedBy_nil)

theorem madeOf_facet (facets : Value) (subs : List Value) :
    MadeOf (facetSpec facets subs) ((facet facets).arguments ++ subs) := by
  intro f _ hparts
  unfold facetSpec
  split
  · obtain ⟨hargs, hsubs⟩ := List.forall_mem_append.mp hparts
    refine Value.fixedBy_doc.mpr fun e he => ⟨?_, hsubs _ (List.of_mem_zip he).2⟩
    exact hargs _ (List.mem_append_left _ (List.of_mem_zip he).1)
  · rename_i hdoc
    have harguments : (facet facets).arguments = [facets] := by
      rw [arguments]
      exact hdoc
    exact hparts facets (by simp [harguments])

theorem madeOf_unwind (path keepEmpty indexField : Value) :
    MadeOf (.doc (unwindSpec path keepEmpty indexField)) [path, keepEmpty, indexField] := by
  intro f _ hparts
  have hindex : indexField.FixedBy f := hparts indexField (by simp)
  refine Value.fixedBy_doc.mpr (Document.fixedBy_append.mpr
    ⟨Document.fixedBy_append.mpr ⟨?_, fixedBy_optional (Value.fixedBy_scalar _)⟩,
      fixedBy_optional hindex⟩)
  exact fixedBy_entry (hparts path (by simp)) Document.fixedBy_nil

theorem madeOf_lookup (source localField foreignField target : Value) :
    MadeOf (.doc (lookupSpec source localField foreignField target))
      [source, localField, foreignField, target] := by
  intro f _ hparts
  have htarget : Document.FixedBy f [(.str "as", target)] :=
    fixedBy_entry (hparts target (by simp)) Document.fixedBy_nil
  exact Value.fixedBy_doc.mpr (fixedBy_entry (hparts source (by simp)) (fixedBy_entry
    (hparts localField (by simp)) (fixedBy_entry (hparts foreignField (by simp)) htarget)))

theorem madeOf_lookupWith (source documents target bindings : Value) :
    MadeOf (.doc (lookupWithSpec source documents target bindings))
      [source, documents, target, bindings] := by
  intro f _ hparts
  have hbindings : bindings.FixedBy f := hparts bindings (by simp)
  have htarget : Document.FixedBy f [(.str "as", target)] :=
    fixedBy_entry (hparts target (by simp)) Document.fixedBy_nil
  refine Value.fixedBy_doc.mpr (Document.fixedBy_append.mpr ⟨?_, fixedBy_optional hbindings⟩)
  exact fixedBy_entry (hparts source (by simp)) (fixedBy_entry (hparts documents (by simp)) htarget)

theorem madeOf_merge {target on whenMatched whenNotMatched : Value} {d : Document}
    (h : mergeSpec target on whenMatched whenNotMatched = .ok d) :
    MadeOf (.doc d) [target, on, whenMatched, whenNotMatched] := by
  intro f _ hparts
  have hmatched : whenMatched.FixedBy f := hparts whenMatched (by simp)
  have hunmatched : whenNotMatched.FixedBy f := hparts whenNotMatched (by simp)
  have htarget : Document.FixedBy f [(.str "into", target)] :=
    fixedBy_entry (hparts target (by simp)) Document.fixedBy_nil
  have hfixed : ∀ fields : Document, fields.FixedBy f →
      Document.FixedBy f ([(.str "into", target)] ++ fields
        ++ optional whenMatched.isGiven "whenMatched" whenMatched
        ++ optional whenNotMatched.isGiven "whenNotMatched" whenNotMatched) := fun _ hfields =>
    Document.fixedBy_append.mpr ⟨Document.fixedBy_append.mpr
      ⟨Document.fixedBy_append.mpr ⟨htarget, hfields⟩, fixedBy_optional hmatched⟩,
      fixedBy_optional hunmatched⟩
  unfold mergeSpec at h
  dsimp only at h
  split at h
  · obtain ⟨names, hnames, h⟩ := exists_of_bind_eq_ok h
    obtain rfl := Except.ok.inj h
    have hnamesFixed : names.FixedBy f := fixedBy_listOf (hparts on (by simp)) hnames
    exact Value.fixedBy_doc.mpr (hfixed _ (fixedBy_entry hnamesFixed Document.fixedBy_nil))
  · obtain rfl := Except.ok.inj h
    exact Value.fixedBy_doc.mpr (hfixed _ Document.fixedBy_nil)

/-- What a call can add, given the documents of its sub-pipelines: nothing if its filter is missing,
the document of a raw stage, or a stage whose specification is made of its arguments and of these
documents. -/
inductive Adds (subs : List Value) : Call → Option Stage → Prop
  | nothing {c : Call} (h : c.lacksFilter = true) : Adds subs c none
  | document (d : Value) : Adds subs (raw d) (some ⟨.null, d⟩)
  | stage {c : Call} (h : c.lacksFilter = false) (key : String) {spec : Value}
    (hspec : MadeOf spec (c.arguments ++ subs)) : Adds subs c (some (stageOf key spec))

theorem MadeOf.mono {v : Value} {ps qs : List Value} (h : MadeOf v ps) (hsub : ps ⊆ qs) :
    MadeOf v qs :=
  fun f hf hparts => h f hf fun p hp => hparts p (hsub hp)

theorem adds_of_stage {c : Call} {subs : List Value} {r : Option Stage}
    (h : c.stage subs = .ok r) : Adds subs c r := by
  have hadds : ∀ {key : String} {spec : Value}, c.lacksFilter = false →
      MadeOf spec c.arguments → Adds subs c (some (stageOf key spec)) := fun hc hspec =>
    .stage hc _ (MadeOf.mono hspec (List.subset_append_left _ _))
  have hself : ∀ v : Value, MadeOf v [v] := fun v f _ hparts => hparts v (by simp)
  cases c with
  | plain kind spec =>
    obtain rfl := Except.ok.inj h
    exact hadds rfl (hself spec)
  | matching filter =>
    rw [Call.stage] at h
    split at h
    · rename_i hnull
      obtain rfl := Except.ok.inj h
      exact .nothing hnull
    · rename_i hnull
      obtain ⟨d, hd, h⟩ := exists_of_bind_eq_ok h
      obtain rfl := Except.ok.inj h
      refine hadds (Bool.eq_false_iff.mpr hnull) fun f hf hparts => ?_
      exact Filter.fixedBy_compile hf (hparts filter (by simp [arguments])) hd
  | matchDocument query =>
    rw [Call.stage] at h
    split at h
    · rename_i hnull
      obtain rfl := Except.ok.inj h
      exact .nothing hnull
    · rename_i hnull
      obtain ⟨d, hd, h⟩ := exists_of_bind_eq_ok h
      obtain rfl := Except.ok.inj h
      refine hadds (Bool.eq_false_iff.mpr hnull) fun f hf hparts => ?_
      exact Value.fixedBy_doc.mpr ((hparts query (by simp [arguments])).document hd)
  | unset fields =>
    obtain rfl := Except.ok.inj h
    exact hadds rfl (madeOf_unset fields)
  | replaceRoot root =>
    obtain rfl := Except.ok.inj h
    refine hadds rfl fun f _ hparts => ?_
    exact Value.fixedBy_doc.mpr
      (fixedBy_entry (hparts root (by simp [arguments])) Document.fixedBy_nil)
  | groupBy key accumulators =>
    obtain ⟨d, hd, h⟩ := exists_of_bind_eq_ok h
    obtain rfl := Except.ok.inj h
    exact hadds rfl (madeOf_groupBy hd)
  | bucket key boundaries fallback output =>
    obtain ⟨d, hd, h⟩ := exists_of_bind_eq_ok h
    obtain rfl := Except.ok.inj h
    exact hadds rfl (madeOf_bucket hd)
  | facet facets =>
    obtain rfl := Except.ok.inj h
    exact .stage rfl _ (madeOf_facet facets subs)
  | sort spec =>
    obtain ⟨d, hd, h⟩ := exists_of_bind_eq_ok h
    obtain rfl := Except.ok.inj h
    refine hadds rfl fun f _ hparts => ?_
    exact Value.fixedBy_doc.mpr ((hparts spec (by simp [arguments])).document hd)
  | sortBy field direction =>
    obtain ⟨d, hd, h⟩ := exists_of_bind_eq_ok h
    obtain rfl := Except.ok.inj h
    refine hadds rfl fun f _ hparts => ?_
    have hfield : field.FixedBy f := hparts field (by simp [arguments])
    have hdirection : direction.FixedBy f := hparts direction (by simp [arguments])
    exact Value.fixedBy_doc.mpr (Document.fixedBy_nil.add hfield hdirection hd)
  | sample size =>
    obtain rfl := Except.ok.inj h
    refine hadds rfl fun f _ hparts => ?_
    exact Value.fixedBy_doc.mpr
      (fixedBy_entry (hparts size (by simp [arguments])) Document.fixedBy_nil)
  | unwindWith path keepEmpty indexField =>
    obtain rfl := Except.ok.inj h
    exact hadds rfl (madeOf_unwind path keepEmpty indexField)
  | lookup source localField foreignField target =>
    obtain rfl := Except.ok.inj h
    exact hadds rfl (madeOf_lookup source localField foreignField target)
  | lookupWith source pipeline target bindings =>
    obtain rfl := Except.ok.inj h
    refine .stage rfl _ fun f hf hparts => ?_
    obtain ⟨hargs, hsubs⟩ := List.forall_mem_append.mp hparts
    have hdocuments : (subs.headD .null).FixedBy f := by
      cases subs with
      | nil => exact Value.fixedBy_scalar _
      | cons v vs => exact hsubs v (by simp)
    have htarget : target.FixedBy f := hargs target (by simp [arguments])
    have hbindings : bindings.FixedBy f := hargs bindings (by simp [arguments])
    refine madeOf_lookupWith source _ target bindings f hf (List.forall_mem_cons.mpr
      ⟨hargs source (by simp [arguments]), List.forall_mem_cons.mpr ⟨hdocuments, ?_⟩⟩)
    exact List.forall_mem_cons.mpr ⟨htarget, List.forall_mem_singleton.mpr hbindings⟩
  | merge target on whenMatched whenNotMatched =>
    obtain ⟨d, hd, h⟩ := exists_of_bind_eq_ok h
    obtain rfl := Except.ok.inj h
    exact hadds rfl (madeOf_merge hd)
  | raw document =>
    obtain rfl := Except.ok.inj h
    exact .document document

/-! ### The stage of a call -/

/-- A call that holds no stream which compiling its stage would use up. -/
def IsRereadable : Call → Prop
  | raw document => document.afterDocument = document
  | _ => True

/-- The stage of a call refers to what its arguments and the documents of its sub-pipelines refer
to. -/
theorem fixedBy_stage (hf : KeepsUnnamed f) {c : Call} {subs : List Value} {s : Stage}
    (h : c.stage subs = .ok (some s)) (hargs : ∀ v ∈ c.arguments, v.FixedBy f)
    (hsubs : ∀ v ∈ subs, v.FixedBy f) : s.FixedBy f := by
  cases adds_of_stage h with
  | document d =>
    exact Stage.fixedBy_iff.mpr ⟨Value.fixedBy_scalar _, hargs d (by simp [arguments])⟩
  | stage hc key hspec =>
    exact Stage.fixedBy_iff.mpr
      ⟨Value.fixedBy_scalar _, hspec f hf (List.forall_mem_append.mpr ⟨hargs, hsubs⟩)⟩

/-- The operator of an added stage refers to nothing. -/
theorem operator_of_stage {c : Call} {subs : List Value} {s : Stage}
    (h : c.stage subs = .ok (some s)) : ∃ k, s.operator = .scalar k := by
  cases adds_of_stage h with
  | document d => exact ⟨_, rfl⟩
  | stage hc key hspec => exact ⟨_, rfl⟩

/-- Compiling leaves an added stage as it is. -/
theorem afterReading_of_stage {c : Call} {subs : List Value} {s : Stage}
    (hc : c.IsRereadable) (h : c.stage subs = .ok (some s)) : s.afterReading = s := by
  cases adds_of_stage h with
  | document d =>
    have hread : Stage.afterReading ⟨.null, d⟩ = ⟨.null, d.afterDocument⟩ := rfl
    rw [hread, show d.afterDocument = d from hc]
  | stage _ key hspec => exact Stage.afterReading_of_not_isRaw rfl

/-- A call that succeeds adds no stage exactly when its filter is missing. -/
theorem eq_none_iff_lacksFilter {c : Call} {subs : List Value} {r : Option Stage}
    (h : c.stage subs = .ok r) : r = none ↔ c.lacksFilter = true := by
  cases adds_of_stage h with
  | nothing hc => simp [hc]
  | document d => simp [lacksFilter]
  | stage hc key hspec => simp [hc]

end Call

end Pipeline

end DocQuery
