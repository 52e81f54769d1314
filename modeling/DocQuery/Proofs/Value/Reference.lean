import DocQuery.Proofs.Result
import DocQuery.Proofs.Value.Parts
import DocQuery.Value.Reading

/-!
# DocQuery.Proofs.Value.Reference — values that a change of pipelines leaves alone

`Value.FixedBy f` says that a value has no pipeline that the change `f` touches: what it refers to
is up to date, or it refers to nothing.  Whatever is read out of such values is fixed as well.  A
copy refers to nothing, so every change that leaves pipelines without a name alone fixes it
(`Value.fixedBy_copy`).
-/

namespace DocQuery

/-- The change of pipelines leaves those without a name alone. -/
def KeepsUnnamed (f : Option String → List Stage → Value) : Prop :=
  ∀ stages, f none stages = .pipeline none stages

variable {f g h : Option String → List Stage → Value}

mutual

/-- Two changes of pipelines, one after the other, are one change if they are so on every
pipeline. -/
theorem Value.mapPipelines_mapPipelines
    (hfg : ∀ n ss, (f n ss).mapPipelines g = h n (mapPipelinesStages g ss)) (v : Value) :
    (v.mapPipelines f).mapPipelines g = v.mapPipelines h := by
  match v with
  | .scalar s => rfl
  | .list xs | .tuple xs | .set xs | .stream xs =>
    simp only [Value.mapPipelines, mapPipelinesItems_mapPipelinesItems hfg xs]
  | .doc es => simp only [Value.mapPipelines, mapPipelinesEntries_mapPipelinesEntries hfg es]
  | .filter k => simp only [Value.mapPipelines, Filter.mapPipelines_mapPipelines hfg k]
  | .update u => simp only [Value.mapPipelines, Update.mapPipelines_mapPipelines hfg u]
  | .stage s => simp only [Value.mapPipelines, Stage.mapPipelines_mapPipelines hfg s]
  | .pipeline name stages =>
    simp only [Value.mapPipelines, hfg, mapPipelinesStages_mapPipelinesStages hfg stages]

theorem Filter.mapPipelines_mapPipelines
    (hfg : ∀ n ss, (f n ss).mapPipelines g = h n (mapPipelinesStages g ss)) (k : Filter) :
    (k.mapPipelines f).mapPipelines g = k.mapPipelines h := by
  match k with
  | .comparison k o v | .pattern k o v =>
    simp only [Filter.mapPipelines, Value.mapPipelines_mapPipelines hfg k,
      Value.mapPipelines_mapPipelines hfg o, Value.mapPipelines_mapPipelines hfg v]
  | .elemMatch k i =>
    simp only [Filter.mapPipelines, Value.mapPipelines_mapPipelines hfg k,
      Value.mapPipelines_mapPipelines hfg i]
  | .conj c | .disj c | .neg c =>
    simp only [Filter.mapPipelines, Value.mapPipelines_mapPipelines hfg c]

theorem Update.mapPipelines_mapPipelines
    (hfg : ∀ n ss, (f n ss).mapPipelines g = h n (mapPipelinesStages g ss)) (u : Update) :
    (u.mapPipelines f).mapPipelines g = u.mapPipelines h := by
  match u with
  | .assign o k v =>
    simp only [Update.mapPipelines, Value.mapPipelines_mapPipelines hfg o,
      Value.mapPipelines_mapPipelines hfg k, Value.mapPipelines_mapPipelines hfg v]
  | .assignAll ps =>
    simp only [Update.mapPipelines, mapPipelinesEntries_mapPipelinesEntries hfg ps]
  | .rename s t =>
    simp only [Update.mapPipelines, Value.mapPipelines_mapPipelines hfg s,
      Value.mapPipelines_mapPipelines hfg t]
  | .combined c => simp only [Update.mapPipelines, Value.mapPipelines_mapPipelines hfg c]

theorem Stage.mapPipelines_mapPipelines
    (hfg : ∀ n ss, (f n ss).mapPipelines g = h n (mapPipelinesStages g ss)) (s : Stage) :
    (s.mapPipelines f).mapPipelines g = s.mapPipelines h := by
  match s with
  | ⟨o, v⟩ =>
    simp only [Stage.mapPipelines, Value.mapPipelines_mapPipelines hfg o,
      Value.mapPipelines_mapPipelines hfg v]

theorem mapPipelinesItems_mapPipelinesItems
    (hfg : ∀ n ss, (f n ss).mapPipelines g = h n (mapPipelinesStages g ss)) (xs : List Value) :
    mapPipelinesItems g (mapPipelinesItems f xs) = mapPipelinesItems h xs := by
  match xs with
  | [] => rfl
  | x :: xs =>
    simp only [mapPipelinesItems, Value.mapPipelines_mapPipelines hfg x,
      mapPipelinesItems_mapPipelinesItems hfg xs]

theorem mapPipelinesEntries_mapPipelinesEntries
    (hfg : ∀ n ss, (f n ss).mapPipelines g = h n (mapPipelinesStages g ss))
    (es : List (Value × Value)) :
    mapPipelinesEntries g (mapPipelinesEntries f es) = mapPipelinesEntries h es := by
  match es with
  | [] => rfl
  | (k, v) :: es =>
    simp only [mapPipelinesEntries, Value.mapPipelines_mapPipelines hfg k,
      Value.mapPipelines_mapPipelines hfg v, mapPipelinesEntries_mapPipelinesEntries hfg es]

theorem mapPipelinesStages_mapPipelinesStages
    (hfg : ∀ n ss, (f n ss).mapPipelines g = h n (mapPipelinesStages g ss)) (ss : List Stage) :
    mapPipelinesStages g (mapPipelinesStages f ss) = mapPipelinesStages h ss := by
  match ss with
  | [] => rfl
  | s :: ss =>
    simp only [mapPipelinesStages, Stage.mapPipelines_mapPipelines hfg s,
      mapPipelinesStages_mapPipelinesStages hfg ss]

end

theorem KeepsUnnamed.mapPipelines_unnamed (hf : KeepsUnnamed f) (n : Option String)
    (ss : List Stage) :
    (unnamed n ss).mapPipelines f = unnamed n (mapPipelinesStages f ss) :=
  hf _

theorem Value.mapPipelines_unnamed (hf : KeepsUnnamed f) (v : Value) :
    (v.mapPipelines unnamed).mapPipelines f = v.mapPipelines unnamed :=
  v.mapPipelines_mapPipelines hf.mapPipelines_unnamed

theorem Stage.mapPipelines_unnamed (hf : KeepsUnnamed f) (s : Stage) :
    (s.mapPipelines unnamed).mapPipelines f = s.mapPipelines unnamed :=
  s.mapPipelines_mapPipelines hf.mapPipelines_unnamed

theorem mapPipelinesEntries_unnamed (hf : KeepsUnnamed f) (es : List (Value × Value)) :
    mapPipelinesEntries f (mapPipelinesEntries unnamed es) = mapPipelinesEntries unnamed es :=
  mapPipelinesEntries_mapPipelinesEntries hf.mapPipelines_unnamed es

theorem keepsUnnamed_unnamed : KeepsUnnamed unnamed := fun _ => rfl

theorem keepsUnnamed_refresh (name : String) (stages : List Stage) :
    KeepsUnnamed (refresh name stages) :=
  fun own => by rw [refresh, if_neg (nofun : none ≠ some name)]

@[simp] theorem Value.detached_detached (v : Value) : v.detached.detached = v.detached :=
  v.mapPipelines_unnamed keepsUnnamed_unnamed

/-! ### Fixed values -/

variable (f) in
/-- The change of pipelines leaves the value as it is. -/
def Value.FixedBy (v : Value) : Prop := v.mapPipelines f = v

variable (f) in
def Filter.FixedBy (g : Filter) : Prop := g.mapPipelines f = g

variable (f) in
def Stage.FixedBy (s : Stage) : Prop := s.mapPipelines f = s

variable (f) in
/-- The change of pipelines leaves keys and values as they are. -/
def Document.FixedBy (d : Document) : Prop := ∀ e ∈ d, e.1.FixedBy f ∧ e.2.FixedBy f

@[simp] theorem Document.fixedBy_nil : Document.FixedBy f [] := by simp [FixedBy]

@[simp] theorem Document.fixedBy_cons {e : Value × Value} {d : Document} :
    Document.FixedBy f (e :: d) ↔ (e.1.FixedBy f ∧ e.2.FixedBy f) ∧ Document.FixedBy f d :=
  List.forall_mem_cons

@[simp] theorem Document.fixedBy_append {d e : Document} :
    Document.FixedBy f (d ++ e) ↔ Document.FixedBy f d ∧ Document.FixedBy f e :=
  List.forall_mem_append

namespace Value

@[simp] theorem fixedBy_scalar (s : Scalar) : (Value.scalar s).FixedBy f := rfl

theorem mapPipelinesItems_eq_self {xs : List Value} :
    mapPipelinesItems f xs = xs ↔ ∀ x ∈ xs, x.FixedBy f := by
  induction xs with
  | nil => simp [mapPipelinesItems]
  | cons x xs ih => simp [mapPipelinesItems, ih, FixedBy]

theorem mapPipelinesEntries_eq_self {d : Document} :
    mapPipelinesEntries f d = d ↔ d.FixedBy f := by
  induction d with
  | nil => simp [mapPipelinesEntries, Document.FixedBy]
  | cons e d ih =>
    obtain ⟨k, v⟩ := e
    rw [mapPipelinesEntries, List.cons.injEq, Prod.mk.injEq, ih, Document.fixedBy_cons]
    rfl

@[simp] theorem fixedBy_list {xs : List Value} :
    (Value.list xs).FixedBy f ↔ ∀ x ∈ xs, x.FixedBy f := by
  rw [FixedBy, mapPipelines, Value.list.injEq, mapPipelinesItems_eq_self]

@[simp] theorem fixedBy_tuple {xs : List Value} :
    (Value.tuple xs).FixedBy f ↔ ∀ x ∈ xs, x.FixedBy f := by
  rw [FixedBy, mapPipelines, Value.tuple.injEq, mapPipelinesItems_eq_self]

@[simp] theorem fixedBy_set {xs : List Value} :
    (Value.set xs).FixedBy f ↔ ∀ x ∈ xs, x.FixedBy f := by
  rw [FixedBy, mapPipelines, Value.set.injEq, mapPipelinesItems_eq_self]

@[simp] theorem fixedBy_stream {xs : List Value} :
    (Value.stream xs).FixedBy f ↔ ∀ x ∈ xs, x.FixedBy f := by
  rw [FixedBy, mapPipelines, Value.stream.injEq, mapPipelinesItems_eq_self]

@[simp] theorem fixedBy_doc {d : Document} : (Value.doc d).FixedBy f ↔ d.FixedBy f := by
  rw [FixedBy, mapPipelines, Value.doc.injEq, mapPipelinesEntries_eq_self]

@[simp] theorem fixedBy_filter {g : Filter} : (Value.filter g).FixedBy f ↔ g.FixedBy f := by
  rw [FixedBy, mapPipelines, Value.filter.injEq, Filter.FixedBy]

theorem mapPipelinesStages_eq_self {ss : List Stage} :
    mapPipelinesStages f ss = ss ↔ ∀ s ∈ ss, s.FixedBy f := by
  induction ss with
  | nil => simp [mapPipelinesStages]
  | cons s ss ih => simp [mapPipelinesStages, ih, Stage.FixedBy]

theorem fixedBy_pipeline_none (hf : KeepsUnnamed f) {ss : List Stage} :
    (Value.pipeline none ss).FixedBy f ↔ ∀ s ∈ ss, s.FixedBy f := by
  rw [FixedBy, mapPipelines, hf, Value.pipeline.injEq, mapPipelinesStages_eq_self]
  simp

/-- A copy refers to nothing. -/
theorem fixedBy_copy (hf : KeepsUnnamed f) {v w : Value} (h : v.copy = .ok w) : w.FixedBy f := by
  unfold copy at h
  split at h
  · obtain rfl := Except.ok.inj h
    exact v.mapPipelines_unnamed hf
  · cases h

/-- A value that refers to nothing is fixed. -/
theorem FixedBy.of_detached (hf : KeepsUnnamed f) {v : Value} (h : v.detached = v) :
    v.FixedBy f := by
  rw [← h]
  exact v.mapPipelines_unnamed hf

/-! ### Nodes -/

/-- The fields of a node are changed with it. -/
theorem nodeParts?_mapPipelines (f : Option String → List Stage → Value) {v : Value}
    {xs : List Value} (hv : v.nodeParts? = some xs) :
    (v.mapPipelines f).nodeParts? = some (xs.map (mapPipelines f)) := by
  unfold nodeParts? at hv
  split at hv <;> cases hv <;>
    simp [mapPipelines, Filter.mapPipelines, Update.mapPipelines, Stage.mapPipelines, nodeParts?,
      mapPipelinesEntries_eq_map, List.map_flatMap, List.flatMap_map]

theorem kind_mapPipelines (f : Option String → List Stage → Value) {v : Value} {xs : List Value}
    (hv : v.nodeParts? = some xs) : (v.mapPipelines f).kind = v.kind := by
  unfold nodeParts? at hv
  split at hv <;> cases hv <;> rfl

/-! ### Readings of fixed values -/

theorem FixedBy.items {v : Value} {xs : List Value} (h : v.FixedBy f) (hxs : v.items? = .ok xs) :
    ∀ x ∈ xs, x.FixedBy f := by
  cases v with
  | scalar s =>
    intro x hx
    cases hs : s.items? with
    | error e => simp [items?, hs, Except.map] at hxs
    | ok ys =>
      simp only [items?, hs, Except.map, Except.ok.injEq] at hxs
      subst hxs
      obtain ⟨y, -, rfl⟩ := List.mem_map.mp hx
      exact fixedBy_scalar y
  | list ys =>
    obtain rfl := Except.ok.inj hxs
    exact fixedBy_list.mp h
  | tuple ys =>
    obtain rfl := Except.ok.inj hxs
    exact fixedBy_tuple.mp h
  | set ys =>
    obtain rfl := Except.ok.inj hxs
    exact fixedBy_set.mp h
  | stream ys =>
    obtain rfl := Except.ok.inj hxs
    exact fixedBy_stream.mp h
  | doc es =>
    obtain rfl := Except.ok.inj hxs
    intro x hx
    obtain ⟨e, he, rfl⟩ := List.mem_map.mp hx
    exact (fixedBy_doc.mp h e he).1
  | filter | update | stage | pipeline => cases hxs

end Value

theorem Stage.fixedBy_iff {s : Stage} :
    s.FixedBy f ↔ s.operator.FixedBy f ∧ s.spec.FixedBy f := by
  cases s
  rw [Stage.FixedBy, Stage.mapPipelines, Stage.mk.injEq]
  rfl

/-- A stage that refers to nothing is fixed. -/
theorem Stage.FixedBy.of_unnamed (hf : KeepsUnnamed f) {s : Stage} (h : s.FixedBy unnamed) :
    s.FixedBy f := by
  rw [← show s.mapPipelines unnamed = s from h]
  exact s.mapPipelines_unnamed hf

namespace Document

variable {d d' : Document}

theorem FixedBy.insert (hd : d.FixedBy f) {k v : Value} (hk : k.FixedBy f) (hv : v.FixedBy f) :
    (d.insert k v).FixedBy f := by
  induction d with
  | nil => exact fixedBy_cons.mpr ⟨⟨hk, hv⟩, hd⟩
  | cons e d ih =>
    obtain ⟨he, hd⟩ := fixedBy_cons.mp hd
    unfold Document.insert
    split
    · exact fixedBy_cons.mpr ⟨⟨he.1, hv⟩, hd⟩
    · exact fixedBy_cons.mpr ⟨he, ih hd⟩

theorem FixedBy.add (hd : d.FixedBy f) {k v : Value} (hk : k.FixedBy f) (hv : v.FixedBy f)
    (h : d.add k v = .ok d') : d'.FixedBy f := by
  obtain ⟨-, -, h⟩ := exists_of_bind_eq_ok h
  obtain rfl := Except.ok.inj h
  exact hd.insert hk hv

theorem FixedBy.extend (hd : d.FixedBy f) {es : Document} (hes : es.FixedBy f) :
    (d.extend es).FixedBy f := by
  induction es generalizing d with
  | nil => exact hd
  | cons e es ih =>
    obtain ⟨he, hes⟩ := fixedBy_cons.mp hes
    exact ih (hd.insert he.1 he.2) hes

theorem FixedBy.addItem (hd : d.FixedBy f) {x : Value} (hx : x.FixedBy f)
    (h : d.addItem x = .ok d') : d'.FixedBy f := by
  obtain ⟨p, hp, h⟩ := exists_of_bind_eq_ok h
  obtain ⟨ys, hys, hp⟩ := exists_of_bind_eq_ok hp
  have hfixed := hx.items hys
  split at hp
  · obtain rfl := Except.ok.inj hp
    exact hd.add (hfixed _ (by simp)) (hfixed _ (by simp)) h
  · cases hp

theorem FixedBy.addItems (hd : d.FixedBy f) {xs : List Value} (hxs : ∀ x ∈ xs, x.FixedBy f)
    (h : d.addItems xs = .ok d') : d'.FixedBy f := by
  induction xs generalizing d with
  | nil =>
    obtain rfl := Except.ok.inj h
    exact hd
  | cons x xs ih =>
    obtain ⟨hx, hxs⟩ := List.forall_mem_cons.mp hxs
    rw [Document.addItems, List.foldlM_cons] at h
    obtain ⟨d'', hd'', h⟩ := exists_of_bind_eq_ok h
    exact ih (hd.addItem hx hd'') hxs h

theorem FixedBy.update (hd : d.FixedBy f) {v : Value} (hv : v.FixedBy f)
    (h : d.update v = .ok d') : d'.FixedBy f := by
  unfold Document.update at h
  split at h
  · obtain rfl := Except.ok.inj h
    exact hd.extend (Value.fixedBy_doc.mp hv)
  · obtain ⟨xs, hxs, h⟩ := exists_of_bind_eq_ok h
    exact hd.addItems (hv.items hxs) h

end Document

theorem Value.FixedBy.document {v : Value} {d : Document} (hv : v.FixedBy f)
    (h : v.document? = .ok d) : d.FixedBy f := by
  unfold Value.document? at h
  split at h
  · obtain rfl := Except.ok.inj h
    exact Value.fixedBy_doc.mp hv
  · obtain ⟨xs, hxs, h⟩ := exists_of_bind_eq_ok h
    exact Document.fixedBy_nil.addItems (hv.items hxs) h

/-- A copy of a document refers to nothing. -/
theorem Document.fixedBy_copy (hf : KeepsUnnamed f) {d e : Document} (h : d.copy = .ok e) :
    e.FixedBy f := by
  unfold Document.copy at h
  split at h
  · obtain rfl := Except.ok.inj h
    exact Value.mapPipelinesEntries_eq_self.mp (mapPipelinesEntries_unnamed hf d)
  · cases h

end DocQuery
