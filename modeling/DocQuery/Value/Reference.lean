import DocQuery.Value.Basic

/-!
# DocQuery.Value.Reference — pipelines inside values

A value may hold pipelines: pipelines of its own, and references to pipelines that have a name.
A reference carries the stages that its pipeline has now.  `Value.refreshed` brings references up
to date after their pipeline has changed, and `Value.detached` makes every one of them a pipeline of
its own, which no later change reaches.
-/

namespace DocQuery

mutual

/-- A value with every pipeline in it changed, inner ones first. -/
def Value.mapPipelines (f : Option String → List Stage → Value) : Value → Value
  | .scalar s => .scalar s
  | .list xs => .list (mapPipelinesItems f xs)
  | .tuple xs => .tuple (mapPipelinesItems f xs)
  | .set xs => .set (mapPipelinesItems f xs)
  | .doc es => .doc (mapPipelinesEntries f es)
  | .stream xs => .stream (mapPipelinesItems f xs)
  | .filter g => .filter (g.mapPipelines f)
  | .update u => .update (u.mapPipelines f)
  | .stage s => .stage (s.mapPipelines f)
  | .pipeline name stages => f name (mapPipelinesStages f stages)

def Filter.mapPipelines (f : Option String → List Stage → Value) : Filter → Filter
  | .comparison k o v => .comparison (k.mapPipelines f) (o.mapPipelines f) (v.mapPipelines f)
  | .pattern k r g => .pattern (k.mapPipelines f) (r.mapPipelines f) (g.mapPipelines f)
  | .elemMatch k i => .elemMatch (k.mapPipelines f) (i.mapPipelines f)
  | .conj c => .conj (c.mapPipelines f)
  | .disj c => .disj (c.mapPipelines f)
  | .neg i => .neg (i.mapPipelines f)

def Update.mapPipelines (f : Option String → List Stage → Value) : Update → Update
  | .assign o k v => .assign (o.mapPipelines f) (k.mapPipelines f) (v.mapPipelines f)
  | .assignAll ps => .assignAll (mapPipelinesEntries f ps)
  | .rename s t => .rename (s.mapPipelines f) (t.mapPipelines f)
  | .combined c => .combined (c.mapPipelines f)

def Stage.mapPipelines (f : Option String → List Stage → Value) : Stage → Stage
  | ⟨o, s⟩ => ⟨o.mapPipelines f, s.mapPipelines f⟩

def mapPipelinesItems (f : Option String → List Stage → Value) : List Value → List Value
  | [] => []
  | x :: xs => x.mapPipelines f :: mapPipelinesItems f xs

def mapPipelinesEntries (f : Option String → List Stage → Value) :
    List (Value × Value) → List (Value × Value)
  | [] => []
  | (k, v) :: es => (k.mapPipelines f, v.mapPipelines f) :: mapPipelinesEntries f es

def mapPipelinesStages (f : Option String → List Stage → Value) : List Stage → List Stage
  | [] => []
  | s :: ss => s.mapPipelines f :: mapPipelinesStages f ss

end

theorem mapPipelinesItems_eq_map (f : Option String → List Stage → Value) (xs : List Value) :
    mapPipelinesItems f xs = xs.map (Value.mapPipelines f) := by
  induction xs with
  | nil => rfl
  | cons x xs ih => rw [mapPipelinesItems, ih, List.map_cons]

theorem mapPipelinesEntries_eq_map (f : Option String → List Stage → Value)
    (es : List (Value × Value)) :
    mapPipelinesEntries f es = es.map fun e => (e.1.mapPipelines f, e.2.mapPipelines f) := by
  induction es with
  | nil => rfl
  | cons e es ih => rw [mapPipelinesEntries, ih, List.map_cons]

theorem mapPipelinesStages_eq_map (f : Option String → List Stage → Value) (ss : List Stage) :
    mapPipelinesStages f ss = ss.map (Stage.mapPipelines f) := by
  induction ss with
  | nil => rfl
  | cons s ss ih => rw [mapPipelinesStages, ih, List.map_cons]

/-! ### References -/

/-- A pipeline without its name. -/
def unnamed (_ : Option String) (stages : List Stage) : Value := .pipeline none stages

/-- A value that refers to no named pipeline and is otherwise the same, to the order of its sets. -/
def Value.detached (v : Value) : Value := v.mapPipelines unnamed

/-- A document that refers to no named pipeline and is otherwise the same. -/
def Document.detached (d : Document) : Document := mapPipelinesEntries unnamed d

/-- The stages of a reference: new ones if it refers to `name`, its own otherwise. -/
def refresh (name : String) (stages : List Stage) (n : Option String) (own : List Stage) : Value :=
  .pipeline n (if n = some name then stages else own)

/-- A stage after the pipeline of a name has got new stages. -/
def Stage.refreshed (name : String) (stages : List Stage) (s : Stage) : Stage :=
  s.mapPipelines (refresh name stages)

end DocQuery
