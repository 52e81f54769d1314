import DocQuery.Pipeline.Stage
import DocQuery.Proofs.Value.KeyEquality
import DocQuery.Proofs.Value.Reference

/-!
# DocQuery.Proofs.Value.Refreshed — values that follow a named pipeline

Bringing the references to a pipeline up to date changes the stages of these references and nothing
else, so it cannot make a value a key or take it the right to be one, and what a reading leaves of
the value is refreshed with it.  `Stage.Avoids` says that a stage refers to a pipeline nowhere,
however deep; two lists of stages suffice to test it (`Stage.avoids_of_probes`).  A stage that is up
to date with a pipeline contains the stages of that pipeline, so what it avoids they avoid as well,
unless it does not refer to the pipeline at all (`Stage.Avoids.of_current`).
-/

namespace DocQuery

variable {name other : String} {X Y : List Stage}

/-! ### Refreshing twice -/

theorem Stage.refreshed_refreshed (s : Stage) :
    (s.refreshed name X).refreshed name Y = s.refreshed name Y := by
  refine s.mapPipelines_mapPipelines fun n ss => ?_
  rw [refresh, refresh, Value.mapPipelines, refresh]
  split <;> simp_all

/-- New stages of two pipelines come in either order if those of one carry those of the other. -/
theorem Stage.refreshed_comm (hne : other ≠ name)
    (hX : ∀ x ∈ X, x.FixedBy (refresh other (Y.map (Stage.refreshed name X)))) (s : Stage) :
    (s.refreshed name X).refreshed other (Y.map (Stage.refreshed name X))
      = (s.refreshed other Y).refreshed name X := by
  let both (n : Option String) (ss : List Stage) : Value :=
    .pipeline n (if n = some name then X
      else if n = some other then Y.map (Stage.refreshed name X) else ss)
  have hleft : (s.refreshed name X).refreshed other (Y.map (Stage.refreshed name X))
      = s.mapPipelines both := by
    refine s.mapPipelines_mapPipelines fun n ss => ?_
    rw [refresh, Value.mapPipelines, refresh]
    by_cases hn : n = some name
    · subst hn
      rw [if_pos rfl, if_neg (by simpa using hne.symm), Value.mapPipelinesStages_eq_self.mpr hX]
      simp [both]
    · simp [both, hn]
  have hright : (s.refreshed other Y).refreshed name X = s.mapPipelines both := by
    refine s.mapPipelines_mapPipelines fun n ss => ?_
    rw [refresh, Value.mapPipelines, refresh]
    by_cases hn : n = some name
    · simp [both, hn]
    · by_cases ho : n = some other
      · rw [if_neg hn, if_pos ho, mapPipelinesStages_eq_map]
        simp only [both, if_neg hn, if_pos ho]
        rfl
      · simp [both, hn, ho]
  rw [hleft, hright]

/-! ### Stages that do not refer to a pipeline -/

/-- The stage refers to the pipeline nowhere. -/
def Stage.Avoids (name : String) (s : Stage) : Prop :=
  ∀ stages, s.FixedBy (refresh name stages)

/-- The value refers to the pipeline nowhere. -/
def Value.Avoids (name : String) (v : Value) : Prop :=
  ∀ stages, v.FixedBy (refresh name stages)

mutual

/-- A value that does not tell two lists of stages apart has no place for them. -/
theorem Value.refresh_eq_self (hXY : X ≠ Y) (v : Value)
    (h : v.mapPipelines (refresh name X) = v.mapPipelines (refresh name Y)) (Z : List Stage) :
    v.mapPipelines (refresh name Z) = v := by
  match v with
  | .scalar s => rfl
  | .list xs | .tuple xs | .set xs | .stream xs =>
    simp only [Value.mapPipelines, Value.list.injEq, Value.tuple.injEq, Value.set.injEq,
      Value.stream.injEq] at h ⊢
    exact mapPipelinesItems_refresh_eq_self hXY xs h Z
  | .doc es =>
    simp only [Value.mapPipelines, Value.doc.injEq] at h ⊢
    exact mapPipelinesEntries_refresh_eq_self hXY es h Z
  | .filter g =>
    simp only [Value.mapPipelines, Value.filter.injEq] at h ⊢
    exact Filter.refresh_eq_self hXY g h Z
  | .update u =>
    simp only [Value.mapPipelines, Value.update.injEq] at h ⊢
    exact Update.refresh_eq_self hXY u h Z
  | .stage s =>
    simp only [Value.mapPipelines, Value.stage.injEq] at h ⊢
    exact Stage.refresh_eq_self hXY s h Z
  | .pipeline n ss =>
    by_cases hn : n = some name
    · simp only [Value.mapPipelines, refresh, if_pos hn, Value.pipeline.injEq, true_and] at h
      exact absurd h hXY
    · simp only [Value.mapPipelines, refresh, if_neg hn, Value.pipeline.injEq, true_and] at h ⊢
      exact mapPipelinesStages_refresh_eq_self hXY ss h Z

theorem Filter.refresh_eq_self (hXY : X ≠ Y) (g : Filter)
    (h : g.mapPipelines (refresh name X) = g.mapPipelines (refresh name Y)) (Z : List Stage) :
    g.mapPipelines (refresh name Z) = g := by
  match g with
  | .comparison k o v | .pattern k o v =>
    simp only [Filter.mapPipelines, Filter.comparison.injEq, Filter.pattern.injEq] at h ⊢
    obtain ⟨hk, ho, hv⟩ := h
    exact ⟨k.refresh_eq_self hXY hk Z, o.refresh_eq_self hXY ho Z, v.refresh_eq_self hXY hv Z⟩
  | .elemMatch k i =>
    simp only [Filter.mapPipelines, Filter.elemMatch.injEq] at h ⊢
    exact ⟨k.refresh_eq_self hXY h.1 Z, i.refresh_eq_self hXY h.2 Z⟩
  | .conj c | .disj c | .neg c =>
    simp only [Filter.mapPipelines, Filter.conj.injEq, Filter.disj.injEq, Filter.neg.injEq] at h ⊢
    exact c.refresh_eq_self hXY h Z

theorem Update.refresh_eq_self (hXY : X ≠ Y) (u : Update)
    (h : u.mapPipelines (refresh name X) = u.mapPipelines (refresh name Y)) (Z : List Stage) :
    u.mapPipelines (refresh name Z) = u := by
  match u with
  | .assign o k v =>
    simp only [Update.mapPipelines, Update.assign.injEq] at h ⊢
    obtain ⟨ho, hk, hv⟩ := h
    exact ⟨o.refresh_eq_self hXY ho Z, k.refresh_eq_self hXY hk Z, v.refresh_eq_self hXY hv Z⟩
  | .assignAll ps =>
    simp only [Update.mapPipelines, Update.assignAll.injEq] at h ⊢
    exact mapPipelinesEntries_refresh_eq_self hXY ps h Z
  | .rename s t =>
    simp only [Update.mapPipelines, Update.rename.injEq] at h ⊢
    exact ⟨s.refresh_eq_self hXY h.1 Z, t.refresh_eq_self hXY h.2 Z⟩
  | .combined c =>
    simp only [Update.mapPipelines, Update.combined.injEq] at h ⊢
    exact c.refresh_eq_self hXY h Z

theorem Stage.refresh_eq_self (hXY : X ≠ Y) (s : Stage)
    (h : s.mapPipelines (refresh name X) = s.mapPipelines (refresh name Y)) (Z : List Stage) :
    s.mapPipelines (refresh name Z) = s := by
  match s with
  | ⟨o, v⟩ =>
    simp only [Stage.mapPipelines, Stage.mk.injEq] at h ⊢
    exact ⟨o.refresh_eq_self hXY h.1 Z, v.refresh_eq_self hXY h.2 Z⟩

theorem mapPipelinesItems_refresh_eq_self (hXY : X ≠ Y) (xs : List Value)
    (h : mapPipelinesItems (refresh name X) xs = mapPipelinesItems (refresh name Y) xs)
    (Z : List Stage) : mapPipelinesItems (refresh name Z) xs = xs := by
  match xs with
  | [] => rfl
  | x :: xs =>
    simp only [mapPipelinesItems, List.cons.injEq] at h ⊢
    exact ⟨x.refresh_eq_self hXY h.1 Z, mapPipelinesItems_refresh_eq_self hXY xs h.2 Z⟩

theorem mapPipelinesEntries_refresh_eq_self (hXY : X ≠ Y) (es : List (Value × Value))
    (h : mapPipelinesEntries (refresh name X) es = mapPipelinesEntries (refresh name Y) es)
    (Z : List Stage) : mapPipelinesEntries (refresh name Z) es = es := by
  match es with
  | [] => rfl
  | (k, v) :: es =>
    simp only [mapPipelinesEntries, List.cons.injEq, Prod.mk.injEq] at h ⊢
    obtain ⟨⟨hk, hv⟩, hes⟩ := h
    exact ⟨⟨k.refresh_eq_self hXY hk Z, v.refresh_eq_self hXY hv Z⟩,
      mapPipelinesEntries_refresh_eq_self hXY es hes Z⟩

theorem mapPipelinesStages_refresh_eq_self (hXY : X ≠ Y) (ss : List Stage)
    (h : mapPipelinesStages (refresh name X) ss = mapPipelinesStages (refresh name Y) ss)
    (Z : List Stage) : mapPipelinesStages (refresh name Z) ss = ss := by
  match ss with
  | [] => rfl
  | s :: ss =>
    simp only [mapPipelinesStages, List.cons.injEq] at h ⊢
    exact ⟨s.refresh_eq_self hXY h.1 Z, mapPipelinesStages_refresh_eq_self hXY ss h.2 Z⟩

end

/-- Two lists of stages that refer to nothing. -/
def probes : List (List Stage) := [[], [⟨.null, .null⟩]]

theorem fixedBy_of_mem_probes {f : Option String → List Stage → Value} {Z : List Stage}
    (hZ : Z ∈ probes) : ∀ s ∈ Z, s.FixedBy f := by
  simp only [probes, List.mem_cons, List.not_mem_nil, or_false] at hZ
  obtain rfl | rfl := hZ
  · simp
  · exact List.forall_mem_singleton.mpr rfl

theorem Stage.avoids_of_probes {s : Stage} (h : ∀ Z ∈ probes, s.FixedBy (refresh name Z)) :
    s.Avoids name := by
  have hempty : s.mapPipelines (refresh name []) = s := h [] (by simp [probes])
  have hblank : s.mapPipelines (refresh name [⟨.null, .null⟩]) = s := h _ (by simp [probes])
  exact s.refresh_eq_self (List.cons_ne_nil _ _).symm (hempty.trans hblank.symm)

/-- What a stage avoids, the stages of the pipelines that it is up to date with avoid as well. -/
theorem Stage.Avoids.of_current {s : Stage} (hs : s.Avoids name) (hne : other ≠ name)
    (hcurrent : s.FixedBy (refresh other Y)) : s.Avoids other ∨ ∀ t ∈ Y, t.Avoids name := by
  refine or_iff_not_imp_left.mpr fun hother t ht => avoids_of_probes fun Z hZ => ?_
  have hfixed : s.FixedBy (refresh other (Y.map (Stage.refreshed name Z))) :=
    calc s.refreshed other (Y.map (Stage.refreshed name Z))
        = (s.refreshed name Z).refreshed other (Y.map (Stage.refreshed name Z)) := by
          rw [show s.refreshed name Z = s from hs Z]
      _ = (s.refreshed other Y).refreshed name Z :=
          refreshed_comm hne (fixedBy_of_mem_probes hZ) s
      _ = s := by
          rw [show s.refreshed other Y = s from hcurrent]
          exact hs Z
  -- otherwise the stage would not tell the two lists apart, and so not refer to the pipeline
  have hY : Y = Y.map (Stage.refreshed name Z) := by
    by_contra hY
    exact hother (s.refresh_eq_self hY (hcurrent.trans hfixed.symm))
  have hsame : mapPipelinesStages (refresh name Z) Y = Y :=
    (mapPipelinesStages_eq_map ..).trans hY.symm
  exact Value.mapPipelinesStages_eq_self.mp hsame t ht

/-- New stages of another pipeline that avoid a pipeline do not bring it in. -/
theorem Stage.Avoids.refreshed {s : Stage} (hs : s.Avoids other) (hne : other ≠ name)
    (hX : ∀ x ∈ X, x.Avoids other) : (s.refreshed name X).Avoids other := by
  refine avoids_of_probes fun Z hZ => ?_
  have hprobe : Z.map (Stage.refreshed name X) = Z :=
    (mapPipelinesStages_eq_map ..).symm.trans
      (Value.mapPipelinesStages_eq_self.mpr (fixedBy_of_mem_probes hZ))
  calc (s.refreshed name X).refreshed other Z
      = (s.refreshed name X).refreshed other (Z.map (Stage.refreshed name X)) := by rw [hprobe]
    _ = (s.refreshed other Z).refreshed name X :=
        refreshed_comm hne (fun x hx => hX x hx _) s
    _ = s.refreshed name X := by rw [show s.refreshed other Z = s from hs Z]

/-! ### Readings of refreshed values -/

theorem Value.isHashable_refresh (v : Value) :
    (v.mapPipelines (refresh name X)).IsHashable ↔ v.IsHashable := by
  induction v using part_induction with
  | step v ih =>
    have hitems : ∀ xs, (∀ x ∈ xs, v.HasPart x) →
        (unhashableItem? (xs.map (mapPipelines (refresh name X))) = none
          ↔ unhashableItem? xs = none) := by
      intro xs hxs
      rw [unhashableItem?_eq_none_iff, unhashableItem?_eq_none_iff, List.forall_mem_map]
      exact forall₂_congr fun x hx => ih x (hxs x hx)
    cases v.shape with
    | scalar s => rfl
    | list xs | set xs | doc d => exact iff_of_false nofun nofun
    | tuple xs =>
      have htuple := hitems xs fun x hx => .tupleItem hx
      rwa [← mapPipelinesItems_eq_map] at htuple
    | stream xs | pipeline n stages => rfl
    | node hv =>
      rw [IsHashable, IsHashable, unhashable?_node (nodeParts?_mapPipelines _ hv),
        unhashable?_node hv]
      exact hitems _ fun x hx => .field hv hx

namespace Value

theorem items?_refresh (v : Value) :
    (v.mapPipelines (refresh name X)).items?
      = v.items?.map fun xs => xs.map (mapPipelines (refresh name X)) := by
  cases v with
  | scalar s =>
    rw [mapPipelines, items?]
    cases s.items? with
    | error e => rfl
    | ok xs =>
      have hscalars : (xs.map scalar).map (mapPipelines (refresh name X)) = xs.map scalar :=
        List.map_map
      exact congrArg Except.ok hscalars.symm
  | list xs | tuple xs | set xs | stream xs =>
    exact congrArg Except.ok (mapPipelinesItems_eq_map _ xs)
  | doc es =>
    have hkeys : (mapPipelinesEntries (refresh name X) es).map (·.1)
        = (es.map (·.1)).map (mapPipelines (refresh name X)) := by
      induction es with
      | nil => rfl
      | cons e es ih => exact congrArg (List.cons _) ih
    exact congrArg Except.ok hkeys
  | filter | update | stage | pipeline => rfl

theorem pair?_refresh (v : Value) :
    (v.mapPipelines (refresh name X)).pair?
      = v.pair?.map fun p =>
          (p.1.mapPipelines (refresh name X), p.2.mapPipelines (refresh name X)) := by
  unfold pair?
  rw [items?_refresh]
  cases v.items? with
  | error e => rfl
  | ok xs => rcases xs with _ | ⟨a, _ | ⟨b, _ | ⟨c, xs⟩⟩⟩ <;> rfl

end Value

namespace Document

/-- Whether an item is taken does not depend on the document, nor on what pipelines have become. -/
theorem isOk_addItem_refresh (d e : Document) (x : Value) :
    (d.addItem (x.mapPipelines (refresh name X))).isOk = (e.addItem x).isOk := by
  unfold addItem
  rw [Value.pair?_refresh]
  cases x.pair? with
  | error e => rfl
  | ok p =>
    have hkey := @Value.isHashable_refresh name X p.1
    change (d.add (p.1.mapPipelines (refresh name X)) (p.2.mapPipelines (refresh name X))).isOk
      = (e.add p.1 p.2).isOk
    unfold add Value.requireHashable
    cases hp : p.1.unhashable? with
    | none =>
      rw [hkey.mpr hp]
      rfl
    | some part =>
      cases hq : (p.1.mapPipelines (refresh name X)).unhashable? with
      | none =>
        rw [hkey.mp hq] at hp
        cases hp
      | some part' => rfl

theorem taken_refresh (d e : Document) (xs : List Value) :
    d.taken (xs.map (Value.mapPipelines (refresh name X))) = e.taken xs := by
  induction xs generalizing d e with
  | nil => rfl
  | cons x xs ih =>
    have hok := @isOk_addItem_refresh name X d e x
    rw [List.map_cons, taken, taken]
    cases hx : d.addItem (x.mapPipelines (refresh name X)) with
    | error _ =>
      rw [hx] at hok
      cases hy : e.addItem x with
      | error _ => rfl
      | ok _ => rw [hy] at hok; cases hok
    | ok d' =>
      rw [hx] at hok
      cases hy : e.addItem x with
      | error _ => rw [hy] at hok; cases hok
      | ok e' => exact congrArg (· + 1) (ih d' e')

end Document

namespace Value

theorem spent_refresh (v : Value) :
    (v.mapPipelines (refresh name X)).spent = v.spent.mapPipelines (refresh name X) := by
  cases v <;> rfl

theorem itemsAfterDocument_refresh (xs : List Value) :
    itemsAfterDocument (mapPipelinesItems (refresh name X) xs)
      = mapPipelinesItems (refresh name X) (itemsAfterDocument xs) := by
  have htaken := @Document.taken_refresh name X [] [] xs
  simp only [itemsAfterDocument, mapPipelinesItems_eq_map, htaken, List.map_append, ← List.map_take,
    ← List.map_drop, List.map_map]
  congr 2
  exact funext spent_refresh

/-- What a reading leaves is refreshed with the value. -/
theorem afterDocument_refresh (v : Value) :
    (v.mapPipelines (refresh name X)).afterDocument
      = v.afterDocument.mapPipelines (refresh name X) := by
  cases v with
  | list xs => exact congrArg Value.list (itemsAfterDocument_refresh xs)
  | tuple xs => exact congrArg Value.tuple (itemsAfterDocument_refresh xs)
  | set xs => exact congrArg Value.set (itemsAfterDocument_refresh xs)
  | stream xs =>
    have htaken := @Document.taken_refresh name X [] [] xs
    simp only [mapPipelines, afterDocument, mapPipelinesItems_eq_map, htaken, List.map_drop]
  | scalar | doc | filter | update | stage | pipeline => rfl

theorem isNull_refresh (v : Value) : (v.mapPipelines (refresh name X)).isNull = v.isNull := by
  cases v <;> rfl

end Value

theorem Stage.afterReading_refreshed (s : Stage) :
    (s.refreshed name X).afterReading = s.afterReading.refreshed name X := by
  obtain ⟨o, v⟩ := s
  have hnull := @Value.isNull_refresh name X o
  have hspec := @Value.afterDocument_refresh name X v
  cases hraw : o.isNull <;>
    simp [Stage.refreshed, Stage.mapPipelines, Stage.afterReading, Stage.isRaw, hnull, hspec, hraw]

end DocQuery
