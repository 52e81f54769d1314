import DocQuery.Proofs.Update.Gathered

/-!
# DocQuery.Proofs.Update.Leaves — an update is what its leaves write

`Update.writes` lists what the leaves of an update write, from left to right, at any depth.  A
regular update compiles to what these writes gather (`document_eq_gathered`), so its shape does not
count: however the same updates are grouped by `Update.combine`, the compiled document is the same,
down to the order of its keys (`compile_eq_gathered`).
-/

namespace DocQuery.Update

open Document (ProperKeys settled)

/-! ### Leaves -/

/-- The wire key of an operator. -/
def operatorName? : Value → Option String
  | .scalar (.comparisonOp op) => some op.key
  | .scalar (.updateOp op) => some op.key
  | _ => none

mutual

/-- What the leaves of an update write, from left to right; values are copied. -/
def writes : Update → List Write
  | .assign op field value => (operatorName? op).toList.map fun o => ⟨o, [(field, value.detached)]⟩
  | .assignAll pairs => [⟨Key.set, pairs.map fun p => (p.1, p.2.detached)⟩]
  | .rename source target => [⟨Key.rename, [(source, target)]⟩]
  | .combined children => childWrites children

/-- What the leaves of an update write, where there is one. -/
def nodeWrites : Value → List Write
  | .update u => u.writes
  | _ => []

def childWrites : Value → List Write
  | .list xs | .tuple xs | .set xs | .stream xs => nodesWrites xs
  | _ => []

def nodesWrites : List Value → List Write
  | [] => []
  | x :: xs => nodeWrites x ++ nodesWrites xs

end

mutual

/-- Operators are operators, fields can be keys, values can be copied, and what is combined are
updates or nothing. -/
def IsRegular : Update → Prop
  | .assign op field value => (operatorName? op).isSome ∧ field.IsHashable ∧ value.isCopyable
  | .assignAll pairs => ∀ p ∈ pairs, p.1.IsHashable ∧ p.2.isCopyable
  | .rename source _ => source.IsHashable
  | .combined children => ChildrenRegular children

/-- A regular update, or nothing. -/
def NodeRegular : Value → Prop
  | .null => True
  | .update u => u.IsRegular
  | _ => False

def ChildrenRegular : Value → Prop
  | .list xs | .tuple xs | .set xs | .stream xs => NodesRegular xs
  | _ => False

def NodesRegular : List Value → Prop
  | [] => True
  | x :: xs => NodeRegular x ∧ NodesRegular xs

end

theorem nodesWrites_eq_flatMap (xs : List Value) : nodesWrites xs = xs.flatMap nodeWrites := by
  induction xs with
  | nil => rfl
  | cons x xs ih => rw [nodesWrites, ih, List.flatMap_cons]

theorem nodesRegular_iff {xs : List Value} : NodesRegular xs ↔ ∀ x ∈ xs, NodeRegular x := by
  induction xs with
  | nil => simp [NodesRegular]
  | cons x xs ih => simp [NodesRegular, ih]

theorem gathered_singleton (o : String) (ps : List (Value × Value)) :
    gathered [⟨o, ps⟩] = [(.str o, .doc (settled ps))] := by
  simp [gathered, operators, pairsUnder_singleton, List.eraseDups_cons]

/-! ### Compiled leaves -/

theorem properKeys_singleton {field : Value} (h : field.IsHashable) (value : Value) :
    ProperKeys [(field, value)] :=
  List.forall_mem_singleton.mpr h

theorem properKeys_detached {ps : List (Value × Value)}
    (h : ∀ p ∈ ps, p.1.IsHashable ∧ p.2.isCopyable) :
    ProperKeys (ps.map fun p => (p.1, p.2.detached)) := by
  intro e he
  obtain ⟨p, hp, rfl⟩ := List.mem_map.mp he
  exact (h p hp).1

theorem settled_singleton {field : Value} (h : field.IsHashable) (value : Value) :
    settled [(field, value)] = [(field, value)] :=
  (Document.ofPairs_eq_settled (properKeys_singleton h value)).symm

theorem copyPairs_eq {ps : List (Value × Value)} (d : Document)
    (h : ∀ p ∈ ps, p.1.IsHashable ∧ p.2.isCopyable) :
    copyPairs d ps = .ok (d.extend (ps.map fun p => (p.1, p.2.detached))) := by
  induction ps generalizing d with
  | nil => rfl
  | cons p ps ih =>
    obtain ⟨⟨hp, hv⟩, hps⟩ := List.forall_mem_cons.mp h
    rw [copyPairs, Value.copy_of_isCopyable hv]
    show d.add p.1 _ >>= _ = _
    rw [Document.add_of_isHashable hp]
    exact ih _ hps

theorem assignDocument_eq {op field value : Value} {o : String} (ho : operatorName? op = some o)
    (hf : field.IsHashable) (hv : value.isCopyable) :
    assignDocument op field value = .ok (gathered [⟨o, [(field, value.detached)]⟩]) := by
  have hkey : op.operatorKey? = .ok (.str o) := by
    unfold operatorName? at ho
    split at ho <;> cases ho <;> rfl
  rw [assignDocument, hkey, Value.copy_of_isCopyable hv, gathered_singleton, settled_singleton hf]
  show (Document.add [] field value.detached >>= fun fields => Document.add [] _ _) = _
  rw [Document.add_of_isHashable hf]
  exact Document.add_of_isHashable (Value.isHashable_str o) _

/-! ### Compiled trees -/

/-- Merging the documents of several sequences of writes, whatever is logged on the way. -/
theorem absorbAll_gathered {ws : List Write} (hws : ProperFields ws) {wss : List (List Write)}
    (hwss : ∀ vs ∈ wss, ProperFields vs) :
    (Document.absorbAll (gathered ws) (wss.map gathered)).1 = gathered (ws ++ wss.flatten) := by
  have hfold : ∀ (d : Document) (ds : List Document), (Document.absorbAll d ds).1 =
      ds.foldl (fun d e => (d.absorb e).1) d := fun d ds =>
    (List.foldl_hom Prod.fst fun _ _ => rfl).symm
  rw [hfold]
  induction wss generalizing ws with
  | nil => simp
  | cons vs wss ih =>
    obtain ⟨hvs, hwss⟩ := List.forall_mem_cons.mp hwss
    rw [List.map_cons, List.foldl_cons, absorb_gathered hws hvs, ih (hws.append hvs) hwss,
      List.flatten_cons, List.append_assoc]

mutual

theorem properFields_writes (u : Update) (h : u.IsRegular) : ProperFields u.writes := by
  match u with
  | .assign op field value =>
    intro w hw
    obtain ⟨o, -, rfl⟩ := List.mem_map.mp hw
    exact properKeys_singleton h.2.1 _
  | .assignAll pairs => exact properFields_singleton (properKeys_detached h)
  | .rename source target => exact properFields_singleton (properKeys_singleton h target)
  | .combined children => exact properFields_childWrites children h

theorem properFields_nodeWrites (v : Value) (h : NodeRegular v) : ProperFields (nodeWrites v) := by
  match v with
  | .update u => exact properFields_writes u h
  | .null => exact properFields_nil

theorem properFields_childWrites (c : Value) (h : ChildrenRegular c) :
    ProperFields (childWrites c) := by
  match c with
  | .list xs | .tuple xs | .set xs | .stream xs => exact properFields_nodesWrites xs h

theorem properFields_nodesWrites (xs : List Value) (h : NodesRegular xs) :
    ProperFields (nodesWrites xs) := by
  match xs with
  | [] => exact properFields_nil
  | x :: xs => exact (properFields_nodeWrites x h.1).append (properFields_nodesWrites xs h.2)

end

/-- The document of a combination, once its children have theirs. -/
theorem combined_document {c : Value} {xs : List Value} (hc : childDocuments c = nodeDocuments xs)
    (h : NodesRegular xs)
    (hxs : nodeDocuments xs = .ok (xs.map fun x => gathered (nodeWrites x))) :
    (Update.combined c).document = .ok (gathered (nodesWrites xs)) := by
  have hproper : ∀ ws ∈ xs.map nodeWrites, ProperFields ws := by
    intro ws hws
    obtain ⟨x, hx, rfl⟩ := List.mem_map.mp hws
    exact properFields_nodeWrites x (nodesRegular_iff.mp h x hx)
  have hmerged := absorbAll_gathered properFields_nil hproper
  rw [List.map_map] at hmerged
  rw [document, hc, hxs, nodesWrites_eq_flatMap]
  exact congrArg Except.ok hmerged

mutual

/-- A regular update compiles to what its leaves gather. -/
theorem document_eq_gathered (u : Update) (h : u.IsRegular) :
    u.document = .ok (gathered u.writes) := by
  match u with
  | .assign op field value =>
    obtain ⟨o, ho⟩ := Option.isSome_iff_exists.mp h.1
    rw [document, assignDocument_eq ho h.2.1 h.2.2, writes, ho]
    rfl
  | .assignAll pairs =>
    rw [document, copyPairs_eq [] h, writes, gathered_singleton,
      ← Document.ofPairs_eq_settled (properKeys_detached h)]
    rfl
  | .rename source target =>
    rw [document, Document.add_of_isHashable h, writes, gathered_singleton, settled_singleton h]
    rfl
  | .combined (.list xs) | .combined (.tuple xs) | .combined (.set xs) | .combined (.stream xs) =>
    exact combined_document rfl h (nodeDocuments_eq_gathered xs h)

theorem nodeDocument_eq_gathered (v : Value) (h : NodeRegular v) :
    nodeDocument v = .ok (gathered (nodeWrites v)) := by
  match v with
  | .update u => exact document_eq_gathered u h
  | .null => rfl

theorem nodeDocuments_eq_gathered (xs : List Value) (h : NodesRegular xs) :
    nodeDocuments xs = .ok (xs.map fun x => gathered (nodeWrites x)) := by
  match xs with
  | [] => rfl
  | x :: xs =>
    rw [nodeDocuments, nodeDocument_eq_gathered x h.1, nodeDocuments_eq_gathered xs h.2]
    rfl

end

/-! ### Fields -/

/-- The value of the last assignment to a field under an operator. -/
def lastAssigned? (as : List Assignment) (op : String) (field : Value) : Option Value :=
  (as.filter fun a => a.operator == op && a.field == field).getLast?.map (·.value)

theorem fieldUnder?_gathered {ws : List Write} (h : ProperFields ws) (op : String)
    (field : Value) :
    (gathered ws).fieldUnder? (.str op) field = lastAssigned? (assignments ws) op field := by
  have hlast : lastAssigned? (assignments ws) op field =
      ((pairsUnder op ws).filter fun p => p.1 == field).getLast?.map (·.2) := by
    rw [pairsUnder, List.filter_map, List.getLast?_map, List.filter_filter, Option.map_map]
    simp only [lastAssigned?, Function.comp_def, Bool.and_comm]
  rw [hlast, Document.fieldUnder?, lookup?_gathered]
  by_cases hop : op ∈ operators ws
  · rw [if_pos hop]
    exact Document.lookup?_settled (properKeys_pairsUnder h op) field
  · rw [if_neg hop, pairsUnder_of_notMem hop]
    rfl

/-! ### Groupings -/

mutual

/-- The value groups the updates, in this order: it is nothing, an update alone, or a combination
of groups. -/
inductive Groups : List Update → Value → Prop
  | absent : Groups [] .null
  | alone (u : Update) : Groups [u] (.update u)
  | combine {us : List Update} {vs : List Value} (h : GroupsEach us vs) : Groups us (combine vs)

/-- The values group the updates, one after the other. -/
inductive GroupsEach : List Update → List Value → Prop
  | nil : GroupsEach [] []
  | cons {us ws : List Update} {v : Value} {vs : List Value} (h : Groups us v)
    (hs : GroupsEach ws vs) : GroupsEach (us ++ ws) (v :: vs)

end

/-- What holds of nothing, of all that is combined, and of a combination of such, holds of what
combining makes. -/
theorem combine_induction {motive : Value → Prop} (absent : motive .null)
    (combined : ∀ vs, (∀ v ∈ vs, motive v) → motive (.update (.combined (.tuple vs))))
    {vs : List Value} (h : ∀ v ∈ vs, motive v) : motive (combine vs) := by
  have hfilter : ∀ v ∈ vs.filter fun v => !v.isNull, motive v := fun v hv =>
    h v (List.mem_filter.mp hv).1
  rw [combine]
  split
  · exact absent
  · rename_i v hv
    exact hfilter v (by simp [hv])
  · exact combined _ hfilter

theorem flatMap_filter_isNull {β : Type} {g : Value → List β} (hnull : g .null = [])
    (vs : List Value) : (vs.filter fun v => !v.isNull).flatMap g = vs.flatMap g := by
  induction vs with
  | nil => rfl
  | cons v vs ih =>
    by_cases hv : v = .null
    · subst hv
      rw [List.flatMap_cons, hnull]
      exact ih
    · have hne : v.isNull = false := Bool.eq_false_iff.mpr (mt Value.isNull_iff.mp hv)
      rw [List.filter_cons_of_pos (by simp [hne]), List.flatMap_cons, List.flatMap_cons, ih]

/-- What is listed of nothing and of combinations part by part is listed so of what combining
makes. -/
theorem flatMap_combine {β : Type} {g : Value → List β} (hnull : g .null = [])
    (hcombined : ∀ vs, g (.update (.combined (.tuple vs))) = vs.flatMap g) (vs : List Value) :
    g (combine vs) = vs.flatMap g := by
  rw [← flatMap_filter_isNull hnull, combine]
  split
  · rename_i h
    rw [h]
    exact hnull
  · rename_i v h
    rw [h, List.flatMap_singleton]
  · exact hcombined _

/-- A combination writes what is combined, one after the other. -/
theorem nodeWrites_combine (vs : List Value) : nodeWrites (combine vs) = nodesWrites vs := by
  rw [nodesWrites_eq_flatMap]
  exact flatMap_combine rfl nodesWrites_eq_flatMap vs

theorem nodeRegular_combine {vs : List Value} (h : NodesRegular vs) : NodeRegular (combine vs) :=
  combine_induction trivial (fun _ => nodesRegular_iff.mpr) (nodesRegular_iff.mp h)

mutual

/-- A group of regular updates is regular and writes what they write. -/
theorem Groups.regular_and_writes {us : List Update} {v : Value} (h : Groups us v)
    (hus : ∀ u ∈ us, u.IsRegular) : NodeRegular v ∧ nodeWrites v = us.flatMap writes := by
  match h with
  | .absent => exact ⟨trivial, rfl⟩
  | .alone u => exact ⟨hus u (by simp), (List.append_nil _).symm⟩
  | .combine hs =>
    obtain ⟨hregular, hwrites⟩ := hs.regular_and_writes hus
    exact ⟨nodeRegular_combine hregular, (nodeWrites_combine _).trans hwrites⟩

theorem GroupsEach.regular_and_writes {us : List Update} {vs : List Value} (h : GroupsEach us vs)
    (hus : ∀ u ∈ us, u.IsRegular) : NodesRegular vs ∧ nodesWrites vs = us.flatMap writes := by
  match h with
  | .nil => exact ⟨trivial, rfl⟩
  | .cons hv hvs =>
    obtain ⟨hus, hws⟩ := List.forall_mem_append.mp hus
    obtain ⟨hregular, hwrites⟩ := hv.regular_and_writes hus
    obtain ⟨hregulars, hwritess⟩ := hvs.regular_and_writes hws
    exact ⟨⟨hregular, hregulars⟩, by rw [nodesWrites, hwrites, hwritess, List.flatMap_append]⟩

end

/-- A regular update compiles to the document of its writes: operators and fields in the order of
their first occurrence, each field with the value that it is assigned last, and nothing else.  So
any two groupings of the same updates compile to the same document. -/
theorem compile_eq_gathered :
    (∀ v : Value, NodeRegular v →
      compile v = .ok (.doc (gathered (nodeWrites v))) ∧
      ∀ (op : String) (field : Value), (gathered (nodeWrites v)).fieldUnder? (.str op) field =
        lastAssigned? (assignments (nodeWrites v)) op field) ∧
    ∀ (us : List Update) (v w : Value), (∀ u ∈ us, u.IsRegular) → Groups us v → Groups us w →
      compile v = compile w := by
  have hcompile : ∀ v : Value, NodeRegular v →
      compile v = .ok (.doc (gathered (nodeWrites v))) := by
    intro v hv
    rw [compile, nodeDocument_eq_gathered v hv]
    rfl
  refine ⟨fun v hv => ⟨hcompile v hv, fieldUnder?_gathered (properFields_nodeWrites v hv)⟩, ?_⟩
  intro us v w hus hv hw
  obtain ⟨hregular, hwrites⟩ := hv.regular_and_writes hus
  obtain ⟨hregular', hwrites'⟩ := hw.regular_and_writes hus
  rw [hcompile v hregular, hcompile w hregular', hwrites, hwrites']

/-- Three updates, with the last two or the first two combined first. -/
theorem compile_regrouped :
    compile (combine [.update (inc (.str "a") (.int 1)), .null,
        combine [.update (set (.str "b") (.int 1)), .update (set (.str "b") (.int 2))]])
      = .ok (.doc [(.str "$inc", .doc [(.str "a", .int 1)]),
          (.str "$set", .doc [(.str "b", .int 2)])]) ∧
    compile (combine [
        combine [.update (inc (.str "a") (.int 1)), .update (set (.str "b") (.int 1))],
        .update (set (.str "b") (.int 2))])
      = compile (combine [.update (inc (.str "a") (.int 1)), .null,
        combine [.update (set (.str "b") (.int 1)), .update (set (.str "b") (.int 2))]]) := by
  have hassign : ∀ (op : UpdateOp) (field : String) (n : Int),
      (assignWith op (.str field) (.int n)).IsRegular := fun _ _ _ => ⟨rfl, rfl, rfl⟩
  have hregular : ∀ u ∈ [inc (.str "a") (.int 1), set (.str "b") (.int 1), set (.str "b") (.int 2)],
      u.IsRegular := by
    simpa using ⟨hassign .inc "a" 1, hassign .set "b" 1, hassign .set "b" 2⟩
  have hlast : Groups [inc (.str "a") (.int 1), set (.str "b") (.int 1), set (.str "b") (.int 2)]
      (combine [.update (inc (.str "a") (.int 1)), .null,
        combine [.update (set (.str "b") (.int 1)), .update (set (.str "b") (.int 2))]]) :=
    .combine (.cons (.alone _) (.cons .absent (.cons
      (.combine (.cons (.alone _) (.cons (.alone _) .nil))) .nil)))
  have hfirst : Groups [inc (.str "a") (.int 1), set (.str "b") (.int 1), set (.str "b") (.int 2)]
      (combine [
        combine [.update (inc (.str "a") (.int 1)), .update (set (.str "b") (.int 1))],
        .update (set (.str "b") (.int 2))]) :=
    .combine (.cons (.combine (.cons (.alone _) (.cons (.alone _) .nil))) (.cons (.alone _) .nil))
  obtain ⟨hv, -⟩ := compile_eq_gathered.1 _ (hlast.regular_and_writes hregular).1
  exact ⟨hv, compile_eq_gathered.2 _ _ _ hregular hfirst hlast⟩

end DocQuery.Update
