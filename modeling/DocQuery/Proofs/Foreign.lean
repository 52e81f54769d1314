import DocQuery.Proofs.Filter.Operators
import DocQuery.Proofs.Update.Leaves

/-!
# DocQuery.Proofs.Foreign — objects that are no nodes

Constructors take whatever they are given, so any object may stand where a filter should: at the
root, among the children of a container, under a negation or a condition on elements; and in the
same way where an update should.  Compiling visits these positions from left to right and refuses
the first object that is neither a node of the family nor absent
(`NodeFamily.refuses_nodeDocument`).
-/

namespace DocQuery

/-! ### Proper nodes -/

/-- The field of a node can be a key, its operator is one, its value can be copied, and its children
are in a tuple. -/
def Filter.Proper : Filter → Prop
  | .comparison field op value =>
    field.IsHashable ∧ (∃ o, op = .scalar (.comparisonOp o)) ∧ value.isCopyable
  | .pattern field _ _ | .elemMatch field _ => field.IsHashable
  | .conj children | .disj children => ∃ xs, children = .tuple xs
  | .neg _ => True

/-- Fields can be keys, operators are operators, values can be copied, and what is combined is in a
tuple. -/
def Update.Proper : Update → Prop
  | .assign op field value => (operatorName? op).isSome ∧ field.IsHashable ∧ value.isCopyable
  | .assignAll pairs => ∀ p ∈ pairs, p.1.IsHashable ∧ p.2.isCopyable
  | .rename source _ => source.IsHashable
  | .combined children => ∃ xs, children = .tuple xs

/-- The families of nodes that compile to documents. -/
inductive NodeFamily
  | filter
  | update

namespace NodeFamily

/-- A node of the family is proper; other values are not asked. -/
def Proper : NodeFamily → Value → Prop
  | .filter, .filter f => f.Proper
  | .update, .update u => u.Proper
  | _, _ => True

/-- The document of what stands where a node of the family should. -/
def nodeDocument : NodeFamily → Value → Except Fault Document
  | .filter => Filter.nodeDocument
  | .update => Update.nodeDocument

def nodeDocuments : NodeFamily → List Value → Except Fault (List Document)
  | .filter => Filter.nodeDocuments
  | .update => Update.nodeDocuments

/-- The compiled form of a node of the family, or of nothing. -/
def compile : NodeFamily → Value → Except Fault Value
  | .filter => Filter.compile
  | .update => Update.compile

/-- The fault of an object that stands where a node of the family should. -/
def fault : NodeFamily → Value → Fault
  | .filter => .foreignFilter
  | .update => .foreignUpdate

/-! ### Positions -/

/-- Neither a node of the family nor absent. -/
def isForeign : NodeFamily → Value → Bool
  | _, .null | .filter, .filter _ | .update, .update _ => false
  | _, _ => true

mutual

/-- What stands where nodes of the family should, from left to right, each object before those below
it. -/
def objects : NodeFamily → Value → List Value
  | .filter, .filter f => .filter f :: belowFilter f
  | .update, .update u => .update u :: belowUpdate u
  | _, v => [v]

/-- What stands below a filter where filters should. -/
def belowFilter : Filter → List Value
  | .elemMatch _ inner | .neg inner => objects .filter inner
  | .conj children | .disj children => childObjects .filter children
  | _ => []

/-- What stands below an update where updates should. -/
def belowUpdate : Update → List Value
  | .combined children => childObjects .update children
  | _ => []

def childObjects : NodeFamily → Value → List Value
  | k, .tuple xs => itemObjects k xs
  | _, _ => []

def itemObjects : NodeFamily → List Value → List Value
  | _, [] => []
  | k, x :: xs => objects k x ++ itemObjects k xs

end

variable {k : NodeFamily} {v w : Value} {xs : List Value}

/-- The foreign objects of a tree, from left to right. -/
def foreign (k : NodeFamily) (v : Value) : List Value := (k.objects v).filter k.isForeign

/-- The nodes of a tree are proper, whatever else stands beside them. -/
def ProperTree (k : NodeFamily) (v : Value) : Prop := ∀ w ∈ k.objects v, k.Proper w

theorem itemObjects_eq_flatMap (k : NodeFamily) (xs : List Value) :
    k.itemObjects xs = xs.flatMap k.objects := by
  induction xs with
  | nil => rfl
  | cons x xs ih => rw [itemObjects, ih, List.flatMap_cons]

@[simp] theorem isForeign_null (k : NodeFamily) : k.isForeign .null = false := by
  cases k <;> rfl

theorem isNull_of_isForeign (h : k.isForeign v = true) : v.isNull = false := by
  refine Bool.eq_false_iff.mpr fun hnull => ?_
  rw [Value.isNull_iff.mp hnull, isForeign_null] at h
  cases h

theorem nodeDocument_of_isForeign (h : k.isForeign v = true) :
    k.nodeDocument v = .error (k.fault v) := by
  cases k with
  | filter =>
    cases v with
    | scalar s => cases s <;> first | rfl | cases h
    | filter f => cases h
    | _ => rfl
  | update =>
    cases v with
    | scalar s => cases s <;> first | rfl | cases h
    | update u => cases h
    | _ => rfl

/-- A container with these children. -/
structure Holds (k : NodeFamily) (v : Value) (xs : List Value) : Prop where
  own : k.isForeign v = false
  objects_eq : k.objects v = v :: xs.flatMap k.objects

theorem Holds.foreign_eq (h : k.Holds v xs) : k.foreign v = xs.flatMap k.foreign := by
  rw [foreign, h.objects_eq, List.filter_cons_of_neg (by simp [h.own]), List.filter_flatMap]
  rfl

theorem Holds.properTree_iff (h : k.Holds v xs) :
    k.ProperTree v ↔ k.Proper v ∧ ∀ x ∈ xs, k.ProperTree x := by
  rw [ProperTree, h.objects_eq, List.forall_mem_cons, List.forall_mem_flatMap]
  rfl

/-! ### Compiling -/

theorem nodeDocuments_cons (k : NodeFamily) (x : Value) (xs : List Value) :
    k.nodeDocuments (x :: xs) = do
      let d ← k.nodeDocument x
      return d :: (← k.nodeDocuments xs) := by
  cases k <;> rfl

theorem nodeDocuments_eq_mapM (k : NodeFamily) (xs : List Value) :
    k.nodeDocuments xs = xs.mapM k.nodeDocument := by
  cases k with
  | filter => exact Filter.nodeDocuments_eq_mapM xs
  | update => exact Update.nodeDocuments_eq_mapM xs

/-- A proper comparison compiles. -/
theorem exists_comparisonDocument {field op value : Value}
    (h : (Filter.comparison field op value).Proper) :
    ∃ d, (Filter.comparison field op value).document = .ok d := by
  obtain ⟨hfield, ⟨o, rfl⟩, hvalue⟩ := h
  by_cases ho : o = .eq
  · subst ho
    exact ⟨_, Filter.eq_document_iff.mpr ⟨hvalue, hfield, rfl⟩⟩
  · exact ⟨_, (Filter.compare_document_iff ho).mpr ⟨hvalue, hfield, rfl⟩⟩

mutual

theorem refuses_filter (f : Filter) (hf : f.Proper)
    (h : ∀ w ∈ belowFilter f, NodeFamily.filter.Proper w) :
    RefusesFirst (isForeign .filter) .foreignFilter (belowFilter f) f.document := by
  match f with
  | .comparison field op value =>
    obtain ⟨d, hd⟩ := exists_comparisonDocument hf
    rw [hd]
    exact .of_ok d rfl
  | .pattern field regex flags =>
    have hd : (Filter.pattern field regex flags).document =
        .ok [(field, .doc (Filter.patternDocument regex flags))] :=
      Filter.pattern_document_iff.mpr ⟨hf, rfl⟩
    rw [hd]
    exact .of_ok _ rfl
  | .elemMatch field inner =>
    have hinner := refuses_nodeDocument .filter inner h
    have hwrap : ∀ d : Document, RefusesFirst (isForeign .filter) .foreignFilter []
        (Document.add [] field (.single Key.elemMatch (.doc d))) := fun d => by
      rw [Document.add_of_isHashable hf]
      exact .of_ok _ rfl
    rw [← List.append_nil (belowFilter _)]
    exact hinner.bind fun d _ => hwrap d
  | .conj children =>
    match children, hf with
    | .tuple xs, _ =>
      exact (refuses_nodeDocuments .filter xs h).map (Filter.joined .and)
  | .disj children =>
    match children, hf with
    | .tuple xs, _ =>
      exact (refuses_nodeDocuments .filter xs h).map (Filter.joined .or)
  | .neg inner =>
    exact (refuses_nodeDocument .filter inner h).map fun d : Document =>
      ([(.str Key.nor, .list [.doc d])] : Document)

theorem refuses_update (u : Update) (hu : u.Proper)
    (h : ∀ w ∈ belowUpdate u, NodeFamily.update.Proper w) :
    RefusesFirst (isForeign .update) .foreignUpdate (belowUpdate u) u.document := by
  match u with
  | .assign op field value =>
    obtain ⟨o, ho⟩ := Option.isSome_iff_exists.mp hu.1
    rw [Update.document, Update.assignDocument_eq ho hu.2.1 hu.2.2]
    exact .of_ok _ rfl
  | .assignAll pairs =>
    rw [Update.document, Update.copyPairs_eq [] hu]
    exact .of_ok _ rfl
  | .rename source target =>
    rw [Update.document, Document.add_of_isHashable hu]
    exact .of_ok _ rfl
  | .combined children =>
    match children, hu with
    | .tuple xs, _ =>
      exact (refuses_nodeDocuments .update xs h).map fun ds => (Document.absorbAll [] ds).1

/-- Compiling refuses the first foreign object, and gives a document if there is none. -/
theorem refuses_nodeDocument (k : NodeFamily) (v : Value) (h : k.ProperTree v) :
    RefusesFirst k.isForeign k.fault (k.objects v) (k.nodeDocument v) := by
  match k, v with
  | .filter, .filter f =>
    obtain ⟨hf, hbelow⟩ := List.forall_mem_cons.mp h
    exact (refuses_filter f hf hbelow).cons rfl
  | .update, .update u =>
    obtain ⟨hu, hbelow⟩ := List.forall_mem_cons.mp h
    exact (refuses_update u hu hbelow).cons rfl
  | .filter, .update _ | .update, .filter _ => exact .of_bad rfl
  | k, .scalar s => cases k <;> cases s <;> first | exact .of_ok [] rfl | exact .of_bad rfl
  | k, .list _ | k, .tuple _ | k, .set _ | k, .doc _ | k, .stream _ | k, .stage _
  | k, .pipeline _ _ => cases k <;> exact .of_bad rfl

theorem refuses_nodeDocuments (k : NodeFamily) (xs : List Value)
    (h : ∀ w ∈ k.itemObjects xs, k.Proper w) :
    RefusesFirst k.isForeign k.fault (k.itemObjects xs) (k.nodeDocuments xs) := by
  match xs with
  | [] => cases k <;> exact .of_ok [] rfl
  | x :: xs =>
    rw [itemObjects] at h ⊢
    obtain ⟨hx, hxs⟩ := List.forall_mem_append.mp h
    rw [nodeDocuments_cons]
    exact (refuses_nodeDocument k x hx).bind fun d _ =>
      (refuses_nodeDocuments k xs hxs).map (d :: ·)

end

theorem compile_eq (k : NodeFamily) (v : Value) :
    k.compile v = do return .doc (← k.nodeDocument v) := by
  cases k <;> rfl

theorem refuses_compile (h : k.ProperTree v) :
    RefusesFirst k.isForeign k.fault (k.objects v) (k.compile v) := by
  rw [compile_eq]
  exact (refuses_nodeDocument k v h).map Value.doc

/-- Whatever compiles gives a document. -/
theorem exists_doc_of_compile (h : k.compile v = .ok w) : ∃ d, w = .doc d := by
  rw [compile_eq] at h
  obtain ⟨d, -, h⟩ := exists_of_bind_eq_ok h
  exact ⟨d, (Except.ok.inj h).symm⟩

/-- A tree compiles exactly if nothing in it is foreign. -/
theorem exists_compile_iff (h : k.ProperTree v) :
    (∃ d, k.compile v = .ok (.doc d)) ↔ ∀ x ∈ k.objects v, k.isForeign x = false := by
  rw [← (refuses_compile h).ok_iff]
  constructor
  · exact fun ⟨d, hd⟩ => ⟨.doc d, hd⟩
  · rintro ⟨w, hw⟩
    obtain ⟨d, rfl⟩ := exists_doc_of_compile hw
    exact ⟨d, hw⟩

theorem compile_of_isForeign (h : k.isForeign v = true) : k.compile v = .error (k.fault v) := by
  rw [compile_eq, nodeDocument_of_isForeign h]
  rfl

/-- Among nodes with a foreign object not all have documents, whatever the others are. -/
theorem exists_error_of_isForeign (h : k.isForeign v = true) (hmem : v ∈ xs) :
    ∃ e, k.nodeDocuments xs = .error e := by
  rw [nodeDocuments_eq_mapM]
  exact exists_mapM_eq_error_iff.mpr ⟨v, hmem, _, nodeDocument_of_isForeign h⟩

end NodeFamily

end DocQuery
