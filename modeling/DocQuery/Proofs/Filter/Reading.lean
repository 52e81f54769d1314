import DocQuery.Proofs.Filter.Tree

/-!
# DocQuery.Proofs.Filter.Reading — filters and documents as conditions

A truth value for every document of a single field makes conditions of filters and of query
documents: containers and the keys `$and`, `$or` and `$nor` are read as connectives, what is absent
or empty as true.  Compiling keeps this reading (`exists_document_reading`), and so do the
constructors, with one exception: a disjunction of nothing is false, and `Filter.anyOf` makes
nothing of it, which is true (`reading_preserved`).
-/

namespace DocQuery

/-! ### Connectives of many truth values -/

namespace Connective

/-- All of the truth values, or some of them. -/
def truth : Connective → List Bool → Bool
  | and, bs => bs.all id
  | or, bs => bs.any id

theorem truth_cons (c : Connective) (b : Bool) (bs : List Bool) :
    c.truth (b :: bs) = c.onBool b (c.truth bs) := by
  cases c <;> rfl

theorem truth_append (c : Connective) (as bs : List Bool) :
    c.truth (as ++ bs) = c.onBool (c.truth as) (c.truth bs) := by
  cases c
  · exact List.all_append
  · exact List.any_append

@[simp] theorem truth_singleton (c : Connective) (b : Bool) : c.truth [b] = b := by
  cases c
  · exact Bool.and_true b
  · exact Bool.or_false b

end Connective

namespace Filter

/-! ### Readings -/

section Readings

variable (v : Document → Bool)

/-- The truth value of a leaf is that of its document. -/
def leafReading : Except Fault Document → Bool
  | .ok d => v d
  | .error _ => false

mutual

/-- A filter as a condition: containers are connectives, and a leaf is what `v` says. -/
def reading : Filter → Bool
  | .conj children => Connective.and.truth (childReadings children)
  | .disj children => Connective.or.truth (childReadings children)
  | .neg inner => !nodeReading inner
  | f => leafReading v f.document

/-- What is absent is true. -/
def nodeReading : Value → Bool
  | .filter f => f.reading
  | _ => true

def childReadings : Value → List Bool
  | .tuple xs => itemReadings xs
  | _ => []

def itemReadings : List Value → List Bool
  | [] => []
  | x :: xs => nodeReading x :: itemReadings xs

end

mutual

/-- A query document as a condition: the empty document is true, the keys `$and`, `$or` and `$nor`
are read as all, some and none, and any other document is what `v` says. -/
def documentReading : Document → Bool
  | [] => true
  | [(.str k, .list parts)] =>
    if k = Key.and then Connective.and.truth (partReadings parts)
    else if k = Key.or then Connective.or.truth (partReadings parts)
    else if k = Key.nor then !Connective.or.truth (partReadings parts)
    else v [(.str k, .list parts)]
  | d => v d

def partReading : Value → Bool
  | .doc d => documentReading d
  | _ => false

def partReadings : List Value → List Bool
  | [] => []
  | x :: xs => partReading x :: partReadings xs

end

end Readings

variable {v : Document → Bool}

theorem itemReadings_eq_map (xs : List Value) : itemReadings v xs = xs.map (nodeReading v) := by
  induction xs with
  | nil => rfl
  | cons x xs ih => rw [itemReadings, ih, List.map_cons]

theorem partReadings_eq_map (ds : List Document) :
    partReadings v (ds.map .doc) = ds.map (documentReading v) := by
  induction ds with
  | nil => rfl
  | cons d ds ih => rw [List.map_cons, partReadings, ih, partReading, List.map_cons]

theorem reading_join (c : Connective) (xs : List Value) :
    (c.join (.tuple xs)).reading v = c.truth (xs.map (nodeReading v)) := by
  rw [← itemReadings_eq_map]
  cases c <;> rfl

/-! ### Documents -/

/-- A document under a key that is no operator is a leaf. -/
theorem documentReading_of_plain {s : String} (hs : isOperatorKey s = false) (w : Value) :
    documentReading v [(.str s, w)] = v [(.str s, w)] := by
  have hne : ∀ k, isOperatorKey k = true → s ≠ k := fun k hk hsk => by
    rw [hsk, hk] at hs
    exact Bool.noConfusion hs
  cases w with
  | list parts =>
    rw [documentReading, if_neg (hne Key.and rfl), if_neg (hne Key.or rfl),
      if_neg (hne Key.nor rfl)]
  | _ => rfl

theorem documentReading_connective (c : Connective) (ds : List Document) :
    documentReading v [(.str c.key, .list (ds.map .doc))] =
      c.truth (ds.map (documentReading v)) := by
  rw [documentReading, partReadings_eq_map]
  cases c <;> rfl

theorem documentReading_joined (c : Connective) (ds : List Document) :
    documentReading v (joined c ds) = c.truth (ds.map (documentReading v)) := by
  match ds with
  | [d] => exact (c.truth_singleton _).symm
  | [] => exact documentReading_connective c []
  | d :: e :: ds => exact documentReading_connective c (d :: e :: ds)

theorem documentReading_nor (d : Document) :
    documentReading v [(.str Key.nor, .list [.doc d])] = !documentReading v d := by
  have hand : Key.nor ≠ Key.and := by decide
  have hor : Key.nor ≠ Key.or := by decide
  rw [documentReading, if_neg hand, if_neg hor, if_pos rfl]
  exact congrArg not (Connective.or.truth_singleton _)

/-! ### Compiling -/

/-- What every node of a tree needs to compile. -/
def Regular (f : Filter) : Prop := PlainNode f ∧ KnownOperator f

/-- A filter compiles to a document with the same reading. -/
def KeepsReading (v : Document → Bool) (f : Filter) : Prop :=
  ∃ d, f.document = .ok d ∧ documentReading v d = f.reading v

/-- A leaf is read by `v` on both sides. -/
theorem keepsReading_leaf {f : Filter} {s : String} {w : Value} (hs : isOperatorKey s = false)
    (hd : f.document = .ok [(.str s, w)]) (hf : f.reading v = leafReading v f.document) :
    KeepsReading v f := by
  refine ⟨_, hd, ?_⟩
  rw [documentReading_of_plain hs, hf, hd]
  rfl

theorem keepsReading_comparison {field op value : Value}
    (h : Regular (.comparison field op value)) : KeepsReading v (.comparison field op value) := by
  obtain ⟨⟨⟨s, rfl, hs⟩, hvalue⟩, o, rfl⟩ := h
  by_cases ho : o = .eq
  · subst ho
    exact keepsReading_leaf hs (eq_document s hvalue) rfl
  · obtain ⟨w, hw⟩ := exists_operand hvalue
    exact keepsReading_leaf hs (compare_document s ho hw) rfl

theorem exists_node_reading {x : Value} (h : Optionally (KeepsReading v) x) :
    ∃ d, nodeDocument x = .ok d ∧ documentReading v d = nodeReading v x := by
  rcases h with rfl | ⟨f, rfl, d, hd, hf⟩
  · exact ⟨[], nodeDocument_null, rfl⟩
  · exact ⟨d, hd, hf⟩

theorem exists_node_readings {xs : List Value} (h : ∀ x ∈ xs, Optionally (KeepsReading v) x) :
    ∃ ds, nodeDocuments xs = .ok ds ∧ ds.map (documentReading v) = xs.map (nodeReading v) := by
  induction xs with
  | nil => exact ⟨[], rfl, rfl⟩
  | cons x xs ih =>
    obtain ⟨hx, hxs⟩ := List.forall_mem_cons.mp h
    obtain ⟨d, hd, hread⟩ := exists_node_reading hx
    obtain ⟨ds, hds, hreads⟩ := ih hxs
    refine ⟨d :: ds, nodeDocuments_cons hd hds, ?_⟩
    rw [List.map_cons, List.map_cons, hread, hreads]

/-- Regular trees compile to documents with their reading. -/
theorem exists_document_reading (v : Document → Bool) {x : Value} (h : NodeAll Regular x) :
    ∃ d, nodeDocument x = .ok d ∧ documentReading v d = nodeReading v x := by
  have cases : TreeCases Regular (KeepsReading v) :=
    { comparison := fun _ _ _ h => keepsReading_comparison h
      pattern := fun field regex flags h => by
        obtain ⟨⟨s, rfl, hs⟩, -⟩ := h
        exact keepsReading_leaf hs (pattern_document s regex flags) rfl
      elemMatch := fun field inner h hinner => by
        obtain ⟨⟨s, rfl, hs⟩, -⟩ := h
        obtain ⟨d, hd, -⟩ := exists_node_reading hinner
        exact keepsReading_leaf hs (elemMatch_document s hd) rfl
      join := fun c xs _ hxs => by
        obtain ⟨ds, hds, hreads⟩ := exists_node_readings hxs
        refine ⟨_, join_document c hds, ?_⟩
        rw [documentReading_joined, hreads, reading_join]
      neg := fun inner _ hinner => by
        obtain ⟨d, hd, hread⟩ := exists_node_reading hinner
        refine ⟨_, neg_document hd, ?_⟩
        rw [documentReading_nor, hread]
        rfl }
  exact exists_node_reading (cases.node x h)

/-! ### Constructors -/

/-- Flattening gets nothing from a value: it is absent, or an empty container of the kind. -/
def Vanishes (c : Connective) (x : Value) : Prop :=
  x = .null ∨ x = .filter (c.join (.tuple []))

theorem vanishes_join {c : Connective} {zs : List Value} :
    Vanishes c (.filter (c.join (.tuple zs))) ↔ zs = [] := by
  constructor
  · rintro (h | h)
    · cases h
    · cases c <;> cases h <;> rfl
  · rintro rfl
    exact Or.inr rfl

theorem not_vanishes {c : Connective} {f : Filter} (h : ∀ ys, f ≠ c.join ys) :
    ¬Vanishes c (.filter f) := by
  rintro (hf | hf)
  · cases hf
  · exact h _ (Value.filter.inj hf)

/-- What is left of trees when they are flattened, and how it is read. -/
theorem exists_flatten_reading (c : Connective) (v : Document → Bool) {xs : List Value}
    (h : ∀ x ∈ xs, NodeAll (fun _ => True) x) :
    ∃ ys, c.flatten xs = .ok ys ∧ (ys = [] ↔ ∀ x ∈ xs, Vanishes c x) ∧
      c.truth (ys.map (nodeReading v)) =
        c.truth ((xs.filter fun x => !x.isNull).map (nodeReading v)) := by
  induction xs with
  | nil => exact ⟨[], rfl, by simp, rfl⟩
  | cons x xs ih =>
    obtain ⟨hx, hxs⟩ := List.forall_mem_cons.mp h
    obtain ⟨ys, hys, hnil, hread⟩ := ih hxs
    rcases nodeAll_iff.mp hx with rfl | ⟨f, rfl, hf⟩
    · refine ⟨ys, hys, ?_, hread⟩
      rw [hnil, List.forall_mem_cons]
      exact ⟨fun h => ⟨Or.inl rfl, h⟩, fun h => h.2⟩
    · have hfilter : (Value.filter f :: xs).filter (fun x => !x.isNull) =
          .filter f :: xs.filter fun x => !x.isNull := rfl
      rw [hfilter, List.map_cons, Connective.truth_cons, ← hread]
      by_cases hjoin : ∃ children, f = c.join children
      · obtain ⟨children, rfl⟩ := hjoin
        obtain ⟨zs, rfl, -⟩ := childrenAll_iff.mp (all_join.mp hf).2
        refine ⟨zs ++ ys, flatten_join_cons c zs xs hys, ?_, ?_⟩
        · rw [List.append_eq_nil_iff, hnil, List.forall_mem_cons, vanishes_join]
        · rw [List.map_append, Connective.truth_append]
          exact congrArg (c.onBool · _) (reading_join c zs).symm
      · have hne : ∀ zs, f ≠ c.join zs := fun zs hzs => hjoin ⟨zs, hzs⟩
        refine ⟨.filter f :: ys, flatten_filter_cons hne hys, ?_, Connective.truth_cons c _ _⟩
        exact ⟨nofun, fun h => absurd (h _ (by simp)) (not_vanishes hne)⟩

/-- What is left makes a filter with its reading; nothing left is true, as no condition is. -/
theorem nodeReading_ofFlat (c : Connective) {ys : List Value} (h : ys ≠ [] ∨ c = .and) :
    nodeReading v (c.ofFlat ys) = c.truth (ys.map (nodeReading v)) := by
  match ys with
  | [] =>
    obtain rfl := h.resolve_left (fun hne => hne rfl)
    rfl
  | [y] => exact (c.truth_singleton _).symm
  | y :: z :: ys => exact reading_join c (y :: z :: ys)

/-- Compiling and joining keep the reading of trees.  The one exception is `anyOf` where every
argument vanishes: the disjunction of the arguments is false there, and `anyOf` makes nothing of
them, which is true. -/
theorem reading_preserved (v : Document → Bool) :
    (∀ x : Value, NodeAll Regular x →
      ∃ d, compile x = .ok (.doc d) ∧ documentReading v d = nodeReading v x) ∧
    (∀ xs : List Value, (∀ x ∈ xs, NodeAll (fun _ => True) x) →
      (∃ r, allOf xs = .ok r ∧
        nodeReading v r = (xs.filter fun x => !x.isNull).all (nodeReading v)) ∧
      ∃ r, anyOf xs = .ok r ∧
        ((∃ x ∈ xs, ¬Vanishes .or x) →
          nodeReading v r = (xs.filter fun x => !x.isNull).any (nodeReading v)) ∧
        ((∀ x ∈ xs, Vanishes .or x) → r = .null ∧ nodeReading v r = true ∧
          (xs.filter fun x => !x.isNull).any (nodeReading v) = false)) ∧
    (∀ x : Value, x ≠ .null → nodeReading v (negation x) = !nodeReading v x) ∧
    negation .null = .null := by
  refine ⟨fun x hx => ?_, fun xs hxs => ⟨?_, ?_⟩, fun x hx => ?_, rfl⟩
  · obtain ⟨d, hd, hread⟩ := exists_document_reading v hx
    refine ⟨d, ?_, hread⟩
    rw [compile, hd]
    rfl
  · obtain ⟨ys, hys, -, hread⟩ := exists_flatten_reading .and v hxs
    refine ⟨Connective.and.ofFlat ys, ?_, ?_⟩
    · rw [allOf, Connective.combine, hys]
      rfl
    · rw [nodeReading_ofFlat .and (Or.inr rfl), hread]
      exact List.all_map
  · obtain ⟨ys, hys, hnil, hread⟩ := exists_flatten_reading .or v hxs
    have hany : Connective.or.truth (ys.map (nodeReading v)) =
        (xs.filter fun x => !x.isNull).any (nodeReading v) := hread.trans List.any_map
    refine ⟨Connective.or.ofFlat ys, ?_, fun hleft => ?_, fun hvanish => ?_⟩
    · rw [anyOf, Connective.combine, hys]
      rfl
    · have hne : ys ≠ [] := by
        rintro rfl
        obtain ⟨x, hx, hleft⟩ := hleft
        exact hleft (hnil.mp rfl x hx)
      rw [nodeReading_ofFlat .or (Or.inl hne), hany]
    · obtain rfl := hnil.mpr hvanish
      exact ⟨rfl, rfl, hany.symm⟩
  · have hnull : ¬x.isNull = true := mt Value.isNull_iff.mp hx
    rw [negation, if_neg hnull]
    rfl

/-- An absent child makes a disjunction true; a disjunction of nothing vanishes when it is joined;
and a negation of what is false is true. -/
theorem reading_preserved_disj :
    (∃ d, compile (.filter (.disj (.tuple [.filter (eq (.str "a") (.int 1)), .null])))
        = .ok (.doc d) ∧ documentReading (fun _ => false) d = true) ∧
    anyOf [.null, .filter (.disj (.tuple []))] = .ok .null ∧
    nodeReading (fun _ => false) (negation (.filter (eq (.str "a") (.int 1)))) = true := by
  obtain ⟨hcompile, hjoin, hneg, -⟩ := reading_preserved fun _ => false
  have ha : PlainField (.str "a") := ⟨"a", rfl, rfl⟩
  have hregular : NodeAll Regular
      (.filter (.disj (.tuple [.filter (eq (.str "a") (.int 1)), .null]))) :=
    ⟨⟨trivial, trivial⟩, ⟨⟨ha, rfl⟩, .eq, rfl⟩, trivial, trivial⟩
  have htrees : ∀ x ∈ [.null, .filter (.disj (.tuple []))], NodeAll (fun _ => True) x :=
    List.forall_mem_cons.mpr ⟨trivial, List.forall_mem_singleton.mpr ⟨trivial, trivial⟩⟩
  have hvanish : ∀ x ∈ [.null, .filter (.disj (.tuple []))], Vanishes .or x :=
    List.forall_mem_cons.mpr ⟨Or.inl rfl, List.forall_mem_singleton.mpr (Or.inr rfl)⟩
  obtain ⟨r, hr, -, hempty⟩ := (hjoin _ htrees).2
  obtain ⟨rfl, -⟩ := hempty hvanish
  exact ⟨hcompile _ hregular, hr, hneg _ nofun⟩

end Filter

end DocQuery
