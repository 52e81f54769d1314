import DocQuery.Proofs.Filter.Decoding
import DocQuery.Proofs.Result
import DocQuery.Proofs.Value.OperatorKeys

/-!
# DocQuery.Proofs.Filter.Operators — the operators of a compiled filter

Every node of a filter writes operators of its own (`Filter.wireKeys`), and containers are flat, so
that none of them vanishes when it is compiled.  A walk through the compiled document therefore
meets the operators of the nodes, in the order of the nodes and as often as they occur
(`operatorKeys_of_document`), as long as no field and no value brings operators with it.
-/

namespace DocQuery.Filter

/-! ### Nodes and their operators -/

mutual

/-- The nodes of a filter, each before those below it. -/
def nodes : Filter → List Filter
  | .comparison field op value => [.comparison field op value]
  | .pattern field regex flags => [.pattern field regex flags]
  | .elemMatch field inner => .elemMatch field inner :: nodeNodes inner
  | .conj children => .conj children :: childNodes children
  | .disj children => .disj children :: childNodes children
  | .neg inner => .neg inner :: nodeNodes inner

/-- The nodes of a filter, where there is one. -/
def nodeNodes : Value → List Filter
  | .filter f => f.nodes
  | _ => []

def childNodes : Value → List Filter
  | .tuple xs => itemsNodes xs
  | _ => []

def itemsNodes : List Value → List Filter
  | [] => []
  | x :: xs => nodeNodes x ++ itemsNodes xs

end

/-- The operators that a node writes itself; an equality writes none. -/
def wireKeys : Filter → List String
  | .comparison _ (.scalar (.comparisonOp op)) _ => if op = .eq then [] else [op.key]
  | .comparison _ _ _ => []
  | .pattern _ _ flags => Key.regex :: if flags.isGiven then [Key.options] else []
  | .elemMatch _ _ => [Key.elemMatch]
  | .conj _ => [Key.and]
  | .disj _ => [Key.or]
  | .neg _ => [Key.nor]

/-- Negations, and the two comparisons that negate. -/
def Negates : Filter → Prop
  | .comparison _ op _ => op = .scalar (.comparisonOp .ne) ∨ op = .scalar (.comparisonOp .notIn)
  | .neg _ => True
  | _ => False

/-- The field of a node names no operator, and no key inside its value does. -/
def Unmarked : Filter → Prop
  | .comparison field _ value => ¬field.NamesOperator ∧ value.HasPlainKeys
  | .pattern field regex flags =>
    ¬field.NamesOperator ∧ regex.HasPlainKeys ∧ flags.HasPlainKeys
  | .elemMatch field _ => ¬field.NamesOperator
  | _ => True

/-- The field of a node can be a key, and its value can be copied. -/
def Compilable : Filter → Prop
  | .comparison field _ value => field.IsHashable ∧ value.isCopyable
  | .pattern field _ _ | .elemMatch field _ => field.IsHashable
  | _ => True

theorem itemsNodes_eq_flatMap (xs : List Value) : itemsNodes xs = xs.flatMap nodeNodes := by
  induction xs with
  | nil => rfl
  | cons x xs ih => rw [itemsNodes, ih, List.flatMap_cons]

theorem nodes_join (c : Connective) (xs : List Value) :
    (c.join (.tuple xs)).nodes = c.join (.tuple xs) :: xs.flatMap nodeNodes := by
  rw [← itemsNodes_eq_flatMap]
  cases c <;> rfl

theorem wireKeys_join (c : Connective) (children : Value) :
    (c.join children).wireKeys = [c.key] := by
  cases c <;> rfl

theorem wireKeys_compare {op : ComparisonOp} (hop : op ≠ .eq) (field value : Value) :
    (compare op field value).wireKeys = [op.key] := if_neg hop

theorem isOperatorKey_key (op : ComparisonOp) : isOperatorKey op.key = true := by
  cases op <;> decide

/-- A comparison writes its operator, or none if this is equality or no operator at all. -/
theorem wireKeys_comparison (field op value : Value) :
    (∃ o, o ≠ .eq ∧ op = .scalar (.comparisonOp o) ∧
      (Filter.comparison field op value).wireKeys = [o.key]) ∨
    (∀ o, o ≠ .eq → op ≠ .scalar (.comparisonOp o)) ∧
      (Filter.comparison field op value).wireKeys = [] := by
  by_cases h : ∃ o, o ≠ .eq ∧ op = .scalar (.comparisonOp o)
  · obtain ⟨o, ho, rfl⟩ := h
    exact Or.inl ⟨o, ho, rfl, wireKeys_compare ho field value⟩
  · refine Or.inr ⟨fun o ho hop => h ⟨o, ho, hop⟩, ?_⟩
    unfold wireKeys
    split
    · rename_i o _ heq
      obtain ⟨-, hop, -⟩ := Filter.comparison.inj heq
      exact if_pos (Decidable.byContradiction fun ho => h ⟨o, ho, hop⟩)
    · rfl
    all_goals contradiction

/-- Every operator of a node belongs to a query. -/
theorem class_of_mem_wireKeys (f : Filter) : ∀ key ∈ f.wireKeys,
    OperatorClass.query.contains key ∨ OperatorClass.logical.contains key := by
  cases f with
  | comparison field op value =>
    rcases wireKeys_comparison field op value with ⟨o, -, -, hkeys⟩ | ⟨-, hkeys⟩
    · rw [hkeys]
      exact List.forall_mem_singleton.mpr (Or.inl o.key_mem_query)
    · simp [hkeys]
  | pattern _ _ flags =>
    refine List.forall_mem_cons.mpr ⟨Or.inl (by decide), ?_⟩
    split
    · exact List.forall_mem_singleton.mpr (Or.inl (by decide))
    · simp
  | elemMatch _ _ => exact List.forall_mem_singleton.mpr (Or.inl (by decide))
  | conj _ | disj _ | neg _ => exact List.forall_mem_singleton.mpr (Or.inr (by decide))

/-- A node negates exactly if it writes an operator of that class. -/
theorem negates_iff_wireKeys (f : Filter) :
    f.Negates ↔ ∃ key ∈ f.wireKeys, OperatorClass.negation.contains key := by
  cases f with
  | comparison field op value =>
    rcases wireKeys_comparison field op value with ⟨o, -, rfl, hkeys⟩ | ⟨hop, hkeys⟩
    · cases o <;> simp [Negates, hkeys] <;> decide
    · rw [hkeys]
      constructor
      · rintro (rfl | rfl)
        · exact absurd rfl (hop .ne (by decide))
        · exact absurd rfl (hop .notIn (by decide))
      · rintro ⟨key, hkey, -⟩
        cases hkey
  | pattern _ _ flags =>
    have hregex : OperatorClass.negation.contains Key.regex = false := by decide
    have hoptions : OperatorClass.negation.contains Key.options = false := by decide
    by_cases hflags : flags.isGiven = true
    · simp [Negates, wireKeys, hflags, hregex, hoptions]
    · simp [Negates, wireKeys, hflags, hregex]
  | elemMatch _ _ | conj _ | disj _ | neg _ =>
    simp only [Negates, wireKeys, List.mem_singleton, exists_eq_left]
    decide

/-! ### Documents of nodes, in both directions -/

variable {field value inner : Value} {d : Document}

theorem operand_eq_ok_iff {w : Value} :
    value.operand = .ok w ↔ value.isCopyable ∧ w = listed value.detached := by
  constructor
  · intro h
    have hcopy : value.isCopyable := by
      unfold Value.operand at h
      split at h
      · obtain ⟨ys, hys, -⟩ := exists_of_bind_eq_ok h
        refine itemsCopyable_iff.mpr fun x hx => ?_
        obtain ⟨y, hy⟩ := exists_ok_of_mem hys hx
        exact (Value.copy_eq_ok_iff.mp hy).1
      · exact (Value.copy_eq_ok_iff.mp h).1
    exact ⟨hcopy, Except.ok.inj (h.symm.trans (operand_eq hcopy))⟩
  · rintro ⟨hcopy, rfl⟩
    exact operand_eq hcopy

theorem add_nil_eq_ok_iff {v : Value} :
    Document.add [] field v = .ok d ↔ field.IsHashable ∧ d = [(field, v)] :=
  Document.add_eq_ok_iff

theorem eq_document_iff : (eq field value).document = .ok d ↔
    value.isCopyable ∧ field.IsHashable ∧ d = [(field, value.detached)] := by
  have hdoc : (eq field value).document =
      (value.copy >>= fun w => Document.add [] field w) := rfl
  simp only [hdoc, bind_eq_ok_iff, Value.copy_eq_ok_iff, add_nil_eq_ok_iff]
  constructor
  · rintro ⟨w, ⟨hcopy, rfl⟩, hfield, rfl⟩
    exact ⟨hcopy, hfield, rfl⟩
  · rintro ⟨hcopy, hfield, rfl⟩
    exact ⟨_, ⟨hcopy, rfl⟩, hfield, rfl⟩

theorem compare_document_iff {op : ComparisonOp} (hop : op ≠ .eq) :
    (compare op field value).document = .ok d ↔
      value.isCopyable ∧ field.IsHashable ∧
        d = [(field, .single op.key (listed value.detached))] := by
  have hdoc : (compare op field value).document = (value.operand >>= fun w =>
      Document.add [] (.str op.key) w >>= fun payload =>
        Document.add [] field (.doc payload)) := by
    cases op <;> first | rfl | exact absurd rfl hop
  simp only [hdoc, bind_eq_ok_iff, operand_eq_ok_iff, add_nil_eq_ok_iff]
  constructor
  · rintro ⟨w, ⟨hcopy, rfl⟩, payload, ⟨-, rfl⟩, hfield, rfl⟩
    exact ⟨hcopy, hfield, rfl⟩
  · rintro ⟨hcopy, hfield, rfl⟩
    exact ⟨_, ⟨hcopy, rfl⟩, _, ⟨Value.isHashable_str _, rfl⟩, hfield, rfl⟩

theorem pattern_document_iff {regex flags : Value} :
    (Filter.pattern field regex flags).document = .ok d ↔
      field.IsHashable ∧ d = [(field, .doc (patternDocument regex flags))] :=
  add_nil_eq_ok_iff

theorem elemMatch_document_iff : (Filter.elemMatch field inner).document = .ok d ↔
    ∃ e, nodeDocument inner = .ok e ∧ field.IsHashable ∧
      d = [(field, .single Key.elemMatch (.doc e))] := by
  have hdoc : (Filter.elemMatch field inner).document = (nodeDocument inner >>= fun e =>
      Document.add [] field (.single Key.elemMatch (.doc e))) := rfl
  simp only [hdoc, bind_eq_ok_iff, add_nil_eq_ok_iff]

theorem neg_document_iff : (Filter.neg inner).document = .ok d ↔
    ∃ e, nodeDocument inner = .ok e ∧ d = [(.str Key.nor, .list [.doc e])] := by
  constructor
  · intro h
    obtain ⟨e, he, h⟩ := exists_of_bind_eq_ok h
    exact ⟨e, he, (Except.ok.inj h).symm⟩
  · rintro ⟨e, he, rfl⟩
    exact neg_document he

theorem join_document_eq (c : Connective) (xs : List Value) :
    (c.join (.tuple xs)).document = do return joined c (← nodeDocuments xs) := by
  cases c <;> rfl

theorem join_document_iff {c : Connective} {xs : List Value} :
    (c.join (.tuple xs)).document = .ok d ↔
      ∃ ds, nodeDocuments xs = .ok ds ∧ d = joined c ds := by
  constructor
  · intro h
    rw [join_document_eq] at h
    obtain ⟨ds, hds, h⟩ := exists_of_bind_eq_ok h
    exact ⟨ds, hds, (Except.ok.inj h).symm⟩
  · rintro ⟨ds, hds, rfl⟩
    exact join_document c hds

/-! ### Operators of documents -/

/-- The document of a filter, if it has one, holds the operators of its nodes. -/
def HoldsOperators (f : Filter) : Prop :=
  ∀ d, f.document = .ok d → operatorKeysOfEntries d = f.nodes.flatMap wireKeys

theorem Optionally.operatorKeys {v : Value} (h : Optionally HoldsOperators v) {d : Document}
    (hd : nodeDocument v = .ok d) :
    operatorKeysOfEntries d = (nodeNodes v).flatMap wireKeys := by
  rcases h with rfl | ⟨f, rfl, hf⟩
  · obtain rfl := Except.ok.inj hd
    rfl
  · exact hf d hd

theorem operatorKeys_nodeDocuments {xs : List Value} {ds : List Document}
    (h : ∀ x ∈ xs, Optionally HoldsOperators x) (hds : nodeDocuments xs = .ok ds) :
    ds.flatMap operatorKeysOfEntries = (xs.flatMap nodeNodes).flatMap wireKeys := by
  rw [nodeDocuments_eq_mapM] at hds
  have hall := forall₂_of_mapM_eq_ok hds
  clear hds
  induction hall with
  | nil => rfl
  | cons hx _ ih =>
    obtain ⟨hhead, htail⟩ := List.forall_mem_cons.mp h
    rw [List.flatMap_cons, List.flatMap_cons, List.flatMap_append, ih htail,
      hhead.operatorKeys hx]

theorem operatorKeys_comparison {op : Value} (hop : KnownOperator (.comparison field op value))
    (hplain : Unmarked (.comparison field op value)) :
    HoldsOperators (.comparison field op value) := by
  obtain ⟨o, rfl⟩ := hop
  obtain ⟨hfield, hvalue⟩ := hplain
  intro d hd
  by_cases ho : o = .eq
  · subst ho
    obtain ⟨-, -, rfl⟩ := eq_document_iff.mp hd
    rw [operatorKeysOfEntries_singleton, operatorKeyOf_eq_nil hfield,
      Value.operatorKeys_detached, value.operatorKeys_eq_nil hvalue]
    rfl
  · obtain ⟨-, -, rfl⟩ := (compare_document_iff ho).mp hd
    have hlisted : (listed value).HasPlainKeys := by
      cases value <;> exact hvalue
    have hpayload : (listed value.detached).operatorKeys = [] := by
      rw [← detached_listed, Value.operatorKeys_detached, Value.operatorKeys_eq_nil _ hlisted]
    have hkeys :
        (Filter.comparison field (.scalar (.comparisonOp o)) value).nodes.flatMap wireKeys =
        [o.key] := by
      rw [nodes, List.flatMap_singleton]
      exact wireKeys_compare ho field value
    rw [operatorKeysOfEntries_singleton, operatorKeyOf_eq_nil hfield, Value.operatorKeys,
      operatorKeysOfEntries_singleton, operatorKeyOf_of_isOperatorKey (isOperatorKey_key o),
      hpayload, hkeys]
    rfl

theorem operatorKeys_pattern {regex flags : Value} (h : Unmarked (.pattern field regex flags)) :
    HoldsOperators (.pattern field regex flags) := by
  obtain ⟨hfield, hregex, hflags⟩ := h
  intro d hd
  obtain ⟨-, rfl⟩ := pattern_document_iff.mp hd
  have hpayload : operatorKeysOfEntries (patternDocument regex flags) =
      (Filter.pattern field regex flags).wireKeys := by
    rw [patternDocument, operatorKeysOfEntries, regex.operatorKeys_eq_nil hregex, wireKeys]
    split
    · rw [operatorKeysOfEntries_singleton, flags.operatorKeys_eq_nil hflags]
      rfl
    · rfl
  rw [operatorKeysOfEntries_singleton, operatorKeyOf_eq_nil hfield, Value.operatorKeys, hpayload,
    nodes, List.flatMap_singleton]
  rfl

theorem operatorKeys_elemMatch (hfield : ¬field.NamesOperator)
    (h : Optionally HoldsOperators inner) : HoldsOperators (.elemMatch field inner) := by
  intro d hd
  obtain ⟨e, he, -, rfl⟩ := elemMatch_document_iff.mp hd
  rw [operatorKeysOfEntries_singleton, operatorKeyOf_eq_nil hfield, Value.operatorKeys,
    operatorKeysOfEntries_singleton, Value.operatorKeys, h.operatorKeys he]
  rfl

theorem operatorKeys_neg (h : Optionally HoldsOperators inner) :
    HoldsOperators (.neg inner) := by
  intro d hd
  obtain ⟨e, he, rfl⟩ := neg_document_iff.mp hd
  have hitems : operatorKeysOfItems [.doc e] = operatorKeysOfEntries e := by
    rw [← List.map_singleton, operatorKeysOfItems_map_doc, List.flatMap_singleton]
  rw [operatorKeysOfEntries_singleton, Value.operatorKeys, hitems, h.operatorKeys he]
  rfl

theorem operatorKeys_join {c : Connective} {xs : List Value} (hlength : 2 ≤ xs.length)
    (h : ∀ x ∈ xs, Optionally HoldsOperators x) : HoldsOperators (c.join (.tuple xs)) := by
  intro d hd
  obtain ⟨ds, hds, rfl⟩ := join_document_iff.mp hd
  have hsame : xs.length = ds.length := by
    rw [nodeDocuments_eq_mapM] at hds
    exact (forall₂_of_mapM_eq_ok hds).length_eq
  have hkey : operatorKeyOf (.str c.key) = [c.key] := by cases c <;> rfl
  rw [joined_of_two_le c (hsame ▸ hlength), operatorKeysOfEntries_singleton, hkey,
    Value.operatorKeys, operatorKeysOfItems_map_doc, operatorKeys_nodeDocuments h hds, nodes_join,
    List.flatMap_cons, wireKeys_join]

/-- A walk through the document of a filter meets the operators of its nodes, in their order. -/
theorem operatorKeys_of_document {f : Filter} (hsound : f.All Sound) (hplain : f.All Unmarked) :
    HoldsOperators f := by
  have cases : TreeCases (fun g => Sound g ∧ Unmarked g) HoldsOperators :=
    { comparison := fun _ _ _ h => operatorKeys_comparison h.1.2 h.2
      pattern := fun _ _ _ h => operatorKeys_pattern h.2
      elemMatch := fun _ _ h hinner => operatorKeys_elemMatch h.2 hinner
      join := fun c xs h hxs => by
        obtain ⟨ys, hys, hlength, -⟩ := flatNode_join.mp h.1.1
        obtain rfl := Value.tuple.inj hys
        exact operatorKeys_join hlength hxs
      neg := fun _ _ hinner => operatorKeys_neg hinner }
  exact cases.filter f (hsound.and hplain)

/-! ### Constructed filters -/

theorem exists_nodeDocuments {xs : List Value}
    (h : ∀ x ∈ xs, Optionally (fun f => ∃ d, f.document = .ok d) x) :
    ∃ ds, nodeDocuments xs = .ok ds := by
  induction xs with
  | nil => exact ⟨[], rfl⟩
  | cons x xs ih =>
    obtain ⟨hx, hxs⟩ := List.forall_mem_cons.mp h
    obtain ⟨ds, hds⟩ := ih hxs
    rcases hx with rfl | ⟨f, rfl, d, hd⟩
    · exact ⟨_, nodeDocuments_cons nodeDocument_null hds⟩
    · exact ⟨_, nodeDocuments_cons hd hds⟩

/-- Where fields can be keys and values can be copied, a filter compiles. -/
theorem exists_document_of_compilable {f : Filter} (hsound : f.All Sound)
    (h : f.All Compilable) : ∃ d, f.document = .ok d := by
  have cases : TreeCases (fun g => Sound g ∧ Compilable g) fun g => ∃ d, g.document = .ok d :=
    { comparison := fun field op value h => by
        obtain ⟨⟨-, o, rfl⟩, hfield, hcopy⟩ := h
        by_cases ho : o = .eq
        · subst ho
          exact ⟨_, eq_document_iff.mpr ⟨hcopy, hfield, rfl⟩⟩
        · exact ⟨_, (compare_document_iff ho).mpr ⟨hcopy, hfield, rfl⟩⟩
      pattern := fun _ _ _ h => ⟨_, pattern_document_iff.mpr ⟨h.2, rfl⟩⟩
      elemMatch := fun field inner h hinner => by
        rcases hinner with rfl | ⟨f, rfl, d, hd⟩
        · exact ⟨_, elemMatch_document_iff.mpr ⟨_, nodeDocument_null, h.2, rfl⟩⟩
        · exact ⟨_, elemMatch_document_iff.mpr ⟨d, hd, h.2, rfl⟩⟩
      join := fun c xs _ hxs => by
        obtain ⟨ds, hds⟩ := exists_nodeDocuments hxs
        exact ⟨_, join_document c hds⟩
      neg := fun inner _ hinner => by
        rcases hinner with rfl | ⟨f, rfl, d, hd⟩
        · exact ⟨_, neg_document nodeDocument_null⟩
        · exact ⟨_, neg_document hd⟩ }
  exact cases.filter f (hsound.and h)

/-- What the operators of a compiled filter tell about the filter: they are those of its nodes, all
of them belong to queries, and one of them negates exactly if a node does. -/
structure TellsOperators (v w : Value) : Prop where
  exact_keys : ∀ key, key ∈ w.operators ↔ ∃ g ∈ nodeNodes v, key ∈ g.wireKeys
  classified : ∀ key ∈ w.operators,
    OperatorClass.query.contains key ∨ OperatorClass.logical.contains key
  negation : w.negates = true ↔ ∃ g ∈ nodeNodes v, g.Negates

theorem tellsOperators_of_operatorKeys {v : Value} {d : Document}
    (h : operatorKeysOfEntries d = (nodeNodes v).flatMap wireKeys) :
    TellsOperators v (.doc d) := by
  have hmem : ∀ key, key ∈ (Value.doc d).operators ↔ ∃ g ∈ nodeNodes v, key ∈ g.wireKeys := by
    intro key
    rw [Value.mem_operators, Value.operatorKeys, h, List.mem_flatMap]
  refine ⟨hmem, fun key hkey => ?_, ?_⟩
  · obtain ⟨g, -, hg⟩ := (hmem key).mp hkey
    exact class_of_mem_wireKeys g key hg
  · rw [Value.negates, List.any_eq_true]
    constructor
    · rintro ⟨key, hkey, hnegation⟩
      obtain ⟨g, hg, hwire⟩ := (hmem key).mp hkey
      exact ⟨g, hg, (negates_iff_wireKeys g).mpr ⟨key, hwire, hnegation⟩⟩
    · rintro ⟨g, hg, hnegates⟩
      obtain ⟨key, hwire, hnegation⟩ := (negates_iff_wireKeys g).mp hnegates
      exact ⟨key, (hmem key).mpr ⟨g, hg, hwire⟩, hnegation⟩

/-- Where no field and no key inside a value names an operator, the operators of a compiled filter
are exactly those of its nodes.  It compiles if its fields can be keys and its values be copied. -/
theorem compile_tells_operators {v : Value} (h : Constructed v) (hplain : NodeAll Unmarked v) :
    (NodeAll Compilable v → ∃ w, compile v = .ok w) ∧
    ∀ w, compile v = .ok w → TellsOperators v w := by
  rcases h.sound with rfl | ⟨f, rfl, hf⟩
  · refine ⟨fun _ => ⟨.doc [], rfl⟩, fun w hw => ?_⟩
    obtain rfl := Except.ok.inj hw
    exact tellsOperators_of_operatorKeys rfl
  · refine ⟨fun hcompilable => ?_, fun w hw => ?_⟩
    · obtain ⟨d, hd⟩ := exists_document_of_compilable hf hcompilable
      refine ⟨.doc d, ?_⟩
      rw [compile, nodeDocument_filter, hd]
      rfl
    · obtain ⟨d, hd, hw⟩ := exists_of_bind_eq_ok hw
      obtain rfl := Except.ok.inj hw
      exact tellsOperators_of_operatorKeys (operatorKeys_of_document hf hplain d hd)

/-- A condition on elements, and the negation of an alternative. -/
theorem compile_tells_operators_nested :
    ∃ w, compile (.filter (.conj (.tuple
        [.filter (.elemMatch (.str "a") (.filter (ne (.str "b") (.doc [(.str "c", .int 1)])))),
          .filter (.neg (.filter (.disj (.tuple [.filter (isIn (.str "d") (.list [.int 1])),
            .filter (.pattern (.str "e") (.str "x") (.str "i"))]))))]))) = .ok w ∧
      (∀ key, key ∈ w.operators ↔ key ∈
        ["$and", "$elemMatch", "$ne", "$nor", "$or", "$in", "$regex", "$options"]) ∧
      w.negates = true := by
  have helement : Constructed (.filter (.elemMatch (.str "a")
      (.filter (ne (.str "b") (.doc [(.str "c", .int 1)]))))) :=
    .elemMatch _ (.comparison _ _ _)
  have halternative : Constructed (.filter (.neg (.filter (.disj (.tuple
      [.filter (isIn (.str "d") (.list [.int 1])),
        .filter (.pattern (.str "e") (.str "x") (.str "i"))]))))) :=
    .negation (.combine .or (List.forall_mem_cons.mpr
      ⟨.comparison _ _ _, List.forall_mem_singleton.mpr (.pattern _ _ _)⟩) rfl)
  have hplain : ∀ s : String, isOperatorKey s = false → ¬(Value.str s).NamesOperator := by
    rintro s hs ⟨t, ht, hmark⟩
    obtain rfl := Scalar.str.inj (Value.scalar.inj ht)
    rw [hs] at hmark
    cases hmark
  obtain ⟨hcompiles, htells⟩ := compile_tells_operators
    (.combine .and (List.forall_mem_cons.mpr
      ⟨helement, List.forall_mem_singleton.mpr halternative⟩) rfl)
    ⟨trivial, ⟨hplain "a" rfl, hplain "b" rfl, hplain "c" rfl, trivial, trivial⟩,
      ⟨trivial, trivial, ⟨hplain "d" rfl, trivial, trivial⟩, ⟨hplain "e" rfl, trivial, trivial⟩,
        trivial⟩, trivial⟩
  obtain ⟨w, hw⟩ := hcompiles ⟨trivial, ⟨rfl, rfl, rfl⟩,
    ⟨trivial, trivial, ⟨rfl, rfl⟩, rfl, trivial⟩, trivial⟩
  obtain ⟨hkeys, -, hnegates⟩ := htells w hw
  refine ⟨w, hw, fun key => ?_, hnegates.mpr ⟨_, List.mem_of_getElem? (i := 2) rfl, Or.inl rfl⟩⟩
  exact (hkeys key).trans List.mem_flatMap.symm

end DocQuery.Filter
