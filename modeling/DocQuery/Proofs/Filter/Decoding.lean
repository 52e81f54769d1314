import DocQuery.Proofs.Filter.Flat
import DocQuery.Proofs.Value.Reference

/-!
# DocQuery.Proofs.Filter.Decoding — query documents tell filters apart

`Filter.decoded?` reads a query document back as a filter.  All nodes compile to documents of the
same kind, and the decoder tells them apart by their keys alone: a field is no operator, an operator
stands in a document of its own under a field, and connectives have keys of their own.  Constructed
filters are flat, so that no container vanishes when it is compiled; what the decoder finds is then
the filter itself, up to `Filter.Alike` (`document_determines_filter`).
-/

namespace DocQuery

/-- The comparison of an operator key. -/
def ComparisonOp.ofKey? (key : String) : Option ComparisonOp := every.find? (·.key == key)

theorem ComparisonOp.ofKey?_key (op : ComparisonOp) : ofKey? op.key = some op := by
  cases op <;> decide

/-- The connective of an operator key. -/
def Connective.ofKey? (key : String) : Option Connective := [and, or].find? (·.key == key)

theorem Connective.ofKey?_key (c : Connective) : ofKey? c.key = some c := by
  cases c <;> decide

theorem Connective.ofKey?_of_plain {s : String} (hs : isOperatorKey s = false) :
    ofKey? s = none := by
  have hne : ∀ c ∈ [and, or], ¬(c.key == s) = true := by
    intro c _ hc
    exact Filter.ne_key_of_plain hs c (beq_iff_eq.mp hc).symm
  exact List.find?_eq_none.mpr hne

namespace Filter

/-! ### Filters that compile alike -/

/-- A tuple as a list; other values stay. -/
def listed : Value → Value
  | .tuple xs => .list xs
  | v => v

@[simp] theorem listed_listed (v : Value) : listed (listed v) = listed v := by
  cases v <;> rfl

theorem detached_listed (v : Value) : (listed v).detached = listed v.detached := by
  cases v <;> rfl

theorem isGiven_detached (v : Value) : v.detached.isGiven = v.isGiven := by
  cases v with
  | list xs | tuple xs | set xs | doc xs | pipeline _ xs => cases xs <;> rfl
  | _ => rfl

theorem detached_join (c : Connective) (xs : List Value) :
    (Value.filter (c.join (.tuple xs))).detached =
      .filter (c.join (.tuple (xs.map Value.detached))) := by
  have hxs : xs.map Value.detached = mapPipelinesItems unnamed xs :=
    (mapPipelinesItems_eq_map unnamed xs).symm
  rw [hxs]
  cases c <;> rfl

mutual

/-- The same filters, up to two things: the operand of a comparison other than equality may be a
tuple in one and a list in the other, and flags that are not given may differ. -/
def Alike : Filter → Filter → Prop
  | .comparison field op v, .comparison field' op' w =>
    field = field' ∧ op = op' ∧ (v = w ∨ op ≠ .scalar (.comparisonOp .eq) ∧ listed v = listed w)
  | .pattern field regex flags, .pattern field' regex' flags' =>
    field = field' ∧ regex = regex' ∧
      (flags = flags' ∨ flags.isGiven = false ∧ flags'.isGiven = false)
  | .elemMatch field inner, .elemMatch field' inner' => field = field' ∧ NodeAlike inner inner'
  | .conj children, .conj children' => ChildrenAlike children children'
  | .disj children, .disj children' => ChildrenAlike children children'
  | .neg inner, .neg inner' => NodeAlike inner inner'
  | _, _ => False
termination_by structural f => f

/-- Filters that are alike, or nothing twice. -/
def NodeAlike : Value → Value → Prop
  | .null, .null => True
  | .filter f, .filter g => f.Alike g
  | _, _ => False
termination_by structural v => v

def ChildrenAlike : Value → Value → Prop
  | .tuple xs, .tuple ys => ItemsAlike xs ys
  | _, _ => False
termination_by structural v => v

def ItemsAlike : List Value → List Value → Prop
  | [], [] => True
  | x :: xs, y :: ys => NodeAlike x y ∧ ItemsAlike xs ys
  | _, _ => False
termination_by structural xs => xs

end

theorem alike_join {c : Connective} {xs ys : List Value} :
    (c.join (.tuple xs)).Alike (c.join (.tuple ys)) ↔ ItemsAlike xs ys := by
  cases c <;> rfl

mutual

theorem Alike.symm (f g : Filter) (h : f.Alike g) : g.Alike f := by
  match f, g with
  | .comparison _ _ _, .comparison _ _ _ =>
    obtain ⟨rfl, rfl, h⟩ := h
    exact ⟨rfl, rfl, h.imp Eq.symm fun h => ⟨h.1, h.2.symm⟩⟩
  | .pattern _ _ _, .pattern _ _ _ =>
    obtain ⟨rfl, rfl, h⟩ := h
    exact ⟨rfl, rfl, h.imp Eq.symm And.symm⟩
  | .elemMatch _ i, .elemMatch _ i' => exact ⟨h.1.symm, NodeAlike.symm i i' h.2⟩
  | .conj c, .conj c' => exact ChildrenAlike.symm c c' h
  | .disj c, .disj c' => exact ChildrenAlike.symm c c' h
  | .neg i, .neg i' => exact NodeAlike.symm i i' h

theorem NodeAlike.symm (v w : Value) (h : NodeAlike v w) : NodeAlike w v := by
  match v, w with
  | .null, .null => trivial
  | .filter f, .filter g => exact Alike.symm f g h

theorem ChildrenAlike.symm (v w : Value) (h : ChildrenAlike v w) : ChildrenAlike w v := by
  match v, w with
  | .tuple xs, .tuple ys => exact ItemsAlike.symm xs ys h

theorem ItemsAlike.symm (xs ys : List Value) (h : ItemsAlike xs ys) : ItemsAlike ys xs := by
  match xs, ys with
  | [], [] => trivial
  | x :: xs, y :: ys => exact ⟨NodeAlike.symm x y h.1, ItemsAlike.symm xs ys h.2⟩

end

mutual

theorem Alike.trans (f g k : Filter) (h : f.Alike g) (h' : g.Alike k) : f.Alike k := by
  match f, g, k with
  | .comparison _ _ _, .comparison _ _ _, .comparison _ _ _ =>
    obtain ⟨rfl, rfl, hv⟩ := h
    obtain ⟨rfl, rfl, hw⟩ := h'
    refine ⟨rfl, rfl, ?_⟩
    rcases hv with rfl | ⟨hop, hv⟩
    · exact hw
    · rcases hw with rfl | ⟨-, hw⟩
      · exact Or.inr ⟨hop, hv⟩
      · exact Or.inr ⟨hop, hv.trans hw⟩
  | .pattern _ _ _, .pattern _ _ _, .pattern _ _ _ =>
    obtain ⟨rfl, rfl, hf⟩ := h
    obtain ⟨rfl, rfl, hg⟩ := h'
    refine ⟨rfl, rfl, ?_⟩
    rcases hf with rfl | ⟨hf, hg'⟩
    · exact hg
    · rcases hg with rfl | ⟨-, hk⟩
      · exact Or.inr ⟨hf, hg'⟩
      · exact Or.inr ⟨hf, hk⟩
  | .elemMatch _ i, .elemMatch _ j, .elemMatch _ k =>
    exact ⟨h.1.trans h'.1, NodeAlike.trans i j k h.2 h'.2⟩
  | .conj c, .conj d, .conj e => exact ChildrenAlike.trans c d e h h'
  | .disj c, .disj d, .disj e => exact ChildrenAlike.trans c d e h h'
  | .neg i, .neg j, .neg k => exact NodeAlike.trans i j k h h'

theorem NodeAlike.trans (u v w : Value) (h : NodeAlike u v) (h' : NodeAlike v w) :
    NodeAlike u w := by
  match u, v, w with
  | .null, .null, .null => trivial
  | .filter f, .filter g, .filter k => exact Alike.trans f g k h h'

theorem ChildrenAlike.trans (u v w : Value) (h : ChildrenAlike u v) (h' : ChildrenAlike v w) :
    ChildrenAlike u w := by
  match u, v, w with
  | .tuple xs, .tuple ys, .tuple zs => exact ItemsAlike.trans xs ys zs h h'

theorem ItemsAlike.trans (xs ys zs : List Value) (h : ItemsAlike xs ys) (h' : ItemsAlike ys zs) :
    ItemsAlike xs zs := by
  match xs, ys, zs with
  | [], [], [] => trivial
  | x :: xs, y :: ys, z :: zs =>
    exact ⟨NodeAlike.trans x y z h.1 h'.1, ItemsAlike.trans xs ys zs h.2 h'.2⟩

end

/-! ### Reading documents back -/

/-- The leaf of a field, from the document that stands under it. -/
def decodedLeaf? (field : Value) : Document → Option Filter
  | [(.str key, w)] =>
    if key = Key.regex then some (.pattern field w .null)
    else (ComparisonOp.ofKey? key).map fun op => compare op field w
  | [(.str key, regex), (.str key', flags)] =>
    if key = Key.regex ∧ key' = Key.options then some (.pattern field regex flags) else none
  | _ => none

mutual

/-- The filter that a query document stands for: a container or a negation by its key, and else a
leaf of a field. -/
def decoded? : Document → Option Value
  | [] => some .null
  | [(.str key, .list parts)] =>
    if key = Key.nor then
      match decodedParts? parts with
      | some [x] => some (.filter (.neg x))
      | _ => none
    else match Connective.ofKey? key with
      | some c => (decodedParts? parts).map fun xs => .filter (c.join (.tuple xs))
      | none => some (.filter (eq (.str key) (.list parts)))
  | [(.str field, .doc [(.str key, w)])] =>
    if key = Key.elemMatch then (decodedPart? w).map fun x => .filter (.elemMatch (.str field) x)
    else (decodedLeaf? (.str field) [(.str key, w)]).map .filter
  | [(.str field, .doc payload)] => (decodedLeaf? (.str field) payload).map .filter
  | [(.str field, w)] => some (.filter (eq (.str field) w))
  | _ => none

def decodedPart? : Value → Option Value
  | .doc d => decoded? d
  | _ => none

def decodedParts? : List Value → Option (List Value)
  | [] => some []
  | x :: xs => do
    let y ← decodedPart? x
    return y :: (← decodedParts? xs)

end

theorem decoded?_equality {s : String} (hs : isOperatorKey s = false) {w : Value}
    (hw : ∀ es, w ≠ .doc es) : decoded? [(.str s, w)] = some (.filter (eq (.str s) w)) := by
  have hnor : s ≠ Key.nor := by
    rintro rfl
    exact Bool.noConfusion hs
  cases w with
  | list parts => rw [decoded?, if_neg hnor, Connective.ofKey?_of_plain hs]
  | doc es => exact absurd rfl (hw es)
  | _ => rfl

theorem decoded?_comparison (s : String) (op : ComparisonOp) (w : Value) :
    decoded? [(.str s, .single op.key w)] = some (.filter (compare op (.str s) w)) := by
  have helem : op.key ≠ Key.elemMatch := by cases op <;> decide
  have hregex : op.key ≠ Key.regex := by cases op <;> decide
  rw [decoded?, if_neg helem, decodedLeaf?, if_neg hregex, ComparisonOp.ofKey?_key]
  rfl

theorem decoded?_pattern (s : String) (regex flags : Value) :
    decoded? [(.str s, .doc (patternDocument regex flags))] =
      some (.filter (.pattern (.str s) regex (if flags.isGiven then flags else .null))) := by
  by_cases hflags : flags.isGiven = true
  · rw [patternDocument, if_pos hflags, if_pos hflags]
    rfl
  · rw [patternDocument, if_neg hflags, if_neg hflags]
    rfl

theorem decoded?_elemMatch (s : String) {d : Document} {x : Value} (h : decoded? d = some x) :
    decoded? [(.str s, .single Key.elemMatch (.doc d))] =
      some (.filter (.elemMatch (.str s) x)) := by
  rw [decoded?, if_pos rfl, decodedPart?, h]
  rfl

theorem decoded?_join (c : Connective) {parts xs : List Value}
    (h : decodedParts? parts = some xs) :
    decoded? [(.str c.key, .list parts)] = some (.filter (c.join (.tuple xs))) := by
  rw [decoded?, if_neg (nor_ne_key c).symm, Connective.ofKey?_key, h]
  rfl

theorem decoded?_nor {d : Document} {x : Value} (h : decoded? d = some x) :
    decoded? [(.str Key.nor, .list [.doc d])] = some (.filter (.neg x)) := by
  have hparts : decodedParts? [.doc d] = some [x] := by
    rw [decodedParts?, decodedPart?, h]
    rfl
  rw [decoded?, if_pos rfl, hparts]

/-! ### Compiled filters -/

/-- An equality does not hold a document, which would read as operators. -/
def NoDocumentEquality : Filter → Prop
  | .comparison _ op value => op = .scalar (.comparisonOp .eq) → ∀ es, value ≠ .doc es
  | _ => True

/-- A value compiles to a document that reads back as it, up to the names of pipelines. -/
def Decodes (v : Value) : Prop :=
  ∃ d x, nodeDocument v = .ok d ∧ decoded? d = some x ∧ NodeAlike x.detached v.detached

theorem decodes_null : Decodes .null := ⟨[], .null, rfl, rfl, trivial⟩

theorem Optionally.decodes {v : Value} (h : Optionally (fun f => Decodes (.filter f)) v) :
    Decodes v := by
  rcases h with rfl | ⟨f, rfl, hf⟩
  · exact decodes_null
  · exact hf

theorem decodes_equality {s : String} (hs : isOperatorKey s = false) {value : Value}
    (hcopy : value.isCopyable) (hvalue : ∀ es, value ≠ .doc es) :
    Decodes (.filter (eq (.str s) value)) := by
  have hdetached : ∀ es, value.detached ≠ .doc es := by
    intro es hes
    cases value with
    | doc es' => exact hvalue es' rfl
    | _ => cases hes
  refine ⟨_, _, eq_document s hcopy, decoded?_equality hs hdetached, rfl, rfl, Or.inl ?_⟩
  exact value.detached_detached

/-- The operand of a comparison is copied, a tuple as a list. -/
theorem operand_eq {value : Value} (h : value.isCopyable) :
    value.operand = .ok (listed value.detached) := by
  cases value with
  | tuple xs =>
    rw [Value.operand, mapM_copy h, Value.detached, Value.mapPipelines, mapPipelinesItems_eq_map]
    rfl
  | _ => exact Value.copy_of_isCopyable h

theorem decodes_comparison (s : String) {op : ComparisonOp} (hop : op ≠ .eq) {value : Value}
    (hcopy : value.isCopyable) : Decodes (.filter (compare op (.str s) value)) := by
  have hne : Value.scalar (.comparisonOp op) ≠ .scalar (.comparisonOp .eq) := by
    intro h
    exact hop (Scalar.comparisonOp.inj (Value.scalar.inj h))
  refine ⟨_, _, compare_document s hop (operand_eq hcopy), decoded?_comparison s op _,
    rfl, rfl, Or.inr ⟨hne, ?_⟩⟩
  calc listed (listed value.detached).detached
      = listed (listed value.detached.detached) := by rw [detached_listed]
    _ = listed value.detached := by rw [listed_listed, Value.detached_detached]

theorem decodes_pattern (s : String) (regex flags : Value) :
    Decodes (.filter (.pattern (.str s) regex flags)) := by
  refine ⟨_, _, pattern_document s regex flags, decoded?_pattern s regex flags, rfl, rfl, ?_⟩
  by_cases hflags : flags.isGiven = true
  · rw [if_pos hflags]
    exact Or.inl rfl
  · rw [if_neg hflags]
    exact Or.inr ⟨rfl, (isGiven_detached flags).trans (Bool.eq_false_iff.mpr hflags)⟩

theorem decodes_elemMatch (s : String) {inner : Value} (h : Decodes inner) :
    Decodes (.filter (.elemMatch (.str s) inner)) := by
  obtain ⟨d, x, hd, hx, halike⟩ := h
  exact ⟨_, _, elemMatch_document s hd, decoded?_elemMatch s hx, rfl, halike⟩

theorem decodes_neg {inner : Value} (h : Decodes inner) : Decodes (.filter (.neg inner)) := by
  obtain ⟨d, x, hd, hx, halike⟩ := h
  exact ⟨_, _, neg_document hd, decoded?_nor hx, halike⟩

theorem exists_decoded {xs : List Value} (h : ∀ x ∈ xs, Decodes x) :
    ∃ ds ys, nodeDocuments xs = .ok ds ∧ decodedParts? (ds.map .doc) = some ys ∧
      ds.length = xs.length ∧ ItemsAlike (ys.map Value.detached) (xs.map Value.detached) := by
  induction xs with
  | nil => exact ⟨[], [], rfl, rfl, rfl, trivial⟩
  | cons x xs ih =>
    obtain ⟨⟨d, y, hd, hy, halike⟩, hxs⟩ := List.forall_mem_cons.mp h
    obtain ⟨ds, ys, hds, hys, hlength, halikes⟩ := ih hxs
    refine ⟨d :: ds, y :: ys, nodeDocuments_cons hd hds, ?_, congrArg (· + 1) hlength,
      halike, halikes⟩
    rw [List.map_cons, decodedParts?, decodedPart?, hy, hys]
    rfl

theorem decodes_join (c : Connective) {xs : List Value} (hlength : 2 ≤ xs.length)
    (h : ∀ x ∈ xs, Decodes x) : Decodes (.filter (c.join (.tuple xs))) := by
  obtain ⟨ds, ys, hds, hys, hsame, halikes⟩ := exists_decoded h
  have hdoc : (c.join (.tuple xs)).document = .ok [(.str c.key, .list (ds.map .doc))] := by
    rw [join_document c hds, joined_of_two_le c (hsame ▸ hlength)]
  refine ⟨_, _, hdoc, decoded?_join c hys, ?_⟩
  rw [detached_join, detached_join]
  exact alike_join.mpr halikes

/-- What every node of a filter needs to be read back. -/
def Unambiguous (f : Filter) : Prop := PlainNode f ∧ NoDocumentEquality f

theorem decodes_of_sound {v : Value} (hsound : Optionally (All Sound) v)
    (hplain : NodeAll Unambiguous v) : Decodes v := by
  have cases : TreeCases (fun f => Sound f ∧ Unambiguous f) fun f => Decodes (.filter f) :=
    { comparison := fun field op value h => by
        obtain ⟨⟨-, o, rfl⟩, ⟨⟨s, rfl, hs⟩, hcopy⟩, hvalue⟩ := h
        by_cases ho : o = .eq
        · subst ho
          exact decodes_equality hs hcopy (hvalue rfl)
        · exact decodes_comparison s ho hcopy
      pattern := fun field regex flags h => by
        obtain ⟨-, ⟨s, rfl, -⟩, -⟩ := h
        exact decodes_pattern s regex flags
      elemMatch := fun field inner h hinner => by
        obtain ⟨-, ⟨s, rfl, -⟩, -⟩ := h
        exact decodes_elemMatch s hinner.decodes
      join := fun c xs h hxs => by
        obtain ⟨ys, hys, hlength, -⟩ := flatNode_join.mp h.1.1
        obtain rfl := Value.tuple.inj hys
        exact decodes_join c hlength fun x hx => (hxs x hx).decodes
      neg := fun inner _ hinner => decodes_neg hinner.decodes }
  rcases hsound with rfl | ⟨f, rfl, hf⟩
  · exact decodes_null
  · exact cases.filter f (hf.and hplain)

/-- The document of a constructed filter reads back as the filter, so filters with the same document
are alike.  Pipelines in them are compared by what they hold, since copies of them have no names. -/
theorem document_determines_filter {v w : Value} (hv : Constructed v) (hw : Constructed w)
    (hplain : NodeAll Unambiguous v) (hplain' : NodeAll Unambiguous w) :
    (∃ d x, compile v = .ok (.doc d) ∧ decoded? d = some x ∧
      NodeAlike x.detached v.detached) ∧
    (compile v = compile w → NodeAlike v.detached w.detached) := by
  obtain ⟨d, x, hd, hx, halike⟩ := decodes_of_sound hv.sound hplain
  obtain ⟨d', y, hd', hy, halike'⟩ := decodes_of_sound hw.sound hplain'
  have hcompile : compile v = .ok (.doc d) := by
    rw [compile, hd]
    rfl
  have hcompile' : compile w = .ok (.doc d') := by
    rw [compile, hd']
    rfl
  refine ⟨⟨d, x, hcompile, hx, halike⟩, fun hsame => ?_⟩
  obtain rfl : d = d' :=
    Value.doc.inj (Except.ok.inj (hcompile.symm.trans (hsame.trans hcompile')))
  obtain rfl : x = y := Option.some.inj (hx.symm.trans hy)
  exact NodeAlike.trans _ _ _ (NodeAlike.symm _ _ halike) halike'

/-- A tuple against a list, and empty flags against none. -/
theorem document_determines_filter_operands :
    (∃ d x, compile (.filter (.conj (.tuple [.filter (isIn (.str "a") (.list [.int 1])),
          .filter (.pattern (.str "b") (.str "x") (.str ""))]))) = .ok (.doc d) ∧
      decoded? d = some x ∧
      NodeAlike x.detached (Value.filter (.conj (.tuple
        [.filter (isIn (.str "a") (.list [.int 1])),
          .filter (.pattern (.str "b") (.str "x") (.str ""))]))).detached) ∧
    NodeAlike
      (Value.filter (.conj (.tuple [.filter (isIn (.str "a") (.list [.int 1])),
        .filter (.pattern (.str "b") (.str "x") (.str ""))]))).detached
      (Value.filter (.conj (.tuple [.filter (compare .isIn (.str "a") (.list [.int 1])),
        .filter (.pattern (.str "b") (.str "x") .null)]))).detached := by
  have hconstructed : ∀ value flags, Constructed (.filter (.conj (.tuple
      [.filter (compare .isIn (.str "a") value),
        .filter (.pattern (.str "b") (.str "x") flags)]))) := by
    intro value flags
    have hoperands : ∀ v ∈ [.filter (compare .isIn (.str "a") value),
        .filter (.pattern (.str "b") (.str "x") flags)], Constructed v :=
      List.forall_mem_cons.mpr
        ⟨.comparison _ _ _, List.forall_mem_singleton.mpr (.pattern _ _ _)⟩
    exact .combine .and hoperands rfl
  have hplain : ∀ value flags, value.isCopyable → NodeAll Unambiguous (.filter (.conj (.tuple
      [.filter (compare .isIn (.str "a") value),
        .filter (.pattern (.str "b") (.str "x") flags)]))) := by
    intro value flags hcopy
    exact ⟨⟨trivial, trivial⟩, ⟨⟨⟨"a", rfl, rfl⟩, hcopy⟩, fun h => nomatch h⟩,
      ⟨⟨"b", rfl, rfl⟩, trivial⟩, trivial⟩
  obtain ⟨hdecoded, halike⟩ := document_determines_filter
    (hconstructed (.tuple [.int 1]) (.str "")) (hconstructed (.list [.int 1]) .null)
    (hplain _ _ rfl) (hplain _ _ rfl)
  exact ⟨hdecoded, halike rfl⟩

end Filter

end DocQuery
