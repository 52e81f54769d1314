import DocQuery.Filter.Connective
import DocQuery.Filter.Document

/-!
# DocQuery.Proofs.Filter.Tree — trees of filters

`Filter.All p` says that a filter is a tree, with tuples of filters as children and perhaps absent
ones among them, and that every node of it satisfies `p`.  `Filter.TreeCases` is induction over
such trees.  The last section has the documents of single fields: a plain field compiles to a
document with this one key, which is no operator.
-/

namespace DocQuery.Filter

/-! ### Trees -/

mutual

/-- Every node of a tree of filters satisfies `p`. -/
def All (p : Filter → Prop) : Filter → Prop
  | .elemMatch field inner => p (.elemMatch field inner) ∧ NodeAll p inner
  | .conj children => p (.conj children) ∧ ChildrenAll p children
  | .disj children => p (.disj children) ∧ ChildrenAll p children
  | .neg inner => p (.neg inner) ∧ NodeAll p inner
  | f => p f

/-- A tree, or nothing. -/
def NodeAll (p : Filter → Prop) : Value → Prop
  | .null => True
  | .filter f => f.All p
  | _ => False

def ChildrenAll (p : Filter → Prop) : Value → Prop
  | .tuple xs => ItemsAll p xs
  | _ => False

def ItemsAll (p : Filter → Prop) : List Value → Prop
  | [] => True
  | x :: xs => NodeAll p x ∧ ItemsAll p xs

end

/-- A value is absent, or a filter with `q`. -/
def Optionally (q : Filter → Prop) (v : Value) : Prop := v = .null ∨ ∃ f, v = .filter f ∧ q f

variable {p q : Filter → Prop}

theorem nodeAll_iff {v : Value} : NodeAll p v ↔ Optionally (All p) v := by
  constructor
  · intro h
    match v with
    | .null => exact Or.inl rfl
    | .filter f => exact Or.inr ⟨f, rfl, h⟩
  · rintro (rfl | ⟨f, rfl, h⟩)
    · trivial
    · exact h

theorem itemsAll_iff {xs : List Value} : ItemsAll p xs ↔ ∀ x ∈ xs, NodeAll p x := by
  induction xs with
  | nil => simp [ItemsAll]
  | cons x xs ih => simp [ItemsAll, ih]

theorem all_join {c : Connective} {children : Value} :
    (c.join children).All p ↔ p (c.join children) ∧ ChildrenAll p children := by
  cases c <;> rfl

theorem all_join_tuple {c : Connective} {xs : List Value} :
    (c.join (.tuple xs)).All p ↔ p (c.join (.tuple xs)) ∧ ∀ x ∈ xs, NodeAll p x := by
  rw [all_join, ChildrenAll, itemsAll_iff]

theorem childrenAll_iff {children : Value} :
    ChildrenAll p children ↔ ∃ xs, children = .tuple xs ∧ ∀ x ∈ xs, NodeAll p x := by
  constructor
  · intro h
    match children with
    | .tuple xs => exact ⟨xs, rfl, itemsAll_iff.mp h⟩
  · rintro ⟨xs, rfl, h⟩
    exact itemsAll_iff.mpr h

/-! ### Induction -/

/-- What induction over trees asks for: `motive` for a node of each kind that satisfies `p`, from
the nodes below it.  The two connectives are one case. -/
structure TreeCases (p motive : Filter → Prop) : Prop where
  comparison : ∀ field op value, p (.comparison field op value) →
    motive (.comparison field op value)
  pattern : ∀ field regex flags, p (.pattern field regex flags) →
    motive (.pattern field regex flags)
  elemMatch : ∀ field inner, p (.elemMatch field inner) → Optionally motive inner →
    motive (.elemMatch field inner)
  join : ∀ (c : Connective) (xs : List Value), p (c.join (.tuple xs)) →
    (∀ x ∈ xs, Optionally motive x) → motive (c.join (.tuple xs))
  neg : ∀ inner, p (.neg inner) → Optionally motive inner → motive (.neg inner)

namespace TreeCases

variable {motive : Filter → Prop}

mutual

theorem filter (cases : TreeCases p motive) (f : Filter) (h : f.All p) : motive f := by
  match f with
  | .comparison field op value => exact cases.comparison field op value h
  | .pattern field regex flags => exact cases.pattern field regex flags h
  | .elemMatch field inner => exact cases.elemMatch field inner h.1 (cases.node inner h.2)
  | .conj (.tuple xs) => exact cases.join .and xs h.1 (cases.items xs h.2)
  | .disj (.tuple xs) => exact cases.join .or xs h.1 (cases.items xs h.2)
  | .neg inner => exact cases.neg inner h.1 (cases.node inner h.2)

theorem node (cases : TreeCases p motive) (v : Value) (h : NodeAll p v) :
    Optionally motive v := by
  match v with
  | .null => exact Or.inl rfl
  | .filter f => exact Or.inr ⟨f, rfl, cases.filter f h⟩

theorem items (cases : TreeCases p motive) (xs : List Value) (h : ItemsAll p xs) :
    ∀ x ∈ xs, Optionally motive x := by
  match xs with
  | [] => exact fun _ hx => nomatch hx
  | x :: xs => exact List.forall_mem_cons.mpr ⟨cases.node x h.1, cases.items xs h.2⟩

end

end TreeCases

theorem All.imp {f : Filter} (h : f.All p) (hpq : ∀ g, p g → q g) :
    f.All q := by
  have cases : TreeCases p (All q) :=
    { comparison := fun _ _ _ h => hpq _ h
      pattern := fun _ _ _ h => hpq _ h
      elemMatch := fun _ _ h hinner => ⟨hpq _ h, nodeAll_iff.mpr hinner⟩
      join := fun _ _ h hxs =>
        all_join_tuple.mpr ⟨hpq _ h, fun x hx => nodeAll_iff.mpr (hxs x hx)⟩
      neg := fun _ h hinner => ⟨hpq _ h, nodeAll_iff.mpr hinner⟩ }
  exact cases.filter f h

theorem NodeAll.and_of_optionally {v : Value}
    (hp : Optionally (fun f => f.All q → f.All fun g => p g ∧ q g) v) (hq : NodeAll q v) :
    NodeAll (fun g => p g ∧ q g) v := by
  rcases hp with rfl | ⟨f, rfl, hf⟩
  · trivial
  · exact hf hq

/-- Two properties of every node. -/
theorem All.and {f : Filter} (hp : f.All p) (hq : f.All q) : f.All fun g => p g ∧ q g := by
  have cases : TreeCases p fun f => f.All q → f.All fun g => p g ∧ q g :=
    { comparison := fun _ _ _ hp hq => ⟨hp, hq⟩
      pattern := fun _ _ _ hp hq => ⟨hp, hq⟩
      elemMatch := fun _ _ hp hinner hq => ⟨⟨hp, hq.1⟩, NodeAll.and_of_optionally hinner hq.2⟩
      join := fun c xs hp hxs hq => by
        obtain ⟨hq, hqs⟩ := all_join_tuple.mp hq
        refine all_join_tuple.mpr ⟨⟨hp, hq⟩, fun x hx => ?_⟩
        exact NodeAll.and_of_optionally (hxs x hx) (hqs x hx)
      neg := fun _ hp hinner hq => ⟨⟨hp, hq.1⟩, NodeAll.and_of_optionally hinner hq.2⟩ }
  exact cases.filter f hp hq

/-! ### Compiling again -/

/-- Compiling leaves the filter as it is: no container in it takes its children from a stream that
has any. -/
def IsRereadable (v : Value) : Prop := nodeCompiled v = v

theorem compiled_join_tuple {c : Connective} {xs : List Value} (h : ∀ x ∈ xs, IsRereadable x) :
    (c.join (.tuple xs)).compiled = c.join (.tuple xs) := by
  have hxs : nodesCompiled xs = xs := by
    induction xs with
    | nil => rfl
    | cons x xs ih =>
      obtain ⟨hx, hxs⟩ := List.forall_mem_cons.mp h
      rw [nodesCompiled, hx, ih hxs]
  cases c <;> simp only [Connective.join, compiled, childrenCompiled, hxs]

/-- A tree takes its children from tuples. -/
theorem NodeAll.isRereadable {v : Value} (h : NodeAll p v) : IsRereadable v := by
  have hnode : ∀ {w : Value}, Optionally (fun f => f.compiled = f) w → nodeCompiled w = w := by
    rintro w (rfl | ⟨f, rfl, hf⟩)
    · rfl
    · rw [nodeCompiled, hf]
  have cases : TreeCases p fun f => f.compiled = f :=
    { comparison := fun _ _ _ _ => rfl
      pattern := fun _ _ _ _ => rfl
      elemMatch := fun _ _ _ hinner => by rw [compiled, hnode hinner]
      join := fun _ xs _ hxs => compiled_join_tuple fun x hx => hnode (hxs x hx)
      neg := fun _ _ hinner => by rw [compiled, hnode hinner] }
  exact hnode (cases.node v h)

/-! ### Flattening -/

theorem childrenOf?_join (c : Connective) (children : Value) :
    c.childrenOf? (.filter (c.join children)) = some children := by
  cases c <;> rfl

theorem childrenOf?_of_ne_join {c : Connective} {f : Filter} (h : ∀ ys, f ≠ c.join ys) :
    c.childrenOf? (.filter f) = none := by
  cases c <;> cases f <;> first | rfl | exact absurd rfl (h _)

/-- A container of the same kind is opened. -/
theorem flatten_join_cons (c : Connective) (xs vs : List Value) {ys : List Value}
    (h : c.flatten vs = .ok ys) :
    c.flatten (.filter (c.join (.tuple xs)) :: vs) = .ok (xs ++ ys) := by
  rw [Connective.flatten, childrenOf?_join, h]
  rfl

/-- Any other filter stays. -/
theorem flatten_filter_cons {c : Connective} {f : Filter} (hf : ∀ ys, f ≠ c.join ys)
    {vs ys : List Value} (h : c.flatten vs = .ok ys) :
    c.flatten (.filter f :: vs) = .ok (.filter f :: ys) := by
  rw [Connective.flatten, childrenOf?_of_ne_join hf, h]
  rfl

/-! ### Fields -/

/-- A field that is a text and no operator. -/
def PlainField (field : Value) : Prop := ∃ s, field = .str s ∧ isOperatorKey s = false

/-- The field of a node is plain and its value can be copied. -/
def PlainNode : Filter → Prop
  | .comparison field _ value => PlainField field ∧ value.isCopyable
  | .pattern field _ _ | .elemMatch field _ => PlainField field
  | _ => True

/-- The operator of a comparison is one. -/
def KnownOperator : Filter → Prop
  | .comparison _ op _ => ∃ o, op = .scalar (.comparisonOp o)
  | _ => True

theorem mapM_copy {xs : List Value} (h : itemsCopyable xs) :
    xs.mapM Value.copy = .ok (xs.map Value.detached) := by
  induction xs with
  | nil => rfl
  | cons x xs ih =>
    obtain ⟨hx, hxs⟩ : x.isCopyable ∧ itemsCopyable xs := by
      simpa only [itemsCopyable, Bool.and_eq_true] using h
    rw [List.mapM_cons, Value.copy_of_isCopyable hx, ih hxs]
    rfl

theorem exists_operand {value : Value} (h : value.isCopyable) : ∃ w, value.operand = .ok w := by
  unfold Value.operand
  split
  · rename_i xs
    exact ⟨.list (xs.map Value.detached), by rw [mapM_copy h]; rfl⟩
  · exact ⟨value.detached, Value.copy_of_isCopyable h⟩

theorem add_nil_str (s : String) (v : Value) : Document.add [] (.str s) v = .ok [(.str s, v)] :=
  Document.add_of_isHashable (Value.isHashable_str s) v

/-- An equality compiles to its value, under the field. -/
theorem eq_document (s : String) {value : Value} (h : value.isCopyable) :
    (eq (.str s) value).document = .ok [(.str s, value.detached)] := by
  rw [eq, compare, document, comparisonDocument, Value.copy_of_isCopyable h]
  exact add_nil_str s _

/-- Another comparison compiles to a document with its operator, under the field. -/
theorem compare_document (s : String) {op : ComparisonOp} (hop : op ≠ .eq) {value w : Value}
    (hw : value.operand = .ok w) :
    (compare op (.str s) value).document = .ok [(.str s, .single op.key w)] := by
  have hdoc : comparisonDocument (.str s) (.scalar (.comparisonOp op)) value =
      (do
        let inner ← Document.add [] (.str op.key) (← value.operand)
        Document.add [] (.str s) (.doc inner)) := by
    cases op <;> first | rfl | exact absurd rfl hop
  rw [compare, document, hdoc, hw]
  show (Document.add [] (.str op.key) w >>= fun inner =>
    Document.add [] (.str s) (.doc inner)) = _
  rw [add_nil_str]
  exact add_nil_str s _

theorem pattern_document (s : String) (regex flags : Value) :
    (Filter.pattern (.str s) regex flags).document =
      .ok [(.str s, .doc (patternDocument regex flags))] :=
  add_nil_str s _

theorem elemMatch_document (s : String) {inner : Value} {d : Document}
    (h : nodeDocument inner = .ok d) :
    (Filter.elemMatch (.str s) inner).document =
      .ok [(.str s, .single Key.elemMatch (.doc d))] := by
  rw [document, h]
  exact add_nil_str s _

/-! ### Containers -/

theorem join_document (c : Connective) {xs : List Value} {ds : List Document}
    (h : nodeDocuments xs = .ok ds) : (c.join (.tuple xs)).document = .ok (joined c ds) := by
  cases c
  · rw [Connective.join, document, childDocuments, h]
    rfl
  · rw [Connective.join, document, childDocuments, h]
    rfl

theorem neg_document {inner : Value} {d : Document} (h : nodeDocument inner = .ok d) :
    (Filter.neg inner).document = .ok [(.str Key.nor, .list [.doc d])] := by
  rw [document, h]
  rfl

theorem nodeDocuments_cons {x : Value} {xs : List Value} {d : Document} {ds : List Document}
    (hx : nodeDocument x = .ok d) (hxs : nodeDocuments xs = .ok ds) :
    nodeDocuments (x :: xs) = .ok (d :: ds) := by
  rw [nodeDocuments, hx, hxs]
  rfl

theorem joined_of_two_le (c : Connective) {ds : List Document} (h : 2 ≤ ds.length) :
    joined c ds = [(.str c.key, .list (ds.map .doc))] := by
  match ds with
  | [] => exact absurd h (by simp)
  | [_] => exact absurd h (by simp)
  | _ :: _ :: _ => rfl

end DocQuery.Filter
