import DocQuery.Filter.Basic

/-!
# DocQuery.Filter.Document — the query document of a filter

An equality compiles to the value under its field, another comparison to a document with one
operator, a container to an array under its connective, a negation to `$nor` of one document, and
an absent filter to the empty document, which every document satisfies.  A container with one
child is that child.
-/

namespace DocQuery

namespace Value

/-- The key of the operator in a node's operator slot.  A node there stands for its own value. -/
def operatorKey? : Value → Except Fault Value
  | .scalar (.comparisonOp op) => .ok (.str op.key)
  | .scalar (.updateOp op) => .ok (.str op.key)
  | .filter (.comparison _ _ v) => .ok v
  | .update (.assign _ _ v) => .ok v
  | _ => .error .missingPart

/-- The operand of a comparison other than equality: a tuple becomes a list. -/
def operand (v : Value) : Except Fault Value :=
  match v with
  | .tuple xs => do return .list (← xs.mapM copy)
  | v => v.copy

end Value

namespace Filter

/-- Options of a pattern, left out if there are none. -/
def patternDocument (regex flags : Value) : Document :=
  (.str Key.regex, regex) :: if flags.isGiven then [(.str Key.options, flags)] else []

/-- The document of one comparison. -/
def comparisonDocument (field op value : Value) : Except Fault Document :=
  match op with
  | .scalar (.comparisonOp .eq) => do Document.add [] field (← value.copy)
  | op => do
    let key ← op.operatorKey?
    let inner ← Document.add [] key (← value.operand)
    Document.add [] field (.doc inner)

/-- The document of a container whose children have these documents. -/
def joined (c : Connective) : List Document → Document
  | [d] => d
  | ds => [(.str c.key, .list (ds.map .doc))]

mutual

/-- The query document of a filter. -/
def document : Filter → Except Fault Document
  | .comparison field op value => comparisonDocument field op value
  | .pattern field regex flags => Document.add [] field (.doc (patternDocument regex flags))
  | .elemMatch field inner => do
    let d ← nodeDocument inner
    Document.add [] field (.single Key.elemMatch (.doc d))
  | .conj children => do return joined .and (← childDocuments children)
  | .disj children => do return joined .or (← childDocuments children)
  | .neg inner => do
    let d ← nodeDocument inner
    return [(.str Key.nor, .list [.doc d])]

/-- The query document of what stands where a filter should: a filter, or nothing. -/
def nodeDocument : Value → Except Fault Document
  | .null => .ok []
  | .filter f => f.document
  | v => .error (.foreignFilter v)

/-- The query documents of what a container holds. -/
def childDocuments : Value → Except Fault (List Document)
  | .list xs | .tuple xs | .set xs | .stream xs => nodeDocuments xs
  | .doc es => keyDocuments es
  | .scalar s => do
    match ← s.items? with
    | [] => return []
    | x :: _ => throw (.foreignFilter (.scalar x))
  | _ => .error .notIterable

/-- The query documents of nodes, up to the first that has none. -/
def nodeDocuments : List Value → Except Fault (List Document)
  | [] => .ok []
  | x :: xs => do
    let d ← nodeDocument x
    return d :: (← nodeDocuments xs)

/-- The query documents of the keys of entries. -/
def keyDocuments : List (Value × Value) → Except Fault (List Document)
  | [] => .ok []
  | (k, _) :: es => do
    let d ← nodeDocument k
    return d :: (← keyDocuments es)

end

@[simp] theorem nodeDocument_null : nodeDocument .null = .ok [] := rfl

@[simp] theorem nodeDocument_filter (f : Filter) : nodeDocument (.filter f) = f.document := rfl

theorem nodeDocuments_eq_mapM (xs : List Value) : nodeDocuments xs = xs.mapM nodeDocument := by
  induction xs with
  | nil => rfl
  | cons x xs ih => rw [nodeDocuments, List.mapM_cons, ih]

/-- The compiled form of a filter, or of nothing.  Compiling takes the children of a container out
of the stream that holds them, so another compilation is one of what is left (`nodeCompiled`). -/
def compile (v : Value) : Except Fault Value := do return .doc (← nodeDocument v)

/-! ### After a compilation -/

mutual

/-- A filter once it has been compiled: the streams it took its children from are spent. -/
def compiled : Filter → Filter
  | .elemMatch field inner => .elemMatch field (nodeCompiled inner)
  | .conj children => .conj (childrenCompiled children)
  | .disj children => .disj (childrenCompiled children)
  | .neg inner => .neg (nodeCompiled inner)
  | f => f

def nodeCompiled : Value → Value
  | .filter f => .filter f.compiled
  | v => v

def childrenCompiled : Value → Value
  | .list xs => .list (nodesCompiled xs)
  | .tuple xs => .tuple (nodesCompiled xs)
  | .set xs => .set (nodesCompiled xs)
  | .doc es => .doc (keysCompiled es)
  | .stream _ => .stream []
  | v => v

def nodesCompiled : List Value → List Value
  | [] => []
  | x :: xs => nodeCompiled x :: nodesCompiled xs

def keysCompiled : List (Value × Value) → List (Value × Value)
  | [] => []
  | (k, v) :: es => (nodeCompiled k, v) :: keysCompiled es

end

end Filter

end DocQuery
