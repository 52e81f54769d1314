import DocQuery.Filter.Document
import DocQuery.Log
import DocQuery.Update.Basic

/-!
# DocQuery.Update.Document — the update document of an update

An update of fields compiles to the fields under one operator.  Combined updates are merged from
left to right by `Document.absorb`: fields of the same operator come together, and the last value
written to a field stays.
-/

namespace DocQuery

namespace Document

/-- Puts one payload under a key.  Two documents are merged, anything else is replaced, and a
replacement is reported. -/
def absorbEntry (d : Document) (key payload : Value) : Document × List Event :=
  match d.lookup? key, payload with
  | some (.doc old), .doc new => (d.insert key (.doc (Document.extend old new)), [])
  | some _, _ => (d.insert key payload, [.replaced key])
  | none, _ => (d.insert key payload, [])

/-- Merges a document into another, entry by entry. -/
def absorb (d : Document) : Document → Document × List Event
  | [] => (d, [])
  | (key, payload) :: es =>
    let r := d.absorbEntry key payload
    let s := r.1.absorb es
    (s.1, r.2 ++ s.2)

/-- Merges documents in order. -/
def absorbAll (d : Document) (ds : List Document) : Document × List Event :=
  ds.foldl (fun r e => let s := r.1.absorb e; (s.1, r.2 ++ s.2)) (d, [])

end Document

namespace Update

/-- Copies values and writes them to their fields in order. -/
def copyPairs (d : Document) : List (Value × Value) → Except Fault Document
  | [] => .ok d
  | (field, value) :: ps => do
    let v ← value.copy
    copyPairs (← d.add field v) ps

/-- The document of one assignment. -/
def assignDocument (op field value : Value) : Except Fault Document := do
  let key ← op.operatorKey?
  let fields ← Document.add [] field (← value.copy)
  Document.add [] key (.doc fields)

mutual

/-- The update document of an update. -/
def document : Update → Except Fault Document
  | .assign op field value => assignDocument op field value
  | .assignAll pairs => do return [(.str Key.set, .doc (← copyPairs [] pairs))]
  | .rename source target => do
    return [(.str Key.rename, .doc (← Document.add [] source target))]
  | .combined children => do return (Document.absorbAll [] (← childDocuments children)).1

/-- The update document of what stands where an update should: an update, or nothing. -/
def nodeDocument : Value → Except Fault Document
  | .null => .ok []
  | .update u => u.document
  | v => .error (.foreignUpdate v)

/-- The update documents of what a combination holds. -/
def childDocuments : Value → Except Fault (List Document)
  | .list xs | .tuple xs | .set xs | .stream xs => nodeDocuments xs
  | .doc es => keyDocuments es
  | .scalar s => do
    match ← s.items? with
    | [] => return []
    | x :: _ => throw (.foreignUpdate (.scalar x))
  | _ => .error .notIterable

/-- The update documents of nodes, up to the first that has none. -/
def nodeDocuments : List Value → Except Fault (List Document)
  | [] => .ok []
  | x :: xs => do
    let d ← nodeDocument x
    return d :: (← nodeDocuments xs)

/-- The update documents of the keys of entries. -/
def keyDocuments : List (Value × Value) → Except Fault (List Document)
  | [] => .ok []
  | (k, _) :: es => do
    let d ← nodeDocument k
    return d :: (← keyDocuments es)

end

@[simp] theorem nodeDocument_null : nodeDocument .null = .ok [] := rfl

@[simp] theorem nodeDocument_update (u : Update) : nodeDocument (.update u) = u.document := rfl

theorem nodeDocuments_eq_mapM (xs : List Value) : nodeDocuments xs = xs.mapM nodeDocument := by
  induction xs with
  | nil => rfl
  | cons x xs ih => rw [nodeDocuments, List.mapM_cons, ih]

/-- The compiled form of an update, or of nothing. -/
def compile (v : Value) : Except Fault Value := do return .doc (← nodeDocument v)

/-! ### After a compilation -/

mutual

/-- An update once it has been compiled: the streams it took its children from are spent. -/
def compiled : Update → Update
  | .combined children => .combined (childrenCompiled children)
  | u => u

def nodeCompiled : Value → Value
  | .update u => .update u.compiled
  | v => v

def childrenCompiled : Value → Value
  | .list xs => .list (nodesCompiled xs)
  | .tuple xs => .tuple (nodesCompiled xs)
  | .set xs => .set (nodesCompiled xs)
  | .doc es => .doc (keysCompiled es)
  | .stream _ => .stream []
  | v => v

def nodesCompiled : List Value → List Value
  | [] => []
  | x :: xs => nodeCompiled x :: nodesCompiled xs

def keysCompiled : List (Value × Value) → List (Value × Value)
  | [] => []
  | (k, v) :: es => (nodeCompiled k, v) :: keysCompiled es

end

end Update

end DocQuery
