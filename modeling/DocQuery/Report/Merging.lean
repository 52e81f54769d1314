import DocQuery.Expr.Basic

/-!
# DocQuery.Report.Merging — documents merged one by one

Every document is evaluated when its turn comes, so a fault in one shows only after those before
it have been merged.
-/

namespace DocQuery

/-- Merges a value into another; both must be documents, unless there is nothing to merge. -/
def Value.absorb (result : Value) (d : Value) : Except Fault (Value × List Event) :=
  match d, result with
  | .doc [], r => .ok (r, [])
  | .doc es, .doc fs =>
    let r := Document.absorb fs es
    .ok (.doc r.1, r.2)
  | _, _ => .error .missingPart

/-- A merged document, and what was logged on the way. -/
structure Merging where
  result : Value
  log : List Event

namespace Merging

/-- Merges one more document. -/
def add (m : Merging) (x : Expr) : Except Fault Merging := do
  let r ← m.result.absorb (← x.value)
  return ⟨r.1, m.log ++ r.2⟩

/-- Merges documents in order. -/
def ofExprs (result : Expr) (documents : List Expr) : Except Fault Merging := do
  documents.foldlM add ⟨← result.value, []⟩

end Merging

end DocQuery
