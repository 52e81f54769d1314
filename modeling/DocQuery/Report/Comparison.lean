import DocQuery.Expr.Basic

/-!
# DocQuery.Report.Comparison — values compared with each other
-/

namespace DocQuery

/-- What a comparison of several values tells: which are equal, which can be keys, and how many
different ones there are. -/
structure Comparison where
  equal : List (List Bool)
  hashable : List (Except Fault Unit)
  distinct : Except Fault Nat

namespace Comparison

/-- Whether the values at two positions are equal; at one position they are the same object. -/
def equalAt (v w : Value × Nat) : Bool := if v.2 = w.2 then v.1.equalsItself else v.1 == w.1

def ofValues (vs : List Value) : Comparison :=
  let placed := vs.zipIdx
  { equal := placed.map fun v => placed.map (equalAt v)
    hashable := vs.map Value.requireHashable
    distinct := (vs.foldlM addMember []).map List.length }

/-- Compares the values of expressions. -/
def ofExprs (xs : List Expr) : Except Fault Comparison := do
  return ofValues (← ((evalItems xs).outcome .empty).1)

end Comparison

end DocQuery
