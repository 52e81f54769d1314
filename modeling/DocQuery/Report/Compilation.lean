import DocQuery.Expr.Basic

/-!
# DocQuery.Report.Compilation — what a client is told about one expression

An expression is evaluated and compiled as a filter or as an update; the compiled document is
reported with its operators and its fingerprint.
-/

namespace DocQuery

/-- The operators of a compiled value, and whether one of them negates. -/
structure Inspection where
  operators : List String
  negates : Bool

def Value.inspection (v : Value) : Inspection := ⟨v.operators, v.negates⟩

/-- A compiled document with what is said about it. -/
structure Compiled where
  document : Value
  inspection : Inspection
  fingerprint : String

/-- A node and its compiled form. -/
structure Compilation where
  node : Value
  compiled : Except Fault Compiled

namespace Compilation

def ofFilter (x : Expr) : Except Fault Compilation := do
  let node ← x.value
  return ⟨node, do
    let d ← Filter.compile node
    return ⟨d, d.inspection, Fingerprint.ofFilter d⟩⟩

def ofUpdate (x : Expr) : Except Fault Compilation := do
  let node ← x.value
  return ⟨node, do
    let d ← Update.compile node
    return ⟨d, d.inspection, Fingerprint.ofUpdate d⟩⟩

end Compilation

end DocQuery
