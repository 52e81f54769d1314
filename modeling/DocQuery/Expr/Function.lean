import DocQuery.Filter.Connective
import DocQuery.Fingerprint.Basic
import DocQuery.Inspection
import DocQuery.Pipeline.Workspace
import DocQuery.Update.Document

/-!
# DocQuery.Expr.Function — the functions of construction expressions

Every function of the library under one type, with what it does to its arguments.  Only reading a
pipeline touches the workspace.
-/

namespace DocQuery

open Pipeline (Call Plain)

/-- Arguments with the positions they fill, in the order in which they were given. -/
structure Arguments where
  slots : List (Nat × Value)

namespace Arguments

def get? (a : Arguments) (i : Nat) : Option Value := a.slots.lookup i

def required (a : Arguments) (i : Nat) : Except Fault Value :=
  match a.get? i with
  | some v => .ok v
  | none => .error .missingArgument

/-- An optional argument, null if it is not given. -/
def optional (a : Arguments) (i : Nat) : Value := (a.get? i).getD .null

def all (a : Arguments) : List Value := a.slots.map (·.2)

end Arguments

/-- Nodes by their kind, to be built from their fields. -/
inductive NodeKind
  | comparison | pattern | elemMatch | conj | disj | neg
  | assign | assignAll | rename | combined
  | stage
deriving DecidableEq

/-- Builds a node from its fields without checking them; trailing optional fields are null. -/
def NodeKind.build (a : Arguments) : NodeKind → Except Fault Value
  | comparison => do
    return .filter (.comparison (← a.required 0) (← a.required 1) (← a.required 2))
  | pattern => do return .filter (.pattern (← a.required 0) (← a.required 1) (a.optional 2))
  | elemMatch => do return .filter (.elemMatch (← a.required 0) (a.optional 1))
  | conj => do return .filter (.conj (← a.required 0))
  | disj => do return .filter (.disj (← a.required 0))
  | neg => do return .filter (.neg (← a.required 0))
  | assign => do return .update (.assign (← a.required 0) (← a.required 1) (a.optional 2))
  | assignAll => do return .update (← Update.ofPairs (← a.required 0))
  | rename => do return .update (.rename (← a.required 0) (← a.required 1))
  | combined => do return .update (.combined (← a.required 0))
  | stage => do return .stage ⟨← a.required 0, ← a.required 1⟩

inductive Function
  | compare (op : ComparisonOp)
  | compareItems (op : ComparisonOp)
  | present
  | regex
  | elemMatch
  | between
  | join (c : Connective)
  | negation
  | compileFilter
  | assign (op : UpdateOp)
  | inc
  | popFirst
  | popLast
  | unset
  | setAll
  | rename
  | combine
  | compileUpdate
  | accumulate (a : Accumulator)
  | node (kind : NodeKind)
  | connect (c : Connective)
  | complement
  | fields
  | pairs
  | stageDocument
  | pipelineDocuments
  | operators
  | negates
  | fingerprint

namespace Value

/-- The fields that an update sets, as a document. -/
def fields? : Value → Except Fault Value
  | .update u => do return .doc (← u.fields?)
  | _ => .error .missingPart

/-- The pairs that an update sets, as they were given. -/
def pairs? : Value → Except Fault Value
  | .update (.assignAll ps) => .ok (.tuple (ps.map fun p => .tuple [p.1, p.2]))
  | _ => .error .missingPart

/-- The document of a stage. -/
def stageDocument? : Value → Except Fault Value
  | .stage s => do return .doc (← s.document)
  | _ => .error .missingPart

end Value

/-- The stage documents of a value that is a pipeline. -/
def Workspace.pipelineDocuments (w : Workspace) : Value → Except Fault Value × Workspace
  | .pipeline name stages => w.capture (.pipeline name stages)
  | _ => (.error .missingPart, w)

namespace Function

/-- The functions that need no workspace. -/
def value (a : Arguments) : Function → Except Fault Value
  | compare op => do return .filter (Filter.compare op (← a.required 0) (← a.required 1))
  | compareItems op => do
    return .filter (Filter.compare op (← a.required 0) (← a.required 1).frozen)
  | present => do
    return .filter (Filter.present (← a.required 0) ((a.get? 1).getD (.bool true)))
  | regex => NodeKind.pattern.build a
  | elemMatch => NodeKind.elemMatch.build a
  | between => do
    return Filter.between (← a.required 0) (← a.required 1) (← a.required 2)
  | join c => c.combine a.all
  | negation => do return Filter.negation (← a.required 0)
  | compileFilter => do Filter.compile (← a.required 0)
  | assign op => do return .update (Update.assignWith op (← a.required 0) (← a.required 1))
  | inc => do return .update (Update.inc (← a.required 0) ((a.get? 1).getD (.int 1)))
  | popFirst => do return .update (Update.popFirst (← a.required 0))
  | popLast => do return .update (Update.popLast (← a.required 0))
  | unset => do return .update (Update.unset (← a.required 0))
  | setAll => do return .update (← Update.setAll (← a.required 0))
  | rename => NodeKind.rename.build a
  | combine => .ok (Update.combine a.all)
  | compileUpdate => do Update.compile (← a.required 0)
  | accumulate acc => do return .single acc.key (← a.required 0)
  | node kind => kind.build a
  | connect c => do c.apply (← a.required 0) (← a.required 1)
  | complement => do (← a.required 0).complement
  | fields => do (← a.required 0).fields?
  | pairs => do (← a.required 0).pairs?
  | stageDocument => do (← a.required 0).stageDocument?
  | pipelineDocuments => .error .missingPart
  | operators => do return .list ((← a.required 0).operators.map .str)
  | negates => do return .bool (← a.required 0).negates
  | fingerprint => do
    return .str (Fingerprint.digest (← a.required 0) (a.optional 1) (a.optional 2))

/-- The value of a function at its arguments. -/
def apply (f : Function) (a : Arguments) : Build Value :=
  match f with
  | pipelineDocuments => do
    let v ← Build.ofExcept (a.required 0)
    Build.ofFunction fun w => w.pipelineDocuments v
  | f => Build.ofExcept (f.value a)

end Function

/-- The calls on a pipeline, by name. -/
inductive Method
  | plain (kind : Plain)
  | matching | matchDocument | unset | replaceRoot | groupBy | bucket | facet | sort | sortBy
  | sample | unwindWith | lookup | lookupWith | merge | raw
deriving DecidableEq

/-- The call of a method with its arguments. -/
def Method.call (a : Arguments) : Method → Except Fault Call
  | plain kind => do return .plain kind (← a.required 0)
  | matching => do return .matching (← a.required 0)
  | matchDocument => do return .matchDocument (← a.required 0)
  | unset => .ok (.unset a.all)
  | replaceRoot => do return .replaceRoot (← a.required 0)
  | groupBy => do return .groupBy (← a.required 0) (a.optional 1)
  | bucket => do
    return .bucket (← a.required 0) (← a.required 1) (a.optional 2) (a.optional 3)
  | facet => do return .facet (← a.required 0)
  | sort => do return .sort (← a.required 0)
  | sortBy => do return .sortBy (← a.required 0) ((a.get? 1).getD (.int 1))
  | sample => do return .sample (← a.required 0)
  | unwindWith => do
    return .unwindWith (← a.required 0) ((a.get? 1).getD (.bool false)) (a.optional 2)
  | lookup => do
    return .lookup (← a.required 0) (← a.required 1) (← a.required 2) (← a.required 3)
  | lookupWith => do
    return .lookupWith (← a.required 0) (← a.required 1) (← a.required 2) (a.optional 3)
  | merge => do
    return .merge (← a.required 0) (a.optional 1) (a.optional 2) (a.optional 3)
  | raw => do return .raw (← a.required 0)

end DocQuery
