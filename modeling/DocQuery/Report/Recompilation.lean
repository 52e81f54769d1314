import DocQuery.Report.Lending

/-!
# DocQuery.Report.Recompilation — compiling again after edits

An expression is compiled, the compiled form edited, and the same node compiled again.  The second
form differs from the first by what the compilation took from streams, and by what the edits did
to the parts that the first form shared with the node.
-/

namespace DocQuery

/-- What an expression is compiled as. -/
inductive Target
  | query | update | stages
deriving DecidableEq

namespace Target

/-- The compiled form of a value. -/
def compile (v : Value) : Target → Except Fault Value
  | query => Filter.compile v
  | update => Update.compile v
  | stages => (Workspace.empty.pipelineDocuments v).1

/-- A value once it has been compiled. -/
def afterCompile (v : Value) : Target → Value
  | query => Filter.nodeCompiled v
  | update => Update.nodeCompiled v
  | stages => match v with
    | .pipeline name ss => .pipeline name (Pipeline.afterReading ss)
    | v => v

/-- A value with its lent parts marked, and the lent parts; a pipeline lends none. -/
def lend (v : Value) : Target → Value × List Value
  | query => (Filter.lendNode v).run []
  | update => (Update.lendNode v).run []
  | stages => (v, [])

/-- A compiled form as a draft. -/
def draft (v : Value) : Target → Draft
  | stages => Draft.ofOwn v
  | _ => Draft.ofValue lentSlot? v

end Target

/-- The compiled form of an expression after edits, and a second compiled form. -/
structure Recompilation where
  edited : Value
  again : Value

def Recompilation.of (target : Target) (x : Expr) (edits : List Edit) :
    Except Fault Recompilation := do
  let (node, lent) := target.lend (← x.value)
  let first := target.draft (← target.compile node)
  let (edited, drafts) ← (edits.foldlM Edit.apply first).run (lent.map Draft.ofOwn)
  let second := target.draft (← target.compile (target.afterCompile node))
  let lent := drafts.map (Draft.value [])
  return ⟨edited.value lent, second.value lent⟩

end DocQuery
