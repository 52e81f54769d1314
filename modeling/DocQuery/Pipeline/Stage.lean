import DocQuery.Value.Reading

/-!
# DocQuery.Pipeline.Stage — the documents of stages

A stage with an operator compiles to its specification under that operator, a raw stage to its
specification read as a document.  A pipeline compiles stage by stage, up to the first that fails.
-/

namespace DocQuery

namespace Stage

/-- A stage that is a whole document. -/
def isRaw (s : Stage) : Bool := s.operator.isNull

/-- The stage document. -/
def document (s : Stage) : Except Fault Document :=
  if s.isRaw then do (← s.spec.document?).copy
  else do Document.add [] s.operator (← s.spec.copy)

/-- A stage once it has been read. -/
def afterReading (s : Stage) : Stage :=
  if s.isRaw then ⟨s.operator, s.spec.afterDocument⟩ else s

/-- Reading a stage with an operator changes nothing. -/
theorem afterReading_of_not_isRaw {s : Stage} (h : s.isRaw = false) : s.afterReading = s := by
  simp [afterReading, h]

end Stage

namespace Pipeline

/-- The stage documents of a pipeline. -/
def documents (stages : List Stage) : Except Fault (List Document) := stages.mapM Stage.document

/-- The stages of a pipeline once it has been compiled; those after a failure were not read. -/
def afterReading : List Stage → List Stage
  | [] => []
  | s :: ss =>
    s.afterReading :: if s.document.toOption.isSome then afterReading ss else ss

end Pipeline

end DocQuery
