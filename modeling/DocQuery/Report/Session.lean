import DocQuery.Report.Compilation

/-!
# DocQuery.Report.Session — a run of steps over named pipelines

Every step names a pipeline and a command.  After a step, whether it failed or not, the client is
told what was logged in it and how its pipeline stands: its length, its text and its last stage.
-/

namespace DocQuery

/-- What a step does to its pipeline, or asks of it. -/
inductive Command
  | build (m : Method)
  | compile
  | stages
  | fingerprint
  | inspect

/-- The answer of a step that did not fail. -/
inductive Reply
  | done
  | value (v : Value)
  | fingerprint (s : String)
  | inspection (i : Inspection)

structure Step where
  pipeline : String
  command : Command
  arguments : List (Nat × Expr)

structure StepReport where
  reply : Except Fault Reply
  log : List Event
  length : Nat
  shown : String
  last : Except Fault (Option Value)

namespace Command

/-- Carries out a command on a pipeline. -/
def run (name : String) (arguments : List (Nat × Expr)) : Command → Build Reply
  | build m => do
    let a ← evalArguments arguments
    let c ← Build.ofExcept (m.call ⟨a⟩)
    let _ ← Build.ofFunction fun w => w.build name c
    return .done
  | compile => do return .value (← Build.ofFunction fun w => w.compile name)
  | stages => Build.ofFunction fun w => (.ok (.value (.list ((w.stagesOf name).map .stage))), w)
  | fingerprint => do
    let ds ← Build.ofFunction fun w => w.compile name
    return .fingerprint (Fingerprint.ofPipeline ds)
  | inspect => do
    let ds ← Build.ofFunction fun w => w.compile name
    return .inspection ds.inspection

end Command

namespace Step

/-- Carries out a step, the log being that of this step alone. -/
def run (w : Workspace) (s : Step) : StepReport × Workspace :=
  let (reply, w) := (s.command.run s.pipeline s.arguments).outcome ⟨w.pipelines, []⟩
  let stages := w.stagesOf s.pipeline
  let (last, w') := w.lastDocument s.pipeline
  ({ reply := reply
     log := w.log
     length := stages.length
     shown := (Value.pipeline none stages).shown
     last := last }, w')

/-- Carries out steps in order. -/
def runAll (w : Workspace) : List Step → List StepReport
  | [] => []
  | s :: ss =>
    let (report, w') := s.run w
    report :: runAll w' ss

end Step

end DocQuery
