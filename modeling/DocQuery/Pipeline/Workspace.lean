import DocQuery.Pipeline.Call

/-!
# DocQuery.Pipeline.Workspace — named pipelines under construction, and the log

Every name stands for a pipeline, empty until the first call on it.  A call that fails leaves the
stages of its pipeline as they were.  A sub-pipeline is read as it stands at the moment of the
call (`Workspace.capture`); only a raw stage over a stream is changed by being read.  A pipeline
that stands anywhere else in an argument stays a reference, and follows what becomes of it.
-/

namespace DocQuery

open Pipeline (Call)

structure Workspace where
  pipelines : List (String × List Stage)
  log : List Event

namespace Workspace

def empty : Workspace := ⟨[], []⟩

/-- The stages of a pipeline. -/
def stagesOf (w : Workspace) (name : String) : List Stage := (w.pipelines.lookup name).getD []

/-- Gives a pipeline new stages; the references to it that other pipelines hold follow. -/
def set (w : Workspace) (name : String) (stages : List Stage) : Workspace :=
  let others := w.pipelines.filter fun p => p.1 != name
  ⟨(name, stages) :: others.map fun p => (p.1, p.2.map (Stage.refreshed name stages)), w.log⟩

@[simp] theorem stagesOf_set_self (w : Workspace) (name : String) (stages : List Stage) :
    (w.set name stages).stagesOf name = stages := by
  rw [stagesOf, set, List.lookup_cons_self]
  rfl

/-- Other pipelines keep their stages, up to what these refer to. -/
theorem stagesOf_set_of_ne (w : Workspace) {name other : String} (h : other ≠ name)
    (stages : List Stage) :
    (w.set name stages).stagesOf other
      = (w.stagesOf other).map (Stage.refreshed name stages) := by
  have hb : (other == name) = false := by simpa using h
  simp only [stagesOf, set, List.lookup_cons, hb]
  induction w.pipelines with
  | nil => rfl
  | cons p ps ih =>
    rw [List.lookup_cons]
    by_cases hp : p.1 = name
    · have hn : (other == p.1) = false := by rw [hp]; exact hb
      rw [List.filter_cons_of_neg (by simp [hp]), hn]
      exact ih
    · rw [List.filter_cons_of_pos (by simpa using hp), List.map_cons, List.lookup_cons]
      cases other == p.1
      · exact ih
      · rfl

/-- Adds to the log. -/
def note (w : Workspace) (events : List Event) : Workspace := ⟨w.pipelines, w.log ++ events⟩

/-! ### Compiling -/

/-- Compiles stages and logs how many there were. -/
def compileStages (w : Workspace) (stages : List Stage) : Except Fault Value × Workspace :=
  match Pipeline.documents stages with
  | .error e => (.error e, w)
  | .ok ds => (.ok (.list (ds.map .doc)), w.note [.compiled ds.length])

/-- Compiles the pipeline of a name. -/
def compile (w : Workspace) (name : String) : Except Fault Value × Workspace :=
  let stages := w.stagesOf name
  (w.set name (Pipeline.afterReading stages)).compileStages stages

/-- The stage documents of a sub-pipeline: a pipeline, or the documents that a value holds. -/
def capture (w : Workspace) : Value → Except Fault Value × Workspace
  | .pipeline (some name) _ => w.compile name
  | .pipeline none stages => w.compileStages stages
  | v => (do return .list ((← (← v.items?).mapM Value.document?).map .doc), w)

/-- The stage documents of sub-pipelines in order, up to the first that fails. -/
def captureAll (w : Workspace) : List Value → Except Fault (List Value) × Workspace
  | [] => (.ok [], w)
  | v :: vs =>
    match w.capture v with
    | (.error e, w') => (.error e, w')
    | (.ok d, w') =>
      match w'.captureAll vs with
      | (.error e, w'') => (.error e, w'')
      | (.ok ds, w'') => (.ok (d :: ds), w'')

/-! ### Building -/

/-- The stage that a call adds here and now. -/
def stage (w : Workspace) (c : Call) : Except Fault (Option Stage) × Workspace :=
  match c.subPipelines with
  | .error e => (.error e, w)
  | .ok vs =>
    match w.captureAll vs with
    | (.error e, w') => (.error e, w')
    | (.ok subs, w') => (c.stage subs, w'.note c.events)

/-- Adds the stage of a call to a pipeline.  A stream in the call is a fresh one: no stage and no
other call holds it, so that what a reading takes from it is missing from this call's stage only. -/
def build (w : Workspace) (name : String) (c : Call) : Except Fault Unit × Workspace :=
  match w.stage c with
  | (.error e, w') => (.error e, w')
  | (.ok s, w') => (.ok (), w'.set name (w'.stagesOf name ++ s.toList))

/-- The document of the last stage of a pipeline. -/
def lastDocument (w : Workspace) (name : String) : Except Fault (Option Value) × Workspace :=
  let stages := w.stagesOf name
  match stages.getLast? with
  | none => (.ok none, w)
  | some s => (s.document.map fun d => some (.doc d),
      w.set name (stages.dropLast ++ [s.afterReading]))

end Workspace

/-- A computation over a workspace that may be refused. -/
abbrev Build (α : Type) := ExceptT Fault (StateM Workspace) α

/-- A function on workspaces as a computation. -/
def Build.ofFunction {α : Type} (f : Workspace → Except Fault α × Workspace) : Build α :=
  ExceptT.mk f

/-- Runs a computation. -/
def Build.outcome {α : Type} (x : Build α) (w : Workspace) : Except Fault α × Workspace :=
  (ExceptT.run x).run w

/-- A result without a computation. -/
def Build.ofExcept {α : Type} (x : Except Fault α) : Build α := Build.ofFunction fun w => (x, w)

end DocQuery
