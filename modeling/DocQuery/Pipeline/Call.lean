import DocQuery.Filter.Document
import DocQuery.Log
import DocQuery.Pipeline.Stage

/-!
# DocQuery.Pipeline.Call — the calls that build a pipeline

A call adds at most one stage.  Its sub-pipelines are compiled first (`Call.subPipelines`), and
`Call.stage` makes the stage of the call from their documents, so a stage never depends on what
later becomes of a sub-pipeline.  Nothing is reordered, merged or checked.
-/

namespace DocQuery.Pipeline

/-- Stages whose specification is taken as it is given. -/
inductive Plain
  | project | addFields | set | group | count | limit | skip | unwind | out
deriving DecidableEq

def Plain.key : Plain → String
  | project => Key.project
  | addFields => Key.addFields
  | set => Key.set
  | group => Key.group
  | count => Key.count
  | limit => Key.limit
  | skip => Key.skip
  | unwind => Key.unwind
  | out => Key.out

/-- A call on a pipeline, with its arguments; absent options are null. -/
inductive Call
  | plain (kind : Plain) (spec : Value)
  | matching (filter : Value)
  | matchDocument (query : Value)
  | unset (fields : List Value)
  | replaceRoot (root : Value)
  | groupBy (key accumulators : Value)
  | bucket (groupBy boundaries fallback output : Value)
  | facet (facets : Value)
  | sort (spec : Value)
  | sortBy (field direction : Value)
  | sample (size : Value)
  | unwindWith (path keepEmpty indexField : Value)
  | lookup (source localField foreignField target : Value)
  | lookupWith (source pipeline target bindings : Value)
  | merge (target on whenMatched whenNotMatched : Value)
  | raw (document : Value)

/-- An optional part of a specification: a key and its value, or nothing. -/
def optional (isGiven : Bool) (key : String) (v : Value) : Document :=
  if isGiven then [(.str key, v)] else []

/-- The stage of an operator. -/
def stageOf (key : String) (spec : Value) : Stage := ⟨.str key, spec⟩

/-- The items of a value as a list. -/
def listOf (v : Value) : Except Fault Value := do return .list (← v.items?)

/-- A bare field if it is alone, a list of fields otherwise. -/
def unsetSpec : List Value → Value
  | [field] => field
  | fields => .list fields

namespace Call

/-- The sub-pipelines of a call, in the order in which they are compiled. -/
def subPipelines : Call → Except Fault (List Value)
  | facet (.doc es) => .ok (es.map (·.2))
  | facet _ => .error .missingPart
  | lookupWith _ pipeline _ _ => .ok [pipeline]
  | _ => .ok []

/-- The names of the facets with the documents of their sub-pipelines. -/
def facetSpec : Value → List Value → Value
  | .doc es, subs => .doc ((es.map (·.1)).zip subs)
  | v, _ => v

def groupBySpec (key accumulators : Value) : Except Fault Document :=
  let d : Document := [(.str Key.groupId, key)]
  if accumulators.isGiven then d.update accumulators else .ok d

def bucketSpec (groupBy boundaries fallback output : Value) : Except Fault Document := do
  let bounds ← listOf boundaries
  return [(.str "groupBy", groupBy), (.str "boundaries", bounds)]
    ++ optional (!fallback.isNull) "default" fallback
    ++ optional (!output.isNull) "output" output

def unwindSpec (path keepEmpty indexField : Value) : Document :=
  [(.str "path", path)]
    ++ optional keepEmpty.isGiven "preserveNullAndEmptyArrays" (.bool true)
    ++ optional indexField.isGiven "includeArrayIndex" indexField

def lookupSpec (source localField foreignField target : Value) : Document :=
  [(.str "from", source), (.str "localField", localField), (.str "foreignField", foreignField),
    (.str "as", target)]

def lookupWithSpec (source documents target bindings : Value) : Document :=
  [(.str "from", source), (.str "pipeline", documents), (.str "as", target)]
    ++ optional (!bindings.isNull) "let" bindings

def mergeSpec (target on whenMatched whenNotMatched : Value) : Except Fault Document := do
  let onFields ← if on.isGiven then do pure [(.str "on", ← listOf on)] else pure []
  return [(.str "into", target)] ++ onFields
    ++ optional whenMatched.isGiven "whenMatched" whenMatched
    ++ optional whenNotMatched.isGiven "whenNotMatched" whenNotMatched

/-- The stage that a call adds, given the documents of its sub-pipelines; a match without a filter
adds none. -/
def stage (subs : List Value) : Call → Except Fault (Option Stage)
  | plain kind spec => .ok (some (stageOf kind.key spec))
  | matching filter =>
    if filter.isNull then .ok none
    else do return some (stageOf Key.matching (← Filter.compile filter))
  | matchDocument query =>
    if query.isNull then .ok none
    else do return some (stageOf Key.matching (.doc (← query.document?)))
  | unset fields => .ok (some (stageOf Key.unset (unsetSpec fields)))
  | replaceRoot root => .ok (some (stageOf Key.replaceRoot (.single "newRoot" root)))
  | groupBy key accumulators => do
    return some (stageOf Key.group (.doc (← groupBySpec key accumulators)))
  | bucket by_ boundaries fallback output => do
    return some (stageOf Key.bucket (.doc (← bucketSpec by_ boundaries fallback output)))
  | facet facets => .ok (some (stageOf Key.facet (facetSpec facets subs)))
  | sort spec => do return some (stageOf Key.sort (.doc (← spec.document?)))
  | sortBy field direction => do
    return some (stageOf Key.sort (.doc (← Document.add [] field direction)))
  | sample size => .ok (some (stageOf Key.sample (.single "size" size)))
  | unwindWith path keepEmpty indexField =>
    .ok (some (stageOf Key.unwind (.doc (unwindSpec path keepEmpty indexField))))
  | lookup source localField foreignField target =>
    .ok (some (stageOf Key.lookup (.doc (lookupSpec source localField foreignField target))))
  | lookupWith source _ target bindings =>
    .ok (some (stageOf Key.lookup
      (.doc (lookupWithSpec source (subs.headD .null) target bindings))))
  | merge target on whenMatched whenNotMatched => do
    return some (stageOf Key.merge (.doc (← mergeSpec target on whenMatched whenNotMatched)))
  | raw document => .ok (some ⟨.null, document⟩)

/-- What a call itself writes to the log. -/
def events : Call → List Event
  | matching filter => if filter.isNull then [.matchSkipped] else []
  | _ => []

end Call

end DocQuery.Pipeline
