import DocQuery.Calendar
import DocQuery.Number.Decimal
import DocQuery.Operator

/-!
# DocQuery.Value.Basic — values, filters, updates and stages

`Value` is everything a document can hold: the scalars of the wire format, the containers, and the
nodes of the library itself.  Nodes are built without checking what they are given, so each of
their positions holds a value; a misplaced one is refused when the node is compiled.

A `stream` stands for items that can be taken once: after a reading it has none left.
-/

namespace DocQuery

/-- Values without parts. -/
inductive Scalar
  | null
  | bool (b : Bool)
  | int (n : Int)
  | float (x : Binary64)
  | str (s : String)
  | bytes (bs : List UInt8)
  | byteArray (bs : List UInt8)
  | objectId (hex : String)
  | moment (m : Moment)
  | date (d : Date)
  | uuid (text : String)
  | decimal128 (text : String)
  | timestamp (time increment : Int)
  | minKey
  | maxKey
  | comparisonOp (op : ComparisonOp)
  | updateOp (op : UpdateOp)
deriving DecidableEq

mutual

/-- A value of a document, or a node that describes one. -/
inductive Value
  | scalar (s : Scalar)
  | list (items : List Value)
  | tuple (items : List Value)
  | set (members : List Value)
  | doc (entries : List (Value × Value))
  | stream (items : List Value)
  | filter (f : Filter)
  | update (u : Update)
  | stage (s : Stage)
  | pipeline (name : Option String) (stages : List Stage)

/-- A condition on documents. -/
inductive Filter
  | comparison (field op value : Value)
  | pattern (field regex flags : Value)
  | elemMatch (field inner : Value)
  | conj (children : Value)
  | disj (children : Value)
  | neg (inner : Value)

/-- A change to a document. -/
inductive Update
  | assign (op field value : Value)
  | assignAll (pairs : List (Value × Value))
  | rename (source target : Value)
  | combined (children : Value)

/-- One step of a pipeline; a raw stage has no operator and its `spec` is the whole document. -/
structure Stage where
  operator : Value
  spec : Value

end

/-- A document: keys with their values, in order; no key occurs twice. -/
abbrev Document := List (Value × Value)

instance : Inhabited Value := ⟨.scalar .null⟩

namespace Value

/-! ### Short names of scalar values -/

@[match_pattern] abbrev null : Value := .scalar .null

@[match_pattern] abbrev bool (b : Bool) : Value := .scalar (.bool b)

@[match_pattern] abbrev int (n : Int) : Value := .scalar (.int n)

@[match_pattern] abbrev str (s : String) : Value := .scalar (.str s)

/-- A document with one key. -/
abbrev single (key : String) (v : Value) : Value := .doc [(.str key, v)]

def isNull : Value → Bool
  | .null => true
  | _ => false

@[simp] theorem isNull_iff {v : Value} : v.isNull = true ↔ v = .null := by
  constructor
  · intro h
    unfold isNull at h
    split at h
    · rfl
    · cases h
  · rintro rfl; rfl

end Value

/-! ### Emptiness and zero -/

/-- Whether a scalar counts as given: not null, false, zero or empty. -/
def Scalar.isGiven : Scalar → Bool
  | .null => false
  | .bool b => b
  | .int n => n != 0
  | .float x => !x.isZero
  | .str s => !s.isEmpty
  | .bytes bs | .byteArray bs => !bs.isEmpty
  | _ => true

/-- Whether an optional argument counts as given; empty containers and pipelines do not. -/
def Value.isGiven : Value → Bool
  | .scalar s => s.isGiven
  | .list xs | .tuple xs | .set xs => !xs.isEmpty
  | .doc es => !es.isEmpty
  | .pipeline _ stages => !stages.isEmpty
  | .stream _ | .filter _ | .update _ | .stage _ => true

/-! ### Kinds -/

/-- The name of a scalar's kind, as error messages give it. -/
def Scalar.kind : Scalar → String
  | .null => "NoneType"
  | .bool _ => "bool"
  | .int _ => "int"
  | .float _ => "float"
  | .str _ => "str"
  | .bytes _ => "bytes"
  | .byteArray _ => "bytearray"
  | .objectId _ => "ObjectId"
  | .moment _ => "datetime.datetime"
  | .date _ => "datetime.date"
  | .uuid _ => "UUID"
  | .decimal128 _ => "Decimal128"
  | .timestamp _ _ => "Timestamp"
  | .minKey => "MinKey"
  | .maxKey => "MaxKey"
  | .comparisonOp _ => "ComparisonOp"
  | .updateOp _ => "UpdateOp"

def Filter.kind : Filter → String
  | .comparison _ _ _ => "Comparison"
  | .pattern _ _ _ => "Pattern"
  | .elemMatch _ _ => "ElemMatch"
  | .conj _ => "AndFilter"
  | .disj _ => "OrFilter"
  | .neg _ => "NotFilter"

def Update.kind : Update → String
  | .assign _ _ _ => "FieldUpdate"
  | .assignAll _ => "SetFields"
  | .rename _ _ => "Rename"
  | .combined _ => "CombinedUpdate"

/-- The name of a value's kind, as error messages give it. -/
def Value.kind : Value → String
  | .scalar s => s.kind
  | .list _ => "list"
  | .tuple _ => "tuple"
  | .set _ => "set"
  | .doc _ => "dict"
  | .stream _ => "generator"
  | .filter f => f.kind
  | .update u => u.kind
  | .stage _ => "Stage"
  | .pipeline _ _ => "Pipeline"

end DocQuery
