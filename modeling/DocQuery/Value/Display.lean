import DocQuery.Number.Integer
import DocQuery.Text.Quoted
import DocQuery.Value.Basic

/-!
# DocQuery.Value.Display — the texts of values

A value has two texts.  `Value.shown` names its kind wherever that is in doubt: texts are quoted,
moments and identifiers spelled as calls, nodes with their fields.  `Value.text` is the plain text
of scalars that have one, and agrees with `Value.shown` elsewhere.
-/

namespace DocQuery

/-- Texts with a comma and a space between them. -/
def commaSeparated (parts : List String) : String := String.intercalate ", " parts

/-- A call: a name and its arguments in parentheses. -/
def call (name : String) (arguments : List String) : String :=
  name ++ "(" ++ commaSeparated arguments ++ ")"

/-- A call whose arguments are named. -/
def callNamed (name : String) (arguments : List (String × String)) : String :=
  call name (arguments.map fun a => a.1 ++ "=" ++ a.2)

/-! ### Scalars -/

/-- An offset from UTC; a negative one is a day less and the rest of the day more. -/
def Moment.offsetShown (offset : Int) : String :=
  if offset = 0 then "datetime.timezone.utc"
  else
    let delta := if offset < 0
      then [("days", "-1"), ("seconds", Integer.text (86400 + offset))]
      else [("seconds", Integer.text offset)]
    call "datetime.timezone" [callNamed "datetime.timedelta" delta]

/-- Seconds are shown if they or the microseconds are not zero. -/
def Moment.shown (m : Moment) : String :=
  let clock := [m.date.year, m.date.month, m.date.day, m.hour, m.minute]
  let fine := if m.microsecond ≠ 0 then [m.second, m.microsecond]
    else if m.second ≠ 0 then [m.second] else []
  let zone := match m.offset with
    | none => []
    | some offset => ["tzinfo=" ++ Moment.offsetShown offset]
  call "datetime.datetime" ((clock ++ fine).map (fun n : Nat => Integer.text n) ++ zone)

def Date.shown (d : Date) : String :=
  call "datetime.date" ([d.year, d.month, d.day].map fun n : Nat => Integer.text n)

/-- An operator of one of the two operator kinds, with its name and key. -/
def operatorShown (kind name key : String) : String :=
  "<" ++ kind ++ "." ++ name ++ ": " ++ Text.quoted key ++ ">"

def Scalar.shown : Scalar → String
  | .null => "None"
  | .bool true => "True"
  | .bool false => "False"
  | .int n => Integer.text n
  | .float x => x.text
  | .str s => Text.quoted s
  | .bytes bs => Text.quotedBytes bs
  | .byteArray bs => call "bytearray" [Text.quotedByteArray bs]
  | .objectId hex => call "ObjectId" [Text.quoted hex]
  | .moment m => m.shown
  | .date d => d.shown
  | .uuid t => call "UUID" [Text.quoted t]
  | .decimal128 t => call "Decimal128" [Text.quoted t]
  | .timestamp time increment => call "Timestamp" [Integer.text time, Integer.text increment]
  | .minKey => call "MinKey" []
  | .maxKey => call "MaxKey" []
  | .comparisonOp op => operatorShown "ComparisonOp" op.name op.key
  | .updateOp op => operatorShown "UpdateOp" op.name op.key

def Scalar.text : Scalar → String
  | .str s => s
  | .objectId hex => hex
  | .moment m => m.plainText
  | .date d => d.text
  | .uuid t => t
  | .decimal128 t => t
  | .comparisonOp op => "ComparisonOp." ++ op.name
  | .updateOp op => "UpdateOp." ++ op.name
  | s => s.shown

/-! ### Values -/

/-- A tuple in parentheses; a lone item keeps a comma. -/
def tupleShown : List String → String
  | [x] => "(" ++ x ++ ",)"
  | xs => "(" ++ commaSeparated xs ++ ")"

/-- A set in braces; the empty set is a call. -/
def setShown : List String → String
  | [] => call "set" []
  | xs => "\x7b" ++ commaSeparated xs ++ "\x7d"

mutual

/-- The text of a value that names its kind.  A stream has no text of its own: `<generator>` is a
placeholder for it, whatever items it has left. -/
def Value.shown : Value → String
  | .scalar s => s.shown
  | .list xs => "[" ++ commaSeparated (shownItems xs) ++ "]"
  | .tuple xs => tupleShown (shownItems xs)
  | .set xs => setShown (shownItems xs)
  | .doc es => "\x7b" ++ commaSeparated (shownEntries es) ++ "\x7d"
  | .stream _ => "<generator>"
  | .filter f => f.shown
  | .update u => u.shown
  | .stage s => s.shown
  | .pipeline _ stages => call "Pipeline" ["[" ++ commaSeparated (shownOperators stages) ++ "]"]

def Filter.shown : Filter → String
  | .comparison f o v =>
    callNamed "Comparison" [("field", f.shown), ("op", o.shown), ("value", v.shown)]
  | .pattern f r g =>
    callNamed "Pattern" [("field", f.shown), ("pattern", r.shown), ("flags", g.shown)]
  | .elemMatch f i => callNamed "ElemMatch" [("field", f.shown), ("inner", i.shown)]
  | .conj c => callNamed "AndFilter" [("children", c.shown)]
  | .disj c => callNamed "OrFilter" [("children", c.shown)]
  | .neg i => callNamed "NotFilter" [("inner", i.shown)]

def Update.shown : Update → String
  | .assign o f v =>
    callNamed "FieldUpdate" [("op", o.shown), ("field", f.shown), ("value", v.shown)]
  | .assignAll ps => callNamed "SetFields" [("pairs", tupleShown (shownPairs ps))]
  | .rename s t => callNamed "Rename" [("old_field", s.shown), ("new_field", t.shown)]
  | .combined c => callNamed "CombinedUpdate" [("children", c.shown)]

def Stage.shown : Stage → String
  | ⟨o, s⟩ => callNamed "Stage" [("operator", o.shown), ("spec", s.shown)]

def shownItems : List Value → List String
  | [] => []
  | x :: xs => x.shown :: shownItems xs

def shownEntries : List (Value × Value) → List String
  | [] => []
  | (k, v) :: es => (k.shown ++ ": " ++ v.shown) :: shownEntries es

def shownPairs : List (Value × Value) → List String
  | [] => []
  | (k, v) :: ps => tupleShown [k.shown, v.shown] :: shownPairs ps

/-- The operators of a pipeline, bare; a raw stage has none. -/
def shownOperators : List Stage → List String
  | [] => []
  | ⟨.str key, _⟩ :: stages => (if key.isEmpty then "<raw>" else key) :: shownOperators stages
  | ⟨_, _⟩ :: stages => "<raw>" :: shownOperators stages

end

/-- The plain text of a value. -/
def Value.text : Value → String
  | .scalar s => s.text
  | v => v.shown

@[simp] theorem Value.text_str (s : String) : (Value.str s).text = s := rfl

end DocQuery
