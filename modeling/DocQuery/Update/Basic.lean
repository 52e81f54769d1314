import DocQuery.Value.Reading

/-!
# DocQuery.Update.Basic — building updates

One function for each update of a single field, `Update.setAll` and `Update.ofPairs` for several
fields at once, and `Update.combine`, which leaves out absent updates and returns a lone one as it
is.
-/

namespace DocQuery.Update

/-- One field updated by one operator. -/
def assignWith (op : UpdateOp) (field value : Value) : Update :=
  .assign (.scalar (.updateOp op)) field value

def set (field value : Value) : Update := assignWith .set field value

def inc (field amount : Value) : Update := assignWith .inc field amount

def mul (field factor : Value) : Update := assignWith .mul field factor

/-- The lower of the field and a value. -/
def min (field value : Value) : Update := assignWith .min field value

/-- The higher of the field and a value. -/
def max (field value : Value) : Update := assignWith .max field value

def push (field value : Value) : Update := assignWith .push field value

def pull (field value : Value) : Update := assignWith .pull field value

def addToSet (field value : Value) : Update := assignWith .addToSet field value

/-- What `$pop` is given to take the first element. -/
def firstElement : Int := -1

/-- What `$pop` is given to take the last element. -/
def lastElement : Int := 1

def popFirst (field : Value) : Update := assignWith .pop field (.int firstElement)

def popLast (field : Value) : Update := assignWith .pop field (.int lastElement)

/-- What `$unset` is given; it has no meaning there. -/
def unsetValue : String := ""

def unset (field : Value) : Update := assignWith .unset field (.str unsetValue)

/-- Several fields set at once, from a document or from pairs. -/
def ofPairs : Value → Except Fault Update
  | .doc es => .ok (.assignAll es)
  | v => do return .assignAll (← (← v.items?).mapM Value.pair?)

/-- Several fields set at once, from a document. -/
def setAll : Value → Except Fault Update
  | .doc es => .ok (.assignAll es)
  | _ => .error .missingPart

/-- The document of the fields that an update sets, which only `assignAll` has. -/
def fields? : Update → Except Fault Document
  | .assignAll ps => Document.addAll [] ps
  | _ => .error .missingPart

/-- Several updates made one after the other. -/
def combine (nodes : List Value) : Value :=
  match nodes.filter fun v => !v.isNull with
  | [] => .null
  | [v] => v
  | vs => .update (.combined (.tuple vs))

end DocQuery.Update
