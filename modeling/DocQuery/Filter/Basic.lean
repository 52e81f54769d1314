import DocQuery.Value.Reading

/-!
# DocQuery.Filter.Basic — filters on one field, and negation

One function for each comparison.  The comparisons with several values take whatever can be
iterated and keep it as a tuple.
-/

namespace DocQuery

namespace Filter

/-! ### Leaves -/

/-- A field compared with a value. -/
def compare (op : ComparisonOp) (field value : Value) : Filter :=
  .comparison field (.scalar (.comparisonOp op)) value

def eq (field value : Value) : Filter := compare .eq field value

def ne (field value : Value) : Filter := compare .ne field value

def gt (field value : Value) : Filter := compare .gt field value

def gte (field value : Value) : Filter := compare .gte field value

def lt (field value : Value) : Filter := compare .lt field value

def lte (field value : Value) : Filter := compare .lte field value

/-- The field holds one of `values`. -/
def isIn (field values : Value) : Filter := compare .isIn field values.frozen

/-- The field holds none of `values`. -/
def notIn (field values : Value) : Filter := compare .notIn field values.frozen

/-- The array in the field holds each of `values`. -/
def containsAll (field values : Value) : Filter := compare .all field values.frozen

/-- The field is there, or is not. -/
def present (field value : Value) : Filter := compare .present field value

/-- The array in the field has `length` elements. -/
def size (field length : Value) : Filter := compare .size field length

/-- The field lies between two bounds, both included. -/
def between (field low high : Value) : Value :=
  .filter (.conj (.tuple [.filter (gte field low), .filter (lte field high)]))

/-- A filter does not hold; an absent one stays absent. -/
def negation (v : Value) : Value := if v.isNull then v else .filter (.neg v)

end Filter

end DocQuery
