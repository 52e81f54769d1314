/-!
# DocQuery.Operator — the operator keys of the wire format

Queries, updates and pipelines are documents in which a key that begins with `$` is an operator.
This module names every such key that the library writes, once, and sorts them into the classes
that inspection reports.
-/

namespace DocQuery

/-- The mark that begins every operator key. -/
def operatorMark : Char := '$'

/-- Whether a key is an operator key. -/
def isOperatorKey (key : String) : Bool := key.toList.head? == some operatorMark

/-! ### Keys -/

namespace Key

def eq := "$eq"
def ne := "$ne"
def gt := "$gt"
def gte := "$gte"
def lt := "$lt"
def lte := "$lte"
def isIn := "$in"
def notIn := "$nin"
def present := "$exists"
def regex := "$regex"
def options := "$options"
def all := "$all"
def size := "$size"
def elemMatch := "$elemMatch"
def not := "$not"

def and := "$and"
def or := "$or"
def nor := "$nor"

def set := "$set"
def inc := "$inc"
def mul := "$mul"
def min := "$min"
def max := "$max"
def push := "$push"
def pull := "$pull"
def addToSet := "$addToSet"
def pop := "$pop"
def unset := "$unset"
def rename := "$rename"

def matching := "$match"
def project := "$project"
def group := "$group"
def sort := "$sort"
def limit := "$limit"
def skip := "$skip"
def unwind := "$unwind"
def lookup := "$lookup"
def addFields := "$addFields"
def replaceRoot := "$replaceRoot"
def count := "$count"
def facet := "$facet"
def bucket := "$bucket"
def sample := "$sample"
def out := "$out"
def merge := "$merge"

def sum := "$sum"
def avg := "$avg"
def first := "$first"
def last := "$last"

/-- The field of a group stage that holds the grouping expression. -/
def groupId := "_id"

end Key

/-! ### Comparison and update operators -/

/-- Comparisons of one field with a value. -/
inductive ComparisonOp
  | eq | ne | gt | gte | lt | lte | isIn | notIn | present | all | size
deriving DecidableEq

namespace ComparisonOp

def key : ComparisonOp → String
  | eq => Key.eq
  | ne => Key.ne
  | gt => Key.gt
  | gte => Key.gte
  | lt => Key.lt
  | lte => Key.lte
  | isIn => Key.isIn
  | notIn => Key.notIn
  | present => Key.present
  | all => Key.all
  | size => Key.size

/-- The name under which the operator is shown. -/
def name : ComparisonOp → String
  | eq => "EQ"
  | ne => "NE"
  | gt => "GT"
  | gte => "GTE"
  | lt => "LT"
  | lte => "LTE"
  | isIn => "IN"
  | notIn => "NIN"
  | present => "EXISTS"
  | all => "ALL"
  | size => "SIZE"

def every : List ComparisonOp := [eq, ne, gt, gte, lt, lte, isIn, notIn, present, all, size]

theorem mem_every (op : ComparisonOp) : op ∈ every := by cases op <;> decide

def ofName? (s : String) : Option ComparisonOp := every.find? (·.name == s)

@[simp] theorem ofName?_name (op : ComparisonOp) : ofName? op.name = some op := by
  cases op <;> decide

end ComparisonOp

/-- Updates of one field. -/
inductive UpdateOp
  | set | inc | mul | min | max | push | pull | addToSet | pop | unset
deriving DecidableEq

namespace UpdateOp

def key : UpdateOp → String
  | set => Key.set
  | inc => Key.inc
  | mul => Key.mul
  | min => Key.min
  | max => Key.max
  | push => Key.push
  | pull => Key.pull
  | addToSet => Key.addToSet
  | pop => Key.pop
  | unset => Key.unset

/-- The name under which the operator is shown. -/
def name : UpdateOp → String
  | set => "SET"
  | inc => "INC"
  | mul => "MUL"
  | min => "MIN"
  | max => "MAX"
  | push => "PUSH"
  | pull => "PULL"
  | addToSet => "ADD_TO_SET"
  | pop => "POP"
  | unset => "UNSET"

def every : List UpdateOp := [set, inc, mul, min, max, push, pull, addToSet, pop, unset]

theorem mem_every (op : UpdateOp) : op ∈ every := by cases op <;> decide

def ofName? (s : String) : Option UpdateOp := every.find? (·.name == s)

@[simp] theorem ofName?_name (op : UpdateOp) : ofName? op.name = some op := by
  cases op <;> decide

end UpdateOp

/-- The two ways to join filters. -/
inductive Connective
  | and | or
deriving DecidableEq

namespace Connective

def key : Connective → String
  | and => Key.and
  | or => Key.or

/-- The connective as a symbol between two filters. -/
def symbol : Connective → String
  | and => "&"
  | or => "|"

end Connective

/-- Accumulators of a group: each wraps one expression. -/
inductive Accumulator
  | sum | avg | min | max | first | last | push | addToSet
deriving DecidableEq

def Accumulator.key : Accumulator → String
  | sum => Key.sum
  | avg => Key.avg
  | min => Key.min
  | max => Key.max
  | first => Key.first
  | last => Key.last
  | push => Key.push
  | addToSet => Key.addToSet

/-! ### Classes -/

/-- Classes of operator keys, by where in compiled output they stand. -/
inductive OperatorClass
  | query | logical | negation | update | stage
deriving DecidableEq

namespace OperatorClass

def members : OperatorClass → List String
  | query => [Key.eq, Key.ne, Key.gt, Key.gte, Key.lt, Key.lte, Key.isIn, Key.notIn, Key.present,
      Key.all, Key.size, Key.elemMatch, Key.regex, Key.options]
  | logical => [Key.and, Key.or, Key.nor]
  | negation => [Key.ne, Key.notIn, Key.not, Key.nor]
  | update => [Key.set, Key.inc, Key.mul, Key.min, Key.max, Key.push, Key.pull, Key.addToSet,
      Key.pop, Key.unset, Key.rename]
  | stage => [Key.matching, Key.project, Key.group, Key.sort, Key.limit, Key.skip, Key.unwind,
      Key.lookup, Key.addFields, Key.set, Key.unset, Key.replaceRoot, Key.count, Key.facet,
      Key.bucket, Key.sample, Key.out, Key.merge]

def contains (c : OperatorClass) (key : String) : Bool := c.members.contains key

end OperatorClass

theorem ComparisonOp.key_mem_query (op : ComparisonOp) : OperatorClass.query.contains op.key := by
  cases op <;> decide

theorem UpdateOp.key_mem_update (op : UpdateOp) : OperatorClass.update.contains op.key := by
  cases op <;> decide

end DocQuery
