import DocQuery.Update.Basic

/-!
# DocQuery.Vocabulary — public names of keys and operands

Every key of the wire format and every fixed operand under the name by which clients refer to it,
sorted by name.
-/

namespace DocQuery

/-- The public names with what they stand for, sorted by name. -/
def vocabulary : List (String × Scalar) := [
  ("ADD_FIELDS", .str Key.addFields),
  ("ADD_TO_SET", .str Key.addToSet),
  ("ALL", .str Key.all),
  ("AND", .str Key.and),
  ("AVG", .str Key.avg),
  ("BUCKET", .str Key.bucket),
  ("COUNT", .str Key.count),
  ("ELEM_MATCH", .str Key.elemMatch),
  ("EQ", .str Key.eq),
  ("EXISTS", .str Key.present),
  ("FACET", .str Key.facet),
  ("FIRST", .str Key.first),
  ("GROUP", .str Key.group),
  ("GROUP_ID", .str Key.groupId),
  ("GT", .str Key.gt),
  ("GTE", .str Key.gte),
  ("IN", .str Key.isIn),
  ("INC", .str Key.inc),
  ("LAST", .str Key.last),
  ("LIMIT", .str Key.limit),
  ("LOOKUP", .str Key.lookup),
  ("LT", .str Key.lt),
  ("LTE", .str Key.lte),
  ("MATCH", .str Key.matching),
  ("MAX", .str Key.max),
  ("MERGE", .str Key.merge),
  ("MIN", .str Key.min),
  ("MUL", .str Key.mul),
  ("NE", .str Key.ne),
  ("NIN", .str Key.notIn),
  ("NOR", .str Key.nor),
  ("NOT", .str Key.not),
  ("OPERATOR_PREFIX", .str (String.singleton operatorMark)),
  ("OPTIONS", .str Key.options),
  ("OR", .str Key.or),
  ("OUT", .str Key.out),
  ("POP", .str Key.pop),
  ("POP_FIRST", .int Update.firstElement),
  ("POP_LAST", .int Update.lastElement),
  ("PROJECT", .str Key.project),
  ("PULL", .str Key.pull),
  ("PUSH", .str Key.push),
  ("REGEX", .str Key.regex),
  ("RENAME", .str Key.rename),
  ("REPLACE_ROOT", .str Key.replaceRoot),
  ("SAMPLE", .str Key.sample),
  ("SET", .str Key.set),
  ("SET_STAGE", .str Key.set),
  ("SIZE", .str Key.size),
  ("SKIP", .str Key.skip),
  ("SORT", .str Key.sort),
  ("SUM", .str Key.sum),
  ("UNSET", .str Key.unset),
  ("UNSET_STAGE", .str Key.unset),
  ("UNSET_VALUE", .str Update.unsetValue),
  ("UNWIND", .str Key.unwind)]

/-- The entries of a name: one, or none if the name is unknown. -/
def vocabularyOf (name : String) : List (String × Scalar) :=
  vocabulary.filter fun c => c.1 == name

end DocQuery
