import DocQuery.Value.Display
import DocQuery.Value.Hashable

/-!
# DocQuery.Fault — why a construction or a compilation is refused
-/

namespace DocQuery

inductive Fault
  /-- Items were asked of a value that has none. -/
  | notIterable
  /-- A value that holds a stream cannot be copied. -/
  | uncopyable
  /-- The value, part of a would-be key, cannot be one. -/
  | unhashable (part : Value)
  /-- A value that is no filter stands where a filter is compiled. -/
  | foreignFilter (v : Value)
  /-- A value that is no update stands where an update is compiled. -/
  | foreignUpdate (v : Value)
  /-- A connective was applied to operands it is not defined on. -/
  | operands (c : Connective) (left right : Value)
  /-- Complement was applied to an operand it is not defined on. -/
  | operand (v : Value)
  /-- A call lacks an argument. -/
  | missingArgument
  /-- A subscript was applied to a value that takes none, or not of that kind. -/
  | notSubscriptable
  /-- What should be a key and a value has another number of items. -/
  | pairLength
  /-- A value lacks the part that was asked of it. -/
  | missingPart
  /-- A document lacks the key that was asked for. -/
  | missingKey
  /-- A list has no such position. -/
  | outOfRange
  /-- What should be a byte is no integer. -/
  | notByte
  /-- What should be a byte is too small or too large. -/
  | byteRange

/-- The message of a fault, where its wording is fixed. -/
def Fault.message? : Fault → Option String
  | unhashable part => some ("unhashable type: " ++ Text.quoted part.kind)
  | foreignFilter v => some ("Unsupported filter node: " ++ v.shown)
  | foreignUpdate v => some ("Unsupported update node: " ++ v.shown)
  | operands c l r => some ("unsupported operand type(s) for " ++ c.symbol ++ ": "
      ++ Text.quoted l.kind ++ " and " ++ Text.quoted r.kind)
  | operand v => some ("bad operand type for unary ~: " ++ Text.quoted v.kind)
  | _ => none

/-- Lets a value pass that can be a key, and refuses any other. -/
def Value.requireHashable (v : Value) : Except Fault Unit :=
  match v.unhashable? with
  | some part => .error (.unhashable part)
  | none => .ok ()

theorem Value.requireHashable_of_isHashable {v : Value} (h : v.IsHashable) :
    v.requireHashable = .ok () := by
  unfold Value.IsHashable at h
  simp [Value.requireHashable, h]

end DocQuery
