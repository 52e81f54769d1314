import DocQuery.Report.Edit

/-!
# DocQuery.Report.Lending — parts that a compiled form shares with its node

Compiling copies the values of a node, except for patterns, their options and the new names of
fields, which go into the compiled form as they are.  Lending replaces each of them by a mark and
lists them in the order of the marks, wherever a compilation looks for nodes.  All other values in a
compiled form are copies, and a copy holds no stream, so a stream can serve as the mark.
-/

namespace DocQuery

/-- The mark of a lent part. -/
def lentMark (slot : Nat) : Value := .stream [.int slot]

/-- The number of the lent part that a stream marks. -/
def lentSlot? : List Value → Option Nat
  | [.int i] => some i.toNat
  | _ => none

/-- A computation that lists lent parts. -/
abbrev Lending (α : Type) := StateM (List Value) α

/-- Lends one value. -/
def lendValue (v : Value) : Lending Value := do
  let lent ← get
  set (lent ++ [v])
  return lentMark lent.length

namespace Filter

mutual

/-- A filter with a mark in place of every part that it lends. -/
def lend : Filter → Lending Filter
  | .pattern field regex flags => do
    let r ← lendValue regex
    let g ← if flags.isGiven then lendValue flags else pure flags
    return .pattern field r g
  | .elemMatch field inner => do return .elemMatch field (← lendNode inner)
  | .conj children => do return .conj (← lendChildren children)
  | .disj children => do return .disj (← lendChildren children)
  | .neg inner => do return .neg (← lendNode inner)
  | f => pure f

def lendNode : Value → Lending Value
  | .filter f => do return .filter (← f.lend)
  | v => pure v

def lendChildren : Value → Lending Value
  | .list xs => do return .list (← lendNodes xs)
  | .tuple xs => do return .tuple (← lendNodes xs)
  | .set xs => do return .set (← lendNodes xs)
  | .stream xs => do return .stream (← lendNodes xs)
  | .doc es => do return .doc (← lendKeys es)
  | v => pure v

def lendNodes : List Value → Lending (List Value)
  | [] => pure []
  | x :: xs => do
    let y ← lendNode x
    return y :: (← lendNodes xs)

def lendKeys : List (Value × Value) → Lending (List (Value × Value))
  | [] => pure []
  | (k, v) :: es => do
    let y ← lendNode k
    return (y, v) :: (← lendKeys es)

end

end Filter

namespace Update

mutual

/-- An update with a mark in place of every part that it lends. -/
def lend : Update → Lending Update
  | .rename source target => do return .rename source (← lendValue target)
  | .combined children => do return .combined (← lendChildren children)
  | u => pure u

def lendNode : Value → Lending Value
  | .update u => do return .update (← u.lend)
  | v => pure v

def lendChildren : Value → Lending Value
  | .list xs => do return .list (← lendNodes xs)
  | .tuple xs => do return .tuple (← lendNodes xs)
  | .set xs => do return .set (← lendNodes xs)
  | .stream xs => do return .stream (← lendNodes xs)
  | .doc es => do return .doc (← lendKeys es)
  | v => pure v

def lendNodes : List Value → Lending (List Value)
  | [] => pure []
  | x :: xs => do
    let y ← lendNode x
    return y :: (← lendNodes xs)

def lendKeys : List (Value × Value) → Lending (List (Value × Value))
  | [] => pure []
  | (k, v) :: es => do
    let y ← lendNode k
    return (y, v) :: (← lendKeys es)

end

end Update

end DocQuery
