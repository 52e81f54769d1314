import DocQuery.Expr.Basic

/-!
# DocQuery.Report.Edit — edits of compiled output

A `Draft` is a compiled value that is being edited.  Some of its parts may be lent: the compiled
node still holds them, so what an edit does to them is done to the node as well.

An edit follows a path of keys and positions into a draft and changes the value there.  Positions
may be counted from the end, by negative numbers.  The path is evaluated before it is followed, the
new value once its place has been reached.
-/

namespace DocQuery

/-- A value under edit: its documents, lists and tuples taken apart, its lent parts by number. -/
inductive Draft
  | leaf (v : Value)
  | lent (slot : Nat)
  | doc (entries : List (Value × Draft))
  | list (items : List Draft)
  | tuple (items : List Draft)

namespace Draft

/-! ### From values and back -/

mutual

/-- A value as a draft.  `slot?` tells which streams stand for lent parts. -/
def ofValue (slot? : List Value → Option Nat) : Value → Draft
  | .doc es => .doc (ofEntries slot? es)
  | .list xs => .list (ofItems slot? xs)
  | .tuple xs => .tuple (ofItems slot? xs)
  | .stream xs => match slot? xs with
    | some i => .lent i
    | none => .leaf (.stream xs)
  | v => .leaf v

def ofItems (slot? : List Value → Option Nat) : List Value → List Draft
  | [] => []
  | x :: xs => ofValue slot? x :: ofItems slot? xs

def ofEntries (slot? : List Value → Option Nat) : List (Value × Value) → List (Value × Draft)
  | [] => []
  | (k, v) :: es => (k, ofValue slot? v) :: ofEntries slot? es

end

/-- A value as a draft without lent parts. -/
def ofOwn : Value → Draft := ofValue fun _ => none

mutual

/-- The value that a draft stands for, with the lent parts put in. -/
def value (lent : List Value) : Draft → Value
  | .leaf v => v
  | .lent i => lent.getD i .null
  | .doc es => .doc (entryValues lent es)
  | .list xs => .list (itemValues lent xs)
  | .tuple xs => .tuple (itemValues lent xs)

def itemValues (lent : List Value) : List Draft → List Value
  | [] => []
  | x :: xs => x.value lent :: itemValues lent xs

def entryValues (lent : List Value) : List (Value × Draft) → List (Value × Value)
  | [] => []
  | (k, x) :: es => (k, x.value lent) :: entryValues lent es

end

/-! ### Parts -/

/-- The entry under a key. -/
def entry? (key : Value) : List (Value × Draft) → Option Draft
  | [] => none
  | (k, x) :: es => if k == key then some x else entry? key es

/-- Writes the entry under a key: in place if it is there, at the end otherwise. -/
def setEntry (key : Value) (part : Draft) : List (Value × Draft) → List (Value × Draft)
  | [] => [(key, part)]
  | (k, x) :: es => if k == key then (k, part) :: es else (k, x) :: setEntry key part es

end Draft

/-- A position in a row of `length` items. -/
def position? (length : Nat) (i : Int) : Except Fault Nat :=
  let j := if i < 0 then i + length else i
  if 0 ≤ j ∧ j < length then .ok j.toNat else .error .outOfRange

namespace Value

/-- The integer that a value is, as a position in some row.  One that takes more than a signed word
of 64 bits is out of range in every row. -/
def index? (v : Value) : Except Fault Int :=
  match v.integer? with
  | some i => if -Int.pow 2 63 ≤ i ∧ i < Int.pow 2 63 then .ok i else .error .outOfRange
  | none => .error .notSubscriptable

/-- The integer that a value is, as a position in a row of `length` items. -/
def positionIn? (length : Nat) (v : Value) : Except Fault Nat := do
  position? length (← v.index?)

/-- The integer that a value is, as a byte. -/
def byte? (v : Value) : Except Fault UInt8 :=
  match v.integer? with
  | some i => if 0 ≤ i ∧ i < 256 then .ok (UInt8.ofNat i.toNat) else .error .byteRange
  | none => .error .notByte

end Value

namespace Draft

/-- The part of a draft at a key or position. -/
def part? (key : Value) : Draft → Except Fault Draft
  | .doc es => do
    key.requireHashable
    match entry? key es with
    | some x => return x
    | none => throw .missingKey
  | .list xs | .tuple xs => do return xs.getD (← key.positionIn? xs.length) (.leaf .null)
  | .leaf (.scalar s) => do
    match s.items? with
    | .ok xs => return .leaf (.scalar (xs.getD (← key.positionIn? xs.length) .null))
    | .error _ => throw .notSubscriptable
  | _ => .error .notSubscriptable

/-- A draft with another part at a key or position that it has. -/
def withPart (d : Draft) (key : Value) (part : Draft) : Except Fault Draft :=
  match d with
  | .doc es => .ok (.doc (setEntry key part es))
  | .list xs => do return .list (xs.set (← key.positionIn? xs.length) part)
  | .tuple xs => do return .tuple (xs.set (← key.positionIn? xs.length) part)
  | d => .ok d

/-! ### Changes -/

/-- Assigns to a key of a document or a position of a list.  A new byte is checked before it is
known whether its position exists. -/
def assign (key : Value) (new : Expr) (d : Draft) : Except Fault Draft := do
  let v ← new.value
  match d with
  | .doc es => do
    key.requireHashable
    return .doc (setEntry key (ofOwn v) es)
  | .list xs => return .list (xs.set (← key.positionIn? xs.length) (ofOwn v))
  | .leaf (.scalar (.byteArray bs)) => do
    let i ← key.index?
    let b ← v.byte?
    return .leaf (.scalar (.byteArray (bs.set (← position? bs.length i) b)))
  | _ => throw .notSubscriptable

/-- Appends to a list. -/
def append (new : Expr) : Draft → Except Fault Draft
  | .list xs => do return .list (xs ++ [ofOwn (← new.value)])
  | .leaf (.scalar (.byteArray bs)) => do
    let v ← new.value
    return .leaf (.scalar (.byteArray (bs ++ [← v.byte?])))
  | _ => .error .missingPart

end Draft

/-- A computation over the lent parts that may be refused. -/
abbrev Editing (α : Type) := StateT (List Draft) (Except Fault) α

namespace Draft

/-- Changes a draft, or the lent part that stands in its place. -/
def change (f : Draft → Editing Draft) : Draft → Editing Draft
  | .lent i => do
    let x ← f ((← get).getD i (.leaf .null))
    modify fun lent => lent.set i x
    return .lent i
  | d => f d

/-- Changes what is found at a path. -/
def changeAt (f : Draft → Except Fault Draft) : List Value → Draft → Editing Draft
  | [] => change fun d => f d
  | key :: path => change fun d => do
    let x ← changeAt f path (← d.part? key)
    d.withPart key x

end Draft

/-- A change at a path. -/
inductive Edit
  | assign (path : List Expr) (new : Expr)
  | append (path : List Expr) (new : Expr)

/-- Carries out an edit; an assignment needs a last key to assign to. -/
def Edit.apply (d : Draft) : Edit → Editing Draft
  | assign path new => do
    let keys ← path.mapM fun x => x.value
    match keys.getLast? with
    | some key => d.changeAt (Draft.assign key new) keys.dropLast
    | none => do
      let _ ← new.value
      throw .outOfRange
  | append path new => do
    let keys ← path.mapM fun x => x.value
    d.changeAt (Draft.append new) keys

end DocQuery
