import DocQuery.Filter.Basic
import DocQuery.Number.Bitwise

/-!
# DocQuery.Filter.Connective — joining filters

`Filter.allOf` and `Filter.anyOf` join filters and keep containers flat: absent filters are left
out, a container of the same kind gives its children, and what is left of one filter is that
filter itself.  Between two values, `Connective.apply` is the same for filters and has its usual
meaning for truth values, integers, sets and documents.
-/

namespace DocQuery

namespace Connective

/-- The filter that joins `children`. -/
def join : Connective → Value → Filter
  | and, children => .conj children
  | or, children => .disj children

/-- The children of a container that this connective made. -/
def childrenOf? : Connective → Value → Option Value
  | and, .filter (.conj children) => some children
  | or, .filter (.disj children) => some children
  | _, _ => none

/-- Filters in order, absent ones left out and containers of the same kind opened. -/
def flatten (c : Connective) : List Value → Except Fault (List Value)
  | [] => .ok []
  | v :: vs =>
    if v.isNull then c.flatten vs else
    match c.childrenOf? v with
    | none => do return v :: (← c.flatten vs)
    | some children => do
      let xs ← children.items?
      return xs ++ (← c.flatten vs)

/-- Flattening goes operand by operand. -/
theorem flatten_append (c : Connective) (vs ws : List Value) :
    c.flatten (vs ++ ws) = do return (← c.flatten vs) ++ (← c.flatten ws) := by
  induction vs with
  | nil =>
    show c.flatten ws = _
    cases c.flatten ws <;> rfl
  | cons v vs ih =>
    simp only [List.cons_append, flatten, ih]
    split
    · rfl
    · split
      · cases c.flatten vs <;> cases c.flatten ws <;> rfl
      · rename_i children _
        cases children.items? <;> cases c.flatten vs <;> cases c.flatten ws <;>
          simp [bind, Except.bind, pure, Except.pure]

/-- The filter for flattened operands: none, the only one, or a container. -/
def ofFlat (c : Connective) : List Value → Value
  | [] => .null
  | [x] => x
  | xs => .filter (c.join (.tuple xs))

/-- Joins filters and keeps the result flat. -/
def combine (c : Connective) (nodes : List Value) : Except Fault Value := do
  return c.ofFlat (← c.flatten nodes)

end Connective

namespace Filter

/-- All of `nodes` hold. -/
def allOf (nodes : List Value) : Except Fault Value := Connective.and.combine nodes

/-- Some of `nodes` holds. -/
def anyOf (nodes : List Value) : Except Fault Value := Connective.or.combine nodes

theorem allOf_gte_lte (field low high : Value) :
    allOf [.filter (gte field low), .filter (lte field high)] = .ok (between field low high) :=
  rfl

end Filter

/-! ### Operators -/

namespace Value

/-- An integer or a truth value, read as an integer. -/
def integer? : Value → Option Int
  | .int n => some n
  | .bool b => some (if b then 1 else 0)
  | _ => none

end Value

namespace Connective

/-- The connective on truth values. -/
def onBool : Connective → Bool → Bool → Bool
  | and, a, b => a && b
  | or, a, b => a || b

/-- The connective on integers, bit by bit. -/
def onInt : Connective → Int → Int → Int
  | and => Bitwise.both
  | or => Bitwise.either

/-- The connective on sets: the members common to both, or of either; of two equal members the
first of a union stays, and of an intersection that of the smaller set, the right one on a tie. -/
def onSet : Connective → List Value → List Value → List Value
  | and, xs, ys =>
    if xs.length < ys.length then xs.filter fun x => ys.any (· == x)
    else ys.filter fun y => xs.any (· == y)
  | or, xs, ys => xs ++ ys.filter fun y => !xs.any (· == y)

/-- The connective on values that are not filters. -/
def onValues (c : Connective) (l r : Value) : Except Fault Value :=
  match l, r with
  | .bool a, .bool b => .ok (.bool (c.onBool a b))
  | .set xs, .set ys => .ok (.set (c.onSet xs ys))
  | .doc es, .doc fs =>
    if c = .or then .ok (.doc (Document.extend es fs)) else .error (.operands c l r)
  | _, _ =>
    match l.integer?, r.integer? with
    | some m, some n => .ok (.int (c.onInt m n))
    | _, _ => .error (.operands c l r)

/-- The connective between two values.  One filter is enough to make it a filter operation; the
other operand is then a filter or absent. -/
def apply (c : Connective) (l r : Value) : Except Fault Value :=
  match l, r with
  | .filter _, .filter _ | .filter _, .null | .null, .filter _ => c.combine [l, r]
  | _, _ => c.onValues l r

end Connective

namespace Value

/-- The complement: of a filter its negation, of an integer its bits turned over. -/
def complement (v : Value) : Except Fault Value :=
  match v with
  | .filter f => .ok (Filter.negation (.filter f))
  | _ => match v.integer? with
    | some n => .ok (.int (Bitwise.complement n))
    | none => .error (.operand v)

end Value

end DocQuery
