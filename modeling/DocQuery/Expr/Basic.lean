import DocQuery.Expr.Function

/-!
# DocQuery.Expr.Basic — construction expressions and their values

An expression is evaluated from left to right, arguments before the function that takes them; the
first fault ends it.  What was logged before a fault stays logged.
-/

namespace DocQuery

open Pipeline (Call)

inductive Expr
  | scalar (s : Scalar)
  | list (items : List Expr)
  | tuple (items : List Expr)
  | set (members : List Expr)
  | stream (items : List Expr)
  | doc (entries : List (Expr × Expr))
  | call (f : Function) (arguments : List (Nat × Expr))
  | pipeline (calls : List (Method × List (Nat × Expr)))
  | named (name : String)

/-- Adds a member to a set, unless an equal one is there. -/
def addMember (members : List Value) (v : Value) : Except Fault (List Value) := do
  v.requireHashable
  return if members.any (· == v) then members else members ++ [v]

mutual

/-- The value of an expression. -/
def Expr.eval : Expr → Build Value
  | .scalar s => pure (.scalar s)
  | .list xs => do return .list (← evalItems xs)
  | .tuple xs => do return .tuple (← evalItems xs)
  | .set xs => do return .set (← evalMembers [] xs)
  | .stream xs => do return .stream (← evalItems xs)
  | .doc es => do return .doc (← evalEntries [] es)
  | .call f arguments => do f.apply ⟨← evalArguments arguments⟩
  | .pipeline calls => do return .pipeline none (← evalCalls [] calls)
  | .named name => Build.ofFunction fun w => (.ok (.pipeline (some name) (w.stagesOf name)), w)

def evalItems : List Expr → Build (List Value)
  | [] => pure []
  | x :: xs => do
    let v ← x.eval
    return v :: (← evalItems xs)

/-- The members of a set, added to those before them. -/
def evalMembers (members : List Value) : List Expr → Build (List Value)
  | [] => pure members
  | x :: xs => do
    let v ← x.eval
    evalMembers (← Build.ofExcept (addMember members v)) xs

/-- The entries of a document, written after those before them. -/
def evalEntries (d : Document) : List (Expr × Expr) → Build Document
  | [] => pure d
  | (k, v) :: es => do
    let k ← k.eval
    let v ← v.eval
    evalEntries (← Build.ofExcept (d.add k v)) es

def evalArguments : List (Nat × Expr) → Build (List (Nat × Value))
  | [] => pure []
  | (i, x) :: xs => do
    let v ← x.eval
    return (i, v) :: (← evalArguments xs)

/-- The stages that calls add to those before them. -/
def evalCalls (stages : List Stage) :
    List (Method × List (Nat × Expr)) → Build (List Stage)
  | [] => pure stages
  | (m, arguments) :: calls => do
    let a ← evalArguments arguments
    let c ← Build.ofExcept (m.call ⟨a⟩)
    let s ← Build.ofFunction fun w => w.stage c
    evalCalls (stages ++ s.toList) calls

end

/-- Evaluates an expression away from any named pipeline. -/
def Expr.value (x : Expr) : Except Fault Value := (x.eval.outcome .empty).1

end DocQuery
