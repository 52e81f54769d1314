import DocQuery.Fault

/-!
# DocQuery.Inspection — the operators of compiled output

Documents and lists are walked to any depth, and nothing else.  The keys of a walk come in the
order in which they are met; `Value.operators` is their set, sorted.  `OperatorClass.holds` asks of
any value whether it is a key of a class.
-/

namespace DocQuery

/-- The key itself, if it is an operator key. -/
def operatorKeyOf : Value → List String
  | .str s => if isOperatorKey s then [s] else []
  | _ => []

mutual

/-- Every operator key of a value, as often as it occurs. -/
def Value.operatorKeys : Value → List String
  | .doc es => operatorKeysOfEntries es
  | .list xs => operatorKeysOfItems xs
  | _ => []

def operatorKeysOfItems : List Value → List String
  | [] => []
  | x :: xs => x.operatorKeys ++ operatorKeysOfItems xs

def operatorKeysOfEntries : List (Value × Value) → List String
  | [] => []
  | (k, v) :: es => operatorKeyOf k ++ v.operatorKeys ++ operatorKeysOfEntries es

end

/-- Puts a text where it belongs in a sorted list without repetitions. -/
def insertText (s : String) : List String → List String
  | [] => [s]
  | t :: ts => if s < t then s :: t :: ts else if s = t then t :: ts else t :: insertText s ts

theorem mem_insertText {s t : String} {ts : List String} :
    t ∈ insertText s ts ↔ t = s ∨ t ∈ ts := by
  induction ts with
  | nil => simp [insertText]
  | cons u us ih =>
    unfold insertText
    split
    · simp
    · split
      · rename_i h
        subst h
        simp
      · simp only [List.mem_cons, ih]
        exact or_left_comm

namespace Value

/-- The operator keys of a value, sorted. -/
def operators (v : Value) : List String := v.operatorKeys.foldr insertText []

/-- Whether some operator of a value negates. -/
def negates (v : Value) : Bool := v.operators.any OperatorClass.negation.contains

theorem mem_operators {v : Value} {s : String} : s ∈ v.operators ↔ s ∈ v.operatorKeys := by
  unfold operators
  induction v.operatorKeys with
  | nil => simp
  | cons t ts ih => simp [mem_insertText, ih]

end Value

/-- Whether a value is a key of the class.  Only a text is; what cannot be a key of any document
is refused, except a set, which is none. -/
def OperatorClass.holds (c : OperatorClass) : Value → Except Fault Bool
  | .str s => .ok (c.contains s)
  | .set _ => .ok false
  | v => do
    v.requireHashable
    return false

end DocQuery
