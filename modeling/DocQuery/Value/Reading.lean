import DocQuery.Document
import DocQuery.Value.Reference

/-!
# DocQuery.Value.Reading — taking items, pairs and documents out of values

Texts are read as their characters, byte strings as their bytes, documents as their keys.  What a
stream has given is gone: `Value.spent` is what remains of a value once all its items have been
taken, `Value.afterDocument` what remains once a document was read from it, which may have stopped
early.
-/

namespace DocQuery

/-! ### Items -/

def Scalar.items? : Scalar → Except Fault (List Scalar)
  | .str s => .ok (s.toList.map fun c => .str (String.singleton c))
  | .bytes bs | .byteArray bs => .ok (bs.map fun b => .int b.toNat)
  | _ => .error .notIterable

namespace Value

def items? : Value → Except Fault (List Value)
  | .scalar s => s.items?.map fun xs => xs.map .scalar
  | .list xs | .tuple xs | .set xs | .stream xs => .ok xs
  | .doc es => .ok (es.map (·.1))
  | _ => .error .notIterable

/-- What remains of a value whose items have all been taken. -/
def spent : Value → Value
  | .stream _ => .stream []
  | v => v

/-- Items as a tuple; texts, bytes, documents and values without items stay as they are. -/
def frozen : Value → Value
  | .scalar (.byteArray bs) => .tuple (bs.map fun b => .int b.toNat)
  | .list xs | .tuple xs | .set xs | .stream xs => .tuple xs
  | v => v

/-! ### Pairs and documents -/

/-- A value read as a key and a value. -/
def pair? (v : Value) : Except Fault (Value × Value) := do
  match ← v.items? with
  | [a, b] => .ok (a, b)
  | _ => .error .pairLength

end Value

namespace Document

/-- Writes one item that is to be a pair. -/
def addItem (d : Document) (x : Value) : Except Fault Document := do
  let p ← x.pair?
  d.add p.1 p.2

/-- Writes items that are to be pairs, up to the first that is none. -/
def addItems (d : Document) (xs : List Value) : Except Fault Document := xs.foldlM addItem d

/-- How many items `addItems` takes: all of them, or up to and with the first it refuses. -/
def taken (d : Document) : List Value → Nat
  | [] => 0
  | x :: xs => match d.addItem x with
    | .ok d' => taken d' xs + 1
    | .error _ => 1

/-- Writes the entries of a document, or the pairs that a value holds. -/
def update (d : Document) : Value → Except Fault Document
  | .doc es => .ok (d.extend es)
  | v => do d.addItems (← v.items?)

end Document

namespace Value

/-- A value read as a document: a document itself, or pairs. -/
def document? : Value → Except Fault Document
  | .doc es => .ok es
  | v => do Document.addItems [] (← v.items?)

/-- Items after a document was read from them: those it took are spent. -/
def itemsAfterDocument (xs : List Value) : List Value :=
  let n := Document.taken [] xs
  (xs.take n).map spent ++ xs.drop n

/-- What remains of a value once `document?` has read it. -/
def afterDocument : Value → Value
  | .list xs => .list (itemsAfterDocument xs)
  | .tuple xs => .tuple (itemsAfterDocument xs)
  | .set xs => .set (itemsAfterDocument xs)
  | .stream xs => .stream (xs.drop (Document.taken [] xs))
  | v => v

end Value

/-! ### Copies -/

mutual

/-- A value can be copied if no stream stands anywhere in it. -/
def Value.isCopyable : Value → Bool
  | .scalar _ => true
  | .list xs | .tuple xs | .set xs => itemsCopyable xs
  | .doc es => entriesCopyable es
  | .stream _ => false
  | .filter f => f.isCopyable
  | .update u => u.isCopyable
  | .stage s => s.isCopyable
  | .pipeline _ stages => stagesCopyable stages

def Filter.isCopyable : Filter → Bool
  | .comparison f o v => f.isCopyable && o.isCopyable && v.isCopyable
  | .pattern f r g => f.isCopyable && r.isCopyable && g.isCopyable
  | .elemMatch f i => f.isCopyable && i.isCopyable
  | .conj c | .disj c => c.isCopyable
  | .neg i => i.isCopyable

def Update.isCopyable : Update → Bool
  | .assign o f v => o.isCopyable && f.isCopyable && v.isCopyable
  | .assignAll ps => entriesCopyable ps
  | .rename s t => s.isCopyable && t.isCopyable
  | .combined c => c.isCopyable

def Stage.isCopyable : Stage → Bool
  | ⟨o, s⟩ => o.isCopyable && s.isCopyable

def itemsCopyable : List Value → Bool
  | [] => true
  | x :: xs => x.isCopyable && itemsCopyable xs

def entriesCopyable : List (Value × Value) → Bool
  | [] => true
  | (k, v) :: es => k.isCopyable && v.isCopyable && entriesCopyable es

def stagesCopyable : List Stage → Bool
  | [] => true
  | s :: ss => s.isCopyable && stagesCopyable ss

end

/-- A copy of a value, where it can be copied.  The pipelines in it are copied with it.  A set is
made anew, and its members may then be met in another order: this copy keeps the order of all sets,
and `Value.CopiesTo` has the others. -/
def Value.copy (v : Value) : Except Fault Value :=
  if v.isCopyable then .ok v.detached else .error .uncopyable

/-- A copy of a document. -/
def Document.copy (d : Document) : Except Fault Document :=
  if entriesCopyable d then .ok d.detached else .error .uncopyable

theorem Value.copy_of_isCopyable {v : Value} (h : v.isCopyable) : v.copy = .ok v.detached := by
  simp [Value.copy, h]

theorem Value.copy_eq_ok_iff {v w : Value} : v.copy = .ok w ↔ v.isCopyable ∧ w = v.detached := by
  unfold Value.copy
  split
  · rename_i h
    simp [h, eq_comm]
  · rename_i h
    simp [h]

theorem itemsCopyable_iff {xs : List Value} :
    itemsCopyable xs = true ↔ ∀ x ∈ xs, x.isCopyable = true := by
  induction xs with
  | nil => simp [itemsCopyable]
  | cons x xs ih => simp [itemsCopyable, ih]

theorem entriesCopyable_iff {es : List (Value × Value)} :
    entriesCopyable es = true ↔ ∀ e ∈ es, e.1.isCopyable = true ∧ e.2.isCopyable = true := by
  induction es with
  | nil => simp [entriesCopyable]
  | cons e es ih => simp [entriesCopyable, ih]

end DocQuery
