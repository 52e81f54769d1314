import DocQuery.Fault
import DocQuery.Value.Equality

/-!
# DocQuery.Document — documents as lists of entries

A key that is written again keeps its first position and its first spelling and takes the last
value; keys are compared by `Value.equal`, so `1`, `1.0` and `true` are one key.  `Document.add`
also refuses what cannot be a key.
-/

namespace DocQuery.Document

/-- Writes a key: in place if it is there, at the end otherwise. -/
def insert : Document → Value → Value → Document
  | [], k, v => [(k, v)]
  | (k', v') :: d, k, v => if k' == k then (k', v) :: d else (k', v') :: insert d k v

/-- Writes pairs in order. -/
def extend (d : Document) (pairs : List (Value × Value)) : Document :=
  pairs.foldl (fun d p => d.insert p.1 p.2) d

/-- The document that pairs make when written in order. -/
def ofPairs (pairs : List (Value × Value)) : Document := extend [] pairs

def lookup? : Document → Value → Option Value
  | [], _ => none
  | (k', v) :: d, k => if k' == k then some v else lookup? d k

def keys (d : Document) : List Value := d.map (·.1)

/-- Writes a key that may be no key at all. -/
def add (d : Document) (k v : Value) : Except Fault Document := do
  k.requireHashable
  return d.insert k v

/-- Writes pairs in order, up to the first that has no proper key. -/
def addAll (d : Document) : List (Value × Value) → Except Fault Document
  | [] => .ok d
  | (k, v) :: ps => do (← d.add k v).addAll ps

/-! ### Writing -/

@[simp] theorem extend_nil (d : Document) : d.extend [] = d := rfl

@[simp] theorem extend_cons (d : Document) (p : Value × Value) (ps : List (Value × Value)) :
    d.extend (p :: ps) = (d.insert p.1 p.2).extend ps := rfl

theorem extend_append (d : Document) (ps qs : List (Value × Value)) :
    d.extend (ps ++ qs) = (d.extend ps).extend qs := List.foldl_append

theorem lookup?_eq_none_iff {d : Document} {k : Value} :
    d.lookup? k = none ↔ ∀ e ∈ d, (e.1 == k) = false := by
  induction d with
  | nil => simp [lookup?]
  | cons e d ih =>
    unfold lookup?
    cases h : e.1 == k <;> simp [h, ih]

/-- A new key goes to the end. -/
theorem insert_of_lookup?_eq_none {d : Document} {k : Value} (h : d.lookup? k = none) (v : Value) :
    d.insert k v = d ++ [(k, v)] := by
  induction d with
  | nil => rfl
  | cons e d ih =>
    unfold lookup? at h
    unfold insert
    split at h
    · cases h
    · rename_i hk
      simp [hk, ih h]

/-! ### Proper keys -/

theorem add_of_isHashable {d : Document} {k : Value} (h : k.IsHashable) (v : Value) :
    d.add k v = .ok (d.insert k v) := by
  rw [add, Value.requireHashable_of_isHashable h]
  rfl

theorem add_eq_ok_iff {d e : Document} {k v : Value} :
    d.add k v = .ok e ↔ k.IsHashable ∧ e = d.insert k v := by
  constructor
  · intro h
    unfold add Value.requireHashable at h
    split at h
    · cases h
    · rename_i hk
      exact ⟨hk, (Except.ok.inj h).symm⟩
  · rintro ⟨hk, rfl⟩
    exact add_of_isHashable hk v

theorem addAll_of_isHashable {ps : List (Value × Value)} (d : Document)
    (h : ∀ p ∈ ps, p.1.IsHashable) : d.addAll ps = .ok (d.extend ps) := by
  induction ps generalizing d with
  | nil => rfl
  | cons p ps ih =>
    have hp := add_of_isHashable (d := d) (h p (by simp)) p.2
    have hps := ih (d.insert p.1 p.2) fun q hq => h q (by simp [hq])
    show d.add p.1 p.2 >>= _ = _
    rw [hp]
    exact hps

end DocQuery.Document
