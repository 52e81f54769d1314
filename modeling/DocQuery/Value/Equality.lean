import DocQuery.Value.Basic

/-!
# DocQuery.Value.Equality — when two values are equal

Numbers of different kinds are equal if they stand for the same number, byte strings if they hold
the same bytes, moments with an offset if they name the same instant.  Lists and tuples are
compared in order and never with each other; sets and documents without regard to order; filters,
updates and stages by kind and parts.  A NaN is equal to nothing, and pipelines and streams are
equal only to themselves.
-/

namespace DocQuery

/-! ### Scalars -/

/-- What two equal scalars have in common. -/
inductive Scalar.Identity
  | number (n : Int)
  | fraction (x : Binary64)
  | bytes (bs : List UInt8)
  | instant (microseconds : Int)
  | other (s : Scalar)
deriving DecidableEq

namespace Scalar

def identity? : Scalar → Option Identity
  | .bool b => some (.number (if b then 1 else 0))
  | .int n => some (.number n)
  | .float .nan => none
  | .float x => some ((x.integer?.map .number).getD (.fraction x))
  | .bytes bs | .byteArray bs => some (.bytes bs)
  | .moment m => some ((m.instant?.map .instant).getD (.other (.moment m)))
  | s => some (.other s)

def equal (s t : Scalar) : Bool :=
  match s.identity?, t.identity? with
  | some a, some b => a == b
  | _, _ => false

theorem equal_iff {s t : Scalar} :
    s.equal t = true ↔ ∃ a, s.identity? = some a ∧ t.identity? = some a := by
  unfold equal
  generalize s.identity? = p
  generalize t.identity? = q
  constructor
  · intro h
    split at h
    · exact ⟨_, rfl, congrArg some (beq_iff_eq.mp h).symm⟩
    · cases h
  · rintro ⟨a, rfl, rfl⟩
    exact beq_iff_eq.mpr rfl

theorem equal_comm (s t : Scalar) : s.equal t = t.equal s := by
  rw [Bool.eq_iff_iff, equal_iff, equal_iff]
  exact exists_congr fun _ => and_comm

theorem equal_trans {s t u : Scalar} (h : s.equal t = true) (h' : t.equal u = true) :
    s.equal u = true := by
  obtain ⟨a, hs, ht⟩ := equal_iff.mp h
  obtain ⟨b, ht', hu⟩ := equal_iff.mp h'
  obtain rfl : a = b := by simpa [ht] using ht'
  exact equal_iff.mpr ⟨a, hs, hu⟩

end Scalar

/-! ### Values -/

mutual

def Value.equal : Value → Value → Bool
  | .scalar s, .scalar t => s.equal t
  | .list xs, .list ys => equalItems xs ys
  | .tuple xs, .tuple ys => equalItems xs ys
  | .set xs, .set ys => xs.length == ys.length && itemsWithin xs ys
  | .doc es, .doc fs => es.length == fs.length && entriesWithin es fs
  | .filter f, .filter g => f.equal g
  | .update u, .update w => u.equal w
  | .stage s, .stage t => s.equal t
  | .pipeline (some n) _, .pipeline (some m) _ => n == m
  | _, _ => false
termination_by structural x => x

def Filter.equal : Filter → Filter → Bool
  | .comparison f o v, .comparison f' o' v' => f.equal f' && o.equal o' && v.equal v'
  | .pattern f r g, .pattern f' r' g' => f.equal f' && r.equal r' && g.equal g'
  | .elemMatch f i, .elemMatch f' i' => f.equal f' && i.equal i'
  | .conj c, .conj c' => c.equal c'
  | .disj c, .disj c' => c.equal c'
  | .neg i, .neg i' => i.equal i'
  | _, _ => false
termination_by structural x => x

def Update.equal : Update → Update → Bool
  | .assign o f v, .assign o' f' v' => o.equal o' && f.equal f' && v.equal v'
  | .assignAll ps, .assignAll ps' => equalPairs ps ps'
  | .rename s t, .rename s' t' => s.equal s' && t.equal t'
  | .combined c, .combined c' => c.equal c'
  | _, _ => false
termination_by structural x => x

def Stage.equal : Stage → Stage → Bool
  | ⟨o, s⟩, ⟨o', s'⟩ => o.equal o' && s.equal s'
termination_by structural x => x

/-- Equal items in the same order. -/
def equalItems : List Value → List Value → Bool
  | [], [] => true
  | x :: xs, y :: ys => x.equal y && equalItems xs ys
  | _, _ => false
termination_by structural x => x

/-- Equal pairs in the same order. -/
def equalPairs : List (Value × Value) → List (Value × Value) → Bool
  | [], [] => true
  | (k, v) :: ps, q :: qs => k.equal q.1 && v.equal q.2 && equalPairs ps qs
  | _, _ => false
termination_by structural x => x

/-- Every item has an equal one among `ys`. -/
def itemsWithin : List Value → List Value → Bool
  | [], _ => true
  | x :: xs, ys => ys.any (fun y => x.equal y) && itemsWithin xs ys
termination_by structural x => x

/-- Every entry has one with an equal key and an equal value among `fs`. -/
def entriesWithin : List (Value × Value) → List (Value × Value) → Bool
  | [], _ => true
  | (k, v) :: es, fs => fs.any (fun f => k.equal f.1 && v.equal f.2) && entriesWithin es fs
termination_by structural x => x

end

instance : BEq Value := ⟨Value.equal⟩

theorem Value.beq_def (v w : Value) : (v == w) = v.equal w := rfl

@[simp] theorem Value.str_beq_str (s t : String) : (Value.str s == Value.str t) = (s == t) := by
  simp only [Value.beq_def, Value.equal, Scalar.equal, Scalar.identity?]
  rw [Bool.eq_iff_iff]; simp

/-- Whether a value is equal to itself: all are but a bare NaN, since parts are compared as the
same objects. -/
def Value.equalsItself : Value → Bool
  | .scalar (.float .nan) => false
  | _ => true

end DocQuery
