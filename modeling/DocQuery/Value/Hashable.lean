import DocQuery.Value.Basic

/-!
# DocQuery.Value.Hashable — values that can be keys and set members

A key must not change under its document, so lists, sets, documents, byte arrays and 128-bit
decimals are refused, and with them every tuple, node or stage that holds one.
-/

namespace DocQuery

mutual

/-- The first part, depth first and in field order, that keeps a value from being a key. -/
def Value.unhashable? : Value → Option Value
  | .scalar (.byteArray bs) => some (.scalar (.byteArray bs))
  | .scalar (.decimal128 t) => some (.scalar (.decimal128 t))
  | .scalar _ => none
  | .list xs => some (.list xs)
  | .set xs => some (.set xs)
  | .doc es => some (.doc es)
  | .tuple xs => unhashableItem? xs
  | .stream _ => none
  | .filter f => f.unhashable?
  | .update u => u.unhashable?
  | .stage s => s.unhashable?
  | .pipeline _ _ => none

def Filter.unhashable? : Filter → Option Value
  | .comparison f o v => f.unhashable? <|> o.unhashable? <|> v.unhashable?
  | .pattern f r g => f.unhashable? <|> r.unhashable? <|> g.unhashable?
  | .elemMatch f i => f.unhashable? <|> i.unhashable?
  | .conj c | .disj c => c.unhashable?
  | .neg i => i.unhashable?

def Update.unhashable? : Update → Option Value
  | .assign o f v => o.unhashable? <|> f.unhashable? <|> v.unhashable?
  | .assignAll ps => unhashablePair? ps
  | .rename s t => s.unhashable? <|> t.unhashable?
  | .combined c => c.unhashable?

def Stage.unhashable? : Stage → Option Value
  | ⟨o, s⟩ => o.unhashable? <|> s.unhashable?

def unhashableItem? : List Value → Option Value
  | [] => none
  | x :: xs => x.unhashable? <|> unhashableItem? xs

def unhashablePair? : List (Value × Value) → Option Value
  | [] => none
  | (k, v) :: ps => k.unhashable? <|> v.unhashable? <|> unhashablePair? ps

end

/-- Values that can be keys. -/
def Value.IsHashable (v : Value) : Prop := v.unhashable? = none

instance (v : Value) : Decidable v.IsHashable :=
  decidable_of_iff (v.unhashable?.isNone = true) Option.isNone_iff_eq_none

@[simp] theorem Value.isHashable_str (s : String) : (Value.str s).IsHashable := rfl

end DocQuery
