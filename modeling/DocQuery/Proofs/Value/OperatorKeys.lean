import DocQuery.Inspection
import DocQuery.Proofs.Value.Parts
import DocQuery.Value.Reference

/-!
# DocQuery.Proofs.Value.OperatorKeys — what a walk for operator keys meets

A walk goes through documents and lists.  It does not tell a value from its copy, and it meets no
operator where no key names one.  The operators of a value are the operator keys within its reach
(`Value.mem_operators_iff`).
-/

namespace DocQuery

/-! ### Documents and lists of documents -/

theorem operatorKeyOf_of_isOperatorKey {s : String} (h : isOperatorKey s = true) :
    operatorKeyOf (.str s) = [s] := if_pos h

theorem operatorKeysOfEntries_singleton (k v : Value) :
    operatorKeysOfEntries [(k, v)] = operatorKeyOf k ++ v.operatorKeys := by
  rw [operatorKeysOfEntries, operatorKeysOfEntries, List.append_nil]

theorem operatorKeysOfItems_map_doc (ds : List Document) :
    operatorKeysOfItems (ds.map .doc) = ds.flatMap operatorKeysOfEntries := by
  induction ds with
  | nil => rfl
  | cons d ds ih =>
    rw [List.map_cons, operatorKeysOfItems, ih, List.flatMap_cons, Value.operatorKeys]

/-! ### Copies -/

theorem operatorKeyOf_detached (k : Value) : operatorKeyOf k.detached = operatorKeyOf k := by
  cases k <;> rfl

mutual

/-- A copy of a value has the same operator keys. -/
theorem Value.operatorKeys_detached (v : Value) : v.detached.operatorKeys = v.operatorKeys := by
  match v with
  | .doc es => exact operatorKeysOfEntries_detached es
  | .list xs => exact operatorKeysOfItems_detached xs
  | .scalar _ | .tuple _ | .set _ | .stream _ | .filter _ | .update _ | .stage _
  | .pipeline _ _ => rfl

theorem operatorKeysOfItems_detached (xs : List Value) :
    operatorKeysOfItems (mapPipelinesItems unnamed xs) = operatorKeysOfItems xs := by
  match xs with
  | [] => rfl
  | x :: xs =>
    have hx : (x.mapPipelines unnamed).operatorKeys = x.operatorKeys := x.operatorKeys_detached
    rw [mapPipelinesItems, operatorKeysOfItems, operatorKeysOfItems, hx,
      operatorKeysOfItems_detached xs]

theorem operatorKeysOfEntries_detached (es : List (Value × Value)) :
    operatorKeysOfEntries (mapPipelinesEntries unnamed es) = operatorKeysOfEntries es := by
  match es with
  | [] => rfl
  | (k, v) :: es =>
    have hk : operatorKeyOf (k.mapPipelines unnamed) = operatorKeyOf k := operatorKeyOf_detached k
    have hv : (v.mapPipelines unnamed).operatorKeys = v.operatorKeys := v.operatorKeys_detached
    rw [mapPipelinesEntries, operatorKeysOfEntries, operatorKeysOfEntries, hk, hv,
      operatorKeysOfEntries_detached es]

end

/-! ### Plain keys -/

/-- A text that begins with the mark of operators. -/
def Value.NamesOperator (k : Value) : Prop := ∃ s, k = .str s ∧ isOperatorKey s = true

mutual

/-- No key of a document inside the value names an operator. -/
def Value.HasPlainKeys : Value → Prop
  | .doc es => EntriesHavePlainKeys es
  | .list xs | .tuple xs => ItemsHavePlainKeys xs
  | _ => True

def ItemsHavePlainKeys : List Value → Prop
  | [] => True
  | x :: xs => x.HasPlainKeys ∧ ItemsHavePlainKeys xs

def EntriesHavePlainKeys : List (Value × Value) → Prop
  | [] => True
  | (k, v) :: es => ¬k.NamesOperator ∧ v.HasPlainKeys ∧ EntriesHavePlainKeys es

end

theorem operatorKeyOf_eq_nil {k : Value} (h : ¬k.NamesOperator) : operatorKeyOf k = [] := by
  unfold operatorKeyOf
  split
  · rename_i s
    exact if_neg fun hs => h ⟨s, rfl, hs⟩
  · rfl

mutual

/-- Where keys are plain, a walk meets no operator. -/
theorem Value.operatorKeys_eq_nil (v : Value) (h : v.HasPlainKeys) : v.operatorKeys = [] := by
  match v with
  | .doc es => exact operatorKeysOfEntries_eq_nil es h
  | .list xs => exact operatorKeysOfItems_eq_nil xs h
  | .scalar _ | .tuple _ | .set _ | .stream _ | .filter _ | .update _ | .stage _
  | .pipeline _ _ => rfl

theorem operatorKeysOfItems_eq_nil (xs : List Value) (h : ItemsHavePlainKeys xs) :
    operatorKeysOfItems xs = [] := by
  match xs with
  | [] => rfl
  | x :: xs =>
    rw [operatorKeysOfItems, x.operatorKeys_eq_nil h.1, operatorKeysOfItems_eq_nil xs h.2]
    rfl

theorem operatorKeysOfEntries_eq_nil (es : List (Value × Value)) (h : EntriesHavePlainKeys es) :
    operatorKeysOfEntries es = [] := by
  match es with
  | [] => rfl
  | (k, v) :: es =>
    obtain ⟨hk, hv, hes⟩ := h
    rw [operatorKeysOfEntries, operatorKeyOf_eq_nil hk, v.operatorKeys_eq_nil hv,
      operatorKeysOfEntries_eq_nil es hes]
    rfl

end

/-! ### Classes of operators -/

theorem OperatorClass.isOperatorKey_of_contains {c : OperatorClass} {s : String}
    (h : c.contains s = true) : isOperatorKey s = true := by
  have hall : ∀ t ∈ c.members, isOperatorKey t = true := by cases c <;> decide
  exact hall s (List.contains_iff_mem.mp h)

/-- No operator of an update and no stage negates. -/
theorem OperatorClass.not_negation_of_contains {c : OperatorClass} {s : String}
    (hc : c = .update ∨ c = .stage) (h : c.contains s = true) :
    OperatorClass.negation.contains s = false := by
  have hall : ∀ t ∈ c.members, OperatorClass.negation.contains t = false := by
    rcases hc with rfl | rfl <;> decide
  exact hall s (List.contains_iff_mem.mp h)

/-! ### Keys within reach -/

/-- Some document inside the value has the text as a key, and only documents and lists stand around
it. -/
inductive Value.Reaches : Value → String → Prop
  | key {d : Document} {s : String} {v : Value} (h : (.str s, v) ∈ d) : Reaches (.doc d) s
  | entry {d : Document} {s : String} {k v : Value} (h : (k, v) ∈ d) (hv : v.Reaches s) :
    Reaches (.doc d) s
  | item {xs : List Value} {s : String} {x : Value} (h : x ∈ xs) (hx : x.Reaches s) :
    Reaches (.list xs) s

variable {s : String}

theorem Value.reaches_doc {d : Document} :
    (Value.doc d).Reaches s ↔ ∃ e ∈ d, e.1 = .str s ∨ e.2.Reaches s := by
  constructor
  · intro h
    cases h with
    | key h => exact ⟨_, h, .inl rfl⟩
    | entry h hv => exact ⟨_, h, .inr hv⟩
  · rintro ⟨⟨k, v⟩, he, rfl | hv⟩
    · exact .key he
    · exact .entry he hv

theorem Value.reaches_list {xs : List Value} :
    (Value.list xs).Reaches s ↔ ∃ x ∈ xs, x.Reaches s := by
  constructor
  · intro h
    cases h with
    | item h hx => exact ⟨_, h, hx⟩
  · rintro ⟨x, hx, hreach⟩
    exact .item hx hreach

theorem mem_operatorKeyOf {k : Value} :
    s ∈ operatorKeyOf k ↔ k = .str s ∧ isOperatorKey s = true := by
  unfold operatorKeyOf
  split
  · rename_i t
    by_cases ht : isOperatorKey t = true
    · rw [if_pos ht, List.mem_singleton]
      constructor
      · rintro rfl
        exact ⟨rfl, ht⟩
      · rintro ⟨h, -⟩
        exact (Scalar.str.inj (Value.scalar.inj h)).symm
    · rw [if_neg ht]
      refine ⟨fun h => absurd h List.not_mem_nil, ?_⟩
      rintro ⟨h, hs⟩
      obtain rfl := Scalar.str.inj (Value.scalar.inj h)
      exact absurd hs ht
  · rename_i hstr
    refine ⟨fun h => absurd h List.not_mem_nil, ?_⟩
    rintro ⟨h, -⟩
    exact absurd h (hstr s)

theorem mem_operatorKeysOfItems {xs : List Value} :
    s ∈ operatorKeysOfItems xs ↔ ∃ x ∈ xs, s ∈ x.operatorKeys := by
  induction xs with
  | nil => simp [operatorKeysOfItems]
  | cons x xs ih => simp [operatorKeysOfItems, ih]

theorem mem_operatorKeysOfEntries {d : Document} :
    s ∈ operatorKeysOfEntries d ↔ ∃ e ∈ d, s ∈ operatorKeyOf e.1 ∨ s ∈ e.2.operatorKeys := by
  induction d with
  | nil => simp [operatorKeysOfEntries]
  | cons e d ih => simp [operatorKeysOfEntries, ih, or_assoc]

theorem Value.Reaches.mem_operatorKeys {v : Value} (h : v.Reaches s)
    (hs : isOperatorKey s = true) : s ∈ v.operatorKeys := by
  induction h with
  | key h =>
    exact mem_operatorKeysOfEntries.mpr ⟨_, h, .inl (mem_operatorKeyOf.mpr ⟨rfl, hs⟩)⟩
  | entry h _ ih => exact mem_operatorKeysOfEntries.mpr ⟨_, h, .inr (ih hs)⟩
  | item h _ ih => exact mem_operatorKeysOfItems.mpr ⟨_, h, ih hs⟩

theorem Value.reaches_of_mem_operatorKeys {v : Value} (h : s ∈ v.operatorKeys) :
    isOperatorKey s = true ∧ v.Reaches s := by
  induction v using part_induction with
  | step v ih =>
    cases v with
    | doc d =>
      obtain ⟨e, he, hkey | hvalue⟩ := mem_operatorKeysOfEntries.mp h
      · obtain ⟨hs, hmark⟩ := mem_operatorKeyOf.mp hkey
        exact ⟨hmark, reaches_doc.mpr ⟨e, he, .inl hs⟩⟩
      · obtain ⟨hmark, hreach⟩ := ih e.2 (.value he) hvalue
        exact ⟨hmark, reaches_doc.mpr ⟨e, he, .inr hreach⟩⟩
    | list xs =>
      obtain ⟨x, hx, hitem⟩ := mem_operatorKeysOfItems.mp h
      obtain ⟨hmark, hreach⟩ := ih x (.listItem hx) hitem
      exact ⟨hmark, reaches_list.mpr ⟨x, hx, hreach⟩⟩
    | _ => cases h

/-- The operators of a value are the operator keys within reach. -/
theorem Value.mem_operators_iff {v : Value} :
    s ∈ v.operators ↔ isOperatorKey s = true ∧ v.Reaches s :=
  mem_operators.trans ⟨reaches_of_mem_operatorKeys, fun h => h.2.mem_operatorKeys h.1⟩

/-- A value negates if a negation is within reach. -/
theorem Value.negates_iff {v : Value} :
    v.negates = true ↔ ∃ s, OperatorClass.negation.contains s = true ∧ v.Reaches s := by
  rw [negates, List.any_eq_true]
  constructor
  · rintro ⟨s, hs, hnegation⟩
    exact ⟨s, hnegation, (mem_operators_iff.mp hs).2⟩
  · rintro ⟨s, hnegation, hreach⟩
    have hmark := OperatorClass.isOperatorKey_of_contains hnegation
    exact ⟨s, mem_operators_iff.mpr ⟨hmark, hreach⟩, hnegation⟩

end DocQuery
