import DocQuery.Proofs.Update.Layered
import DocQuery.Proofs.Update.Reordering
import DocQuery.Proofs.Value.OperatorKeys

/-!
# DocQuery.Proofs.Update.Operators — the operators of a compiled update

A compiled update has the operators of its leaves, the fields that are operator keys themselves, and
the operators inside the values that survived, each the last that its field was assigned
(`operators_of_survivors`).  The set does not grow with the leaves: an operator and a field stay
once they were written, while the operators of a value go when the value is overwritten.
-/

namespace DocQuery

/-! ### Documents with text keys -/

/-- What is found in a document are the values of its entries. -/
theorem Document.TextKeyed.exists_value_iff {d : Document} (hd : d.TextKeyed) (P : Value → Prop) :
    (∃ e ∈ d, P e.2) ↔ ∃ k v, d.lookup? k = some v ∧ P v := by
  constructor
  · rintro ⟨⟨k, v⟩, he, hv⟩
    obtain ⟨s, rfl⟩ := hd.texts _ he
    exact ⟨_, v, hd.lookup?_eq_some_iff.mpr he, hv⟩
  · rintro ⟨k, v, hk, hv⟩
    obtain ⟨e, he, rfl⟩ := Document.mem_of_lookup? hk
    exact ⟨e, he, hv⟩

namespace Update

open Document (settled)

variable {ws : List Write} {us : List Update} {op s : String}

/-- The operator key of an update of fields. -/
def wireKey? : Update → Option String
  | .assign op _ _ => operatorName? op
  | .assignAll _ => some Key.set
  | .rename _ _ => some Key.rename
  | .combined _ => none

theorem Leaf.mem_writes_iff {u : Update} (h : Leaf u) :
    (∃ w ∈ u.writes, w.operator = s) ↔ u.wireKey? = some s := by
  cases h with
  | assign op field hv => simp [assignWith, writes, wireKey?, operatorName?]
  | assignAll h => simp [writes, wireKey?]
  | rename source target => simp [writes, wireKey?]

/-! ### Under one operator -/

/-- A text is a field of what pairs settle if a pair has it. -/
theorem exists_settled_key_iff {ps : List (Value × Value)} (h : ∀ p ∈ ps, ∃ t, p.1 = .str t) :
    (∃ e ∈ settled ps, e.1 = .str s) ↔ ∃ p ∈ ps, p.1 = .str s := by
  constructor
  · rintro ⟨e, he, hes⟩
    obtain ⟨p, hp, rfl⟩ := List.mem_map.mp he
    exact ⟨p, Document.mem_of_mem_firstPairs hp, hes⟩
  · rintro ⟨p, hp, hps⟩
    have hfound : p ∈ ps.filter fun q => q.1 == .str s :=
      List.mem_filter.mpr ⟨hp, by rw [hps, Value.str_beq_str, beq_self_eq_true]⟩
    have hlast := List.getLast?_eq_some_getLast (List.ne_nil_of_mem hfound)
    have hlookup := Document.lookup?_settled (Document.properKeys_of_texts h) (.str s)
    rw [hlast] at hlookup
    exact ⟨_, (textKeyed_settled h).lookup?_eq_some_iff.mp hlookup, rfl⟩

/-- The operators under an operator: its fields that are operator keys, and those of the values that
its fields have in the end. -/
theorem mem_operatorKeys_settled {ps : List (Value × Value)} (h : ∀ p ∈ ps, ∃ t, p.1 = .str t) :
    s ∈ operatorKeysOfEntries (settled ps)
      ↔ (isOperatorKey s = true ∧ ∃ p ∈ ps, p.1 = .str s)
        ∨ ∃ k v, (settled ps).lookup? k = some v ∧ s ∈ v.operatorKeys := by
  rw [mem_operatorKeysOfEntries, ← exists_settled_key_iff h,
    ← (textKeyed_settled h).exists_value_iff]
  simp only [mem_operatorKeyOf, and_or_left, exists_or, and_comm, and_left_comm, exists_and_left]

/-! ### Of all operators -/

theorem operator_mem_operators {a : Assignment} (h : a ∈ assignments ws) :
    a.operator ∈ operators ws := by
  obtain ⟨w, hw, ha⟩ := List.mem_flatMap.mp h
  obtain ⟨p, -, rfl⟩ := List.mem_map.mp ha
  exact mem_operators.mpr ⟨w, hw, rfl⟩

theorem exists_field_iff :
    (∃ op ∈ operators ws, ∃ p ∈ pairsUnder op ws, p.1 = .str s)
      ↔ ∃ a ∈ assignments ws, a.field = .str s := by
  constructor
  · rintro ⟨op, -, p, hp, hps⟩
    obtain ⟨a, ha, rfl⟩ := List.mem_map.mp hp
    exact ⟨a, (List.mem_filter.mp ha).1, hps⟩
  · rintro ⟨a, ha, hs⟩
    have hfilter : a ∈ (assignments ws).filter fun b => b.operator == a.operator :=
      List.mem_filter.mpr ⟨ha, beq_self_eq_true _⟩
    exact ⟨a.operator, operator_mem_operators ha, _, List.mem_map_of_mem hfilter, hs⟩

/-- What a field has in the end is what it was assigned last. -/
theorem lookup?_settled_pairsUnder (h : ProperFields ws) (op : String) (field : Value) :
    (settled (pairsUnder op ws)).lookup? field = lastAssigned? (assignments ws) op field := by
  rw [← fieldUnder?_gathered h, Document.fieldUnder?, lookup?_gathered]
  by_cases hop : op ∈ operators ws
  · rw [if_pos hop]
  · rw [if_neg hop, pairsUnder_of_notMem hop]
    rfl

theorem exists_survivor_iff (h : ProperFields ws) (P : Value → Prop) :
    (∃ op ∈ operators ws, ∃ k v, (settled (pairsUnder op ws)).lookup? k = some v ∧ P v)
      ↔ ∃ op field v, lastAssigned? (assignments ws) op field = some v ∧ P v := by
  simp only [lookup?_settled_pairsUnder h]
  constructor
  · rintro ⟨op, -, hsurvivor⟩
    exact ⟨op, hsurvivor⟩
  · rintro ⟨op, field, v, hlast, hv⟩
    refine ⟨op, Decidable.byContradiction fun hop => ?_, field, v, hlast, hv⟩
    rw [← lookup?_settled_pairsUnder h, pairsUnder_of_notMem hop] at hlast
    cases hlast

/-- The operators of the document of writes. -/
theorem mem_operators_gathered (h : PlainWrites ws) :
    s ∈ (Value.doc (gathered ws)).operators
      ↔ s ∈ operators ws ∨ (isOperatorKey s = true ∧ ∃ a ∈ assignments ws, a.field = .str s)
        ∨ ∃ op field v, lastAssigned? (assignments ws) op field = some v ∧ s ∈ v.operators := by
  have hkey : ∀ op ∈ operators ws, s ∈ operatorKeyOf (.str op) ↔ op = s := by
    intro op hop
    obtain ⟨w, hw, rfl⟩ := mem_operators.mp hop
    rw [operatorKeyOf_of_isOperatorKey (OperatorClass.isOperatorKey_of_contains (h.operators w hw)),
      List.mem_singleton, eq_comm]
  have hpairs : ∀ op, ∀ p ∈ pairsUnder op ws, ∃ t, p.1 = .str t := by
    intro op p hp
    obtain ⟨w, hw, -, hp⟩ := mem_pairsUnder.mp hp
    exact h.fields w hw p hp
  have hentry : ∀ op ∈ operators ws,
      (s ∈ operatorKeyOf (.str op) ∨ s ∈ operatorKeysOfEntries (settled (pairsUnder op ws)))
        ↔ op = s ∨ (isOperatorKey s = true ∧ ∃ p ∈ pairsUnder op ws, p.1 = .str s)
          ∨ ∃ k v, (settled (pairsUnder op ws)).lookup? k = some v ∧ s ∈ v.operatorKeys :=
    fun op hop => or_congr (hkey op hop) (mem_operatorKeys_settled (hpairs op))
  simp only [Value.mem_operators]
  rw [Value.operatorKeys, mem_operatorKeysOfEntries, ← exists_field_iff,
    ← exists_survivor_iff h.properFields]
  simp only [gathered, List.mem_map, exists_exists_and_eq_and]
  constructor
  · rintro ⟨op, hop, hs⟩
    rcases (hentry op hop).mp hs with rfl | ⟨hmark, hfield⟩ | hsurvivor
    · exact .inl hop
    · exact .inr (.inl ⟨hmark, op, hop, hfield⟩)
    · exact .inr (.inr ⟨op, hop, hsurvivor⟩)
  · rintro (hs | ⟨hmark, op, hop, hfield⟩ | ⟨op, hop, hsurvivor⟩)
    · exact ⟨s, hs, (hentry s hs).mpr (.inl rfl)⟩
    · exact ⟨op, hop, (hentry op hop).mpr (.inr (.inl ⟨hmark, hfield⟩))⟩
    · exact ⟨op, hop, (hentry op hop).mpr (.inr (.inr hsurvivor))⟩

/-! ### Constructed updates -/

theorem mem_operators_flatMap (h : ∀ u ∈ us, Leaf u) :
    s ∈ operators (us.flatMap writes) ↔ ∃ u ∈ us, u.wireKey? = some s := by
  rw [mem_operators]
  constructor
  · rintro ⟨w, hw, hs⟩
    obtain ⟨u, hu, hw⟩ := List.mem_flatMap.mp hw
    exact ⟨u, hu, (h u hu).mem_writes_iff.mp ⟨w, hw, hs⟩⟩
  · rintro ⟨u, hu, hs⟩
    obtain ⟨w, hw, hws⟩ := (h u hu).mem_writes_iff.mpr hs
    exact ⟨w, List.mem_flatMap.mpr ⟨u, hu, hw⟩, hws⟩

/-- Updates of fields, grouped in any way, compile to a document whose operators are those of the
updates, the fields that are operator keys, and those of the values that survive: under each
operator and for each field, the last one assigned.  If there are none in fields and surviving
values, all are operators of updates; and one of them negates exactly if a field or a surviving
value does. -/
theorem operators_of_survivors {v : Value} (hus : ∀ u ∈ us, Leaf u) (hv : Groups us v) :
    let assigned := assignments (us.flatMap writes)
    ∃ w, compile v = .ok w
      ∧ (∀ s, s ∈ w.operators ↔ (∃ u ∈ us, u.wireKey? = some s)
          ∨ (isOperatorKey s = true ∧ ∃ a ∈ assigned, a.field = .str s)
          ∨ ∃ op field x, lastAssigned? assigned op field = some x ∧ s ∈ x.operators)
      ∧ ((∀ a ∈ assigned, ¬a.field.NamesOperator) →
          (∀ op field x, lastAssigned? assigned op field = some x → x.operators = []) →
          ∀ s ∈ w.operators, OperatorClass.update.contains s = true)
      ∧ (w.negates = true
          ↔ (∃ s, OperatorClass.negation.contains s = true ∧ ∃ a ∈ assigned, a.field = .str s)
            ∨ ∃ op field x, lastAssigned? assigned op field = some x ∧ x.negates = true) := by
  intro assigned
  have hplain := plainWrites_flatMap hus
  obtain ⟨hregular, hwrites⟩ := hv.regular_and_writes fun u hu => (hus u hu).isRegular
  have hcompile : compile v = .ok (.doc (gathered (us.flatMap writes))) := by
    rw [compile, nodeDocument_eq_gathered v hregular, hwrites]
    rfl
  have hclass : ∀ s ∈ operators (us.flatMap writes), OperatorClass.update.contains s = true := by
    intro s hs
    obtain ⟨w, hw, rfl⟩ := mem_operators.mp hs
    exact hplain.operators w hw
  refine ⟨_, hcompile, fun s => ?_, fun hfields hvalues s hs => ?_, ?_⟩
  · rw [mem_operators_gathered hplain, mem_operators_flatMap hus]
  · rcases (mem_operators_gathered hplain).mp hs with hs | ⟨hmark, a, ha, has⟩ |
      ⟨op, field, x, hlast, hx⟩
    · exact hclass s hs
    · exact absurd ⟨s, has, hmark⟩ (hfields a ha)
    · rw [hvalues op field x hlast] at hx
      cases hx
  · simp only [Value.negates, List.any_eq_true, mem_operators_gathered hplain]
    constructor
    · rintro ⟨s, hs | ⟨-, hfield⟩ | ⟨op, field, x, hlast, hx⟩, hnegation⟩
      · rw [OperatorClass.not_negation_of_contains (.inl rfl) (hclass s hs)] at hnegation
        cases hnegation
      · exact .inl ⟨s, hnegation, hfield⟩
      · exact .inr ⟨op, field, x, hlast, s, hx, hnegation⟩
    · rintro (⟨s, hnegation, hfield⟩ | ⟨op, field, x, hlast, s, hx, hnegation⟩)
      · have hmark := OperatorClass.isOperatorKey_of_contains hnegation
        exact ⟨s, .inr (.inl ⟨hmark, hfield⟩), hnegation⟩
      · exact ⟨s, .inr (.inr ⟨op, field, x, hlast, hx⟩), hnegation⟩

/-- A negation that is overwritten, and an operator inside a value that is not. -/
theorem operators_of_survivors_overwritten :
    let excluded : Update := set (.str "a") (.single "$ne" (.int 1))
    let pushed : Update := push (.str "b") (.single "$each" (.list [.int 1]))
    let replaced : Update := set (.str "a") (.int 2)
    let us : List Update := [excluded, pushed, replaced]
    let v : Value := combine [.update excluded, .null, combine [.update pushed, .update replaced]]
    (∀ u ∈ us, Leaf u) ∧ Groups us v
      ∧ lastAssigned? (assignments (us.flatMap writes)) "$set" (.str "a") = some (.int 2)
      ∧ ∃ w, compile v = .ok w ∧ "$set" ∈ w.operators ∧ "$each" ∈ w.operators
        ∧ w.negates = false := by
  intro excluded pushed replaced us v
  have hus : ∀ u ∈ us, Leaf u := by
    simpa [us] using ⟨Leaf.assign .set "a" rfl, Leaf.assign .push "b" rfl, Leaf.assign .set "a" rfl⟩
  have hv : Groups us v :=
    .combine (.cons (.alone _) (.cons .absent (.cons
      (.combine (.cons (.alone _) (.cons (.alone _) .nil))) .nil)))
  obtain ⟨w, hw, hoperators, -, -⟩ := operators_of_survivors hus hv
  have hset : "$set" ∈ w.operators := (hoperators _).mpr (.inl ⟨excluded, List.mem_cons_self, rfl⟩)
  have hvalue : "$each" ∈ (Value.single "$each" (.list [.int 1])).operators := List.mem_cons_self
  have heach : "$each" ∈ w.operators :=
    (hoperators _).mpr (.inr (.inr ⟨"$push", .str "b", _, rfl, hvalue⟩))
  refine ⟨hus, hv, rfl, w, hw, hset, heach, ?_⟩
  obtain rfl := Except.ok.inj hw
  rfl

end Update

end DocQuery
