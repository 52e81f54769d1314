import DocQuery.Proofs.Fingerprint.KeyOrder
import DocQuery.Proofs.Rearrangement
import DocQuery.Proofs.Update.FieldPairs

/-!
# DocQuery.Proofs.Update.Reordering — the order of independent updates

Two updates conflict if they assign the same field under the same operator.  As long as updates that
conflict stay in their order, each field is assigned the same values in the same order, whatever
stands between them; so the last value is the same, and the compiled documents differ in the order
of their keys only (`sameFields_of_rearranged`), which no fingerprint sees.
-/

namespace DocQuery.Update

open Document (ProperKeys TextKeyed SameFields settled)
open Fingerprint (canonicalText)

/-! ### Single updates -/

/-- An update as the constructors make it: of one field, of several, or of a name.  Fields are texts
and values can be copied; the updates of one field are one case. -/
inductive Leaf : Update → Prop
  | assign (op : UpdateOp) (field : String) {value : Value} (hv : value.isCopyable) :
    Leaf (assignWith op (.str field) value)
  | assignAll {pairs : List (Value × Value)}
    (h : ∀ p ∈ pairs, (∃ s, p.1 = .str s) ∧ p.2.isCopyable) : Leaf (.assignAll pairs)
  | rename (source : String) (target : Value) : Leaf (.rename (.str source) target)

/-- Whether an update assigns a field under an operator. -/
def Assigns : Update → String → Value → Prop
  | .assign op field _, o, f => operatorName? op = some o ∧ field = f
  | .assignAll pairs, o, f => o = Key.set ∧ ∃ p ∈ pairs, p.1 = f
  | .rename source _, o, f => o = Key.rename ∧ source = f
  | .combined _, _, _ => False

/-- Both updates assign some field under the same operator. -/
def Conflict (u v : Update) : Prop := ∃ op field, u.Assigns op field ∧ v.Assigns op field

/-- Writes to fields that are texts, under operators of updates. -/
structure PlainWrites (ws : List Write) : Prop where
  fields : ∀ w ∈ ws, ∀ p ∈ w.pairs, ∃ s, p.1 = .str s
  operators : ∀ w ∈ ws, OperatorClass.update.contains w.operator

variable {u : Update} {us vs : List Update} {ws ws' : List Write}

theorem Leaf.isRegular (h : Leaf u) : u.IsRegular := by
  cases h with
  | assign op field hv => exact ⟨rfl, Value.isHashable_str field, hv⟩
  | assignAll h =>
    intro p hp
    obtain ⟨⟨s, hs⟩, hv⟩ := h p hp
    exact ⟨hs ▸ Value.isHashable_str s, hv⟩
  | rename source target => exact Value.isHashable_str source

theorem plainWrites_singleton {w : Write} (hop : OperatorClass.update.contains w.operator)
    (hw : ∀ p ∈ w.pairs, ∃ s, p.1 = .str s) : PlainWrites [w] where
  fields := List.forall_mem_singleton.mpr hw
  operators := List.forall_mem_singleton.mpr hop

theorem Leaf.plainWrites (h : Leaf u) : PlainWrites u.writes := by
  cases h with
  | assign op field hv =>
    exact plainWrites_singleton op.key_mem_update (List.forall_mem_singleton.mpr ⟨field, rfl⟩)
  | assignAll h =>
    have hop : OperatorClass.update.contains Key.set := by decide
    refine plainWrites_singleton hop fun q hq => ?_
    obtain ⟨p, hp, rfl⟩ := List.mem_map.mp hq
    exact (h p hp).1
  | rename source target =>
    have hop : OperatorClass.update.contains Key.rename := by decide
    exact plainWrites_singleton hop (List.forall_mem_singleton.mpr ⟨source, rfl⟩)

/-- What an update writes, it assigns. -/
theorem assigns_of_mem (h : Leaf u) {w : Write} (hw : w ∈ u.writes) {p : Value × Value}
    (hp : p ∈ w.pairs) : u.Assigns w.operator p.1 := by
  cases h with
  | assign op field hv =>
    obtain rfl := List.mem_singleton.mp hw
    obtain rfl := List.mem_singleton.mp hp
    exact ⟨rfl, rfl⟩
  | assignAll h =>
    obtain rfl := List.mem_singleton.mp hw
    obtain ⟨q, hq, rfl⟩ := List.mem_map.mp hp
    exact ⟨rfl, q, hq, rfl⟩
  | rename source target =>
    obtain rfl := List.mem_singleton.mp hw
    obtain rfl := List.mem_singleton.mp hp
    exact ⟨rfl, rfl⟩

theorem plainWrites_flatMap (h : ∀ u ∈ us, Leaf u) : PlainWrites (us.flatMap writes) where
  fields := by
    intro w hw
    obtain ⟨u, hu, hw⟩ := List.mem_flatMap.mp hw
    exact (h u hu).plainWrites.fields w hw
  operators := by
    intro w hw
    obtain ⟨u, hu, hw⟩ := List.mem_flatMap.mp hw
    exact (h u hu).plainWrites.operators w hw

/-! ### Assignments of one field -/

/-- The pairs that an update writes to a field under an operator. -/
def writtenTo (op : String) (field : Value) (u : Update) : List (Value × Value) :=
  (pairsUnder op u.writes).filter fun p => p.1 == field

theorem mem_pairsUnder {op : String} {p : Value × Value} :
    p ∈ pairsUnder op ws ↔ ∃ w ∈ ws, w.operator = op ∧ p ∈ w.pairs := by
  constructor
  · intro hp
    obtain ⟨a, ha, rfl⟩ := List.mem_map.mp hp
    obtain ⟨ha, hop⟩ := List.mem_filter.mp ha
    obtain ⟨w, hw, ha⟩ := List.mem_flatMap.mp ha
    obtain ⟨q, hq, rfl⟩ := List.mem_map.mp ha
    exact ⟨w, hw, beq_iff_eq.mp hop, hq⟩
  · rintro ⟨w, hw, rfl, hp⟩
    refine List.mem_map.mpr
      ⟨⟨w.operator, p.1, p.2⟩, List.mem_filter.mpr ⟨?_, beq_self_eq_true _⟩, rfl⟩
    exact List.mem_flatMap.mpr ⟨w, hw, List.mem_map_of_mem hp⟩

/-- An update that writes to a field assigns it. -/
theorem assigns_of_writtenTo (h : Leaf u) {op s : String}
    (hne : (writtenTo op (.str s) u).isEmpty = false) : u.Assigns op (.str s) := by
  obtain ⟨p, hp⟩ := List.exists_mem_of_ne_nil _ (List.isEmpty_eq_false_iff.mp hne)
  obtain ⟨hp, hps⟩ := List.mem_filter.mp hp
  obtain ⟨w, hw, rfl, hpw⟩ := mem_pairsUnder.mp hp
  obtain ⟨t, ht⟩ := h.plainWrites.fields w hw p hpw
  have hts : p.1 = .str s := by
    rw [ht, Value.str_beq_str] at hps
    rw [ht, beq_iff_eq.mp hps]
  exact hts ▸ assigns_of_mem h hw hpw

theorem filter_pairsUnder_flatMap (op : String) (field : Value) (us : List Update) :
    (pairsUnder op (us.flatMap writes)).filter (fun p => p.1 == field) =
      us.flatMap (writtenTo op field) := by
  induction us with
  | nil => rfl
  | cons u us ih =>
    rw [List.flatMap_cons, pairsUnder_append, List.filter_append, ih, List.flatMap_cons, writtenTo]

theorem flatMap_filter_isEmpty {α β : Type} (f : α → List β) (xs : List α) :
    (xs.filter fun x => !(f x).isEmpty).flatMap f = xs.flatMap f := by
  induction xs with
  | nil => rfl
  | cons x xs ih =>
    by_cases hx : (f x).isEmpty = true
    · have hnil : f x = [] := List.isEmpty_iff.mp hx
      rw [List.filter_cons_of_neg (by simp [hx]), List.flatMap_cons, ih, hnil, List.nil_append]
    · rw [List.filter_cons_of_pos (by simp [hx]), List.flatMap_cons, List.flatMap_cons, ih]

/-- Where conflicts keep their order, every field is written the same values in the same order. -/
theorem writtenTo_of_rearranged (hvs : ∀ v ∈ vs, Leaf v) (h : Rearranged Conflict us vs)
    (op s : String) :
    us.flatMap (writtenTo op (.str s)) = vs.flatMap (writtenTo op (.str s)) := by
  have hconflict : ∀ x ∈ vs, ∀ y ∈ vs, (!(writtenTo op (.str s) x).isEmpty) = true →
      (!(writtenTo op (.str s) y).isEmpty) = true → Conflict x y := by
    intro x hx y hy hxs hys
    exact ⟨op, .str s, assigns_of_writtenTo (hvs x hx) (Bool.not_eq_true' _ ▸ hxs),
      assigns_of_writtenTo (hvs y hy) (Bool.not_eq_true' _ ▸ hys)⟩
  rw [← flatMap_filter_isEmpty _ us, ← flatMap_filter_isEmpty _ vs, h.filter_eq hconflict]

/-! ### Documents of plain writes -/

theorem PlainWrites.properFields (h : PlainWrites ws) : ProperFields ws := by
  intro w hw
  exact Document.properKeys_of_texts (h.fields w hw)

theorem textKeyed_settled {ps : List (Value × Value)} (h : ∀ p ∈ ps, ∃ s, p.1 = .str s) :
    TextKeyed (settled ps) := by
  refine .of_fresh (fun e he => ?_) (Document.fresh_settled (Document.properKeys_of_texts h))
  obtain ⟨p, hp, rfl⟩ := List.mem_map.mp he
  exact h p (Document.mem_of_mem_firstPairs hp)

theorem PlainWrites.textKeyed_settled (h : PlainWrites ws) (op : String) :
    TextKeyed (settled (pairsUnder op ws)) := by
  refine Update.textKeyed_settled fun p hp => ?_
  obtain ⟨w, hw, -, hp⟩ := mem_pairsUnder.mp hp
  exact h.fields w hw p hp

theorem textKeyed_gathered (ws : List Write) : TextKeyed (gathered ws) := by
  refine .of_fresh (fun e he => ?_) (fresh_gathered ws)
  obtain ⟨op, -, rfl⟩ := List.mem_map.mp he
  exact ⟨op, rfl⟩

theorem PlainWrites.plainLayers (h : PlainWrites ws) : PlainLayers (gathered ws) := by
  intro e he
  obtain ⟨op, hop, rfl⟩ := List.mem_map.mp he
  refine ⟨?_, fun fs hfs => ?_⟩
  · obtain ⟨w, hw, rfl⟩ := mem_operators.mp hop
    have hclass := h.operators w hw
    rw [Value.str_beq_str, Bool.eq_false_iff]
    intro hsort
    rw [beq_iff_eq.mp hsort] at hclass
    revert hclass
    decide
  · obtain rfl := Value.doc.inj hfs
    exact h.textKeyed_settled op

/-- Documents of writes with the same operators and the same fields under each. -/
theorem sameFields_gathered (hops : (operators ws).Perm (operators ws'))
    (hfields : ∀ op, (settled (pairsUnder op ws)).Perm (settled (pairsUnder op ws'))) :
    SameFields (gathered ws) (gathered ws') := by
  refine ⟨(operators ws).map fun op => (.str op, .doc (settled (pairsUnder op ws'))), ?_,
    hops.map _⟩
  rw [gathered, List.forall₂_map_left_iff, List.forall₂_map_right_iff]
  exact List.forall₂_same.mpr fun op _ => ⟨rfl, _, _, rfl, rfl, hfields op⟩

/-! ### Rearranged updates -/

theorem nodeWrites_map_update (us : List Update) :
    nodesWrites (us.map .update) = us.flatMap writes := by
  rw [nodesWrites_eq_flatMap, List.flatMap_map]
  rfl

theorem compile_combine (h : ∀ u ∈ us, Leaf u) :
    compile (combine (us.map .update)) = .ok (.doc (gathered (us.flatMap writes))) := by
  have hregular : NodesRegular (us.map .update) := by
    refine nodesRegular_iff.mpr fun v hv => ?_
    obtain ⟨u, hu, rfl⟩ := List.mem_map.mp hv
    exact (h u hu).isRegular
  rw [compile, nodeDocument_eq_gathered _ (nodeRegular_combine hregular), nodeWrites_combine,
    nodeWrites_map_update]
  rfl

theorem sameFields_of_rearranged (hus : ∀ u ∈ us, Leaf u) (h : Rearranged Conflict us vs) :
    SameFields (gathered (us.flatMap writes)) (gathered (vs.flatMap writes)) := by
  have hperm : us.Perm vs := h.perm.symm
  have hvs : ∀ v ∈ vs, Leaf v := fun v hv => hus v (hperm.mem_iff.mpr hv)
  have hwrites : (us.flatMap writes).Perm (vs.flatMap writes) := hperm.flatMap_right writes
  refine sameFields_gathered ?_ fun op => ?_
  · refine (List.perm_ext_iff_of_nodup (nodup_operators _) (nodup_operators _)).mpr fun op => ?_
    simp only [mem_operators, hwrites.mem_iff]
  · have hplain := plainWrites_flatMap hus
    have hplain' := plainWrites_flatMap hvs
    refine Document.perm_of_lookup?_eq (hplain.textKeyed_settled op)
      (hplain'.textKeyed_settled op) ?_
    intro s
    rw [Document.lookup?_settled (properKeys_pairsUnder hplain.properFields op),
      Document.lookup?_settled (properKeys_pairsUnder hplain'.properFields op),
      filter_pairsUnder_flatMap, filter_pairsUnder_flatMap, writtenTo_of_rearranged hvs h]

/-! ### Several fields at once -/

theorem textKeyed_copied {es : Document} (h : TextKeyed es) : TextKeyed (copied es) where
  texts := by
    intro e he
    obtain ⟨p, hp, rfl⟩ := List.mem_map.mp he
    exact h.texts p hp
  nodup := by
    have hkeys : (copied es).map (·.1) = es.map (·.1) := List.map_map
    exact hkeys ▸ h.nodup

theorem settled_of_textKeyed {es : Document} (h : TextKeyed es) : settled es = es :=
  Document.settled_eq_self (Document.properKeys_of_texts h.texts) h.fresh

theorem regular_of_textKeyed {es : Document} (hes : TextKeyed es)
    (hcopy : ∀ p ∈ es, p.2.isCopyable) : ∀ p ∈ es, p.1.IsHashable ∧ p.2.isCopyable :=
  fun p hp => ⟨Document.properKeys_of_texts hes.texts p hp, hcopy p hp⟩

theorem compile_assignAll {es : Document} (hes : TextKeyed es)
    (hcopy : ∀ p ∈ es, p.2.isCopyable) :
    compile (.update (.assignAll es)) = .ok (.doc [(.str Key.set, .doc (copied es))]) := by
  rw [compile_pairs (regular_of_textKeyed hes hcopy), settled_of_textKeyed hes]

theorem compile_sets {es : Document} (hne : es ≠ []) (hes : TextKeyed es)
    (hcopy : ∀ p ∈ es, p.2.isCopyable) :
    compile (combine (es.map fun p => .update (set p.1 p.2))) =
      .ok (.doc [(.str Key.set, .doc (copied es))]) := by
  rw [compile_combined_sets hne (regular_of_textKeyed hes hcopy), settled_of_textKeyed hes]

theorem sameFields_copied {es fs : Document} (h : es.Perm fs) :
    SameFields [(.str Key.set, .doc (copied es))] [(.str Key.set, .doc (copied fs))] :=
  ⟨[(.str Key.set, .doc (copied fs))], .cons ⟨rfl, _, _, rfl, rfl, h.map _⟩ .nil, .refl _⟩

theorem canonicalText_copied {es fs : Document} (hes : TextKeyed es) (h : es.Perm fs)
    (filter pipeline : Value) :
    canonicalText filter (.doc [(.str Key.set, .doc (copied es))]) pipeline =
      canonicalText filter (.doc [(.str Key.set, .doc (copied fs))]) pipeline := by
  have hkeyed : ∀ d : Document, TextKeyed [(.str Key.set, .doc d)] := fun d =>
    ⟨List.forall_mem_singleton.mpr ⟨_, rfl⟩, List.nodup_singleton _⟩
  have hlayers : PlainLayers [(.str Key.set, .doc (copied es))] := by
    refine List.forall_mem_singleton.mpr ⟨rfl, fun fs hfs => ?_⟩
    obtain rfl := Value.doc.inj hfs
    exact textKeyed_copied hes
  exact Fingerprint.canonicalText_of_sameFields (hkeyed _) (hkeyed _) hlayers
    (sameFields_copied h) filter pipeline

/-- The order of updates that do not conflict does not count: rearranged, they compile to the same
fields under the same operators, with the same fingerprint beside any filter.  Fields that are set
at once, in whatever order, and fields that are set one by one, in whatever order, have one
fingerprint. -/
theorem independent_updates_commute :
    (∀ us vs : List Update, (∀ u ∈ us, Leaf u) → Rearranged Conflict us vs →
      ∃ d e, compile (combine (us.map .update)) = .ok (.doc d) ∧
        compile (combine (vs.map .update)) = .ok (.doc e) ∧ SameFields d e ∧
        ∀ filter pipeline, canonicalText filter (.doc d) pipeline =
          canonicalText filter (.doc e) pipeline) ∧
    ∀ es fs gs : Document, es ≠ [] → TextKeyed es → (∀ p ∈ es, p.2.isCopyable) →
      es.Perm fs → es.Perm gs →
      ∃ u w c d e, setAll (.doc es) = .ok u ∧ setAll (.doc fs) = .ok w ∧
        compile (.update u) = .ok c ∧ compile (.update w) = .ok d ∧
        compile (combine (gs.map fun p => .update (set p.1 p.2))) = .ok e ∧
        ∀ filter pipeline, canonicalText filter c pipeline = canonicalText filter d pipeline ∧
          canonicalText filter c pipeline = canonicalText filter e pipeline := by
  constructor
  · intro us vs hus h
    have hvs : ∀ v ∈ vs, Leaf v := fun v hv => hus v (h.perm.mem_iff.mp hv)
    have hsame := sameFields_of_rearranged hus h
    refine ⟨_, _, compile_combine hus, compile_combine hvs, hsame, ?_⟩
    exact Fingerprint.canonicalText_of_sameFields (textKeyed_gathered _) (textKeyed_gathered _)
      (plainWrites_flatMap hus).plainLayers hsame
  · intro es fs gs hne hes hcopy hfs hgs
    have hcopyf : ∀ p ∈ fs, p.2.isCopyable := fun p hp => hcopy p (hfs.mem_iff.mpr hp)
    have hcopyg : ∀ p ∈ gs, p.2.isCopyable := fun p hp => hcopy p (hgs.mem_iff.mpr hp)
    have hneg : gs ≠ [] := by
      rintro rfl
      exact hne (List.perm_nil.mp hgs)
    refine ⟨.assignAll es, .assignAll fs, _, _, _, rfl, rfl, compile_assignAll hes hcopy,
      compile_assignAll (hes.perm hfs) hcopyf, compile_sets hneg (hes.perm hgs) hcopyg, ?_⟩
    intro filter pipeline
    exact ⟨canonicalText_copied hes hfs filter pipeline,
      canonicalText_copied hes hgs filter pipeline⟩

/-- A counter moves to the front of two writes to one field, and two fields change places. -/
theorem independent_updates_commute_counter :
    compile (combine [.update (set (.str "a") (.int 1)), .update (inc (.str "b") (.int 2)),
        .update (set (.str "a") (.int 3))])
      = .ok (.doc [(.str "$set", .doc [(.str "a", .int 3)]),
          (.str "$inc", .doc [(.str "b", .int 2)])]) ∧
    canonicalText (.doc []) (.doc [(.str "$set", .doc [(.str "a", .int 3)]),
        (.str "$inc", .doc [(.str "b", .int 2)])]) .null
      = canonicalText (.doc []) (.doc [(.str "$inc", .doc [(.str "b", .int 2)]),
          (.str "$set", .doc [(.str "a", .int 3)])]) .null ∧
    canonicalText (.doc []) (.doc [(.str "$set", .doc [(.str "x", .int 1), (.str "y", .null)])])
        .null
      = canonicalText (.doc [])
          (.doc [(.str "$set", .doc [(.str "y", .null), (.str "x", .int 1)])]) .null := by
  have hleaf : ∀ u ∈ [set (.str "a") (.int 1), inc (.str "b") (.int 2), set (.str "a") (.int 3)],
      Leaf u := by
    simpa using ⟨Leaf.assign .set "a" rfl, Leaf.assign .inc "b" rfl, Leaf.assign .set "a" rfl⟩
  have hfree : ¬Conflict (inc (.str "b") (.int 2)) (set (.str "a") (.int 1)) := by
    rintro ⟨op, field, ⟨hinc, -⟩, ⟨hset, -⟩⟩
    have hne : UpdateOp.inc.key ≠ UpdateOp.set.key := by decide
    exact hne (Option.some.inj (hinc.trans hset.symm))
  have hmono : ∀ i j : Fin 3, i < j → ¬(i = 0 ∧ j = 1) →
      Equiv.swap (0 : Fin 3) 1 i < Equiv.swap 0 1 j := by decide
  have hrearranged : Rearranged Conflict
      [set (.str "a") (.int 1), inc (.str "b") (.int 2), set (.str "a") (.int 3)]
      [inc (.str "b") (.int 2), set (.str "a") (.int 1), set (.str "a") (.int 3)] := by
    refine ⟨Equiv.swap 0 1, fun i => ?_, fun i j hij hconflict => ?_⟩
    · match i with
      | 0 => rfl
      | 1 => rfl
      | 2 => rfl
    · by_cases hfirst : i = 0 ∧ j = 1
      · obtain ⟨rfl, rfl⟩ := hfirst
        exact absurd hconflict hfree
      · exact hmono i j hij hfirst
  obtain ⟨d, e, hd, he, -, htext⟩ := independent_updates_commute.1 _ _ hleaf hrearranged
  obtain rfl := Value.doc.inj (Except.ok.inj hd)
  obtain rfl := Value.doc.inj (Except.ok.inj he)
  have hkeyed : TextKeyed [(.str "x", .int 1), (.str "y", .null)] :=
    ⟨by simp, by simp⟩
  obtain ⟨u, w, c, c', c'', hu, hw, hc, hc', -, htexts⟩ := independent_updates_commute.2
    [(.str "x", .int 1), (.str "y", .null)] [(.str "y", .null), (.str "x", .int 1)]
    [(.str "x", .int 1), (.str "y", .null)] nofun hkeyed (by simp [Value.isCopyable])
    (.swap _ _ _) (.refl _)
  obtain rfl := Except.ok.inj hu
  obtain rfl := Except.ok.inj hw
  obtain rfl := Except.ok.inj hc
  obtain rfl := Except.ok.inj hc'
  exact ⟨hd, htext (.doc []) .null, (htexts (.doc []) .null).1⟩

end DocQuery.Update
