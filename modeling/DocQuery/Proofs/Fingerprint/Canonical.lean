import Mathlib.Tactic.SplitIfs
import DocQuery.Proofs.Fingerprint.JsonText
import DocQuery.Proofs.Fingerprint.KeyOrder

/-!
# DocQuery.Proofs.Fingerprint.Canonical — what a fingerprint tells apart

`Value.reduced` says in one pass what a fingerprint keeps of a value: moments as their ISO texts,
what JSON has no form for as its text, tuples as lists, sort documents as lists of pairs, and
everything else as it is.  For queries whose documents have texts for keys, two canonical texts are
equal exactly if the queries reduce to the same forms up to the order of members
(`Fingerprint.canonicalText_eq_iff_same`).
-/

namespace DocQuery

/-! ### Reduced values -/

/-- What a fingerprint keeps of a scalar; the text of an object identifier is its digits. -/
def Scalar.reduced : Scalar → Json
  | .null => .null
  | .bool b => .bool b
  | .int n => .int n
  | .float x => .float x
  | .str s => .str s
  | .moment m => .str m.isoText
  | s => .str s.text

mutual

/-- What a fingerprint keeps of a value. -/
def Value.reduced : Value → Json
  | .scalar s => s.reduced
  | .list xs | .tuple xs => .arr (reducedItems xs)
  | .doc es => .obj (reducedMembers es)
  | v => .str v.text

def reducedItems : List Value → List Json
  | [] => []
  | x :: xs => x.reduced :: reducedItems xs

/-- The members of a document; a document under `$sort` becomes a list of pairs. -/
def reducedMembers : List (Value × Value) → List (String × Json)
  | [] => []
  | (k, .doc fs) :: es =>
    (k.text, if k.text = Key.sort then .arr (reducedPairs fs) else .obj (reducedMembers fs))
      :: reducedMembers es
  | (k, v) :: es => (k.text, v.reduced) :: reducedMembers es

/-- The entries of a sort document in order; a document directly under such an entry is none. -/
def reducedPairs : List (Value × Value) → List Json
  | [] => []
  | (k, v) :: es => .arr [.str k.text, v.reduced] :: reducedPairs es

end

/-! ### Documents with texts for keys -/

mutual

/-- Every document, at any depth of lists, tuples and documents, has texts for keys, none twice. -/
def Value.HasTextKeys : Value → Prop
  | .list xs | .tuple xs => itemsHaveTextKeys xs
  | .doc es => (es.map (·.1)).Nodup ∧ entriesHaveTextKeys es
  | _ => True

def itemsHaveTextKeys : List Value → Prop
  | [] => True
  | x :: xs => x.HasTextKeys ∧ itemsHaveTextKeys xs

def entriesHaveTextKeys : List (Value × Value) → Prop
  | [] => True
  | (k, v) :: es => k = .str k.text ∧ v.HasTextKeys ∧ entriesHaveTextKeys es

end

theorem eq_str_of_mem_entries {es : List (Value × Value)} (h : entriesHaveTextKeys es) :
    ∀ e ∈ es, e.1 = .str e.1.text := by
  induction es with
  | nil => simp
  | cons e es ih =>
    obtain ⟨k, v⟩ := e
    intro e he
    rcases List.mem_cons.mp he with rfl | he
    · exact h.1
    · exact ih h.2.2 e he

theorem keys_reducedMembers (es : List (Value × Value)) :
    (reducedMembers es).map (·.1) = es.map (·.1.text) := by
  induction es with
  | nil => rfl
  | cons e es ih =>
    obtain ⟨k, v⟩ := e
    cases v <;> simp only [reducedMembers, List.map_cons, ih]

theorem ofPairs_normalEntries {es : List (Value × Value)} (hd : (es.map (·.1)).Nodup)
    (h : entriesHaveTextKeys es) : Document.ofPairs (normalEntries es) = normalEntries es := by
  have hkeyed : Document.TextKeyed es := ⟨fun e he => ⟨_, eq_str_of_mem_entries h e he⟩, hd⟩
  exact Document.ofPairs_eq_self (textKeyed_normalEntries hkeyed).fresh

/-! ### The normal form, as JSON -/

theorem ofScalar_normal (s : Scalar) : Json.ofValue (Value.scalar s).normal = s.reduced := by
  cases s <;> rfl

theorem ofEntries_eq_cons (k v : Value) (es : List (Value × Value)) :
    Json.ofEntries ((k, v) :: es) = (k.text, Json.ofValue v) :: Json.ofEntries es := rfl

/-- An entry whose value is no document. -/
theorem ofEntries_normalEntries_cons {k v : Value} {es : List (Value × Value)}
    (hdoc : ∀ fs, v ≠ .doc fs) (hv : Json.ofValue v.normal = v.reduced)
    (hes : Json.ofEntries (normalEntries es) = reducedMembers es) :
    Json.ofEntries (normalEntries ((k, v) :: es)) = reducedMembers ((k, v) :: es) := by
  rw [normalEntries.eq_3 k v es hdoc, reducedMembers.eq_3 k v es hdoc, ofEntries_eq_cons, hv, hes]
  rfl

mutual

theorem ofValue_normal (v : Value) (h : v.HasTextKeys) : Json.ofValue v.normal = v.reduced := by
  match v with
  | .scalar s => exact ofScalar_normal s
  | .list xs => exact congrArg Json.arr (ofItems_normalItems xs h)
  | .tuple xs => exact congrArg Json.arr (ofItems_normalItems xs h)
  | .doc es => exact congrArg Json.obj (ofEntries_normal es h.1 h.2)
  | .set _ | .stream _ | .filter _ | .update _ | .stage _ | .pipeline _ _ => rfl

theorem ofItems_normalItems (xs : List Value) (h : itemsHaveTextKeys xs) :
    Json.ofItems (normalItems xs) = reducedItems xs := by
  match xs with
  | [] => rfl
  | x :: xs =>
    rw [normalItems, Json.ofItems, ofValue_normal x h.1, ofItems_normalItems xs h.2, reducedItems]

theorem ofEntries_normal (es : List (Value × Value)) (hd : (es.map (·.1)).Nodup)
    (h : entriesHaveTextKeys es) :
    Json.ofEntries (Document.ofPairs (normalEntries es)) = reducedMembers es := by
  rw [ofPairs_normalEntries hd h]
  exact ofEntries_normalEntries es h

/-- Under a key, only documents are treated differently from `Value.normal`. -/
theorem ofEntries_normalEntries (es : List (Value × Value)) (h : entriesHaveTextKeys es) :
    Json.ofEntries (normalEntries es) = reducedMembers es := by
  match es with
  | [] => rfl
  | (k, .doc fs) :: es =>
    obtain ⟨hk, hfs, hes⟩ := h
    obtain ⟨s, rfl⟩ : ∃ s, k = .str s := ⟨_, hk⟩
    rw [normalEntries, ofEntries_eq_cons, ofEntries_normalEntries es hes, reducedMembers]
    by_cases hs : s = Key.sort
    · simp [hs, Json.ofValue, ofItems_sortPairs fs hfs.2]
    · simp [hs, Json.ofValue, ofEntries_normal fs hfs.1 hfs.2]
  | (_, .scalar a) :: es =>
    exact ofEntries_normalEntries_cons (by simp) (ofScalar_normal a)
      (ofEntries_normalEntries es h.2.2)
  | (_, .list xs) :: es =>
    exact ofEntries_normalEntries_cons (by simp) (ofValue_normal (.list xs) h.2.1)
      (ofEntries_normalEntries es h.2.2)
  | (_, .tuple xs) :: es =>
    exact ofEntries_normalEntries_cons (by simp) (ofValue_normal (.tuple xs) h.2.1)
      (ofEntries_normalEntries es h.2.2)
  | (_, .set _) :: es | (_, .stream _) :: es | (_, .filter _) :: es | (_, .update _) :: es
  | (_, .stage _) :: es | (_, .pipeline _ _) :: es =>
    exact ofEntries_normalEntries_cons (by simp) rfl (ofEntries_normalEntries es h.2.2)

/-- The entries of a sort document. -/
theorem ofItems_sortPairs (es : List (Value × Value)) (h : entriesHaveTextKeys es) :
    Json.ofItems (sortPairs es) = reducedPairs es := by
  match es with
  | [] => rfl
  | (k, v) :: es =>
    rw [sortPairs, Json.ofItems, ofItems_sortPairs es h.2.2, pairValue, Json.ofValue, Json.ofItems,
      Json.ofItems, Json.ofItems, ofValue_normal v h.2.1]
    rfl

end

/-! ### Distinct keys -/

mutual

theorem distinct_reduced (v : Value) (h : v.HasTextKeys) : v.reduced.Distinct := by
  match v with
  | .scalar s => cases s <;> trivial
  | .list xs => exact distinctItems_reducedItems xs h
  | .tuple xs => exact distinctItems_reducedItems xs h
  | .doc es => exact distinct_reducedMembers es h.1 h.2
  | .set _ | .stream _ | .filter _ | .update _ | .stage _ | .pipeline _ _ => trivial

theorem distinctItems_reducedItems (xs : List Value) (h : itemsHaveTextKeys xs) :
    Json.DistinctItems (reducedItems xs) := by
  match xs with
  | [] => trivial
  | x :: xs => exact ⟨distinct_reduced x h.1, distinctItems_reducedItems xs h.2⟩

theorem distinct_reducedMembers (es : List (Value × Value)) (hd : (es.map (·.1)).Nodup)
    (h : entriesHaveTextKeys es) : Json.Distinct (.obj (reducedMembers es)) := by
  refine ⟨?_, distinctMembers_reducedMembers es h⟩
  have htext : es.map (·.1) = (es.map (·.1.text)).map Value.str := by
    rw [List.map_map]
    exact List.map_congr_left (eq_str_of_mem_entries h)
  rw [keys_reducedMembers]
  exact List.Nodup.of_map Value.str (htext ▸ hd)

theorem distinctMembers_reducedMembers (es : List (Value × Value)) (h : entriesHaveTextKeys es) :
    Json.DistinctMembers (reducedMembers es) := by
  match es with
  | [] => trivial
  | (k, .doc fs) :: es =>
    refine ⟨?_, distinctMembers_reducedMembers es h.2.2⟩
    split_ifs
    · exact distinctItems_reducedPairs fs h.2.1.2
    · exact distinct_reducedMembers fs h.2.1.1 h.2.1.2
  | (_, .scalar a) :: es =>
    exact ⟨distinct_reduced (.scalar a) h.2.1, distinctMembers_reducedMembers es h.2.2⟩
  | (_, .list xs) :: es =>
    exact ⟨distinct_reduced (.list xs) h.2.1, distinctMembers_reducedMembers es h.2.2⟩
  | (_, .tuple xs) :: es =>
    exact ⟨distinct_reduced (.tuple xs) h.2.1, distinctMembers_reducedMembers es h.2.2⟩
  | (_, .set _) :: es | (_, .stream _) :: es | (_, .filter _) :: es | (_, .update _) :: es
  | (_, .stage _) :: es | (_, .pipeline _ _) :: es =>
    exact ⟨trivial, distinctMembers_reducedMembers es h.2.2⟩

theorem distinctItems_reducedPairs (es : List (Value × Value)) (h : entriesHaveTextKeys es) :
    Json.DistinctItems (reducedPairs es) := by
  match es with
  | [] => trivial
  | (_, v) :: es =>
    exact ⟨⟨trivial, distinct_reduced v h.2.1, trivial⟩, distinctItems_reducedPairs es h.2.2⟩

end

/-! ### Queries -/

namespace Fingerprint

/-- What is fingerprinted together. -/
structure Query where
  filter : Value
  update : Value
  pipeline : Value

/-- The form of an optional argument; one that is not given has none. -/
def given? (v : Value) : Option Json := if v.isGiven then some v.reduced else none

namespace Query

def text (q : Query) : String := canonicalText q.filter q.update q.pipeline

structure HasTextKeys (q : Query) : Prop where
  filter : q.filter.HasTextKeys
  update : q.update.HasTextKeys
  pipeline : q.pipeline.HasTextKeys

/-- The same arguments, as far as a fingerprint is to see. -/
structure Same (q r : Query) : Prop where
  filter : Json.Same q.filter.reduced r.filter.reduced
  update : Option.Rel Json.Same (given? q.update) (given? r.update)
  pipeline : Option.Rel Json.Same (given? q.pipeline) (given? r.pipeline)

end Query

/-- Forms under the names of the arguments, the second and third where there is one. -/
def named (filter : Json) (second : String) (j : Option Json) (third : String) (k : Option Json) :
    List (String × Json) :=
  ("filter", filter)
    :: ((j.map fun j => (second, j)).toList ++ (k.map fun k => (third, k)).toList)

/-- The arguments under their names. -/
def Query.members (q : Query) : List (String × Json) :=
  named q.filter.reduced "update" (given? q.update) "pipeline" (given? q.pipeline)

theorem ofValue_normalDocument {q : Query} (h : q.HasTextKeys) :
    Json.ofValue (.doc (normalDocument q.filter q.update q.pipeline)) = .obj q.members := by
  have hf := ofValue_normal q.filter h.filter
  have hu := ofValue_normal q.update h.update
  have hp := ofValue_normal q.pipeline h.pipeline
  simp only [normalDocument, Query.members, named, given?]
  split_ifs <;> simp [Json.ofValue, Json.ofEntries, hf, hu, hp]

theorem text_eq {q : Query} (h : q.HasTextKeys) : q.text = (Json.obj q.members).sorted.text := by
  rw [Query.text, canonicalText, ofValue_normalDocument h]

/-- Sorted, the pipeline stands before the update. -/
theorem sortedMembers_members (q : Query) :
    Json.sortedMembers q.members = named q.filter.reduced.sorted
      "pipeline" ((given? q.pipeline).map Json.sorted)
      "update" ((given? q.update).map Json.sorted) := by
  have hfu : "filter" ≤ "update" := by decide
  have hfp : "filter" ≤ "pipeline" := by decide
  have hup : ¬("update" ≤ "pipeline") := by decide
  unfold Query.members named
  cases given? q.update <;> cases given? q.pipeline <;>
    simp [Json.sortedMembers, Json.insertMember, hfu, hfp, hup]

theorem named_inj {f g : Json} {s t : String} (hst : s ≠ t) {j j' k k' : Option Json}
    (h : named f s j t k = named g s j' t k') : f = g ∧ j = j' ∧ k = k' := by
  unfold named at h
  cases j <;> cases j' <;> cases k <;> cases k' <;> simp_all

theorem map_sorted_eq_iff_rel {v w : Value} (hv : v.HasTextKeys) :
    (given? v).map Json.sorted = (given? w).map Json.sorted ↔
      Option.Rel Json.Same (given? v) (given? w) := by
  have hd := Json.sorted_eq_iff_same (k := w.reduced) (distinct_reduced v hv)
  unfold given?
  split_ifs
  · exact ⟨fun h => .some (hd.mp (Option.some.inj h)), fun h => by cases h with
      | some h => exact congrArg some (hd.mpr h)⟩
  · exact ⟨fun h => by simp at h, fun h => by cases h⟩
  · exact ⟨fun h => by simp at h, fun h => by cases h⟩
  · exact ⟨fun _ => .none, fun _ => rfl⟩

/-- Two canonical texts are equal exactly if the arguments are the same once they are reduced: the
order of keys does not count, save in sort documents, and nothing else is lost. -/
theorem canonicalText_eq_iff_same {q r : Query} (hq : q.HasTextKeys) (hr : r.HasTextKeys) :
    canonicalText q.filter q.update q.pipeline = canonicalText r.filter r.update r.pipeline ↔
      q.Same r := by
  have htext : q.text = r.text ↔ Json.sortedMembers q.members = Json.sortedMembers r.members := by
    rw [text_eq hq, text_eq hr, Json.text_inj, Json.sorted, Json.sorted, Json.obj.injEq]
  have hfilter := Json.sorted_eq_iff_same (k := r.filter.reduced) (distinct_reduced _ hq.filter)
  have hupdate := map_sorted_eq_iff_rel (w := r.update) hq.update
  have hpipeline := map_sorted_eq_iff_rel (w := r.pipeline) hq.pipeline
  rw [sortedMembers_members, sortedMembers_members] at htext
  refine htext.trans ⟨fun h => ?_, fun h => ?_⟩
  · obtain ⟨hf, hp, hu⟩ := named_inj (by decide) h
    exact ⟨hfilter.mp hf, hupdate.mp hu, hpipeline.mp hp⟩
  · rw [hfilter.mpr h.filter, hupdate.mpr h.update, hpipeline.mpr h.pipeline]

/-- The order of keys in a filter does not count, nor whether an update is missing or empty. -/
theorem canonicalText_reordered :
    (⟨.doc [(.str "a", .int 1), (.str "$sort", .doc [(.str "y", .int 1), (.str "x", .int (-1))])],
      .null, .null⟩ : Query).HasTextKeys ∧
    (⟨.doc [(.str "$sort", .doc [(.str "y", .int 1), (.str "x", .int (-1))]), (.str "a", .int 1)],
      .doc [], .null⟩ : Query).HasTextKeys ∧
    canonicalText
        (.doc [(.str "a", .int 1),
          (.str "$sort", .doc [(.str "y", .int 1), (.str "x", .int (-1))])])
        .null .null
      = canonicalText
        (.doc [(.str "$sort", .doc [(.str "y", .int 1), (.str "x", .int (-1))]),
          (.str "a", .int 1)])
        (.doc []) .null := by
  have hq : (⟨.doc [(.str "a", .int 1),
      (.str "$sort", .doc [(.str "y", .int 1), (.str "x", .int (-1))])],
      .null, .null⟩ : Query).HasTextKeys :=
    ⟨by simp [Value.HasTextKeys, entriesHaveTextKeys], trivial, trivial⟩
  have hr : (⟨.doc [(.str "$sort", .doc [(.str "y", .int 1), (.str "x", .int (-1))]),
      (.str "a", .int 1)], .doc [], .null⟩ : Query).HasTextKeys :=
    ⟨by simp [Value.HasTextKeys, entriesHaveTextKeys],
      by simp [Value.HasTextKeys, entriesHaveTextKeys], trivial⟩
  refine ⟨hq, hr, (canonicalText_eq_iff_same hq hr).mpr ⟨?_, .none, .none⟩⟩
  exact .obj (Json.sameMembers_of_map_eq _ rfl) (.swap _ _ _)

end Fingerprint

end DocQuery
