import DocQuery.Fingerprint.Basic
import DocQuery.Proofs.Document.Reordered
import DocQuery.Proofs.Fingerprint.MemberOrder

/-!
# DocQuery.Proofs.Fingerprint.KeyOrder — fingerprints do not see the order of keys

The normal form of an entry depends on the entry alone, so a permutation of a document permutes the
members of its form, and sorting them forgets it.  Values may be any, with keys of any kind: what is
permuted are the keys of the document and of the documents right below it.
-/

namespace DocQuery

/-! ### Entry by entry -/

/-- The normal form of a value under a key. -/
def Value.normalUnder (v k : Value) : Value :=
  match v with
  | .doc fs => if k == .str Key.sort then .list (sortPairs fs) else (Value.doc fs).normal
  | v => v.normal

/-- The member that an entry becomes. -/
def memberOf (e : Value × Value) : String × Json :=
  (e.1.text, Json.ofValue (e.2.normalUnder e.1))

theorem normalEntries_eq_map (es : List (Value × Value)) :
    normalEntries es = es.map fun e => (.str e.1.text, e.2.normalUnder e.1) := by
  induction es with
  | nil => rfl
  | cons e es ih =>
    obtain ⟨k, v⟩ := e
    cases v with
    | doc fs =>
      rw [normalEntries, ih]
      rfl
    | _ =>
      rw [normalEntries.eq_3 k _ es (by simp), ih]
      rfl

theorem ofEntries_eq_map (es : List (Value × Value)) :
    Json.ofEntries es = es.map fun e => (e.1.text, Json.ofValue e.2) := by
  induction es with
  | nil => rfl
  | cons e es ih =>
    obtain ⟨k, v⟩ := e
    rw [Json.ofEntries, ih, List.map_cons]

open Document (TextKeyed SameFields)

variable {d e : Document}

theorem keys_normalEntries (hd : TextKeyed d) :
    (normalEntries d).map (·.1) = d.map (·.1) := by
  rw [normalEntries_eq_map, List.map_map]
  refine List.map_congr_left fun p hp => ?_
  obtain ⟨s, hs⟩ := hd.texts p hp
  simp [hs]

theorem textKeyed_normalEntries (hd : TextKeyed d) : TextKeyed (normalEntries d) where
  texts := by
    intro p hp
    rw [normalEntries_eq_map] at hp
    obtain ⟨q, -, rfl⟩ := List.mem_map.mp hp
    exact ⟨q.1.text, rfl⟩
  nodup := keys_normalEntries hd ▸ hd.nodup

/-- The form of a document with texts for keys has a member for each entry. -/
theorem ofValue_normal_of_textKeyed (hd : TextKeyed d) :
    Json.ofValue (Value.doc d).normal = .obj (d.map memberOf) := by
  rw [Value.normal, Document.ofPairs_eq_self (textKeyed_normalEntries hd).fresh, Json.ofValue,
    ofEntries_eq_map, normalEntries_eq_map, List.map_map]
  rfl

theorem nodup_keys_memberOf (hd : TextKeyed d) : ((d.map memberOf).map (·.1)).Nodup := by
  have htexts : d.map (·.1) = ((d.map memberOf).map (·.1)).map Value.str := by
    rw [List.map_map, List.map_map]
    refine List.map_congr_left fun p hp => ?_
    obtain ⟨s, hs⟩ := hd.texts p hp
    simp [memberOf, hs]
  exact List.Nodup.of_map Value.str (htexts ▸ hd.nodup)

/-! ### Permuted documents -/

/-- Entries that sort to the same members, in any order, are the same form. -/
theorem sorted_normal_eq (hd : TextKeyed d) (he : TextKeyed e)
    (h : ((d.map memberOf).map Json.sortedInside).Perm ((e.map memberOf).map Json.sortedInside)) :
    (Json.ofValue (Value.doc d).normal).sorted = (Json.ofValue (Value.doc e).normal).sorted := by
  rw [ofValue_normal_of_textKeyed hd, ofValue_normal_of_textKeyed he]
  exact congrArg Json.obj (Json.sortedMembers_eq_of_perm (nodup_keys_memberOf hd) h)

theorem sorted_normal_of_perm (hd : TextKeyed d) (h : d.Perm e) :
    (Json.ofValue (Value.doc d).normal).sorted = (Json.ofValue (Value.doc e).normal).sorted :=
  sorted_normal_eq hd (hd.perm h) ((h.map memberOf).map Json.sortedInside)

theorem normalUnder_of_ne {k : Value} (hk : (k == .str Key.sort) = false) (v : Value) :
    v.normalUnder k = v.normal := by
  cases v with
  | doc fs => exact if_neg (Bool.eq_false_iff.mp hk)
  | _ => rfl

/-- Every key names a document that has texts for keys, and none of them is a sort key. -/
def PlainLayers (d : Document) : Prop :=
  ∀ p ∈ d, (p.1 == .str Key.sort) = false ∧ ∀ fs, p.2 = .doc fs → TextKeyed fs

/-- Where documents are permuted below the keys, the sorted members stay. -/
theorem map_sortedInside_memberOf (hd : PlainLayers d)
    (h : List.Forall₂ (fun p q => p.1 = q.1 ∧
      ∃ fs gs : Document, p.2 = .doc fs ∧ q.2 = .doc gs ∧ fs.Perm gs) d e) :
    (d.map memberOf).map Json.sortedInside = (e.map memberOf).map Json.sortedInside := by
  induction h with
  | nil => rfl
  | @cons p q _ _ hpq _ ih =>
    obtain ⟨k, v⟩ := p
    obtain ⟨l, w⟩ := q
    obtain ⟨⟨hk, hlayer⟩, hrest⟩ := List.forall_mem_cons.mp hd
    obtain ⟨rfl, fs, gs, rfl, rfl, hperm⟩ := hpq
    have hvalue : (Json.ofValue ((Value.doc fs).normalUnder k)).sorted =
        (Json.ofValue ((Value.doc gs).normalUnder k)).sorted := by
      rw [normalUnder_of_ne hk, normalUnder_of_ne hk]
      exact sorted_normal_of_perm (hlayer fs rfl) hperm
    rw [List.map_cons, List.map_cons, List.map_cons, List.map_cons, ih hrest]
    exact congrArg (· :: _) (Prod.ext rfl hvalue)

/-- Nor does the order of keys count one level below. -/
theorem sorted_normal_of_sameFields (hd : TextKeyed d) (he : TextKeyed e) (hlayers : PlainLayers d)
    (h : SameFields d e) :
    (Json.ofValue (Value.doc d).normal).sorted = (Json.ofValue (Value.doc e).normal).sorted := by
  obtain ⟨c, hall, hperm⟩ := h
  refine sorted_normal_eq hd he ?_
  rw [map_sortedInside_memberOf hlayers hall]
  exact (hperm.map memberOf).map Json.sortedInside

/-! ### Fingerprints -/

namespace Fingerprint

/-- Values with one normal form, both given or both not, stand for each other in a fingerprint. -/
theorem normalDocument_congr {v w : Value} (hnormal : v.normal = w.normal)
    (hgiven : v.isGiven = w.isGiven) (x y : Value) :
    normalDocument v x y = normalDocument w x y ∧ normalDocument x v y = normalDocument x w y ∧
      normalDocument x y v = normalDocument x y w := by
  simp only [normalDocument, hnormal, hgiven, and_self]

theorem canonicalText_congr {u w : Value} (hgiven : u.isGiven = w.isGiven)
    (h : (Json.ofValue u.normal).sorted = (Json.ofValue w.normal).sorted)
    (filter pipeline : Value) :
    canonicalText filter u pipeline = canonicalText filter w pipeline := by
  unfold canonicalText normalDocument
  rw [hgiven]
  by_cases hw : w.isGiven = true
  · by_cases hp : pipeline.isGiven = true
    · simp [hw, hp, h, Json.ofValue, Json.ofEntries, Json.sorted, Json.sortedMembers]
    · simp [hw, hp, h, Json.ofValue, Json.ofEntries, Json.sorted, Json.sortedMembers]
  · simp [hw]

theorem isGiven_doc_congr (h : SameFields d e) :
    (Value.doc d).isGiven = (Value.doc e).isGiven := by
  obtain ⟨c, hall, hperm⟩ := h
  have hlength : d.length = e.length := hall.length_eq.trans hperm.length_eq
  cases d with
  | nil =>
    cases e with
    | nil => rfl
    | cons _ _ => cases hlength
  | cons _ _ =>
    cases e with
    | nil => cases hlength
    | cons _ _ => rfl

/-- Update documents with the same fields have the same fingerprint, with any filter and any
pipeline. -/
theorem canonicalText_of_sameFields (hd : TextKeyed d) (he : TextKeyed e)
    (hlayers : PlainLayers d) (h : SameFields d e) (filter pipeline : Value) :
    canonicalText filter (.doc d) pipeline = canonicalText filter (.doc e) pipeline :=
  canonicalText_congr (isGiven_doc_congr h) (sorted_normal_of_sameFields hd he hlayers h) filter
    pipeline

end Fingerprint

end DocQuery
