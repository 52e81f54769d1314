import DocQuery.Proofs.Fingerprint.KeyOrder
import DocQuery.Proofs.Value.KeyText
import DocQuery.Proofs.Value.Parts

/-!
# DocQuery.Proofs.Fingerprint.NormalForm — what a normal form holds

Through documents and lists a normal form meets no moment, no object identifier and no tuple; keys
are texts, no two of them equal, and no document stands under the key of a sort
(`inNormalForm_normal`).  Different keys may become one text, but none becomes the sort key that was
not this text before.  So the normal form of a normal form is itself, and the fingerprint of a query
is that of its normal form.
-/

namespace DocQuery

open Document (TextKeyed ProperKeys)

namespace Value

/-! ### Proper values -/

/-- Identifiers are spelled as they are, and the keys of a document can be keys. -/
def IsProper : Value → Prop
  | .scalar s => s.IsSpelled
  | .doc d => ProperKeys d
  | _ => True

/-! ### Normal forms -/

/-- One value is another, or is met in it on a way through documents and lists. -/
inductive Holds : Value → Value → Prop
  | self (v : Value) : Holds v v
  | entry {d : Document} {e : Value × Value} {w : Value} (he : e ∈ d) (hw : Holds e.2 w) :
    Holds (.doc d) w
  | item {xs : List Value} {x w : Value} (hx : x ∈ xs) (hw : Holds x w) : Holds (.list xs) w

/-- No moment, object identifier or tuple; and a document that has texts for keys, none twice, and
no document under the key of a sort. -/
def IsNormal : Value → Prop
  | .scalar (.moment _) | .scalar (.objectId _) | .tuple _ => False
  | .doc d => TextKeyed d ∧ ∀ fs, (.str Key.sort, .doc fs) ∉ d
  | _ => True

/-- Everything that is met in a value is normal. -/
def InNormalForm (v : Value) : Prop := ∀ w, v.Holds w → w.IsNormal

variable {v w k : Value} {xs : List Value} {d : Document}

theorem InNormalForm.self (h : v.InNormalForm) : v.IsNormal := h v (.self v)

theorem inNormalForm_list : (Value.list xs).InNormalForm ↔ ∀ x ∈ xs, x.InNormalForm := by
  constructor
  · exact fun h x hx w hw => h w (.item hx hw)
  · intro h w hw
    cases hw with
    | self => trivial
    | item hx hw => exact h _ hx w hw

theorem inNormalForm_doc :
    (Value.doc d).InNormalForm ↔ (Value.doc d).IsNormal ∧ ∀ e ∈ d, e.2.InNormalForm := by
  constructor
  · exact fun h => ⟨h.self, fun e he w hw => h w (.entry he hw)⟩
  · rintro ⟨hd, h⟩ w hw
    cases hw with
    | self => exact hd
    | entry he hw => exact h _ he w hw

/-- What is neither a list nor a document holds itself only. -/
theorem inNormalForm_of_isNormal (hlist : ∀ xs, v ≠ .list xs) (hdoc : ∀ d, v ≠ .doc d)
    (h : v.IsNormal) : v.InNormalForm := by
  intro w hw
  cases hw with
  | self => exact h
  | entry => exact absurd rfl (hdoc _)
  | item => exact absurd rfl (hlist _)

theorem inNormalForm_str (s : String) : (Value.str s).InNormalForm :=
  inNormalForm_of_isNormal nofun nofun trivial

end Value

/-! ### Item by item -/

theorem normalItems_eq_map (xs : List Value) : normalItems xs = xs.map Value.normal := by
  induction xs with
  | nil => rfl
  | cons x xs ih => rw [normalItems, ih, List.map_cons]

theorem sortPairs_eq_map (es : List (Value × Value)) :
    sortPairs es = es.map fun e => pairValue e.1.text e.2.normal := by
  induction es with
  | nil => rfl
  | cons e es ih =>
    obtain ⟨k, v⟩ := e
    rw [sortPairs, ih, List.map_cons]

theorem texts_normalEntries (d : Document) : ∀ e ∈ normalEntries d, ∃ s, e.1 = .str s := by
  intro e he
  rw [normalEntries_eq_map] at he
  obtain ⟨p, -, rfl⟩ := List.mem_map.mp he
  exact ⟨p.1.text, rfl⟩

/-- An entry of a normal form comes from one entry of the document. -/
theorem exists_of_mem_normal {d : Document} {e : Value × Value}
    (he : e ∈ Document.ofPairs (normalEntries d)) :
    ∃ p ∈ d, e = (.str p.1.text, p.2.normalUnder p.1) := by
  have hmem := Document.mem_of_mem_ofPairs (texts_normalEntries d) he
  rw [normalEntries_eq_map] at hmem
  obtain ⟨p, hp, rfl⟩ := List.mem_map.mp hmem
  exact ⟨p, hp, rfl⟩

theorem textKeyed_ofPairs_normalEntries (d : Document) :
    TextKeyed (Document.ofPairs (normalEntries d)) :=
  .of_fresh (fun e he => texts_normalEntries d e
    (Document.mem_of_mem_ofPairs (texts_normalEntries d) he)) (Document.fresh_ofPairs _)

namespace Value

variable {v w k : Value} {xs : List Value} {d : Document}

/-- Only documents become documents. -/
theorem exists_doc_of_normal {fs : Document} (h : v.normal = .doc fs) : ∃ d, v = .doc d := by
  cases v with
  | doc d => exact ⟨d, rfl⟩
  | scalar s => cases s <;> cases h
  | _ => cases h

/-- Under the key of a sort a document becomes a list. -/
theorem normalUnder_sort_ne_doc (v : Value) (fs : Document) :
    v.normalUnder (.str Key.sort) ≠ .doc fs := by
  intro h
  cases v with
  | doc d =>
    have hsort : (Value.str Key.sort == .str Key.sort) = true := by simp
    rw [normalUnder, if_pos hsort] at h
    cases h
  | _ =>
    obtain ⟨d, hd⟩ := exists_doc_of_normal h
    cases hd

/-- The document that a document becomes is normal. -/
theorem isNormal_normal_doc (hkeys : ProperKeys d)
    (hspelled : ∀ e ∈ d, ∀ s, e.1 = .scalar s → s.IsSpelled) : (Value.doc d).normal.IsNormal := by
  refine ⟨textKeyed_ofPairs_normalEntries d, fun fs hfs => ?_⟩
  obtain ⟨p, hp, hentry⟩ := exists_of_mem_normal hfs
  obtain ⟨hkey, hvalue⟩ := Prod.mk.inj hentry
  have htext : p.1.text = Key.sort := by simpa using hkey.symm
  have hmark : isOperatorKey p.1.text = true := by
    rw [htext]
    decide
  -- No other key is named like the sort key, so the value was taken apart.
  have hsort : p.1 = .str Key.sort :=
    htext ▸ eq_str_of_isOperatorKey (hspelled p hp) (hkeys p hp) hmark
  rw [hsort] at hvalue
  exact normalUnder_sort_ne_doc p.2 fs hvalue.symm

theorem inNormalForm_normal_scalar (s : Scalar) : (Value.scalar s).normal.InNormalForm := by
  cases s with
  | moment m => exact inNormalForm_str _
  | objectId hex => exact inNormalForm_str _
  | _ => exact inNormalForm_of_isNormal nofun nofun trivial

theorem inNormalForm_normalItems (h : ∀ x ∈ xs, x.normal.InNormalForm) :
    (Value.list (normalItems xs)).InNormalForm := by
  rw [inNormalForm_list, normalItems_eq_map]
  exact List.forall_mem_map.mpr h

theorem inNormalForm_sortPairs (h : ∀ e ∈ d, e.2.normal.InNormalForm) :
    (Value.list (sortPairs d)).InNormalForm := by
  rw [inNormalForm_list, sortPairs_eq_map]
  refine List.forall_mem_map.mpr fun e he => ?_
  refine inNormalForm_list.mpr (List.forall_mem_cons.mpr ⟨inNormalForm_str _, ?_⟩)
  exact List.forall_mem_singleton.mpr (h e he)

/-- The normal form of a value is one, under any key. -/
theorem inNormalForm_normal (h : v.Everywhere IsProper) :
    v.normal.InNormalForm ∧ ∀ k, (v.normalUnder k).InNormalForm := by
  induction v using part_induction with
  | step v ih =>
    have hpart : ∀ w, v.HasPart w → w.normal.InNormalForm ∧ ∀ k, (w.normalUnder k).InNormalForm :=
      fun w hw => ih w hw (h.part hw)
    cases v with
    | scalar s => exact ⟨inNormalForm_normal_scalar s, fun _ => inNormalForm_normal_scalar s⟩
    | list xs =>
      have hitems := inNormalForm_normalItems fun x hx => (hpart x (.listItem hx)).1
      exact ⟨hitems, fun _ => hitems⟩
    | tuple xs =>
      have hitems := inNormalForm_normalItems fun x hx => (hpart x (.tupleItem hx)).1
      exact ⟨hitems, fun _ => hitems⟩
    | doc d =>
      have hspelled : ∀ e ∈ d, ∀ s, e.1 = .scalar s → s.IsSpelled := by
        intro e he s hs
        have hkey := (h.part (.key he)).self
        rwa [hs] at hkey
      have hdoc : (Value.doc d).normal.InNormalForm := by
        refine inNormalForm_doc.mpr ⟨isNormal_normal_doc h.self hspelled, fun e he => ?_⟩
        obtain ⟨p, hp, rfl⟩ := exists_of_mem_normal he
        exact (hpart p.2 (.value hp)).2 p.1
      refine ⟨hdoc, fun k => ?_⟩
      rw [normalUnder]
      split
      · exact inNormalForm_sortPairs fun e he => (hpart e.2 (.value he)).1
      · exact hdoc
    -- All other values are left as they are.
    | set | stream | filter | update | stage | pipeline =>
      exact ⟨inNormalForm_of_isNormal nofun nofun trivial,
        fun _ => inNormalForm_of_isNormal nofun nofun trivial⟩

/-! ### The normal form of a normal form -/

theorem normalUnder_eq_normal (h : ∀ fs, k = .str Key.sort → v ≠ .doc fs) (hk : ∃ s, k = .str s) :
    v.normalUnder k = v.normal := by
  by_cases hsort : (k == .str Key.sort) = true
  · obtain ⟨s, rfl⟩ := hk
    rw [str_beq_str, beq_iff_eq] at hsort
    cases v with
    | doc fs => exact absurd rfl (h fs (congrArg Value.str hsort))
    | _ => rfl
  · exact normalUnder_of_ne (Bool.eq_false_iff.mpr hsort) v

theorem normalEntries_eq_self (hd : (Value.doc d).IsNormal) (h : ∀ e ∈ d, e.2.normal = e.2) :
    normalEntries d = d := by
  rw [normalEntries_eq_map]
  refine (List.map_congr_left fun e he => ?_).trans (List.map_id' d)
  obtain ⟨s, hs⟩ := hd.1.texts e he
  have hvalue : e.2.normalUnder e.1 = e.2.normal := by
    refine normalUnder_eq_normal (fun fs hsort hfs => hd.2 fs ?_) ⟨s, hs⟩
    rw [← hsort, ← hfs]
    exact he
  rw [hvalue, h e he]
  exact Prod.ext (by rw [hs]; rfl) rfl

/-- A normal form is left as it is. -/
theorem normal_eq_self (h : v.InNormalForm) : v.normal = v := by
  induction v using part_induction with
  | step v ih =>
    cases v with
    | scalar s =>
      cases s with
      | moment m => exact h.self.elim
      | objectId hex => exact h.self.elim
      | _ => rfl
    | list xs =>
      have hitems : xs.map normal = xs :=
        (List.map_congr_left fun x hx =>
          ih x (.listItem hx) (inNormalForm_list.mp h x hx)).trans (List.map_id' xs)
      rw [normal, normalItems_eq_map, hitems]
    | tuple xs => exact h.self.elim
    | doc d =>
      obtain ⟨hd, hvalues⟩ := inNormalForm_doc.mp h
      have hentries : normalEntries d = d :=
        normalEntries_eq_self hd fun e he => ih e.2 (.value he) (hvalues e he)
      rw [normal, hentries, Document.ofPairs_eq_self hd.1.fresh]
    | set | stream | filter | update | stage | pipeline => rfl

theorem normal_normal (h : v.Everywhere IsProper) : v.normal.normal = v.normal :=
  normal_eq_self (inNormalForm_normal h).1

/-! ### Fingerprints -/

theorem isGiven_str {s : String} (hs : s ≠ "") : (Value.str s).isGiven = true := by
  simpa [isGiven, Scalar.isGiven] using hs

theorem isEmpty_ofPairs_normalEntries (d : Document) :
    (Document.ofPairs (normalEntries d)).isEmpty = d.isEmpty := by
  cases d with
  | nil => rfl
  | cons e d =>
    have hkeys := Document.properKeys_of_texts (texts_normalEntries (e :: d))
    rw [Document.ofPairs_eq_settled hkeys, normalEntries_eq_map, List.map_cons, Document.settled,
      Document.firstPairs, List.eraseDupsBy_cons]
    rfl

theorem isGiven_normal (h : v.IsProper) : v.normal.isGiven = v.isGiven := by
  cases v with
  | scalar s =>
    cases s with
    | moment m => exact isGiven_str (textWith_ne_empty "T" m)
    | objectId hex =>
      refine isGiven_str fun hempty => ?_
      have hlength := h.1
      rw [hempty] at hlength
      cases hlength
    | _ => rfl
  | list xs => cases xs <;> rfl
  | tuple xs => cases xs <;> rfl
  | doc d => exact congrArg not (isEmpty_ofPairs_normalEntries d)
  | _ => rfl

end Value

namespace Fingerprint

variable {f u p : Value}

/-- The names under which queries are fingerprinted. -/
theorem mem_normalDocument {e : Value × Value} (he : e ∈ normalDocument f u p) :
    e = (.str "filter", f.normal) ∨ e = (.str "update", u.normal) ∨
      e = (.str "pipeline", p.normal) := by
  rcases List.mem_cons.mp he with rfl | he
  · exact .inl rfl
  · rcases List.mem_append.mp he with he | he
    · split at he
      · exact .inr (.inl (List.mem_singleton.mp he))
      · cases he
    · split at he
      · exact .inr (.inr (List.mem_singleton.mp he))
      · cases he

theorem textKeyed_normalDocument (f u p : Value) : TextKeyed (normalDocument f u p) where
  texts := by
    intro e he
    rcases mem_normalDocument he with rfl | rfl | rfl <;> exact ⟨_, rfl⟩
  nodup := by
    rw [normalDocument]
    split <;> split <;> simp

/-- What is written and sorted for a fingerprint has texts for keys at every level, and no two of
them equal. -/
theorem inNormalForm_normalDocument (hf : f.Everywhere Value.IsProper)
    (hu : u.Everywhere Value.IsProper) (hp : p.Everywhere Value.IsProper) :
    (Value.doc (normalDocument f u p)).InNormalForm := by
  refine Value.inNormalForm_doc.mpr ⟨⟨textKeyed_normalDocument f u p, fun fs hfs => ?_⟩, ?_⟩
  · have hsort : Key.sort ≠ "filter" ∧ Key.sort ≠ "update" ∧ Key.sort ≠ "pipeline" := by decide
    rcases mem_normalDocument hfs with h | h | h
    · exact hsort.1 (by simpa using congrArg Prod.fst h)
    · exact hsort.2.1 (by simpa using congrArg Prod.fst h)
    · exact hsort.2.2 (by simpa using congrArg Prod.fst h)
  · intro e he
    rcases mem_normalDocument he with rfl | rfl | rfl
    · exact (Value.inNormalForm_normal hf).1
    · exact (Value.inNormalForm_normal hu).1
    · exact (Value.inNormalForm_normal hp).1

/-- Every normal form is one: whatever is met in it through documents and lists is no moment, object
identifier or tuple, and every document has texts for keys, no two of them equal, and no document
under the key of a sort.  The same holds of the document that is sorted for a fingerprint.  A normal
form is its own, so a value and its normal form have the same fingerprint, beside any others. -/
theorem normal_form_stable :
    (∀ v : Value, v.Everywhere Value.IsProper →
      v.normal.InNormalForm ∧ v.normal.normal = v.normal) ∧
    (∀ f u p : Value, f.Everywhere Value.IsProper → u.Everywhere Value.IsProper →
      p.Everywhere Value.IsProper → (Value.doc (normalDocument f u p)).InNormalForm) ∧
    ∀ v : Value, v.Everywhere Value.IsProper → ∀ x y,
      digest v.normal x y = digest v x y ∧ digest x v.normal y = digest x v y ∧
        digest x y v.normal = digest x y v := by
  refine ⟨fun v hv => ⟨(Value.inNormalForm_normal hv).1, Value.normal_normal hv⟩,
    fun f u p hf hu hp => inNormalForm_normalDocument hf hu hp, fun v hv x y => ?_⟩
  obtain ⟨hfilter, hupdate, hpipeline⟩ :=
    normalDocument_congr (Value.normal_normal hv) (Value.isGiven_normal hv.self) x y
  simp only [digest, canonicalText, hfilter, hupdate, hpipeline, and_self]

/-- Keys of five kinds, of which two have one text, a sort document, and a moment and an object
identifier among the values. -/
theorem normal_form_stable_mixed :
    let hex : String := "0123456789abcdef01234567"
    let v : Value := .doc [(.int 1, .scalar (.moment ⟨⟨2024, 1, 2⟩, 3, 4, 5, 0, some 0⟩)),
      (.str "1", .tuple [.scalar (.objectId hex)]),
      (.null, .doc [(.scalar (.bytes [65]), .bool true)]),
      (.str "$sort", .doc [(.tuple [.int 2], .tuple [])])]
    v.Everywhere Value.IsProper ∧
      v.normal = .doc [(.str "1", .list [.str hex]),
        (.str "None", .doc [(.str "b'A'", .bool true)]),
        (.str "$sort", .list [.list [.str "(2,)", .list []]])] ∧
      v.normal.InNormalForm ∧ v.normal.normal = v.normal ∧
      (Value.doc (normalDocument v v v)).InNormalForm ∧
      digest v.normal .null .null = digest v .null .null := by
  intro hex v
  have hhex : hex.toList.length = 24 ∧ ∀ c ∈ hex.toList, isHexDigit c = true :=
    ⟨by decide, List.all_eq_true.mp (by decide)⟩
  have hproper : v.Everywhere Value.IsProper := by
    simpa [v, Value.everywhere_doc, Value.everywhere_tuple, Value.everywhere_scalar,
      Value.IsProper, ProperKeys, Value.IsHashable, Value.unhashable?, unhashableItem?,
      Scalar.IsSpelled] using hhex
  have hnormal : v.normal = .doc [(.str "1", .list [.str hex]),
      (.str "None", .doc [(.str "b'A'", .bool true)]),
      (.str "$sort", .list [.list [.str "(2,)", .list []]])] := rfl
  obtain ⟨hform, hself⟩ := normal_form_stable.1 v hproper
  have hdocument : (Value.doc (normalDocument v v v)).InNormalForm :=
    normal_form_stable.2.1 v v v hproper hproper hproper
  have hdigest : digest v.normal .null .null = digest v .null .null :=
    (normal_form_stable.2.2 v hproper .null .null).1
  exact ⟨hproper, hnormal, hform, hself, hdocument, hdigest⟩

end Fingerprint

end DocQuery
