import DocQuery.Proofs.Document.Merged
import DocQuery.Proofs.Result

/-!
# DocQuery.Proofs.Update.Layered — merging update documents loses no field

Every update document is layered: under each of its keys stands a document.  So is what a
combination has merged so far, whatever it merges next, and a payload is never replaced.  The
invariant of one merge is kept by each entry (`Layered.absorbEntry`), hence by each document
(`Layered.absorb`) and by all of them (`Layered.absorbAll`); that every kind of update starts it
again one level up is `layered_document`.
-/

namespace DocQuery

namespace Document

/-! ### Layered documents -/

/-- Under each key of the document stands a document. -/
structure Layered (d : Document) : Prop extends Proper d where
  layers : ∀ e ∈ d, ∃ fields, e.2 = .doc fields ∧ Proper fields

variable {d c new : Document} {k v : Value}

theorem proper_nil : Proper [] where
  keys := fun _ he => nomatch he
  fresh := List.Pairwise.nil

theorem Proper.insert (hd : Proper d) (hk : k.IsHashable) (v : Value) : Proper (d.insert k v) :=
  ⟨hd.keys.insert hk v, hd.fresh.insert v⟩

theorem Proper.extend (hd : Proper d) (hc : ProperKeys c) : Proper (d.extend c) :=
  ⟨hd.keys.extend hc, hd.fresh.extend c⟩

theorem layered_nil : Layered [] := ⟨proper_nil, fun _ he => nomatch he⟩

theorem layered_singleton (hk : k.IsHashable) (hc : Proper c) : Layered [(k, .doc c)] where
  keys := List.forall_mem_singleton.mpr hk
  fresh := List.pairwise_singleton _ _
  layers := List.forall_mem_singleton.mpr ⟨c, rfl, hc⟩

theorem Layered.of_cons {e : Value × Value} (h : Layered (e :: d)) :
    e.1.IsHashable ∧ (∃ fields, e.2 = .doc fields ∧ Proper fields) ∧ Layered d := by
  obtain ⟨hk, hkeys⟩ := h.keys.of_cons
  obtain ⟨he, hlayers⟩ := List.forall_mem_cons.mp h.layers
  exact ⟨hk, he, ⟨hkeys, (List.pairwise_cons.mp h.fresh).2⟩, hlayers⟩

theorem Layered.of_append (h : Layered (d ++ c)) : Layered d ∧ Layered c := by
  obtain ⟨hd, hc, -⟩ := List.pairwise_append.mp h.fresh
  obtain ⟨hdkeys, hckeys⟩ := List.forall_mem_append.mp h.keys
  obtain ⟨hdlayers, hclayers⟩ := List.forall_mem_append.mp h.layers
  exact ⟨⟨⟨hdkeys, hd⟩, hdlayers⟩, ⟨hckeys, hc⟩, hclayers⟩

theorem mem_of_lookup? (h : d.lookup? k = some v) : ∃ e ∈ d, e.2 = v := by
  induction d with
  | nil => cases h
  | cons e d ih =>
    rw [lookup?_cons] at h
    split at h
    · exact ⟨e, by simp, Option.some.inj h⟩
    · obtain ⟨f, hf, hfv⟩ := ih h
      exact ⟨f, by simp [hf], hfv⟩

/-- What stands under a key is a document. -/
theorem Layered.of_lookup? (hd : Layered d) (h : d.lookup? k = some v) :
    ∃ fields, v = .doc fields ∧ Proper fields := by
  obtain ⟨e, he, rfl⟩ := mem_of_lookup? h
  exact hd.layers e he

theorem forall_mem_insert {p : Value → Prop} (hd : ∀ e ∈ d, p e.2) (hv : p v) :
    ∀ e ∈ d.insert k v, p e.2 := by
  induction d with
  | nil => exact List.forall_mem_singleton.mpr hv
  | cons e d ih =>
    obtain ⟨he, hd⟩ := List.forall_mem_cons.mp hd
    by_cases hek : (e.1 == k) = true
    · rw [insert_cons_of_beq hek]
      exact List.forall_mem_cons.mpr ⟨hv, hd⟩
    · rw [insert_cons_of_not_beq hek]
      exact List.forall_mem_cons.mpr ⟨he, ih hd⟩

theorem Layered.insert (hd : Layered d) (hk : k.IsHashable) (hc : Proper c) :
    Layered (d.insert k (.doc c)) where
  keys := hd.keys.insert hk _
  fresh := hd.fresh.insert _
  layers := forall_mem_insert (p := fun v => ∃ fields, v = .doc fields ∧ Proper fields) hd.layers
    ⟨c, rfl, hc⟩

/-! ### Merging layered documents -/

/-- A document goes where no document is, or is written into the one that is there. -/
theorem absorbEntry_of_layered (hd : Layered d) (k : Value) (new : Document) :
    (d.lookup? k = none ∧ d.absorbEntry k (.doc new) = (d.insert k (.doc new), [])) ∨
    ∃ fields, d.lookup? k = some (.doc fields) ∧ Proper fields ∧
      d.absorbEntry k (.doc new) = (d.insert k (.doc (Document.extend fields new)), []) := by
  cases hlookup : d.lookup? k with
  | none =>
    refine Or.inl ⟨rfl, ?_⟩
    unfold Document.absorbEntry
    rw [hlookup]
  | some v =>
    obtain ⟨fields, rfl, hfields⟩ := hd.of_lookup? hlookup
    refine Or.inr ⟨fields, rfl, hfields, ?_⟩
    unfold Document.absorbEntry
    rw [hlookup]

/-- One entry more: the document stays layered and nothing is logged. -/
theorem Layered.absorbEntry (hd : Layered d) (hk : k.IsHashable) (hnew : Proper new) :
    Layered (d.absorbEntry k (.doc new)).1 ∧ (d.absorbEntry k (.doc new)).2 = [] := by
  rcases absorbEntry_of_layered hd k new with ⟨-, hstep⟩ | ⟨fields, -, hfields, hstep⟩
  · rw [hstep]
    exact ⟨hd.insert hk hnew, rfl⟩
  · rw [hstep]
    exact ⟨hd.insert hk (hfields.extend hnew.keys), rfl⟩

/-- One document more. -/
theorem Layered.absorb (hd : Layered d) (hc : Layered c) :
    Layered (d.absorb c).1 ∧ (d.absorb c).2 = [] := by
  induction c generalizing d with
  | nil => exact ⟨hd, rfl⟩
  | cons e c ih =>
    obtain ⟨k, p⟩ := e
    obtain ⟨hk, ⟨new, rfl, hnew⟩, hrest⟩ := hc.of_cons
    obtain ⟨hstep, hsilent⟩ := hd.absorbEntry hk hnew
    obtain ⟨hmerged, hsilents⟩ := ih hstep hrest
    rw [Document.absorb, hsilent, hsilents]
    exact ⟨hmerged, rfl⟩

/-- All documents, one after the other. -/
theorem Layered.absorbAll {ds : List Document} (hd : Layered d) (hds : ∀ e ∈ ds, Layered e) :
    Layered (absorbAll d ds).1 ∧ (Document.absorbAll d ds).2 = [] := by
  induction ds using List.reverseRecOn with
  | nil => exact ⟨hd, rfl⟩
  | append_singleton ds e ih =>
    obtain ⟨hds, he⟩ := List.forall_mem_append.mp hds
    obtain ⟨hmerged, hsilent⟩ := ih hds
    obtain ⟨hlast, hsilents⟩ := hmerged.absorb (he e (by simp))
    rw [absorbAll_concat, hsilent, hsilents]
    exact ⟨hlast, rfl⟩

/-- What is found after a document was merged in. -/
theorem lookup?_absorb (hc : Proper c) (l : Value) :
    (d.absorb c).1.lookup? l =
      ((c.lookup? l).map (mergedInto (d.lookup? l))).or (d.lookup? l) := by
  obtain ⟨hkeys, hfresh⟩ := hc
  induction c generalizing d with
  | nil => rfl
  | cons e c ih =>
    obtain ⟨he, hrest⟩ := hkeys.of_cons
    rw [Document.absorb, absorbEntry_fst, ih hrest (List.pairwise_cons.mp hfresh).2,
      lookup?_insert he, lookup?_cons]
    by_cases hel : (e.1 == l) = true
    · rw [lookup?_eq_none_of_fresh he hfresh hel, if_pos hel, if_pos hel, lookup?_congr he hel]
      rfl
    · rw [if_neg hel, if_neg hel]

/-- A field keeps its value unless the document that is merged in has one for it. -/
theorem fieldUnder?_absorb (hd : Layered d) (hc : Layered c) (key field : Value) :
    fieldUnder? (d.absorb c).1 key field =
      (fieldUnder? c key field).or (fieldUnder? d key field) := by
  have hlookup := lookup?_absorb (d := d) hc.toProper key
  cases hnew : c.lookup? key with
  | none =>
    rw [hnew] at hlookup
    have hsame : (d.absorb c).1.lookup? key = d.lookup? key := hlookup
    simp only [fieldUnder?, hsame, hnew, Option.none_or]
  | some p =>
    obtain ⟨new, rfl, hproper⟩ := hc.of_lookup? hnew
    rw [hnew] at hlookup
    cases hold : d.lookup? key with
    | none =>
      rw [hold] at hlookup
      have hsame : (d.absorb c).1.lookup? key = some (.doc new) := hlookup
      simp only [fieldUnder?, hsame, hnew, hold, Option.or_none]
    | some p =>
      obtain ⟨old, rfl, holdProper⟩ := hd.of_lookup? hold
      rw [hold] at hlookup
      have hboth : (d.absorb c).1.lookup? key = some (.doc (Document.extend old new)) := hlookup
      simp only [fieldUnder?, hboth, hnew, hold]
      exact lookup?_extend hproper.keys hproper.fresh field

/-- After all documents are merged, a field has the value from the last of them that has one. -/
theorem fieldUnder?_absorbAll {ds : List Document} (hds : ∀ e ∈ ds, Layered e)
    (key field : Value) : fieldUnder? (absorbAll [] ds).1 key field =
      (ds.filterMap fun e => fieldUnder? e key field).getLast? := by
  induction ds using List.reverseRecOn with
  | nil => rfl
  | append_singleton ds e ih =>
    obtain ⟨hds, he⟩ := List.forall_mem_append.mp hds
    have hmerged := (layered_nil.absorbAll hds).1
    have he : Layered e := he e (by simp)
    rw [absorbAll_concat, fieldUnder?_absorb hmerged he, ih hds, List.filterMap_append,
      List.getLast?_append]
    cases h : fieldUnder? e key field <;> simp [h]

/-! ### Lossless merges -/

/-- A merge that loses no field: both sides are layered, a payload that finds one before it is
written into it, nothing is logged, and a field gives way only to the same field of the document
that is merged in. -/
structure MergesInto (d c : Document) : Prop where
  target : Layered d
  source : Layered c
  merging : ∀ (before after : Document) (key payload old : Value),
    c = before ++ (key, payload) :: after → (d.absorb before).1.lookup? key = some old →
    ∃ fields more, old = .doc fields ∧ payload = .doc more ∧
      (d.absorb before).1.absorbEntry key payload =
        ((d.absorb before).1.insert key (.doc (Document.extend fields more)), [])
  silent : (d.absorb c).2 = []
  kept : ∀ key field, fieldUnder? (d.absorb c).1 key field =
    (fieldUnder? c key field).or (fieldUnder? d key field)

/-- Documents that are merged in order, each of them without a loss. -/
structure MergeTogether (ds : List Document) : Prop where
  steps : ∀ before child after, ds = before ++ child :: after →
    MergesInto (absorbAll [] before).1 child
  silent : (absorbAll [] ds).2 = []
  last : ∀ key field, fieldUnder? (absorbAll [] ds).1 key field =
    (ds.filterMap fun e => fieldUnder? e key field).getLast?

theorem Layered.mergesInto (hd : Layered d) (hc : Layered c) : MergesInto d c where
  target := hd
  source := hc
  merging := by
    rintro before after key payload old rfl hold
    obtain ⟨hbefore, hrest⟩ := hc.of_append
    obtain ⟨-, ⟨more, hmore, -⟩, -⟩ := hrest.of_cons
    obtain rfl : payload = .doc more := hmore
    have hsofar : Layered (d.absorb before).1 := (hd.absorb hbefore).1
    rcases absorbEntry_of_layered hsofar key more with ⟨hnone, -⟩ | ⟨fields, hfields, -, hstep⟩
    · rw [hold] at hnone
      cases hnone
    · obtain rfl := Option.some.inj (hold.symm.trans hfields)
      exact ⟨fields, more, rfl, rfl, hstep⟩
  silent := (hd.absorb hc).2
  kept := fieldUnder?_absorb hd hc

theorem mergeTogether_of_layered {ds : List Document} (hds : ∀ e ∈ ds, Layered e) :
    MergeTogether ds where
  steps := by
    rintro before child after rfl
    obtain ⟨hbefore, hrest⟩ := List.forall_mem_append.mp hds
    have hchild : Layered child := hrest child (by simp)
    exact (layered_nil.absorbAll hbefore).1.mergesInto hchild
  silent := (layered_nil.absorbAll hds).2
  last := fieldUnder?_absorbAll hds

end Document

namespace Update

open Document (Proper Layered MergeTogether)

/-! ### Compiled updates -/

theorem proper_copyPairs {ps : List (Value × Value)} {d e : Document} (hd : Proper d)
    (h : copyPairs d ps = .ok e) : Proper e := by
  induction ps generalizing d with
  | nil =>
    obtain rfl := Except.ok.inj h
    exact hd
  | cons p ps ih =>
    obtain ⟨v, -, h⟩ := exists_of_bind_eq_ok h
    obtain ⟨c, hc, h⟩ := exists_of_bind_eq_ok h
    obtain ⟨hk, rfl⟩ := Document.add_eq_ok_iff.mp hc
    exact ih (hd.insert hk v) h

theorem layered_assignDocument {op field value : Value} {d : Document}
    (h : assignDocument op field value = .ok d) : Layered d := by
  obtain ⟨key, -, h⟩ := exists_of_bind_eq_ok h
  obtain ⟨v, -, h⟩ := exists_of_bind_eq_ok h
  obtain ⟨fields, hfields, h⟩ := exists_of_bind_eq_ok h
  obtain ⟨hfield, rfl⟩ := Document.add_eq_ok_iff.mp hfields
  obtain ⟨hkey, rfl⟩ := Document.add_eq_ok_iff.mp h
  exact Document.layered_singleton hkey (Document.proper_nil.insert hfield v)

mutual

/-- Whatever an update compiles to has a document under each operator. -/
theorem layered_document (u : Update) (d : Document) (h : u.document = .ok d) : Layered d := by
  match u with
  | .assign op field value => exact layered_assignDocument h
  | .assignAll pairs =>
    obtain ⟨fields, hfields, h⟩ := exists_of_bind_eq_ok h
    obtain rfl := Except.ok.inj h
    have hproper : Proper fields := proper_copyPairs Document.proper_nil hfields
    exact Document.layered_singleton (Value.isHashable_str _) hproper
  | .rename source target =>
    obtain ⟨fields, hfields, h⟩ := exists_of_bind_eq_ok h
    obtain rfl := Except.ok.inj h
    obtain ⟨hsource, rfl⟩ := Document.add_eq_ok_iff.mp hfields
    have hproper : Proper (Document.insert [] source target) :=
      Document.proper_nil.insert hsource target
    exact Document.layered_singleton (Value.isHashable_str _) hproper
  | .combined children =>
    obtain ⟨ds, hds, h⟩ := exists_of_bind_eq_ok h
    obtain rfl := Except.ok.inj h
    exact (Document.layered_nil.absorbAll (layered_childDocuments children ds hds)).1

theorem layered_nodeDocument (v : Value) (d : Document) (h : nodeDocument v = .ok d) :
    Layered d := by
  match v with
  | .null =>
    obtain rfl := Except.ok.inj h
    exact Document.layered_nil
  | .update u => exact layered_document u d h

theorem layered_childDocuments (c : Value) (ds : List Document)
    (h : childDocuments c = .ok ds) : ∀ d ∈ ds, Layered d := by
  match c with
  | .list xs | .tuple xs | .set xs | .stream xs => exact layered_nodeDocuments xs ds h
  | .doc es => exact layered_keyDocuments es ds h
  | .scalar s =>
    obtain ⟨items, -, h⟩ := exists_of_bind_eq_ok h
    split at h
    · obtain rfl := Except.ok.inj h
      simp
    · cases h

theorem layered_nodeDocuments (xs : List Value) (ds : List Document)
    (h : nodeDocuments xs = .ok ds) : ∀ d ∈ ds, Layered d := by
  match xs with
  | [] =>
    obtain rfl := Except.ok.inj h
    simp
  | x :: xs =>
    obtain ⟨d, hd, h⟩ := exists_of_bind_eq_ok h
    obtain ⟨es, hes, h⟩ := exists_of_bind_eq_ok h
    obtain rfl := Except.ok.inj h
    exact List.forall_mem_cons.mpr
      ⟨layered_nodeDocument x d hd, layered_nodeDocuments xs es hes⟩

theorem layered_keyDocuments (es : List (Value × Value)) (ds : List Document)
    (h : keyDocuments es = .ok ds) : ∀ d ∈ ds, Layered d := by
  match es with
  | [] =>
    obtain rfl := Except.ok.inj h
    simp
  | (k, v) :: es =>
    obtain ⟨d, hd, h⟩ := exists_of_bind_eq_ok h
    obtain ⟨fs, hfs, h⟩ := exists_of_bind_eq_ok h
    obtain rfl := Except.ok.inj h
    exact List.forall_mem_cons.mpr
      ⟨layered_nodeDocument k d hd, layered_keyDocuments es fs hfs⟩

end

/-! ### Combinations at any depth -/

/-- The value is a combination of the children, or combines one that contains it. -/
inductive Combines : Value → Value → Prop
  | here (children : Value) : Combines (.update (.combined children)) children
  | inside {children item inner : Value} {items : List Value} (hitems : children.items? = .ok items)
      (hitem : item ∈ items) (h : Combines item inner) :
      Combines (.update (.combined children)) inner

theorem keyDocuments_eq_mapM (es : List (Value × Value)) :
    keyDocuments es = (es.map (·.1)).mapM nodeDocument := by
  induction es with
  | nil => rfl
  | cons e es ih => rw [keyDocuments, List.map_cons, List.mapM_cons, ih]

/-- What is combined has a document each. -/
theorem mapM_of_childDocuments {children : Value} {items : List Value} {ds : List Document}
    (h : childDocuments children = .ok ds) (hitems : children.items? = .ok items) :
    items.mapM nodeDocument = .ok ds := by
  match children with
  | .list xs | .tuple xs | .set xs | .stream xs =>
    obtain rfl := Except.ok.inj hitems
    rw [← nodeDocuments_eq_mapM]
    exact h
  | .doc es =>
    obtain rfl := Except.ok.inj hitems
    rw [← keyDocuments_eq_mapM]
    exact h
  | .scalar s =>
    obtain ⟨scalars, hscalars, h⟩ := exists_of_bind_eq_ok h
    have hmap : (s.items?.map fun xs => xs.map Value.scalar) = .ok items := hitems
    rw [hscalars] at hmap
    obtain rfl := Except.ok.inj hmap
    split at h
    · exact h
    · cases h

/-- Where an update compiles, every combination in it got the documents of its children. -/
theorem Combines.exists_childDocuments {v children : Value} (h : Combines v children)
    {d : Document} (hd : nodeDocument v = .ok d) : ∃ ds, childDocuments children = .ok ds := by
  induction h generalizing d with
  | here children =>
    obtain ⟨ds, hds, -⟩ := exists_of_bind_eq_ok hd
    exact ⟨ds, hds⟩
  | inside hitems hitem _ ih =>
    obtain ⟨ds, hds, -⟩ := exists_of_bind_eq_ok hd
    obtain ⟨e, he⟩ := exists_ok_of_mem (mapM_of_childDocuments hds hitems) hitem
    exact ih he

/-- Where an update compiles, every payload of its document is a document, and every combination in
it, at any depth, merges the documents of its children into its own without a loss. -/
theorem compile_merges_losslessly {v w : Value} (h : compile v = .ok w) :
    (∃ d, w = .doc d ∧ Layered d) ∧
    ∀ children, Combines v children →
      ∃ ds, childDocuments children = .ok ds ∧
        (Update.combined children).document = .ok (Document.absorbAll [] ds).1 ∧
        MergeTogether ds := by
  obtain ⟨d, hd, h⟩ := exists_of_bind_eq_ok h
  obtain rfl := Except.ok.inj h
  refine ⟨⟨d, rfl, layered_nodeDocument v d hd⟩, fun children hc => ?_⟩
  obtain ⟨ds, hds⟩ := hc.exists_childDocuments hd
  have hlayered : ∀ e ∈ ds, Layered e := layered_childDocuments children ds hds
  refine ⟨ds, hds, ?_, Document.mergeTogether_of_layered hlayered⟩
  rw [document, hds]
  rfl

/-- A combination in a combination, with an absent child and values that are no documents. -/
theorem compile_merges_losslessly_nested :
    compile (.update (.combined (.list [.null, .update (set (.str "a") (.int 1)),
        .update (.combined (.tuple [.update (.rename (.str "b") (.str "c")),
          .update (.assignAll [(.str "a", .null), (.str "d", .list [])])]))])))
      = .ok (.doc [(.str "$set", .doc [(.str "a", .null), (.str "d", .list [])]),
          (.str "$rename", .doc [(.str "b", .str "c")])]) ∧
    ∃ ds, childDocuments (.tuple [.update (.rename (.str "b") (.str "c")),
          .update (.assignAll [(.str "a", .null), (.str "d", .list [])])]) = .ok ds ∧
      MergeTogether ds := by
  have hcompile : compile (.update (.combined (.list [.null, .update (set (.str "a") (.int 1)),
        .update (.combined (.tuple [.update (.rename (.str "b") (.str "c")),
          .update (.assignAll [(.str "a", .null), (.str "d", .list [])])]))])))
      = .ok (.doc [(.str "$set", .doc [(.str "a", .null), (.str "d", .list [])]),
          (.str "$rename", .doc [(.str "b", .str "c")])]) := rfl
  obtain ⟨-, hmerges⟩ := compile_merges_losslessly hcompile
  obtain ⟨ds, hds, -, hmerge⟩ := hmerges (.tuple [.update (.rename (.str "b") (.str "c")),
    .update (.assignAll [(.str "a", .null), (.str "d", .list [])])])
    (.inside rfl (by simp) (.here _))
  exact ⟨hcompile, ds, hds, hmerge⟩

end Update

end DocQuery
