import Mathlib.Data.List.DropRight
import DocQuery.Proofs.Document.Settled
import DocQuery.Update.Document

/-!
# DocQuery.Proofs.Document.Merged — merging arbitrary documents

Documents are merged entry by entry, and what becomes of a key depends on its payloads alone: on the
last of them if it is no document, and on the longest block of documents that ends with it if it is
one (`mergedPayload?`).  Merging is not associative as soon as a payload is no document, so the
invariant keeps all entries that came so far: `Document.merged` is the document that they leave, and
the step lemma `absorbEntry_merged` adds one entry to them.
-/

namespace DocQuery

namespace Value

def isDocument : Value → Bool
  | .doc _ => true
  | _ => false

/-- The entries of a document; other values have none. -/
def entries : Value → Document
  | .doc d => d
  | _ => []

theorem isDocument_iff {v : Value} : v.isDocument = true ↔ ∃ d, v = .doc d := by
  cases v <;> simp [isDocument]

end Value

/-- Whether an event tells that a payload of the key was replaced. -/
def Event.replaces (key : Value) : Event → Bool
  | .replaced k => k == key
  | _ => false

namespace Document

/-! ### Payloads of one key -/

/-- Keys that can be keys, none of them equal to an earlier one. -/
structure Proper (d : Document) : Prop where
  keys : ProperKeys d
  fresh : Fresh d

/-- Payloads are proper wherever they are documents. -/
def ProperPayloads (ps : List Value) : Prop := ∀ p ∈ ps, ∀ d, p = .doc d → Proper d

/-- The entries of the longest block of documents that ends a list of payloads. -/
def closingEntries (ps : List Value) : List (Value × Value) :=
  (ps.rtakeWhile Value.isDocument).flatMap Value.entries

/-- What the payloads of one key come to.  The last one stays; if it is a document, the block of
documents that ends with it is written into one, each field at its first place with its last
value. -/
def mergedPayload? (ps : List Value) : Option Value :=
  match ps.getLast? with
  | some (.doc _) => some (.doc (settled (closingEntries ps)))
  | last => last

/-- What a payload becomes where `old` stands. -/
def mergedInto (old : Option Value) (new : Value) : Value :=
  match old, new with
  | some (.doc fields), .doc more => .doc (Document.extend fields more)
  | _, v => v

variable {ps : List Value} {p : Value} {d : Document}

theorem closingEntries_concat_doc (ps : List Value) (d : Document) :
    closingEntries (ps ++ [Value.doc d]) = closingEntries ps ++ d := by
  have hblock : (ps ++ [Value.doc d]).rtakeWhile Value.isDocument =
      ps.rtakeWhile Value.isDocument ++ [Value.doc d] :=
    List.rtakeWhile_concat_pos Value.isDocument ps (.doc d) rfl
  rw [closingEntries, hblock, List.flatMap_append, List.flatMap_singleton]
  rfl

theorem closingEntries_concat_of_not_isDocument (hp : ¬p.isDocument = true) :
    closingEntries (ps ++ [p]) = [] := by
  rw [closingEntries, List.rtakeWhile_concat_neg Value.isDocument ps p hp]
  rfl

theorem properKeys_closingEntries (h : ProperPayloads ps) : ProperKeys (closingEntries ps) := by
  intro e he
  obtain ⟨p, hp, he⟩ := List.mem_flatMap.mp he
  obtain ⟨d, rfl⟩ := Value.isDocument_iff.mp (List.mem_rtakeWhile_imp hp)
  have hmem := (List.rtakeWhile_suffix Value.isDocument ps).subset hp
  exact (h _ hmem d rfl).keys e he

theorem mergedPayload?_concat_of_not_isDocument (ps : List Value) (hp : ¬p.isDocument = true) :
    mergedPayload? (ps ++ [p]) = some p := by
  unfold mergedPayload?
  rw [List.getLast?_concat]
  split
  · rename_i d hd
    obtain rfl := Option.some.inj hd
    exact absurd rfl hp
  · rfl

theorem mergedPayload?_concat_doc (ps : List Value) (d : Document) :
    mergedPayload? (ps ++ [Value.doc d]) = some (.doc (settled (closingEntries ps ++ d))) := by
  unfold mergedPayload?
  rw [List.getLast?_concat, closingEntries_concat_doc]

/-- Payloads come to the document of their last block, unless they end with no document. -/
theorem mergedPayload?_cases (ps : List Value) :
    mergedPayload? ps = some (.doc (settled (closingEntries ps))) ∨
      closingEntries ps = [] ∧ ∀ d, mergedPayload? ps ≠ some (.doc d) := by
  induction ps using List.reverseRecOn with
  | nil => exact Or.inr ⟨rfl, nofun⟩
  | append_singleton ps p =>
    by_cases hp : p.isDocument = true
    · obtain ⟨d, rfl⟩ := Value.isDocument_iff.mp hp
      rw [mergedPayload?_concat_doc, closingEntries_concat_doc]
      exact Or.inl rfl
    · rw [mergedPayload?_concat_of_not_isDocument ps hp]
      refine Or.inr ⟨closingEntries_concat_of_not_isDocument hp, fun d hd => hp ?_⟩
      rw [Option.some.inj hd]
      rfl

theorem mergedInto_of_ne_doc {old : Option Value} (h : ∀ d, old ≠ some (.doc d)) (new : Value) :
    mergedInto old new = new := by
  unfold mergedInto
  split
  · exact absurd rfl (h _)
  · rfl

theorem mergedInto_of_not_isDocument (old : Option Value) {new : Value}
    (h : ¬new.isDocument = true) : mergedInto old new = new := by
  unfold mergedInto
  split
  · exact absurd rfl h
  · rfl

/-- One more payload is merged into what those before it come to. -/
theorem mergedPayload?_concat (h : ProperPayloads (ps ++ [p])) :
    mergedPayload? (ps ++ [p]) = some (mergedInto (mergedPayload? ps) p) := by
  obtain ⟨hps, hp⟩ := List.forall_mem_append.mp h
  by_cases hdoc : p.isDocument = true
  · obtain ⟨new, rfl⟩ := Value.isDocument_iff.mp hdoc
    obtain ⟨hkeys, hfresh⟩ := hp _ (List.mem_singleton_self _) new rfl
    rw [mergedPayload?_concat_doc]
    rcases mergedPayload?_cases ps with hold | ⟨hnil, hne⟩
    · rw [hold, settled_append (properKeys_closingEntries hps) hkeys]
      rfl
    · rw [hnil, List.nil_append, settled_eq_self hkeys hfresh, mergedInto_of_ne_doc hne]
  · rw [mergedPayload?_concat_of_not_isDocument ps hdoc, mergedInto_of_not_isDocument _ hdoc]

/-- What payloads come to is a document exactly if the last of them is one. -/
theorem map_isDocument_mergedPayload? (ps : List Value) :
    (mergedPayload? ps).map Value.isDocument = ps.getLast?.map Value.isDocument := by
  unfold mergedPayload?
  split
  · rename_i h
    rw [h]
    rfl
  · rfl

/-! ### Payloads of all keys -/

/-- The values that entries have for a key, in order. -/
def valuesOf (es : List (Value × Value)) (k : Value) : List Value :=
  (es.filter fun e => e.1 == k).map (·.2)

/-- What an entry has after everything was merged: what the payloads of its key come to, or its own
payload if its key is equal to none, not even to itself. -/
def mergedValue (es : List (Value × Value)) (e : Value × Value) : Value :=
  (mergedPayload? (valuesOf es e.1)).getD e.2

/-- The document that entries leave: each key where it first occurs, with what its payloads come
to. -/
def merged (es : List (Value × Value)) : Document :=
  (firstPairs es).map fun e => (e.1, mergedValue es e)

variable {es : List (Value × Value)} {q : Value × Value} {k : Value}

theorem valuesOf_cons (q : Value × Value) (es : List (Value × Value)) (k : Value) :
    valuesOf (q :: es) k = if q.1 == k then q.2 :: valuesOf es k else valuesOf es k := by
  unfold valuesOf
  rw [List.filter_cons]
  split <;> rfl

theorem valuesOf_concat (es : List (Value × Value)) (q : Value × Value) (k : Value) :
    valuesOf (es ++ [q]) k = valuesOf es k ++ if q.1 == k then [q.2] else [] := by
  rw [valuesOf, List.filter_append, List.map_append]
  congr 1
  split
  · rename_i h
    simp [h]
  · rename_i h
    simp [h]

/-- Equal keys have the same values. -/
theorem valuesOf_congr (hq : q.1.IsHashable) (hk : (q.1 == k) = true) :
    valuesOf es k = valuesOf es q.1 := by
  rw [valuesOf, valuesOf]
  congr 1
  exact List.filter_congr fun e _ => (hq.beq_congr_right hk).symm

/-- A key that is not equal to itself has no values. -/
theorem valuesOf_eq_nil (hq : q.1.IsHashable) (h : ¬(q.1 == q.1) = true) :
    valuesOf es q.1 = [] := by
  rw [valuesOf, List.map_eq_nil_iff, List.filter_eq_nil_iff]
  intro e he heq
  have hqe : (q.1 == e.1) = true := by rwa [hq.beq_comm]
  exact h (Value.beq_trans hqe heq)

theorem ProperPayloads.valuesOf (h : ProperPayloads (es.map (·.2))) (k : Value) :
    ProperPayloads (valuesOf es k) := by
  intro p hp
  obtain ⟨e, he, rfl⟩ := List.mem_map.mp hp
  exact h _ (List.mem_map_of_mem (List.mem_filter.mp he).1)

/-- The merged value of the last entry. -/
theorem mergedValue_concat_self (hq : q.1.IsHashable)
    (h : ProperPayloads ((es ++ [q]).map (·.2))) :
    mergedValue (es ++ [q]) q = mergedInto (mergedPayload? (valuesOf es q.1)) q.2 := by
  have hproper := h.valuesOf q.1
  rw [mergedValue]
  rw [valuesOf_concat] at hproper ⊢
  by_cases hself : (q.1 == q.1) = true
  · rw [if_pos hself] at hproper ⊢
    rw [mergedPayload?_concat hproper]
    rfl
  · rw [if_neg hself, List.append_nil, valuesOf_eq_nil hq hself]
    rfl

/-- One more entry changes the merged values of the keys equal to its own. -/
theorem mergedValue_concat (hq : q.1.IsHashable)
    (h : ProperPayloads ((es ++ [q]).map (·.2))) (e : Value × Value) :
    mergedValue (es ++ [q]) e =
      if q.1 == e.1 then mergedValue (es ++ [q]) q else mergedValue es e := by
  by_cases hqe : (q.1 == e.1) = true
  · have hproper := h.valuesOf e.1
    rw [if_pos hqe, mergedValue_concat_self hq h, mergedValue]
    rw [valuesOf_concat, if_pos hqe] at hproper ⊢
    rw [mergedPayload?_concat hproper, valuesOf_congr hq hqe]
    rfl
  · rw [if_neg hqe, mergedValue, valuesOf_concat, if_neg hqe, List.append_nil]
    rfl

theorem merged_concat (hes : ProperKeys es) (hq : q.1.IsHashable)
    (h : ProperPayloads ((es ++ [q]).map (·.2))) :
    merged (es ++ [q]) = (merged es).insert q.1 (mergedValue (es ++ [q]) q) :=
  (insert_map_firstPairs hes hq fun e _ => mergedValue_concat hq h e).symm

/-- Under a key stands what its payloads come to. -/
theorem lookup?_merged (hes : ProperKeys es) (h : ProperPayloads (es.map (·.2))) (k : Value) :
    (merged es).lookup? k = mergedPayload? (valuesOf es k) := by
  induction es using List.reverseRecOn with
  | nil => rfl
  | append_singleton es q ih =>
    obtain ⟨hes, hq⟩ := List.forall_mem_append.mp hes
    have hq : q.1.IsHashable := hq q (by simp)
    have hold : ProperPayloads (es.map (·.2)) := by
      rw [List.map_append] at h
      exact (List.forall_mem_append.mp h).1
    have hproper := h.valuesOf k
    rw [merged_concat hes hq h, lookup?_insert hq, ih hes hold]
    rw [valuesOf_concat] at hproper ⊢
    by_cases hk : (q.1 == k) = true
    · rw [if_pos hk] at hproper ⊢
      rw [if_pos hk, mergedPayload?_concat hproper, mergedValue_concat_self hq h,
        valuesOf_congr hq hk]
    · rw [if_neg hk, if_neg hk, List.append_nil]

/-! ### Replacements -/

/-- Whether a payload replaces another instead of being merged into it. -/
def clashes (old new : Value) : Bool := !(old.isDocument && new.isDocument)

/-- What is logged of an entry that is merged after `es`, where its key had other payloads. -/
def replacement (es : List (Value × Value)) (e : Value × Value) : List Event :=
  if (valuesOf es e.1).getLast?.any fun p => clashes p e.2 then [.replaced e.1] else []

/-- What is logged of entries that are merged one after the other, after `es`. -/
def replacements (es : List (Value × Value)) : List (Value × Value) → List Event
  | [] => []
  | e :: rest => replacement es e ++ replacements (es ++ [e]) rest

theorem absorbEntry_fst (d : Document) (key payload : Value) :
    (d.absorbEntry key payload).1 = d.insert key (mergedInto (d.lookup? key) payload) := by
  unfold absorbEntry mergedInto
  cases d.lookup? key with
  | none => rfl
  | some old => cases old <;> cases payload <;> rfl

theorem absorbEntry_snd (d : Document) (key payload : Value) :
    (d.absorbEntry key payload).2 =
      if (d.lookup? key).any fun old => clashes old payload then [.replaced key] else [] := by
  unfold absorbEntry
  cases d.lookup? key with
  | none => rfl
  | some old => cases old <;> cases payload <;> rfl

/-- Whether payloads clash depends on whether they are documents. -/
theorem any_clashes_congr {o o' : Option Value}
    (h : o.map Value.isDocument = o'.map Value.isDocument) (p : Value) :
    (o.any fun old => clashes old p) = o'.any fun old => clashes old p := by
  cases o with
  | none =>
    cases o' with
    | none => rfl
    | some _ => cases h
  | some old =>
    cases o' with
    | none => cases h
    | some old' => exact congrArg (fun b => !(b && p.isDocument)) (Option.some.inj h)

/-- Merging one more entry. -/
theorem absorbEntry_merged (hes : ProperKeys es) (hq : q.1.IsHashable)
    (h : ProperPayloads ((es ++ [q]).map (·.2))) :
    (merged es).absorbEntry q.1 q.2 = (merged (es ++ [q]), replacement es q) := by
  have hold : ProperPayloads (es.map (·.2)) := by
    rw [List.map_append] at h
    exact (List.forall_mem_append.mp h).1
  have hlookup := lookup?_merged hes hold q.1
  refine Prod.ext ?_ ?_
  · rw [absorbEntry_fst, hlookup, merged_concat hes hq h, mergedValue_concat_self hq h]
  · rw [absorbEntry_snd, hlookup, any_clashes_congr (map_isDocument_mergedPayload? _), replacement]

/-- Merging entries one after the other. -/
theorem absorb_merged {rest : List (Value × Value)} (h : ProperKeys (es ++ rest))
    (hp : ProperPayloads ((es ++ rest).map (·.2))) :
    (merged es).absorb rest = (merged (es ++ rest), replacements es rest) := by
  induction rest generalizing es with
  | nil =>
    rw [List.append_nil]
    rfl
  | cons e rest ih =>
    have hsplit : es ++ e :: rest = es ++ [e] ++ rest := by simp
    rw [hsplit] at h hp
    obtain ⟨hconcat, -⟩ := List.forall_mem_append.mp h
    obtain ⟨hes, he⟩ := List.forall_mem_append.mp hconcat
    have hpayloads : ProperPayloads ((es ++ [e]).map (·.2)) := by
      rw [List.map_append] at hp
      exact (List.forall_mem_append.mp hp).1
    rw [absorb, absorbEntry_merged hes (he e (by simp)) hpayloads, ih h hp, hsplit]
    rfl

/-! ### Documents as entries -/

theorem absorb_append (d : Document) (es fs : List (Value × Value)) :
    d.absorb (es ++ fs) =
      (((d.absorb es).1.absorb fs).1, (d.absorb es).2 ++ ((d.absorb es).1.absorb fs).2) := by
  induction es generalizing d with
  | nil => rfl
  | cons e es ih => rw [List.cons_append, absorb, absorb, ih, List.append_assoc]

theorem absorbAll_concat (d : Document) (ds : List Document) (e : Document) :
    absorbAll d (ds ++ [e]) =
      (((absorbAll d ds).1.absorb e).1,
        (absorbAll d ds).2 ++ ((absorbAll d ds).1.absorb e).2) := by
  rw [absorbAll, List.foldl_append]
  rfl

/-- Merging documents is merging their entries. -/
theorem absorbAll_eq_absorb (d : Document) (ds : List Document) :
    absorbAll d ds = d.absorb ds.flatten := by
  induction ds using List.reverseRecOn with
  | nil => rfl
  | append_singleton ds e ih =>
    rw [absorbAll_concat, ih, List.flatten_append, List.flatten_singleton, absorb_append]

/-- Entries with fresh keys are appended, and nothing is replaced. -/
theorem absorb_eq_append {d : Document} {es : List (Value × Value)} (h : Fresh (d ++ es)) :
    d.absorb es = (d ++ es, []) := by
  induction es generalizing d with
  | nil =>
    rw [List.append_nil]
    rfl
  | cons e es ih =>
    have hsplit : d ++ e :: es = d ++ [e] ++ es := by simp
    have hnew : d.lookup? e.1 = none := by
      rw [lookup?_eq_none_iff]
      intro f hf
      exact (List.pairwise_append.mp h).2.2 f hf e (by simp)
    have hstep : d.absorbEntry e.1 e.2 = (d ++ [e], []) := by
      unfold absorbEntry
      rw [hnew]
      exact congrArg (·, []) (insert_of_lookup?_eq_none hnew e.2)
    rw [absorb, hstep, ih (hsplit ▸ h), hsplit]
    rfl

/-- A proper document is what its own entries leave. -/
theorem merged_eq_self {d : Document} (hd : Proper d) (hp : ProperPayloads (d.map (·.2))) :
    merged d = d := by
  have hself : absorb [] d = (d, []) := absorb_eq_append hd.fresh
  have hmerged : absorb (merged []) d = (merged d, replacements [] d) :=
    absorb_merged hd.keys hp
  exact congrArg Prod.fst (hmerged.symm.trans hself)

/-- The payloads of a key in documents, from the first document to the last. -/
def payloads (ds : List Document) (k : Value) : List Value := ds.filterMap fun d => d.lookup? k

/-- How often, in a list of payloads, one clashes with the next. -/
def countClashes (ps : List Value) : Nat := (ps.zip ps.tail).countP fun p => clashes p.1 p.2

/-- A proper document has one value for a key, or none. -/
theorem valuesOf_eq_lookup? {d : Document} (hd : Proper d) (k : Value) :
    valuesOf d k = (d.lookup? k).toList := by
  obtain ⟨hkeys, hfresh⟩ := hd
  induction d with
  | nil => rfl
  | cons e d ih =>
    have hrest := ih hkeys.of_cons.2 (List.pairwise_cons.mp hfresh).2
    rw [valuesOf_cons, lookup?_cons, hrest]
    by_cases hek : (e.1 == k) = true
    · rw [if_pos hek, if_pos hek, lookup?_eq_none_of_fresh hkeys.of_cons.1 hfresh hek]
      rfl
    · rw [if_neg hek, if_neg hek]

theorem payloads_cons (d : Document) (ds : List Document) (k : Value) :
    payloads (d :: ds) k = (d.lookup? k).toList ++ payloads ds k := by
  rw [payloads, List.filterMap_cons]
  cases d.lookup? k <;> rfl

theorem valuesOf_flatten {ds : List Document} (h : ∀ d ∈ ds, Proper d) (k : Value) :
    valuesOf ds.flatten k = payloads ds k := by
  induction ds with
  | nil => rfl
  | cons d ds ih =>
    obtain ⟨hd, hds⟩ := List.forall_mem_cons.mp h
    have happend : valuesOf (d ++ ds.flatten) k = valuesOf d k ++ valuesOf ds.flatten k := by
      rw [valuesOf, List.filter_append, List.map_append]
      rfl
    rw [List.flatten_cons, happend, valuesOf_eq_lookup? hd, ih hds, payloads_cons]

theorem countClashes_concat (ps : List Value) (p : Value) :
    countClashes (ps ++ [p]) =
      countClashes ps + if ps.getLast?.any fun old => clashes old p then 1 else 0 := by
  induction ps with
  | nil => rfl
  | cons q ps ih =>
    cases ps with
    | nil => exact (List.countP_cons).trans rfl
    | cons r ps =>
      have hstep : ∀ rs, countClashes (q :: r :: rs) =
          countClashes (r :: rs) + if clashes q r then 1 else 0 := fun rs => List.countP_cons
      rw [List.cons_append, List.cons_append, hstep, hstep, ← List.cons_append, ih,
        List.getLast?_cons_cons]
      omega

/-- Each clash of payloads of a key is logged once. -/
theorem countP_replacements {rest : List (Value × Value)} (h : ProperKeys (es ++ rest))
    (k : Value) :
    countClashes (valuesOf es k) + (replacements es rest).countP (Event.replaces k) =
      countClashes (valuesOf (es ++ rest) k) := by
  induction rest generalizing es with
  | nil => simp [replacements]
  | cons e rest ih =>
    have hsplit : es ++ e :: rest = es ++ [e] ++ rest := by simp
    rw [hsplit] at h ⊢
    obtain ⟨hconcat, -⟩ := List.forall_mem_append.mp h
    obtain ⟨hes, he⟩ := List.forall_mem_append.mp hconcat
    have he : e.1.IsHashable := he e (by simp)
    have hstep : countClashes (valuesOf (es ++ [e]) k) =
        countClashes (valuesOf es k) + (replacement es e).countP (Event.replaces k) := by
      rw [valuesOf_concat, replacement]
      by_cases hk : (e.1 == k) = true
      · rw [if_pos hk, countClashes_concat, valuesOf_congr he hk]
        split <;> simp [Event.replaces, hk]
      · rw [if_neg hk, List.append_nil]
        split <;> simp [Event.replaces, hk]
    rw [← ih h, hstep, replacements, List.countP_append, Nat.add_assoc]

/-- What stands under each key after documents were merged in order, and what was logged.  Keys come
in the order of their first occurrence, each with what its payloads come to; a key that only the
first document has keeps its payload; and every payload that clashes with the one before it is
logged once, when it is merged. -/
theorem absorbAll_settles_payloads {d : Document} {ds : List Document}
    (h : ∀ e ∈ d :: ds, Proper e ∧ ProperPayloads (e.map (·.2))) :
    (absorbAll d ds).1 = (firstPairs (d :: ds).flatten).map (fun e =>
      (e.1, (mergedPayload? (payloads (d :: ds) e.1)).getD e.2)) ∧
    (∀ k, (absorbAll d ds).1.lookup? k = mergedPayload? (payloads (d :: ds) k)) ∧
    (∀ k, (∀ e ∈ ds, e.lookup? k = none) → (absorbAll d ds).1.lookup? k = d.lookup? k) ∧
    (absorbAll d ds).2 = replacements d ds.flatten ∧
    ∀ k, (absorbAll d ds).2.countP (Event.replaces k) = countClashes (payloads (d :: ds) k) := by
  obtain ⟨⟨hd, hpayloads⟩, -⟩ := List.forall_mem_cons.mp h
  have hkeys : ProperKeys (d :: ds).flatten := by
    intro e he
    obtain ⟨f, hf, he⟩ := List.mem_flatten.mp he
    exact (h f hf).1.keys e he
  have hproper : ProperPayloads ((d :: ds).flatten.map (·.2)) := by
    rw [List.map_flatten]
    intro p hp
    obtain ⟨ps, hps, hp⟩ := List.mem_flatten.mp hp
    obtain ⟨f, hf, rfl⟩ := List.mem_map.mp hps
    exact (h f hf).2 p hp
  have hvalues : ∀ k, valuesOf (d :: ds).flatten k = payloads (d :: ds) k :=
    valuesOf_flatten fun e he => (h e he).1
  have hmerged : absorbAll d ds = (merged (d :: ds).flatten, replacements d ds.flatten) := by
    rw [absorbAll_eq_absorb, List.flatten_cons, ← absorb_merged hkeys hproper,
      merged_eq_self hd hpayloads]
  have hlookup : ∀ k, (absorbAll d ds).1.lookup? k = mergedPayload? (payloads (d :: ds) k) := by
    intro k
    rw [hmerged, lookup?_merged hkeys hproper, hvalues]
  refine ⟨?_, hlookup, fun k hk => ?_, by rw [hmerged], fun k => ?_⟩
  · simp only [hmerged, merged, mergedValue, hvalues]
  · have hrest : payloads ds k = [] := List.filterMap_eq_nil_iff.mpr hk
    have hold : d.lookup? k = mergedPayload? (valuesOf d k) := by
      rw [← lookup?_merged hd.keys hpayloads, merged_eq_self hd hpayloads]
    rw [hlookup, payloads_cons, hrest, List.append_nil, ← valuesOf_eq_lookup? hd, hold]
  · have hfirst : countClashes (valuesOf d k) = 0 := by
      rw [valuesOf_eq_lookup? hd]
      cases d.lookup? k <;> rfl
    have hcount := countP_replacements hkeys k
    rw [hfirst, Nat.zero_add] at hcount
    rw [hmerged, hcount]
    exact congrArg countClashes (hvalues k)

/-- Fields, a number, and fields again: what stood before the number is lost. -/
theorem absorbAll_settles_payloads_clashing :
    (absorbAll [(.str "$set", .doc [(.str "a", .int 1)])]
        [[(.str "$set", .int 5)], [(.str "$set", .doc [(.str "b", .int 1)])],
          [(.str "$set", .doc [(.str "c", .int 2), (.str "b", .int 3)])]]).1.lookup? (.str "$set")
      = some (.doc [(.str "b", .int 3), (.str "c", .int 2)]) ∧
    (absorbAll [(.str "$set", .doc [(.str "a", .int 1)])]
        [[(.str "$set", .int 5)], [(.str "$set", .doc [(.str "b", .int 1)])],
          [(.str "$set", .doc [(.str "c", .int 2), (.str "b", .int 3)])]]).2.countP
        (Event.replaces (.str "$set")) = 2 := by
  have hproper : ∀ fields : Document, Proper fields →
      Proper [(.str "$set", .doc fields)] ∧ ProperPayloads [Value.doc fields] := by
    intro fields hfields
    refine ⟨⟨by simp [ProperKeys], List.pairwise_singleton _ _⟩, ?_⟩
    simpa [ProperPayloads] using hfields
  have hnumber : Proper [(.str "$set", .int 5)] ∧ ProperPayloads [Value.int 5] :=
    ⟨⟨by simp [ProperKeys], List.pairwise_singleton _ _⟩, by simp [ProperPayloads]⟩
  have hone : ∀ (field : String) (n : Int), Proper [(.str field, .int n)] := fun field n =>
    ⟨by simp [ProperKeys], List.pairwise_singleton _ _⟩
  have htwo : Proper [(.str "c", .int 2), (.str "b", .int 3)] :=
    ⟨by simp [ProperKeys], by simp [Fresh]⟩
  have hdocuments : ∀ e ∈ [[(.str "$set", .doc [(.str "a", .int 1)])], [(.str "$set", .int 5)],
      [(.str "$set", .doc [(.str "b", .int 1)])],
      [(.str "$set", .doc [(.str "c", .int 2), (.str "b", .int 3)])]],
      Proper e ∧ ProperPayloads (e.map (·.2)) := by
    simpa using ⟨hproper _ (hone "a" 1), hnumber, hproper _ (hone "b" 1), hproper _ htwo⟩
  obtain ⟨-, hlookup, -, -, hcount⟩ := absorbAll_settles_payloads hdocuments
  exact ⟨(hlookup _).trans rfl, (hcount _).trans rfl⟩

end Document

end DocQuery
