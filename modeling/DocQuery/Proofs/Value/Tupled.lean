import DocQuery.Filter.Document
import DocQuery.Fingerprint.Basic
import DocQuery.Proofs.Fingerprint.KeyOrder
import DocQuery.Proofs.Value.OperatorKeys

/-!
# DocQuery.Proofs.Value.Tupled — tuples in place of lists

A fingerprint takes lists and tuples alike for arrays; a walk for operators enters lists only.  So
where some lists of a document become tuples its fingerprint stays, and its operators lose those
that were met in these lists and nowhere else (`operators_of_tupled`).  Compiled output can hold
such tuples: an equality keeps the tuple that it was given.
-/

namespace DocQuery

mutual

/-- The second value is the first with tuples in place of some of its lists, at any depth.  The
lists that a walk met in the first and does not meet in the second come first. -/
inductive Tupled : List Value → Value → Value → Prop
  | same (v : Value) : Tupled [] v v
  | list {lost xs ys : List Value} (h : ItemsTupled lost xs ys) : Tupled lost (.list xs) (.list ys)
  | turned {lost xs ys : List Value} (h : ItemsTupled lost xs ys) :
    Tupled [.list xs] (.list xs) (.tuple ys)
  | tuple {lost xs ys : List Value} (h : ItemsTupled lost xs ys) :
    Tupled [] (.tuple xs) (.tuple ys)
  | doc {lost : List Value} {d e : Document} (h : EntriesTupled lost d e) :
    Tupled lost (.doc d) (.doc e)

inductive ItemsTupled : List Value → List Value → List Value → Prop
  | nil : ItemsTupled [] [] []
  | cons {lost lost' xs ys : List Value} {x y : Value} (h : Tupled lost x y)
    (hs : ItemsTupled lost' xs ys) : ItemsTupled (lost ++ lost') (x :: xs) (y :: ys)

inductive EntriesTupled : List Value → List (Value × Value) → List (Value × Value) → Prop
  | nil : EntriesTupled [] [] []
  | cons {lost lost' : List Value} {es fs : List (Value × Value)} {k v w : Value}
    (h : Tupled lost v w) (hs : EntriesTupled lost' es fs) :
    EntriesTupled (lost ++ lost') ((k, v) :: es) ((k, w) :: fs)

end

/-! ### Fingerprints -/

theorem normalEntries_cons (k v : Value) (es : List (Value × Value)) :
    normalEntries ((k, v) :: es) = (.str k.text, v.normalUnder k) :: normalEntries es := by
  rw [normalEntries_eq_map, normalEntries_eq_map, List.map_cons]

mutual

/-- Lists and tuples of the same items have one normal form. -/
theorem Tupled.normal_eq {lost : List Value} {v w : Value} (h : Tupled lost v w) :
    v.normal = w.normal ∧ ∀ k, v.normalUnder k = w.normalUnder k := by
  match h with
  | .same v => exact ⟨rfl, fun _ => rfl⟩
  | .list h | .turned h | .tuple h =>
    have hnormal := congrArg Value.list h.normal_eq
    exact ⟨hnormal, fun _ => hnormal⟩
  | .doc h =>
    obtain ⟨hentries, hpairs⟩ := h.normal_eq
    have hnormal := congrArg (fun es => Value.doc (Document.ofPairs es)) hentries
    refine ⟨hnormal, fun k => ?_⟩
    rw [Value.normalUnder, Value.normalUnder, hpairs, Value.normal, Value.normal, hentries]

theorem ItemsTupled.normal_eq {lost xs ys : List Value} (h : ItemsTupled lost xs ys) :
    normalItems xs = normalItems ys := by
  match h with
  | .nil => rfl
  | .cons h hs => rw [normalItems, normalItems, h.normal_eq.1, hs.normal_eq]

theorem EntriesTupled.normal_eq {lost : List Value} {es fs : List (Value × Value)}
    (h : EntriesTupled lost es fs) :
    normalEntries es = normalEntries fs ∧ sortPairs es = sortPairs fs := by
  match h with
  | .nil => exact ⟨rfl, rfl⟩
  | .cons h hs =>
    obtain ⟨hnormal, hunder⟩ := h.normal_eq
    obtain ⟨hentries, hpairs⟩ := hs.normal_eq
    exact ⟨by rw [normalEntries_cons, normalEntries_cons, hunder, hentries],
      by rw [sortPairs, sortPairs, hnormal, hpairs]⟩

end

/-! ### Operators -/

variable {s : String}

mutual

/-- A walk meets what it met before, but for the lists that became tuples. -/
theorem Tupled.mem_operatorKeys_iff {lost : List Value} {v w : Value} (h : Tupled lost v w) :
    s ∈ v.operatorKeys ↔ s ∈ w.operatorKeys ∨ ∃ x ∈ lost, s ∈ x.operatorKeys := by
  match h with
  | .same v => simp
  | .list h => exact h.mem_operatorKeys_iff
  | .turned h | .tuple h => simp [Value.operatorKeys]
  | .doc h => exact h.mem_operatorKeys_iff

theorem ItemsTupled.mem_operatorKeys_iff {lost xs ys : List Value} (h : ItemsTupled lost xs ys) :
    s ∈ operatorKeysOfItems xs
      ↔ s ∈ operatorKeysOfItems ys ∨ ∃ x ∈ lost, s ∈ x.operatorKeys := by
  match h with
  | .nil => simp [operatorKeysOfItems]
  | .cons h hs =>
    simp only [operatorKeysOfItems, List.mem_append, h.mem_operatorKeys_iff,
      hs.mem_operatorKeys_iff, or_and_right, exists_or]
    exact or_or_or_comm

theorem EntriesTupled.mem_operatorKeys_iff {lost : List Value} {es fs : List (Value × Value)}
    (h : EntriesTupled lost es fs) :
    s ∈ operatorKeysOfEntries es
      ↔ s ∈ operatorKeysOfEntries fs ∨ ∃ x ∈ lost, s ∈ x.operatorKeys := by
  match h with
  | .nil => simp [operatorKeysOfEntries]
  | .cons (k := k) h hs =>
    have hentry := (or_congr_right (a := s ∈ operatorKeyOf k) h.mem_operatorKeys_iff).trans
      or_assoc.symm
    simp only [operatorKeysOfEntries, List.mem_append, hentry, hs.mem_operatorKeys_iff,
      or_and_right, exists_or]
    exact or_or_or_comm

end

variable {lost : List Value} {v w : Value}

theorem Tupled.isGiven_eq (h : Tupled lost v w) : v.isGiven = w.isGiven := by
  cases h with
  | same v => rfl
  | list h | turned h | tuple h => cases h <;> rfl
  | doc h => cases h <;> rfl

/-- Documents that are one up to the kind of their arrays stand for each other in a fingerprint. -/
theorem Tupled.normalDocument_eq (h : Tupled lost v w) (x y : Value) :
    Fingerprint.normalDocument v x y = Fingerprint.normalDocument w x y
      ∧ Fingerprint.normalDocument x v y = Fingerprint.normalDocument x w y
      ∧ Fingerprint.normalDocument x y v = Fingerprint.normalDocument x y w :=
  Fingerprint.normalDocument_congr h.normal_eq.1 h.isGiven_eq x y

/-- Where lists of a document become tuples, every fingerprint of it stays, and its operators are
those that it still has and those of the lists that became tuples: what was met in these lists only
is lost, a negation as well. -/
theorem operators_of_tupled (h : Tupled lost v w) :
    (∀ x y, Fingerprint.digest v x y = Fingerprint.digest w x y
      ∧ Fingerprint.digest x v y = Fingerprint.digest x w y
      ∧ Fingerprint.digest x y v = Fingerprint.digest x y w)
    ∧ (∀ s, s ∈ v.operators ↔ s ∈ w.operators ∨ ∃ x ∈ lost, s ∈ x.operators)
    ∧ (v.negates = true ↔ w.negates = true ∨ ∃ x ∈ lost, x.negates = true) := by
  have hoperators : ∀ s, s ∈ v.operators ↔ s ∈ w.operators ∨ ∃ x ∈ lost, s ∈ x.operators := by
    intro s
    simp only [Value.mem_operators]
    exact h.mem_operatorKeys_iff
  refine ⟨fun x y => ?_, hoperators, ?_⟩
  · obtain ⟨hfilter, hupdate, hpipeline⟩ := h.normalDocument_eq x y
    simp only [Fingerprint.digest, Fingerprint.canonicalText, hfilter, hupdate, hpipeline, and_self]
  · simp only [Value.negates, List.any_eq_true, hoperators]
    constructor
    · rintro ⟨s, hs | ⟨x, hx, hs⟩, hnegation⟩
      · exact .inl ⟨s, hs, hnegation⟩
      · exact .inr ⟨x, hx, s, hs, hnegation⟩
    · rintro (⟨s, hs, hnegation⟩ | ⟨x, hx, s, hs, hnegation⟩)
      · exact ⟨s, .inl hs, hnegation⟩
      · exact ⟨s, .inr ⟨x, hx, hs⟩, hnegation⟩

/-- One of two lists becomes a tuple: the negation in it is lost, that in the other stays. -/
theorem operators_of_tupled_pair :
    let lost : Value := .list [.single "$ne" (.int 1)]
    let kept : Value := .list [.single "$gt" (.int 2)]
    let v : Value := .doc [(.str "a", lost), (.str "b", kept)]
    let w : Value := .doc [(.str "a", .tuple [.single "$ne" (.int 1)]), (.str "b", kept)]
    Tupled [lost] v w
      ∧ Fingerprint.ofFilter v = Fingerprint.ofFilter w
      ∧ (∀ s, s ∈ v.operators ↔ s = "$gt" ∨ s = "$ne")
      ∧ v.negates = true ∧ w.negates = false := by
  intro lost kept v w
  have hw : Tupled [lost] v w :=
    .doc (.cons (.turned (.cons (.same _) .nil)) (.cons (.same kept) .nil))
  obtain ⟨hdigest, hoperators, hnegates⟩ := operators_of_tupled hw
  have hkept : w.operators = ["$gt"] := rfl
  have hlost : lost.operators = ["$ne"] := rfl
  refine ⟨hw, (hdigest .null .null).1, fun s => ?_, hnegates.mpr (.inr ⟨lost, ?_, rfl⟩), rfl⟩
  · rw [hoperators, hkept, List.mem_singleton]
    simp only [List.mem_singleton, exists_eq_left, hlost]
  · exact List.mem_cons_self

/-- An equality with a tuple of a negation compiles to a document without operators, though the same
document with a list in place of the tuple has one. -/
theorem operators_depend_on_arrays :
    let condition : Value := .single "$ne" (.int 1)
    let listed : Value := .single "a" (.list [condition])
    let tupled : Value := .single "a" (.tuple [condition])
    Filter.compile (.filter (Filter.eq (.str "a") (.tuple [condition]))) = .ok tupled
      ∧ Tupled [.list [condition]] listed tupled
      ∧ tupled.operators ≠ listed.operators ∧ tupled.negates ≠ listed.negates := by
  intro condition listed tupled
  have hlisted : listed.operators = ["$ne"] := rfl
  have htupled : tupled.operators = [] := rfl
  refine ⟨rfl, .doc (.cons (.turned (.cons (.same _) .nil)) .nil), ?_, ?_⟩
  · rw [hlisted, htupled]
    exact (List.cons_ne_nil _ _).symm
  · rw [Value.negates, Value.negates, hlisted, htupled]
    decide

end DocQuery
