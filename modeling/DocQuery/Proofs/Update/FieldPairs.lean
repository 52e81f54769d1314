import DocQuery.Expr.Function
import DocQuery.Proofs.Result
import DocQuery.Proofs.Update.Leaves

/-!
# DocQuery.Proofs.Update.FieldPairs — several fields set at once

An update of several fields keeps its pairs as they were given, repeated fields among them.  Its
document of fields, its compiled form and the combination of one update for each pair settle these
pairs in the same way: a field stands where it first occurs, with the value that it is given last
(`field_pairs_agree`).  That values are copied makes no difference to where they stand, since where
a pair is written depends on its key only (`settled_copied`).
-/

namespace DocQuery

open Document (ProperKeys Fresh settled)

/-! ### Items that are pairs -/

namespace Value

variable {v : Value} {p : Value × Value} {e : Fault}

theorem eq_notIterable_of_items? (h : v.items? = .error e) : e = .notIterable := by
  cases v with
  | scalar s =>
    cases s with
    | str | bytes | byteArray => cases h
    | _ => exact (Except.error.inj h).symm
  | list | tuple | set | stream | doc => cases h
  | _ => exact (Except.error.inj h).symm

/-- The value is no pair: it has no items, or another number of them than two. -/
inductive NoPair (v : Value) : Fault → Prop
  | notIterable (h : v.items? = .error .notIterable) : NoPair v .notIterable
  | pairLength {xs : List Value} (h : v.items? = .ok xs) (hlength : xs.length ≠ 2) :
    NoPair v .pairLength

theorem pair?_eq_ok_iff : v.pair? = .ok p ↔ v.items? = .ok [p.1, p.2] := by
  unfold pair?
  constructor
  · intro h
    obtain ⟨xs, hxs, h⟩ := exists_of_bind_eq_ok h
    split at h
    · obtain rfl := Except.ok.inj h
      exact hxs
    · cases h
  · intro h
    rw [h]
    rfl

theorem pair?_of_length_ne {xs : List Value} (h : v.items? = .ok xs) (hlength : xs.length ≠ 2) :
    v.pair? = .error .pairLength := by
  rw [pair?, h]
  cases xs with
  | nil => rfl
  | cons x xs =>
    cases xs with
    | nil => rfl
    | cons y xs =>
      cases xs with
      | nil => exact absurd rfl hlength
      | cons => rfl

theorem pair?_eq_error_iff : v.pair? = .error e ↔ v.NoPair e := by
  constructor
  · intro h
    cases hv : v.items? with
    | error e' =>
      obtain rfl := eq_notIterable_of_items? hv
      rw [pair?, hv] at h
      obtain rfl := Except.error.inj h
      exact .notIterable hv
    | ok xs =>
      by_cases hlength : xs.length = 2
      · obtain ⟨a, b, rfl⟩ := List.length_eq_two.mp hlength
        rw [pair?, hv] at h
        cases h
      · rw [pair?_of_length_ne hv hlength] at h
        obtain rfl := Except.error.inj h
        exact .pairLength hv hlength
  · intro h
    cases h with
    | notIterable h =>
      rw [pair?, h]
      rfl
    | pairLength h hlength => exact pair?_of_length_ne h hlength

end Value

namespace Update

variable {v : Value} {xs : List Value} {ps qs : List (Value × Value)} {fault : Fault}

/-! ### Reading pairs -/

/-- The pairs that a value gives: the entries of a document, or else its items, each of which has
two items of its own. -/
inductive Gives : Value → List (Value × Value) → Prop
  | document (d : Document) : Gives (.doc d) d
  | items {v : Value} {xs : List Value} {ps : List (Value × Value)} (hdoc : ∀ d, v ≠ .doc d)
    (hv : v.items? = .ok xs) (h : List.Forall₂ (fun x p => x.items? = .ok [p.1, p.2]) xs ps) :
    Gives v ps

/-- Pairs as a value that gives them. -/
def pairTuple (ps : List (Value × Value)) : Value := .tuple (ps.map fun p => .tuple [p.1, p.2])

theorem gives_pairTuple (ps : List (Value × Value)) : Gives (pairTuple ps) ps := by
  refine .items nofun rfl ?_
  rw [List.forall₂_map_left_iff]
  exact List.forall₂_same.mpr fun p _ => rfl

theorem ofPairs_of_items? (hdoc : ∀ d, v ≠ .doc d) (hv : v.items? = .ok xs) :
    ofPairs v = do return .assignAll (← xs.mapM Value.pair?) := by
  cases v with
  | doc d => exact absurd rfl (hdoc d)
  | _ =>
    rw [ofPairs, hv]
    · rfl
    · exact hdoc

theorem mapM_pair? (h : List.Forall₂ (fun x p => x.items? = .ok [p.1, p.2]) xs ps) :
    xs.mapM Value.pair? = .ok ps := by
  induction h with
  | nil => rfl
  | cons hx _ ih =>
    rw [List.mapM_cons, Value.pair?_eq_ok_iff.mpr hx, ih]
    rfl

/-- An update of fields keeps all pairs in order. -/
theorem Gives.ofPairs (h : Gives v ps) : ofPairs v = .ok (.assignAll ps) := by
  cases h with
  | document d => rfl
  | items hdoc hv h =>
    rw [ofPairs_of_items? hdoc hv, mapM_pair? h]
    rfl

/-- Reading pairs fails at the first item that is no pair, as that item does. -/
theorem ofPairs_eq_error_iff (hdoc : ∀ d, v ≠ .doc d) (hv : v.items? = .ok xs) :
    ofPairs v = .error fault ↔ ∃ before x after, xs = before ++ x :: after ∧
      (∀ y ∈ before, ∃ a b, y.items? = .ok [a, b]) ∧ x.NoPair fault := by
  have hread : ofPairs v = .error fault ↔ xs.mapM Value.pair? = .error fault := by
    rw [ofPairs_of_items? hdoc hv]
    cases xs.mapM Value.pair? with
    | ok ps => exact ⟨nofun, nofun⟩
    | error e =>
      exact ⟨fun h => congrArg _ (Except.error.inj h), fun h => congrArg _ (Except.error.inj h)⟩
  rw [hread, mapM_eq_error_iff]
  simp only [StopsAfter, Value.pair?_eq_error_iff, Value.pair?_eq_ok_iff, Prod.exists]

/-! ### Copied values -/

/-- The entries of a document with their values copied. -/
def copied (es : Document) : Document := es.map fun p => (p.1, p.2.detached)

theorem insert_copied (d : Document) (k v : Value) :
    Document.insert (copied d) k v.detached = copied (d.insert k v) := by
  induction d with
  | nil => rfl
  | cons e d ih =>
    have hcons : copied (e :: d) = (e.1, e.2.detached) :: copied d := rfl
    by_cases hek : (e.1 == k) = true
    · have hinsert := Document.insert_cons_of_beq (e := (e.1, e.2.detached)) (d := copied d) hek
      rw [hcons, hinsert, Document.insert_cons_of_beq hek]
      rfl
    · have hinsert := Document.insert_cons_of_not_beq (e := (e.1, e.2.detached)) (d := copied d) hek
      rw [hcons, hinsert, Document.insert_cons_of_not_beq hek, ih]
      rfl

theorem extend_copied (d : Document) (ps : List (Value × Value)) :
    Document.extend (copied d) (copied ps) = copied (d.extend ps) := by
  induction ps generalizing d with
  | nil => rfl
  | cons p ps ih =>
    have hcons : copied (p :: ps) = (p.1, p.2.detached) :: copied ps := rfl
    rw [hcons, Document.extend_cons, Document.extend_cons, insert_copied, ih]

theorem properKeys_copied (h : ProperKeys ps) : ProperKeys (copied ps) := by
  intro e he
  obtain ⟨p, hp, rfl⟩ := List.mem_map.mp he
  exact h p hp

/-- Values may be copied before the pairs settle or after. -/
theorem settled_copied (h : ProperKeys ps) : settled (copied ps) = copied (settled ps) := by
  rw [← Document.ofPairs_eq_settled (properKeys_copied h), ← Document.ofPairs_eq_settled h]
  exact extend_copied [] ps

theorem copied_ne_nil (h : ps ≠ []) : copied ps ≠ [] := fun hnil => h (List.map_eq_nil_iff.mp hnil)

/-! ### Compiled pairs -/

theorem operators_singles {op : String} (hps : ps ≠ []) :
    operators (ps.map fun p => ⟨op, [p]⟩) = [op] := by
  obtain ⟨p, rest, rfl⟩ := List.exists_cons_of_ne_nil hps
  have hrest : (rest.map fun _ => op).filter (fun o => !(o == op)) = [] := by
    refine List.filter_eq_nil_iff.mpr fun o ho => ?_
    obtain ⟨q, -, rfl⟩ := List.mem_map.mp ho
    simp
  rw [operators, List.map_map, List.map_cons, List.eraseDups_cons]
  exact congrArg (fun ops => op :: List.eraseDups ops) hrest

theorem pairsUnder_singles (o op : String) (ps : List (Value × Value)) :
    pairsUnder o (ps.map fun p => ⟨op, [p]⟩) = pairsUnder o [⟨op, ps⟩] := by
  induction ps with
  | nil => simp [pairsUnder, assignments]
  | cons p ps ih =>
    rw [List.map_cons, ← List.singleton_append, pairsUnder_append, ih, pairsUnder_singleton,
      pairsUnder_singleton, pairsUnder_singleton]
    split <;> rfl

/-- Writes of single fields under one operator are one write of all of them. -/
theorem gathered_singles {op : String} (hps : ps ≠ []) :
    gathered (ps.map fun p => ⟨op, [p]⟩) = [(.str op, .doc (settled ps))] := by
  simp only [gathered, operators_singles hps, pairsUnder_singles, List.map_singleton,
    pairsUnder_singleton, if_pos]

theorem properKeys_of_regular (h : ∀ p ∈ ps, p.1.IsHashable ∧ p.2.isCopyable) : ProperKeys ps :=
  fun p hp => (h p hp).1

theorem compile_pairs (h : ∀ p ∈ ps, p.1.IsHashable ∧ p.2.isCopyable) :
    compile (.update (.assignAll ps)) =
      .ok (.doc [(.str Key.set, .doc (copied (settled ps)))]) := by
  have hregular : NodeRegular (.update (.assignAll ps)) := h
  have hwrites : nodeWrites (.update (.assignAll ps)) = [⟨Key.set, copied ps⟩] := rfl
  rw [compile, nodeDocument_eq_gathered _ hregular, hwrites, gathered_singleton,
    settled_copied (properKeys_of_regular h)]
  rfl

/-- Setting the fields one after the other compiles to the same document as setting them at once. -/
theorem compile_combined_sets (hne : ps ≠ []) (h : ∀ p ∈ ps, p.1.IsHashable ∧ p.2.isCopyable) :
    compile (combine (ps.map fun p => .update (set p.1 p.2))) =
      .ok (.doc [(.str Key.set, .doc (copied (settled ps)))]) := by
  have hregular : NodesRegular (ps.map fun p => .update (set p.1 p.2)) := by
    refine nodesRegular_iff.mpr fun v hv => ?_
    obtain ⟨p, hp, rfl⟩ := List.mem_map.mp hv
    exact ⟨rfl, h p hp⟩
  have hwrites : nodesWrites (ps.map fun p => .update (set p.1 p.2)) =
      (copied ps).map fun p => ⟨Key.set, [p]⟩ := by
    rw [nodesWrites_eq_flatMap, copied, List.map_map, List.flatMap_map, List.map_eq_flatMap]
    rfl
  rw [compile, nodeDocument_eq_gathered _ (nodeRegular_combine hregular), nodeWrites_combine,
    hwrites, gathered_singles (copied_ne_nil hne), settled_copied (properKeys_of_regular h)]
  rfl

theorem fields?_assignAll (h : ProperKeys ps) :
    (Update.assignAll ps).fields? = .ok (settled ps) := by
  rw [fields?, Document.addAll_of_isHashable [] h]
  exact congrArg Except.ok (Document.ofPairs_eq_settled h)

/-- What is settled can be a key and be copied, as the pairs could. -/
theorem regular_settled (h : ∀ p ∈ ps, p.1.IsHashable ∧ p.2.isCopyable) :
    ∀ p ∈ settled ps, p.1.IsHashable ∧ p.2.isCopyable := by
  intro e he
  obtain ⟨p, hp, q, hq, hkey, hvalue, -⟩ := Document.exists_of_mem_settled he
  exact ⟨hkey ▸ (h p hp).1, hvalue ▸ (h q hq).2⟩

theorem settled_settled (h : ProperKeys ps) : settled (settled ps) = settled ps :=
  Document.settled_eq_self (Document.properKeys_settled h) (Document.fresh_settled h)

/-! ### Agreement -/

/-- The same keys in the same order, each with a copy of its value. -/
def Copies (d e : Document) : Prop :=
  List.Forall₂ (fun p q => p.1 = q.1 ∧ p.2.copy = .ok q.2) d e

theorem copies_copied {d : Document} (h : ∀ p ∈ d, p.2.isCopyable) : Copies d (copied d) := by
  rw [Copies, copied, List.forall₂_map_right_iff]
  exact List.forall₂_same.mpr fun p hp => ⟨rfl, Value.copy_of_isCopyable (h p hp)⟩

theorem copied_eq_self {d : Document} (h : ∀ p ∈ d, p.2.detached = p.2) : copied d = d := by
  refine (List.map_congr_left fun p hp => ?_).trans (List.map_id' d)
  rw [h p hp]

/-- An update of several fields, read from a value that gives pairs, keeps these pairs.  Its
document of fields has each field where it first occurs, with its last value; it compiles to a copy
of this document; it is read again from its own pairs, or from its fields, without a difference; and
it compiles to what one update for each pair, combined, compiles to.  A document is read as itself.
Of items that are not all pairs, the first that is none is refused, whatever follows. -/
theorem field_pairs_agree :
    (∀ (v : Value) (ps : List (Value × Value)), Gives v ps →
      (∀ p ∈ ps, p.1.IsHashable ∧ p.2.isCopyable) →
      let n := Update.assignAll ps
      ofPairs v = .ok n ∧ Value.fields? (.update n) = .ok (.doc (settled ps)) ∧
        (∃ d, compile (.update n) = .ok (.doc [(.str Key.set, .doc d)]) ∧ Copies (settled ps) d ∧
          ((∀ p ∈ ps, p.2.detached = p.2) → d = settled ps)) ∧
        (∃ w, Value.pairs? (.update n) = .ok w ∧ Gives w ps ∧ ofPairs w = .ok n) ∧
        (∃ m, ofPairs (.doc (settled ps)) = .ok m ∧
          compile (.update m) = compile (.update n)) ∧
        (ps ≠ [] →
          compile (combine (ps.map fun p => .update (set p.1 p.2))) = compile (.update n))) ∧
    (∀ d : Document, ProperKeys d → Fresh d →
      ∃ n, ofPairs (.doc d) = .ok n ∧ n.fields? = .ok d) ∧
    ∀ (v : Value) (xs : List Value) (fault : Fault), (∀ d, v ≠ .doc d) → v.items? = .ok xs →
      (ofPairs v = .error fault ↔ ∃ before x after, xs = before ++ x :: after ∧
        (∀ y ∈ before, ∃ a b, y.items? = .ok [a, b]) ∧ x.NoPair fault) := by
  refine ⟨fun v ps hv h => ?_, fun d hkeys hfresh => ?_, fun v xs fault hdoc hv => ?_⟩
  · have hkeys := properKeys_of_regular h
    have hsettled := regular_settled h
    have hfields : Value.fields? (.update (.assignAll ps)) = .ok (.doc (settled ps)) := by
      rw [Value.fields?, fields?_assignAll hkeys]
      rfl
    have hread : compile (.update (.assignAll (settled ps))) =
        compile (.update (.assignAll ps)) := by
      rw [compile_pairs hsettled, compile_pairs h, settled_settled hkeys]
    refine ⟨hv.ofPairs, hfields, ⟨_, compile_pairs h, ?_, fun hself => ?_⟩,
      ⟨pairTuple ps, rfl, gives_pairTuple ps, (gives_pairTuple ps).ofPairs⟩,
      ⟨_, rfl, hread⟩, fun hne => ?_⟩
    · exact copies_copied fun p hp => (hsettled p hp).2
    · refine copied_eq_self fun e he => ?_
      obtain ⟨-, -, q, hq, -, hvalue, -⟩ := Document.exists_of_mem_settled he
      exact hvalue ▸ hself q hq
    · rw [compile_combined_sets hne h, compile_pairs h]
  · refine ⟨_, rfl, ?_⟩
    rw [fields?_assignAll hkeys, Document.settled_eq_self hkeys hfresh]
  · exact ofPairs_eq_error_iff hdoc hv

/-- A stream of a tuple, two bytes and a list, with one key in two spellings; and items of which the
second cannot be iterated and the third is empty. -/
theorem field_pairs_agree_stream :
    let v : Value := .stream [.tuple [.int 1, .str "x"], .scalar (.bytes [7, 8]),
      .list [.bool true, .list [.null]]]
    let ps : List (Value × Value) :=
      [(.int 1, .str "x"), (.int 7, .int 8), (.bool true, .list [.null])]
    let fields : Document := [(.int 1, .list [.null]), (.int 7, .int 8)]
    Gives v ps ∧ ofPairs v = .ok (.assignAll ps) ∧
      Value.fields? (.update (.assignAll ps)) = .ok (.doc fields) ∧
      compile (.update (.assignAll ps)) = .ok (.doc [(.str "$set", .doc fields)]) ∧
      compile (combine (ps.map fun p => .update (set p.1 p.2))) =
        compile (.update (.assignAll ps)) ∧
      ofPairs (.list [.tuple [.int 1, .int 2], .int 5, .tuple []]) = .error .notIterable := by
  intro v ps fields
  have hdoc : ∀ d, v ≠ .doc d := fun d => by simp [v]
  have hv : Gives v ps := .items hdoc rfl (.cons rfl (.cons rfl (.cons rfl .nil)))
  have hregular : ∀ p ∈ ps, p.1.IsHashable ∧ p.2.isCopyable := by decide
  have hsettled : settled ps = fields := by rfl
  have hself : ∀ p ∈ ps, p.2.detached = p.2 := by
    simp [ps, Value.detached, Value.mapPipelines, mapPipelinesItems]
  obtain ⟨hread, hfields, ⟨d, hcompile, -, hd⟩, -, -, hcombine⟩ :=
    field_pairs_agree.1 v ps hv hregular
  have hrefused : ∃ before x after,
      [Value.tuple [.int 1, .int 2], .int 5, .tuple []] = before ++ x :: after ∧
      (∀ y ∈ before, ∃ a b, y.items? = .ok [a, b]) ∧ x.NoPair .notIterable :=
    ⟨[.tuple [.int 1, .int 2]], .int 5, [.tuple []], rfl,
      List.forall_mem_singleton.mpr ⟨.int 1, .int 2, rfl⟩, .notIterable rfl⟩
  have herror := (field_pairs_agree.2.2 (.list [.tuple [.int 1, .int 2], .int 5, .tuple []]) _ _
    (by simp) rfl).mpr hrefused
  refine ⟨hv, hread, hsettled ▸ hfields, ?_, hcombine (List.cons_ne_nil _ _), herror⟩
  rw [hcompile, hd hself, hsettled]
  rfl

end Update

end DocQuery
