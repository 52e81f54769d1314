import Mathlib.Data.List.Nodup
import DocQuery.Proofs.Document.Settled
import DocQuery.Update.Document

/-!
# DocQuery.Proofs.Update.Gathered — merging update documents

A `Write` is what one update of fields asks for: pairs under an operator, perhaps none.
`Update.gathered` describes the document of a sequence of writes: operators in the order of their
first write, and under each what its pairs settle.  The step lemma `absorbEntry_gathered` adds one
write; merging the documents of two sequences gives the document of the one followed by the other
(`absorb_gathered`), so nothing that was merged before is lost.
-/

namespace DocQuery.Update

open Document (ProperKeys settled Fresh)

/-- Pairs of fields and values under an operator. -/
structure Write where
  operator : String
  pairs : List (Value × Value)

/-- One value for one field under an operator. -/
structure Assignment where
  operator : String
  field : Value
  value : Value

/-- The assignments of writes, from left to right. -/
def assignments (ws : List Write) : List Assignment :=
  ws.flatMap fun w => w.pairs.map fun p => ⟨w.operator, p.1, p.2⟩

/-- The operators of writes, in the order of their first occurrence. -/
def operators (ws : List Write) : List String := (ws.map (·.operator)).eraseDups

/-- The fields and values of the assignments under an operator. -/
def pairsUnder (op : String) (ws : List Write) : List (Value × Value) :=
  ((assignments ws).filter fun a => a.operator == op).map fun a => (a.field, a.value)

/-- The document of writes: their operators, and under each what its pairs settle. -/
def gathered (ws : List Write) : Document :=
  (operators ws).map fun op => (.str op, .doc (settled (pairsUnder op ws)))

/-- Every field can be a key. -/
def ProperFields (ws : List Write) : Prop := ∀ w ∈ ws, ProperKeys w.pairs

variable {ws vs : List Write} {op : String}

/-! ### Sequences of writes -/

theorem pairsUnder_append (op : String) (ws vs : List Write) :
    pairsUnder op (ws ++ vs) = pairsUnder op ws ++ pairsUnder op vs := by
  simp [pairsUnder, assignments]

theorem pairsUnder_singleton (op o : String) (ps : List (Value × Value)) :
    pairsUnder op [⟨o, ps⟩] = if o = op then ps else [] := by
  by_cases h : o = op
  · simp [pairsUnder, assignments, h, List.filter_map, Function.comp_def]
  · simp [pairsUnder, assignments, h, List.filter_map, Function.comp_def]

theorem mem_operators : op ∈ operators ws ↔ ∃ w ∈ ws, w.operator = op := by
  simp [operators]

theorem pairsUnder_of_notMem (h : op ∉ operators ws) : pairsUnder op ws = [] := by
  rw [pairsUnder, List.map_eq_nil_iff, List.filter_eq_nil_iff]
  intro a ha hop
  obtain ⟨w, hw, ha⟩ := List.mem_flatMap.mp ha
  obtain ⟨p, -, rfl⟩ := List.mem_map.mp ha
  exact h (mem_operators.mpr ⟨w, hw, by simpa using hop⟩)

theorem properKeys_pairsUnder (h : ProperFields ws) (op : String) :
    ProperKeys (pairsUnder op ws) := by
  intro e he
  obtain ⟨a, ha, rfl⟩ := List.mem_map.mp he
  obtain ⟨w, hw, ha⟩ := List.mem_flatMap.mp (List.mem_filter.mp ha).1
  obtain ⟨p, hp, rfl⟩ := List.mem_map.mp ha
  exact h w hw p hp

theorem eraseDups_concat (xs : List String) (x : String) :
    (xs ++ [x]).eraseDups = if x ∈ xs then xs.eraseDups else xs.eraseDups ++ [x] := by
  rw [List.eraseDups_append]
  by_cases h : x ∈ xs
  · simp [h, List.removeAll]
  · simp [h, List.removeAll, List.eraseDups_cons]

theorem nodup_eraseDups (xs : List String) : xs.eraseDups.Nodup := by
  induction xs using List.reverseRecOn with
  | nil => exact List.nodup_nil
  | append_singleton xs x ih =>
    rw [eraseDups_concat]
    split
    · exact ih
    · rename_i hx
      rw [← List.concat_eq_append]
      exact ih.concat (by simpa using hx)

theorem eraseDups_append_eraseDups (xs ys : List String) :
    (xs ++ ys.eraseDups).eraseDups = (xs ++ ys).eraseDups := by
  induction ys using List.reverseRecOn with
  | nil => rfl
  | append_singleton ys y ih =>
    rw [← List.append_assoc, eraseDups_concat (xs ++ ys), eraseDups_concat ys]
    by_cases hy : y ∈ ys
    · rw [if_pos hy, if_pos (List.mem_append_right xs hy), ih]
    · rw [if_neg hy, ← List.append_assoc, eraseDups_concat, ih]
      simp [hy]

theorem operators_concat (ws : List Write) (w : Write) :
    operators (ws ++ [w]) =
      if w.operator ∈ operators ws then operators ws else operators ws ++ [w.operator] := by
  rw [operators, List.map_append, List.map_singleton, eraseDups_concat]
  simp [operators]

/-! ### One more write -/

theorem nodup_operators (ws : List Write) : (operators ws).Nodup := nodup_eraseDups _

theorem fresh_gathered (ws : List Write) : Fresh (gathered ws) := by
  refine List.pairwise_map.mpr ((nodup_operators ws).imp fun hne => ?_)
  simpa using hne

theorem lookup?_map_str (ops : List String) (payload : String → Value) (op : String) :
    Document.lookup? (ops.map fun o => (.str o, payload o)) (.str op) =
      if op ∈ ops then some (payload op) else none := by
  induction ops with
  | nil => rfl
  | cons o ops ih =>
    rw [List.map_cons, Document.lookup?_cons, ih, Value.str_beq_str]
    by_cases h : o = op
    · simp [h]
    · simp [h, Ne.symm h]

/-- Under an operator stands what its pairs settle, and under others nothing. -/
theorem lookup?_gathered (ws : List Write) (op : String) :
    (gathered ws).lookup? (.str op) =
      if op ∈ operators ws then some (.doc (settled (pairsUnder op ws))) else none :=
  lookup?_map_str _ _ op

/-- Pairs settle the same if those before have been settled, and those after. -/
theorem extend_settled {ps qs : List (Value × Value)} (hps : ProperKeys ps)
    (hqs : ProperKeys qs) : Document.extend (settled ps) (settled qs) = settled (ps ++ qs) := by
  rw [← Document.ofPairs_eq_settled hqs, Document.extend_ofPairs hqs,
    Document.settled_append hps hqs]

theorem absorbEntry_of_lookup? {d old : Document} {key : Value}
    (h : d.lookup? key = some (.doc old)) (new : Document) :
    (d.absorbEntry key (.doc new)).1 = d.insert key (.doc (old.extend new)) := by
  unfold Document.absorbEntry
  rw [h]

theorem absorbEntry_of_lookup?_eq_none {d : Document} {key : Value} (h : d.lookup? key = none)
    (payload : Value) : (d.absorbEntry key payload).1 = d.insert key payload := by
  unfold Document.absorbEntry
  rw [h]

/-- Merging in the document of one write. -/
theorem absorbEntry_gathered (hws : ProperFields ws) {ps : List (Value × Value)}
    (hps : ProperKeys ps) :
    ((gathered ws).absorbEntry (.str op) (.doc (settled ps))).1 = gathered (ws ++ [⟨op, ps⟩]) := by
  have hlookup := lookup?_gathered ws op
  have hpairs : ∀ o, pairsUnder o (ws ++ [⟨op, ps⟩]) =
      pairsUnder o ws ++ if op = o then ps else [] := by
    intro o
    rw [pairsUnder_append, pairsUnder_singleton]
  conv_rhs => rw [gathered, operators_concat]
  by_cases hop : op ∈ operators ws
  · -- The payload under the operator grows, the others stay.
    rw [if_pos hop] at hlookup
    have hthere : ((gathered ws).lookup? (.str op)).isSome := by rw [hlookup]; rfl
    rw [if_pos hop, absorbEntry_of_lookup? hlookup,
      extend_settled (properKeys_pairsUnder hws op) hps,
      Document.insert_eq_map (fresh_gathered ws) (Value.isHashable_str op)
        hthere, gathered, List.map_map]
    refine List.map_congr_left fun o _ => ?_
    by_cases ho : op = o
    · subst ho
      simp [hpairs]
    · simp [hpairs, ho]
  · -- The operator is new, and nothing was written under it.
    rw [if_neg hop] at hlookup
    have hnone := pairsUnder_of_notMem hop
    rw [if_neg hop, absorbEntry_of_lookup?_eq_none hlookup,
      Document.insert_of_lookup?_eq_none hlookup, List.map_append, List.map_singleton, hpairs,
      hnone, if_pos rfl, List.nil_append, gathered]
    congr 1
    refine List.map_congr_left fun o ho => ?_
    have hne : op ≠ o := fun h => hop (h ▸ ho)
    simp [hpairs, hne]

/-! ### Merged documents -/

/-- The writes of each operator, drawn together. -/
def grouped (ws : List Write) : List Write :=
  (operators ws).map fun op => ⟨op, pairsUnder op ws⟩

theorem pairsUnder_map {ops : List String} (hops : ops.Nodup)
    (pairs : String → List (Value × Value)) (op : String) :
    pairsUnder op (ops.map fun o => ⟨o, pairs o⟩) = if op ∈ ops then pairs op else [] := by
  induction ops with
  | nil => rfl
  | cons o ops ih =>
    obtain ⟨ho, hops⟩ := List.nodup_cons.mp hops
    rw [List.map_cons, ← List.singleton_append, pairsUnder_append, pairsUnder_singleton, ih hops]
    by_cases h : o = op
    · subst h
      simp [ho]
    · simp [h, Ne.symm h]

theorem pairsUnder_grouped (op : String) (ws : List Write) :
    pairsUnder op (grouped ws) = pairsUnder op ws := by
  rw [grouped, pairsUnder_map (nodup_operators ws)]
  split
  · rfl
  · rename_i h
    exact (pairsUnder_of_notMem h).symm

theorem gathered_append_grouped (ws vs : List Write) :
    gathered (ws ++ grouped vs) = gathered (ws ++ vs) := by
  have hops : operators (ws ++ grouped vs) = operators (ws ++ vs) := by
    have hkeys : (grouped vs).map (·.operator) = (vs.map (·.operator)).eraseDups := by
      simp [grouped, operators, Function.comp_def]
    rw [operators, operators, List.map_append, List.map_append, hkeys, eraseDups_append_eraseDups]
  rw [gathered, gathered, hops]
  simp only [pairsUnder_append, pairsUnder_grouped]

theorem properFields_nil : ProperFields [] := fun _ hw => nomatch hw

theorem properFields_singleton {w : Write} (h : ProperKeys w.pairs) : ProperFields [w] :=
  List.forall_mem_singleton.mpr h

theorem ProperFields.append (hws : ProperFields ws) (hvs : ProperFields vs) :
    ProperFields (ws ++ vs) :=
  List.forall_mem_append.mpr ⟨hws, hvs⟩

theorem absorb_map_gathered (hws : ProperFields ws) (hvs : ProperFields vs) :
    ((gathered ws).absorb (vs.map fun w => (.str w.operator, .doc (settled w.pairs)))).1 =
      gathered (ws ++ vs) := by
  induction vs generalizing ws with
  | nil => simp [Document.absorb]
  | cons w vs ih =>
    obtain ⟨hw, hvs⟩ := List.forall_mem_cons.mp hvs
    have hstep : ((gathered ws).absorbEntry (.str w.operator) (.doc (settled w.pairs))).1 =
        gathered (ws ++ [w]) := absorbEntry_gathered hws hw
    have hrest := ih (hws.append (properFields_singleton hw)) hvs
    rw [List.append_assoc, List.singleton_append] at hrest
    rw [List.map_cons, Document.absorb, hstep]
    exact hrest

/-- Merging documents of writes is gathering one after the other. -/
theorem absorb_gathered (hws : ProperFields ws) (hvs : ProperFields vs) :
    ((gathered ws).absorb (gathered vs)).1 = gathered (ws ++ vs) := by
  have hgrouped : ProperFields (grouped vs) := by
    intro w hw
    obtain ⟨op, -, rfl⟩ := List.mem_map.mp hw
    exact properKeys_pairsUnder hvs op
  have hdoc : gathered vs =
      (grouped vs).map fun w => (.str w.operator, .doc (settled w.pairs)) := by
    rw [grouped, List.map_map]
    rfl
  rw [hdoc, absorb_map_gathered hws hgrouped, gathered_append_grouped]

end DocQuery.Update
