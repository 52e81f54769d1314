import DocQuery.Proofs.Document.EqualEntries
import DocQuery.Proofs.Update.Reordering
import DocQuery.Proofs.Value.Comparable

/-!
# DocQuery.Proofs.Update.EqualUpdates — equal updates compile equally

Equal updates write the same fields under the same operators, in the same order, with equal values
(`Built.equalWrites`).  What is merged out of writes depends on operators and fields only, and these
are texts, so the last value written to a field comes from the same place on both sides
(`equalEntries_gathered`).
-/

namespace DocQuery.Update

open Document (EqualEntries equalEntries_single settled)

/-! ### Trees of updates -/

/-- An update as constructors make it: nothing, a single update, or a combination of such. -/
inductive Built : Value → Prop
  | absent : Built .null
  | alone {u : Update} (h : Leaf u) : Built (.update u)
  | combined {vs : List Value} (h : ∀ v ∈ vs, Built v) : Built (.update (.combined (.tuple vs)))

variable {u u' : Update} {us : List Update} {v w : Value} {vs : List Value} {ws xs : List Write}

mutual

theorem Groups.built {us : List Update} {v : Value} (h : Groups us v) (hus : ∀ u ∈ us, Leaf u) :
    Built v := by
  match h with
  | .absent => exact .absent
  | .alone u => exact .alone (hus u List.mem_cons_self)
  | .combine hs => exact combine_induction .absent (fun _ => .combined) (hs.built hus)

theorem GroupsEach.built {us : List Update} {vs : List Value} (h : GroupsEach us vs)
    (hus : ∀ u ∈ us, Leaf u) : ∀ v ∈ vs, Built v := by
  match h with
  | .nil => exact fun v hv => absurd hv List.not_mem_nil
  | .cons hv hvs =>
    obtain ⟨hus, hws⟩ := List.forall_mem_append.mp hus
    exact List.forall_mem_cons.mpr ⟨hv.built hus, hvs.built hws⟩

end

theorem Built.nodeRegular (h : Built v) : NodeRegular v := by
  induction h with
  | absent => trivial
  | alone h => exact h.isRegular
  | combined _ ih => exact nodesRegular_iff.mpr ih

/-! ### Writes -/

/-- The same operator and the same fields with equal values. -/
def EqualWrite (w x : Write) : Prop := w.operator = x.operator ∧ EqualEntries w.pairs x.pairs

theorem equalEntries_copied {ps qs : List (Value × Value)}
    (hps : (Value.update (.assignAll ps)).IsComparable)
    (hqs : (Value.update (.assignAll qs)).IsComparable) (htexts : ∀ p ∈ ps, ∃ s, p.1 = .str s)
    (h : Value.update (.assignAll ps) == .update (.assignAll qs)) :
    EqualEntries (copied ps) (copied qs) := by
  have hvalues : ∀ rs : List (Value × Value), (Value.update (.assignAll rs)).IsComparable →
      ∀ r ∈ rs, r.2.detached = r.2 := by
    intro rs hrs r hr
    have hvalue : r.2.IsComparable := hrs.part
      (.field rfl (List.mem_flatMap.mpr ⟨r, hr, by simp⟩))
    exact hvalue.detached_eq
  rw [copied_eq_self (hvalues ps hps), copied_eq_self (hvalues qs hqs)]
  refine forall₂_imp_of_mem (fun p hp q _ hpq => ?_) (equalPairs_iff.mp h)
  obtain ⟨s, hs⟩ := htexts p hp
  rw [hs] at hpq
  exact ⟨s, hs, (Value.scalar_beq_iff_eq rfl).mp hpq.1, hpq.2⟩

theorem Leaf.equalWrites (hu : Leaf u) (hu' : Leaf u') (hc : (Value.update u).IsComparable)
    (hc' : (Value.update u').IsComparable) (h : Value.update u == .update u') :
    List.Forall₂ EqualWrite u.writes u'.writes := by
  cases hu with
  | @assign op field value hv =>
    cases hu' with
    | @assign op' field' value' hv' =>
      obtain ⟨hop, hfield, hvalue⟩ : Value.scalar (.updateOp op) == .scalar (.updateOp op') ∧
          field = field' ∧ value == value' := by
        simpa using ((Value.node_beq_iff rfl rfl).mp h).2
      obtain rfl : op = op' := by
        simpa using ((Value.scalar_beq_iff_eq rfl).mp hop).symm
      have hdetached : value.detached = value :=
        Value.IsComparable.detached_eq (hc.part (.field rfl (by simp)))
      have hdetached' : value'.detached = value' :=
        Value.IsComparable.detached_eq (hc'.part (.field rfl (by simp)))
      subst hfield
      refine .cons ⟨rfl, equalEntries_single field ?_⟩ .nil
      rwa [hdetached, hdetached']
    | _ => cases h
  | assignAll hps =>
    cases hu' with
    | assignAll =>
      have htexts := equalEntries_copied hc hc' (fun p hp => (hps p hp).1) h
      exact .cons ⟨rfl, htexts⟩ .nil
    | _ => cases h
  | rename source target =>
    cases hu' with
    | rename source' target' =>
      obtain ⟨hsource, htarget⟩ : source = source' ∧ target == target' := by
        simpa using ((Value.node_beq_iff rfl rfl).mp h).2
      subst hsource
      exact .cons ⟨rfl, equalEntries_single source htarget⟩ .nil
    | _ => cases h

theorem forall₂_flatMap {α β : Type} {r : β → β → Prop} {f : α → List β} {as bs : List α}
    (h : List.Forall₂ (fun a b => List.Forall₂ r (f a) (f b)) as bs) :
    List.Forall₂ r (as.flatMap f) (bs.flatMap f) := by
  induction h with
  | nil => exact .nil
  | cons hab _ ih =>
    rw [List.flatMap_cons, List.flatMap_cons]
    exact List.rel_append hab ih

/-- Equal updates write equal values to the same fields. -/
theorem Built.equalWrites (hv : Built v) (hw : Built w) (hvc : v.IsComparable)
    (hwc : w.IsComparable) (h : v == w) :
    List.Forall₂ EqualWrite (nodeWrites v) (nodeWrites w) := by
  induction hv generalizing w with
  | absent =>
    obtain rfl := (Value.scalar_beq_iff_eq rfl).mp h
    exact .nil
  | alone hu =>
    cases hw with
    | absent => cases h
    | alone hu' => exact hu.equalWrites hu' hvc hwc h
    | combined => cases hu <;> cases h
  | @combined vs hvs ih =>
    cases hw with
    | absent => cases h
    | alone hu' => cases hu' <;> cases h
    | @combined ws hws =>
      have hitems : List.Forall₂ (fun x y : Value => x == y) vs ws := equalItems_iff.mp h
      have hmember : ∀ (xs : List Value), (Value.update (.combined (.tuple xs))).IsComparable →
          ∀ x ∈ xs, x.IsComparable := by
        intro xs hxs x hx
        have hchildren : (Value.tuple xs).IsComparable := hxs.part (.field rfl List.mem_cons_self)
        exact hchildren.part (.tupleItem hx)
      have hwrites : List.Forall₂
          (fun x y => List.Forall₂ EqualWrite (nodeWrites x) (nodeWrites y)) vs ws :=
        forall₂_imp_of_mem (fun x hx y hy hxy =>
          ih x hx (hws y hy) (hmember vs hvc x hx) (hmember ws hwc y hy) hxy) hitems
      have hflat := forall₂_flatMap hwrites
      rwa [← nodesWrites_eq_flatMap, ← nodesWrites_eq_flatMap] at hflat

/-! ### Documents of equal writes -/

theorem operators_eq_of_equalWrites (h : List.Forall₂ EqualWrite ws xs) :
    operators ws = operators xs := by
  have hmap : ws.map (·.operator) = xs.map (·.operator) := by
    induction h with
    | nil => rfl
    | cons hwx _ ih => rw [List.map_cons, List.map_cons, hwx.1, ih]
  rw [operators, operators, hmap]

theorem equalEntries_pairsUnder (h : List.Forall₂ EqualWrite ws xs) (op : String) :
    EqualEntries (pairsUnder op ws) (pairsUnder op xs) := by
  induction h with
  | nil => exact .nil
  | @cons w x ws xs hwx _ ih =>
    have hhead : EqualEntries (pairsUnder op [w]) (pairsUnder op [x]) := by
      rw [pairsUnder_singleton, pairsUnder_singleton, hwx.1]
      split
      · exact hwx.2
      · exact .nil
    rw [← List.singleton_append, pairsUnder_append, ← List.singleton_append (l := xs),
      pairsUnder_append]
    exact List.rel_append hhead ih

theorem equalEntries_gathered (h : List.Forall₂ EqualWrite ws xs) :
    EqualEntries (gathered ws) (gathered xs) := by
  rw [gathered, gathered, operators_eq_of_equalWrites h, EqualEntries, List.forall₂_map_left_iff,
    List.forall₂_map_right_iff]
  refine List.forall₂_same.mpr fun op _ => ⟨op, rfl, rfl, ?_⟩
  exact (equalEntries_pairsUnder h op).settled.doc_beq

/-- Equal updates compile to equal documents. -/
theorem Built.equalResults (hv : Built v) (hw : Built w) (hvc : v.IsComparable)
    (hwc : w.IsComparable) (h : v == w) : EqualResults (nodeDocument v) (nodeDocument w) :=
  ⟨_, _, nodeDocument_eq_gathered v hv.nodeRegular, nodeDocument_eq_gathered w hw.nodeRegular,
    equalEntries_gathered (hv.equalWrites hw hvc hwc h)⟩

end DocQuery.Update
