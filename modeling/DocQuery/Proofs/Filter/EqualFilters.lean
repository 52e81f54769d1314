import DocQuery.Proofs.Document.EqualEntries
import DocQuery.Proofs.Filter.Flat
import DocQuery.Proofs.Value.Comparable

/-!
# DocQuery.Proofs.Filter.EqualFilters — equal filters compile equally

Equality of filters goes by kind and fields, so two equal trees are walked together.  What the
compiler looks at in a leaf is seen by equality: the operator, whether the value is a tuple, whether
the options of a pattern are given.  So equal leaves have equal documents, and so have the trees
above them (`compilesEqually`).
-/

namespace DocQuery

/-! ### Operands -/

namespace Value

variable {v w : Value}

theorem operand_of_ne_tuple (h : ∀ xs, v ≠ .tuple xs) : v.operand = v.copy := by
  cases v with
  | tuple xs => exact absurd rfl (h xs)
  | _ => rfl

theorem operand_tuple {xs : List Value} (h : (Value.tuple xs).IsComparable) :
    (Value.tuple xs).operand = .ok (.list xs) := by
  have hdetached : xs.map detached = xs :=
    (List.map_congr_left fun x hx => (h.part (.tupleItem hx)).detached_eq).trans (List.map_id' xs)
  have hcopyable : itemsCopyable xs = true := h.isCopyable
  rw [operand, Filter.mapM_copy hcopyable, hdetached]
  rfl

/-- Only tuples are equal to tuples. -/
theorem exists_tuple_of_beq {xs : List Value} (h : w == .tuple xs) : ∃ ys, w = .tuple ys := by
  cases w with
  | tuple ys => exact ⟨ys, rfl⟩
  | pipeline name stages =>
    obtain ⟨_, _, -, hw⟩ := pipeline_beq_iff.mp h
    cases hw
  | _ => cases h

theorem exists_operand_beq (hv : v.IsComparable) (hw : w.IsComparable) (h : v == w) :
    ∃ a b, v.operand = .ok a ∧ w.operand = .ok b ∧ a == b := by
  by_cases htuple : ∃ xs, v = .tuple xs
  · obtain ⟨xs, rfl⟩ := htuple
    obtain ⟨ys, rfl, hxs⟩ := tuple_beq_iff.mp h
    exact ⟨_, _, operand_tuple hv, operand_tuple hw, list_beq_iff.mpr ⟨ys, rfl, hxs⟩⟩
  · have hv' : ∀ xs, v ≠ .tuple xs := fun xs hxs => htuple ⟨xs, hxs⟩
    have hw' : ∀ xs, w ≠ .tuple xs := fun xs hxs => htuple (exists_tuple_of_beq (hxs ▸ h))
    exact ⟨v, w, (operand_of_ne_tuple hv').trans hv.isCopy,
      (operand_of_ne_tuple hw').trans hw.isCopy, h⟩

end Value

namespace Filter

open Document (EqualEntries equalEntries_single)

/-! ### Leaves -/

/-- The field of a node is a text. -/
def TextField : Filter → Prop
  | .comparison field _ _ | .pattern field _ _ | .elemMatch field _ => ∃ s, field = .str s
  | _ => True

/-- A node that the compiler can make a document of: operators are operators and fields texts. -/
def Legible (f : Filter) : Prop := KnownOperator f ∧ TextField f

theorem equalEntries_nested (s t : String) {d e : Document} (h : d.EqualEntries e) :
    EqualEntries [(.str s, .single t (.doc d))] [(.str s, .single t (.doc e))] :=
  equalEntries_single s (equalEntries_single t h.doc_beq).doc_beq

theorem compare_equalResults (op : ComparisonOp) (s : String) {v w : Value} (hv : v.IsComparable)
    (hw : w.IsComparable) (h : v == w) :
    EqualResults (compare op (.str s) v).document (compare op (.str s) w).document := by
  by_cases hop : op = .eq
  · subst hop
    have hdocument := eq_document s hv.isCopyable
    have hdocument' := eq_document s hw.isCopyable
    rw [hv.detached_eq] at hdocument
    rw [hw.detached_eq] at hdocument'
    exact ⟨_, _, hdocument, hdocument', equalEntries_single s h⟩
  · obtain ⟨a, b, ha, hb, hab⟩ := Value.exists_operand_beq hv hw h
    exact ⟨_, _, compare_document s hop ha, compare_document s hop hb,
      equalEntries_single s (equalEntries_single op.key hab).doc_beq⟩

theorem pattern_equalResults (s : String) {regex flags regex' flags' : Value}
    (hflags : flags.IsComparable) (hr : regex == regex') (hf : flags == flags') :
    EqualResults (Filter.pattern (.str s) regex flags).document
      (Filter.pattern (.str s) regex' flags').document := by
  have hgiven : flags.isGiven = flags'.isGiven := hflags.self.isGiven_eq_of_beq hf
  have hpatterns : EqualEntries (patternDocument regex flags) (patternDocument regex' flags') := by
    rw [patternDocument, patternDocument, hgiven]
    refine .cons ⟨_, rfl, rfl, hr⟩ ?_
    split
    · exact equalEntries_single _ hf
    · exact .nil
  exact ⟨_, _, pattern_document s regex flags, pattern_document s regex' flags',
    equalEntries_single s hpatterns.doc_beq⟩

/-! ### Equal trees -/

theorem join_beq_iff {c : Connective} {xs : List Value} {g : Filter} :
    (Value.filter (c.join (.tuple xs)) == .filter g) = true ↔
      ∃ ys, g = c.join (.tuple ys) ∧ List.Forall₂ (fun x y : Value => x == y) xs ys := by
  have hjoin : ∀ children, (Value.filter (c.join (.tuple xs)) == .filter (c.join children)) =
      (Value.tuple xs == children) := by
    intro children
    cases c <;> rfl
  constructor
  · intro h
    have hg : ∃ children, g = c.join children := by
      cases c <;> cases g <;> first | exact ⟨_, rfl⟩ | cases h
    obtain ⟨children, rfl⟩ := hg
    obtain ⟨ys, rfl, hxs⟩ := Value.tuple_beq_iff.mp (hjoin children ▸ h)
    exact ⟨ys, rfl, hxs⟩
  · rintro ⟨ys, rfl, hxs⟩
    rw [hjoin]
    exact Value.tuple_beq_iff.mpr ⟨ys, rfl, hxs⟩

/-- An equal filter compiles to equal entries. -/
def CompilesEqually (f : Filter) : Prop :=
  ∀ g : Filter, g.All Legible → (Value.filter f).IsComparable → (Value.filter g).IsComparable →
    Value.filter f == .filter g → EqualResults f.document g.document

theorem node_equalResults {v w : Value} (hv : Optionally CompilesEqually v) (hw : NodeAll Legible w)
    (hvc : v.IsComparable) (hwc : w.IsComparable) (h : v == w) :
    EqualResults (nodeDocument v) (nodeDocument w) := by
  rcases hv with rfl | ⟨f, rfl, hf⟩
  · obtain rfl := (Value.scalar_beq_iff_eq rfl).mp h
    exact ⟨[], [], rfl, rfl, .nil⟩
  · rcases nodeAll_iff.mp hw with rfl | ⟨g, rfl, hg⟩
    · cases h
    · exact hf g hg hvc hwc h

theorem nodes_equalEntries {xs ys : List Value}
    (h : List.Forall₂ (fun x y => EqualResults (nodeDocument x) (nodeDocument y)) xs ys) :
    ∃ ds es, nodeDocuments xs = .ok ds ∧ nodeDocuments ys = .ok es ∧
      List.Forall₂ EqualEntries ds es := by
  induction h with
  | nil => exact ⟨[], [], rfl, rfl, .nil⟩
  | cons hxy _ ih =>
    obtain ⟨d, e, hd, he, hde⟩ := hxy
    obtain ⟨ds, es, hds, hes, hdocs⟩ := ih
    exact ⟨d :: ds, e :: es, nodeDocuments_cons hd hds, nodeDocuments_cons he hes,
      .cons hde hdocs⟩

theorem joined_equalEntries (c : Connective) {ds es : List Document}
    (h : List.Forall₂ EqualEntries ds es) :
    EqualEntries (joined c ds) (joined c es) := by
  have harrays : Value.list (ds.map .doc) == .list (es.map .doc) := by
    refine Value.list_beq_iff.mpr ⟨_, rfl, ?_⟩
    rw [List.forall₂_map_left_iff, List.forall₂_map_right_iff]
    exact h.imp fun _ _ hde => hde.doc_beq
  cases h with
  | nil => exact equalEntries_single c.key harrays
  | cons hde hrest =>
    cases hrest with
    | nil => exact hde
    | cons _ _ => exact equalEntries_single c.key harrays

theorem compilesEqually_join {c : Connective} {xs : List Value}
    (hxs : ∀ x ∈ xs, Optionally CompilesEqually x) :
    CompilesEqually (c.join (.tuple xs)) := by
  intro g hg hfc hgc h
  obtain ⟨ys, rfl, hequal⟩ := join_beq_iff.mp h
  obtain ⟨-, hys⟩ := all_join_tuple.mp hg
  have hpart : ∀ (zs : List Value) (z : Value), z ∈ zs →
      (Value.filter (c.join (.tuple zs))).IsComparable → z.IsComparable := by
    intro zs z hz hzs
    have hchildren : (Value.filter (c.join (.tuple zs))).nodeParts? = some [.tuple zs] := by
      cases c <;> rfl
    exact (hzs.part (.field hchildren List.mem_cons_self)).part (.tupleItem hz)
  have hnodes : List.Forall₂ (fun x y => EqualResults (nodeDocument x) (nodeDocument y)) xs ys :=
    forall₂_imp_of_mem (fun x hx y hy hxy =>
      node_equalResults (hxs x hx) (hys y hy) (hpart xs x hx hfc) (hpart ys y hy hgc) hxy) hequal
  obtain ⟨ds, es, hds, hes, hdocs⟩ := nodes_equalEntries hnodes
  exact ⟨_, _, join_document c hds, join_document c hes, joined_equalEntries c hdocs⟩

/-- Equal trees compile to equal documents. -/
theorem compilesEqually {f : Filter} (hf : f.All Legible) : CompilesEqually f := by
  have cases : TreeCases Legible CompilesEqually :=
    { comparison := fun field op value hp g hg hfc hgc h => by
        cases g with
        | comparison field' op' value' =>
          obtain ⟨⟨o, rfl⟩, s, rfl⟩ := hp
          obtain ⟨hfield, hop, hvalue⟩ : Value.str s == field' ∧
              Value.scalar (.comparisonOp o) == op' ∧ value == value' := by
            simpa using ((Value.node_beq_iff rfl rfl).mp h).2
          obtain rfl := (Value.scalar_beq_iff_eq rfl).mp hfield
          obtain rfl := (Value.scalar_beq_iff_eq rfl).mp hop
          have hv : value.IsComparable := hfc.part (.field rfl (by simp))
          have hw : value'.IsComparable := hgc.part (.field rfl (by simp))
          exact compare_equalResults o s hv hw hvalue
        | _ => cases h
      pattern := fun field regex flags hp g hg hfc hgc h => by
        cases g with
        | pattern field' regex' flags' =>
          obtain ⟨-, s, rfl⟩ := hp
          obtain ⟨hfield, hregex, hflags⟩ : Value.str s == field' ∧ regex == regex' ∧
              flags == flags' := by
            simpa using ((Value.node_beq_iff rfl rfl).mp h).2
          obtain rfl := (Value.scalar_beq_iff_eq rfl).mp hfield
          exact pattern_equalResults s (hfc.part (.field rfl (by simp))) hregex hflags
        | _ => cases h
      elemMatch := fun field inner hp hinner g hg hfc hgc h => by
        cases g with
        | elemMatch field' inner' =>
          obtain ⟨-, s, rfl⟩ := hp
          obtain ⟨hfield, hinners⟩ : Value.str s == field' ∧ inner == inner' := by
            simpa using ((Value.node_beq_iff rfl rfl).mp h).2
          obtain rfl := (Value.scalar_beq_iff_eq rfl).mp hfield
          have hv : inner.IsComparable := hfc.part (.field rfl (by simp))
          have hw : inner'.IsComparable := hgc.part (.field rfl (by simp))
          obtain ⟨d, e, hd, he, hde⟩ := node_equalResults hinner hg.2 hv hw hinners
          exact ⟨_, _, elemMatch_document s hd, elemMatch_document s he,
            equalEntries_nested s Key.elemMatch hde⟩
        | _ => cases h
      join := fun c xs _ hxs => compilesEqually_join hxs
      neg := fun inner _ hinner g hg hfc hgc h => by
        cases g with
        | neg inner' =>
          have hv : inner.IsComparable := hfc.part (.field rfl (by simp))
          have hw : inner'.IsComparable := hgc.part (.field rfl (by simp))
          obtain ⟨d, e, hd, he, hde⟩ := node_equalResults hinner hg.2 hv hw h
          have harrays : Value.list [.doc d] == .list [.doc e] :=
            Value.list_beq_iff.mpr ⟨_, rfl, .cons hde.doc_beq .nil⟩
          exact ⟨_, _, neg_document hd, neg_document he, equalEntries_single Key.nor harrays⟩
        | _ => cases h }
  exact cases.filter f hf

end Filter

end DocQuery
