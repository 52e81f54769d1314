import DocQuery.Expr.Basic
import DocQuery.Proofs.Filter.EqualFilters
import DocQuery.Proofs.Update.EqualUpdates

/-!
# DocQuery.Proofs.Interchange — equal nodes can stand for each other

A set keeps one of several equal members and a document one of several equal keys, so a node may be
replaced by an equal one without notice.  On comparable values equality is an equivalence, and equal
filters and equal updates compile to equal documents; what a collection keeps of a node therefore
compiles to what the node compiles to, up to equality (`equal_nodes_interchangeable`).
-/

namespace DocQuery

open DocQuery.Filter (Constructed NodeAll TextField)
open Update (Leaf Groups)

/-- A filter as constructors and operators make it, or nothing, with texts as fields and comparable
values. -/
structure FilterNode (v : Value) : Prop where
  constructed : Constructed v
  fields : NodeAll TextField v
  comparable : v.IsComparable

/-- An update as constructors make it, or nothing, with texts as fields and comparable values. -/
structure UpdateNode (v : Value) : Prop where
  grouped : ∃ us, (∀ u ∈ us, Leaf u) ∧ Groups us v
  comparable : v.IsComparable

/-- Both values compile, to equal documents. -/
def EqualCompiled (compile : Value → Except Fault Value) (v w : Value) : Prop :=
  ∃ c d, compile v = .ok c ∧ compile w = .ok d ∧ c == d

/-- Equal nodes of one sort compile to equal documents.  So there is a node that compiles like `v`
in any set to which `v` was added, and in any document in which a value was written under `v`, with
this value. -/
structure Interchangeable (node : Value → Prop) (compile : Value → Except Fault Value) : Prop where
  equal : ∀ v w, node v → node w → v == w → EqualCompiled compile v w
  member : ∀ v ms ms', node v → (∀ m ∈ ms, node m) → addMember ms v = .ok ms' →
    ∃ m ∈ ms', EqualCompiled compile m v
  key : ∀ v x d d', node v → (∀ e ∈ d, node e.1) → Document.add d v x = .ok d' →
    ∃ e ∈ d', e.2 = x ∧ EqualCompiled compile e.1 v

/-! ### Collections -/

/-- A member that was added is there, or an equal one was. -/
theorem mem_of_addMember {v : Value} {ms ms' : List Value} (h : addMember ms v = .ok ms') :
    v ∈ ms' ∨ ∃ m ∈ ms, m ∈ ms' ∧ m == v := by
  obtain ⟨-, -, h⟩ := exists_of_bind_eq_ok h
  obtain rfl := Except.ok.inj h
  split
  · rename_i hany
    obtain ⟨m, hm, hmv⟩ := List.any_eq_true.mp hany
    exact .inr ⟨m, hm, hm, hmv⟩
  · exact .inl (by simp)

/-- A value that was written under a key stands under this key, or under an equal one. -/
theorem mem_of_insert (d : Document) (k v : Value) :
    (k, v) ∈ d.insert k v ∨ ∃ e ∈ d, (e.1, v) ∈ d.insert k v ∧ e.1 == k := by
  induction d with
  | nil => exact .inl List.mem_cons_self
  | cons e d ih =>
    by_cases hek : (e.1 == k) = true
    · rw [Document.insert_cons_of_beq hek]
      exact .inr ⟨e, List.mem_cons_self, List.mem_cons_self, hek⟩
    · rw [Document.insert_cons_of_not_beq hek]
      rcases ih with h | ⟨f, hf, h, hfk⟩
      · exact .inl (List.mem_cons_of_mem _ h)
      · exact .inr ⟨f, List.mem_cons_of_mem _ hf, List.mem_cons_of_mem _ h, hfk⟩

theorem interchangeable {node : Value → Prop} {compile : Value → Except Fault Value}
    (hself : ∀ v, node v → v == v)
    (h : ∀ v w, node v → node w → v == w → EqualCompiled compile v w) :
    Interchangeable node compile where
  equal := h
  member := by
    intro v ms ms' hv hms hadd
    rcases mem_of_addMember hadd with hmem | ⟨m, hm, hmem, hmv⟩
    · exact ⟨v, hmem, h v v hv hv (hself v hv)⟩
    · exact ⟨m, hmem, h m v (hms m hm) hv hmv⟩
  key := by
    intro v x d d' hv hd hadd
    obtain ⟨-, rfl⟩ := Document.add_eq_ok_iff.mp hadd
    rcases mem_of_insert d v x with hmem | ⟨e, he, hmem, hev⟩
    · exact ⟨_, hmem, rfl, h v v hv hv (hself v hv)⟩
    · exact ⟨_, hmem, rfl, h e.1 v (hd e he) hv hev⟩

/-! ### Filters and updates -/

theorem FilterNode.legible {v : Value} (h : FilterNode v) : NodeAll Filter.Legible v := by
  rcases h.constructed.sound with rfl | ⟨f, rfl, hf⟩
  · trivial
  · exact (hf.and h.fields).imp fun g hg => ⟨hg.1.2, hg.2⟩

theorem FilterNode.equalCompiled {v w : Value} (hv : FilterNode v) (hw : FilterNode w)
    (h : v == w) : EqualCompiled Filter.compile v w := by
  have htree : Filter.Optionally Filter.CompilesEqually v := by
    rcases Filter.nodeAll_iff.mp hv.legible with rfl | ⟨f, rfl, hf⟩
    · exact .inl rfl
    · exact .inr ⟨f, rfl, Filter.compilesEqually hf⟩
  obtain ⟨d, e, hd, he, hde⟩ :=
    Filter.node_equalResults htree hw.legible hv.comparable hw.comparable h
  refine ⟨.doc d, .doc e, ?_, ?_, hde.doc_beq⟩
  · rw [Filter.compile, hd]
    rfl
  · rw [Filter.compile, he]
    rfl

theorem UpdateNode.equalCompiled {v w : Value} (hv : UpdateNode v) (hw : UpdateNode w)
    (h : v == w) : EqualCompiled Update.compile v w := by
  obtain ⟨us, hus, hgroups⟩ := hv.grouped
  obtain ⟨us', hus', hgroups'⟩ := hw.grouped
  obtain ⟨d, e, hd, he, hde⟩ :=
    (hgroups.built hus).equalResults (hgroups'.built hus') hv.comparable hw.comparable h
  refine ⟨.doc d, .doc e, ?_, ?_, hde.doc_beq⟩
  · rw [Update.compile, hd]
    rfl
  · rw [Update.compile, he]
    rfl

/-- Equality is an equivalence on comparable values, and a congruence for both compilers: equal
filters compile to equal documents, and so do equal updates, so they can stand for each other in
sets and as keys. -/
theorem equal_nodes_interchangeable :
    (∀ v : Value, v.IsComparable → v == v) ∧
    (∀ v w : Value, v.IsComparable → v == w → w == v) ∧
    (∀ v w x : Value, v == w → w == x → v == x) ∧
    Interchangeable FilterNode Filter.compile ∧ Interchangeable UpdateNode Update.compile := by
  refine ⟨fun v hv => hv.beq_self, fun v w hv h => ?_, fun v w x => Value.beq_trans, ?_, ?_⟩
  · exact Value.beq_symm hv.everywhere_hasDistinctParts h
  · exact interchangeable (fun v hv => hv.comparable.beq_self) fun v w => FilterNode.equalCompiled
  · exact interchangeable (fun v hv => hv.comparable.beq_self) fun v w => UpdateNode.equalCompiled

/-- Numbers of three kinds, bytes of two and documents in two orders: a filter and an update, each
beside one that is equal to it. -/
theorem equal_nodes_interchangeable_kinds :
    let one : Value := .scalar (.float (.finite ⟨false, 1, 0, .inl (by decide)⟩))
    let bytes : Value := .scalar (.bytes [65])
    let array : Value := .scalar (.byteArray [65])
    let conditions (x y : Value) (d : Document) : List Value :=
      [.filter (Filter.isIn (.str "a") (.list [x, y])), .filter (Filter.eq (.str "b") (.doc d))]
    let f : Value := .filter (.conj (.tuple
      (conditions (.int 1) bytes [(.str "x", .int 1), (.str "y", .bool true)])))
    let g : Value := .filter (.conj (.tuple
      (conditions (.bool true) array [(.str "y", one), (.str "x", .bool true)])))
    let changes (x y : Value) : List Update :=
      [.assignAll [(.str "n", x), (.str "m", .null), (.str "n", y)], Update.inc (.str "k") x]
    let u : Value := Update.combine ((changes (.int 1) bytes).map .update)
    let w : Value := Update.combine ((changes one array).map .update)
    (f == g ∧ g == f ∧ EqualCompiled Filter.compile f g) ∧
      u == w ∧ w == u ∧ EqualCompiled Update.compile u w := by
  intro one bytes array conditions f g changes u w
  obtain ⟨-, hsymm, -, hfilters, hupdates⟩ := equal_nodes_interchangeable
  have hfilter : ∀ x y d, x.IsComparable → y.IsComparable → (Value.doc d).IsComparable →
      FilterNode (.filter (.conj (.tuple (conditions x y d)))) := by
    intro x y d hx hy hd
    have hparts : ∀ v ∈ conditions x y d, Constructed v := by
      simpa [conditions] using ⟨.comparison .isIn _ _, .comparison .eq _ _⟩
    have hvalues : (Value.list [x, y]).frozen.IsComparable :=
      Value.isComparable_tuple.mpr (by simp [hx, hy])
    refine ⟨.combine .and hparts rfl, ⟨trivial, ⟨"a", rfl⟩, ⟨"b", rfl⟩, trivial⟩, ?_⟩
    refine (Value.isComparable_node rfl).mpr (List.forall_mem_singleton.mpr ?_)
    refine Value.isComparable_tuple.mpr
      (List.forall_mem_cons.mpr ⟨?_, List.forall_mem_singleton.mpr ?_⟩)
    · exact (Value.isComparable_node rfl).mpr (by simpa using hvalues)
    · exact (Value.isComparable_node rfl).mpr (by simpa using hd)
  have hupdate : ∀ x y, x.IsComparable → y.IsComparable →
      UpdateNode (Update.combine ((changes x y).map .update)) := by
    intro x y hx hy
    have hpairs : ∀ p ∈ [(.str "n", x), (.str "m", .null), (.str "n", y)],
        (∃ s, p.1 = Value.str s) ∧ p.2.isCopyable := by
      simp [hx.isCopyable, hy.isCopyable, Value.isCopyable]
    have hleaves : ∀ v ∈ changes x y, Leaf v :=
      List.forall_mem_cons.mpr
        ⟨.assignAll hpairs, List.forall_mem_singleton.mpr (.assign .inc "k" hx.isCopyable)⟩
    refine ⟨⟨_, hleaves, .combine (.cons (.alone _) (.cons (.alone _) .nil))⟩, ?_⟩
    refine (Value.isComparable_node rfl).mpr (List.forall_mem_singleton.mpr ?_)
    refine Value.isComparable_tuple.mpr
      (List.forall_mem_cons.mpr ⟨?_, List.forall_mem_singleton.mpr ?_⟩)
    · exact (Value.isComparable_node rfl).mpr (by simp [hx, hy])
    · exact (Value.isComparable_node rfl).mpr (by simp [hx])
  have hf : FilterNode f := hfilter _ _ _ (by simp) (by simp [bytes]) (by simp)
  have hg : FilterNode g := hfilter _ _ _ (by simp) (by simp [array]) (by simp [one])
  have hu : UpdateNode u := hupdate _ _ (by simp) (by simp [bytes])
  have hw : UpdateNode w := hupdate _ _ (by simp [one]) (by simp [array])
  have hfg : f == g := by decide
  have huw : u == w := by decide
  exact ⟨⟨hfg, hsymm f g hf.comparable hfg, hfilters.equal f g hf hg hfg⟩,
    huw, hsymm u w hu.comparable huw, hupdates.equal u w hu hw huw⟩

end DocQuery
