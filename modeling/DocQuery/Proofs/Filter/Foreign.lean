import DocQuery.Proofs.Foreign

/-!
# DocQuery.Proofs.Filter.Foreign — objects that are no filters

In a tree that the constructors made of filters nothing is foreign.  No constructor loses a foreign
object or changes the order in which they are met (`exists_combine_foreign`), and with one among the
operands nothing compiles (`compile_combine_of_isForeign`).
-/

namespace DocQuery.Filter

open NodeFamily (objects foreign ProperTree belowFilter itemObjects_eq_flatMap isNull_of_isForeign
  nodeDocument_of_isForeign compile_of_isForeign exists_error_of_isForeign)

/-! ### Positions -/

/-- Neither a filter nor absent. -/
abbrev isForeign (v : Value) : Bool := NodeFamily.filter.isForeign v

theorem isForeign_iff {v : Value} :
    isForeign v = true ↔ v ≠ .null ∧ ∀ f, v ≠ .filter f := by
  constructor
  · intro h
    refine ⟨?_, fun f => ?_⟩
    all_goals
      rintro rfl
      cases h
  · rintro ⟨hnull, hfilter⟩
    cases v with
    | scalar s => cases s <;> first | rfl | exact absurd rfl hnull
    | filter f => exact absurd rfl (hfilter f)
    | _ => rfl

theorem isForeign_eq_false_iff {v : Value} :
    isForeign v = false ↔ v = .null ∨ ∃ f, v = .filter f := by
  rw [← Bool.not_eq_true, isForeign_iff, not_and_or, not_not, not_forall]
  simp only [ne_eq, not_not]

theorem belowFilter_join (c : Connective) (xs : List Value) :
    belowFilter (c.join (.tuple xs)) = xs.flatMap (objects .filter) := by
  rw [← itemObjects_eq_flatMap]
  cases c <;> rfl

theorem holds_join (c : Connective) (xs : List Value) :
    NodeFamily.filter.Holds (.filter (c.join (.tuple xs))) xs where
  own := rfl
  objects_eq := congrArg (_ :: ·) (belowFilter_join c xs)

theorem proper_join {c : Connective} {children : Value} :
    (c.join children).Proper ↔ ∃ xs, children = .tuple xs := by
  cases c <;> rfl

theorem properTree_join_tuple {c : Connective} {xs : List Value} :
    ProperTree .filter (.filter (c.join (.tuple xs))) ↔ ∀ x ∈ xs, ProperTree .filter x := by
  rw [(holds_join c xs).properTree_iff]
  exact and_iff_right (proper_join.mpr ⟨xs, rfl⟩)

/-- In a tree of filters nothing is foreign. -/
theorem isForeign_of_mem_objects {p : Filter → Prop} {v : Value} (h : NodeAll p v) :
    ∀ x ∈ objects .filter v, isForeign x = false := by
  have hnode : ∀ {w : Value}, Optionally (fun f => ∀ x ∈ belowFilter f, isForeign x = false) w →
      ∀ x ∈ objects .filter w, isForeign x = false := by
    rintro w (rfl | ⟨f, rfl, hf⟩)
    · exact List.forall_mem_singleton.mpr rfl
    · exact List.forall_mem_cons.mpr ⟨rfl, hf⟩
  have cases : TreeCases p fun f => ∀ x ∈ belowFilter f, isForeign x = false :=
    { comparison := fun _ _ _ _ _ hx => nomatch hx
      pattern := fun _ _ _ _ _ hx => nomatch hx
      elemMatch := fun _ _ _ hinner => hnode hinner
      join := fun c xs _ hxs x hx => by
        rw [belowFilter_join] at hx
        obtain ⟨y, hy, hx⟩ := List.mem_flatMap.mp hx
        exact hnode (hxs y hy) x hx
      neg := fun _ _ hinner => hnode hinner }
  exact hnode (cases.node v h)

theorem Constructed.isForeign_eq_false {v : Value} (h : Constructed v) : isForeign v = false := by
  rcases h.sound with rfl | ⟨f, rfl, -⟩
  · rfl
  · rfl

theorem Constructed.not_isForeign {v : Value} (h : Constructed v) : ¬isForeign v = true := by
  rw [h.isForeign_eq_false]
  exact Bool.false_ne_true

theorem Constructed.isForeign_of_mem_objects {v : Value} (h : Constructed v) :
    ∀ x ∈ objects .filter v, isForeign x = false :=
  Filter.isForeign_of_mem_objects (nodeAll_iff.mpr h.sound)

/-! ### Constructors -/

/-- A foreign operand stays. -/
theorem flatten_foreign_cons (c : Connective) {x : Value} (hx : isForeign x = true)
    (vs : List Value) : c.flatten (x :: vs) = do return x :: (← c.flatten vs) := by
  have hnull : x.isNull = false := isNull_of_isForeign hx
  have hchildren : c.childrenOf? x = none := by
    cases x with
    | filter f => cases hx
    | _ => cases c <;> rfl
  rw [Connective.flatten, hnull, if_neg Bool.false_ne_true, hchildren]

/-- Flattening keeps the foreign objects of its operands, in their order. -/
theorem exists_flatten_foreign (c : Connective) {vs : List Value}
    (h : ∀ v ∈ vs, ProperTree .filter v) :
    ∃ ys, c.flatten vs = .ok ys ∧ (∀ y ∈ ys, ProperTree .filter y) ∧
      ys.flatMap (foreign .filter) = vs.flatMap (foreign .filter) := by
  induction vs with
  | nil => exact ⟨[], rfl, by simp, rfl⟩
  | cons v vs ih =>
    obtain ⟨hv, hvs⟩ := List.forall_mem_cons.mp h
    obtain ⟨ys, hys, hproper, hforeign⟩ := ih hvs
    by_cases hfar : isForeign v = true
    · refine ⟨v :: ys, ?_, List.forall_mem_cons.mpr ⟨hv, hproper⟩, ?_⟩
      · rw [flatten_foreign_cons c hfar, hys]
        rfl
      · rw [List.flatMap_cons, List.flatMap_cons, hforeign]
    · match v with
      | .null => exact ⟨ys, hys, hproper, hforeign⟩
      | .filter f =>
        by_cases hjoin : ∃ children, f = c.join children
        · obtain ⟨children, rfl⟩ := hjoin
          obtain ⟨xs, rfl⟩ := proper_join.mp (List.forall_mem_cons.mp hv).1
          refine ⟨xs ++ ys, flatten_join_cons c xs vs hys,
            List.forall_mem_append.mpr ⟨properTree_join_tuple.mp hv, hproper⟩, ?_⟩
          rw [List.flatMap_append, List.flatMap_cons, hforeign, (holds_join c xs).foreign_eq]
        · have hne : ∀ zs, f ≠ c.join zs := fun zs hzs => hjoin ⟨zs, hzs⟩
          refine ⟨.filter f :: ys, flatten_filter_cons hne hys,
            List.forall_mem_cons.mpr ⟨hv, hproper⟩, ?_⟩
          rw [List.flatMap_cons, List.flatMap_cons, hforeign]

theorem properTree_ofFlat {c : Connective} {ys : List Value} (h : ∀ y ∈ ys, ProperTree .filter y) :
    ProperTree .filter (c.ofFlat ys)
      ∧ foreign .filter (c.ofFlat ys) = ys.flatMap (foreign .filter) := by
  match ys with
  | [] => exact ⟨List.forall_mem_singleton.mpr trivial, rfl⟩
  | [y] => exact ⟨h y (by simp), (List.flatMap_singleton (foreign .filter) y).symm⟩
  | x :: y :: ys => exact ⟨properTree_join_tuple.mpr h, (holds_join c _).foreign_eq⟩

/-- Joining keeps the foreign objects of its operands, in their order. -/
theorem exists_combine_foreign (c : Connective) {vs : List Value}
    (h : ∀ v ∈ vs, ProperTree .filter v) :
    ∃ r, c.combine vs = .ok r ∧ ProperTree .filter r
      ∧ foreign .filter r = vs.flatMap (foreign .filter) := by
  obtain ⟨ys, hys, hproper, hforeign⟩ := exists_flatten_foreign c h
  obtain ⟨hr, hfar⟩ := properTree_ofFlat (c := c) hproper
  refine ⟨c.ofFlat ys, ?_, hr, hfar.trans hforeign⟩
  rw [Connective.combine, hys]
  rfl

theorem properTree_negation {v : Value} (h : ProperTree .filter v) :
    ProperTree .filter (negation v) ∧ foreign .filter (negation v) = foreign .filter v := by
  unfold negation
  split
  · exact ⟨h, rfl⟩
  · exact ⟨List.forall_mem_cons.mpr ⟨trivial, h⟩, rfl⟩

/-- The negation of a foreign object compiles no better than the object itself. -/
theorem compile_negation_of_isForeign {x : Value} (hx : isForeign x = true) :
    compile (negation x) = .error (.foreignFilter x) := by
  have hnull : x.isNull = false := isNull_of_isForeign hx
  have hx : nodeDocument x = .error (.foreignFilter x) := nodeDocument_of_isForeign hx
  rw [negation, hnull, if_neg Bool.false_ne_true, compile, nodeDocument_filter, document, hx]
  rfl

/-- A foreign operand is left when operands are flattened, whatever the others are. -/
theorem mem_flatten {c : Connective} {vs ys : List Value} (h : c.flatten vs = .ok ys) {x : Value}
    (hx : isForeign x = true) (hmem : x ∈ vs) : x ∈ ys := by
  obtain ⟨before, after, rfl⟩ := List.append_of_mem hmem
  rw [Connective.flatten_append, flatten_foreign_cons c hx] at h
  obtain ⟨as, -, h⟩ := exists_of_bind_eq_ok h
  obtain ⟨bs, hbs, h⟩ := exists_of_bind_eq_ok h
  obtain ⟨zs, -, hbs⟩ := exists_of_bind_eq_ok hbs
  obtain rfl := Except.ok.inj hbs
  obtain rfl := Except.ok.inj h
  simp

/-- With a foreign operand, what comes of joining does not compile, whatever the others are. -/
theorem compile_combine_of_isForeign {c : Connective} {vs : List Value} {r : Value}
    (h : c.combine vs = .ok r) {x : Value} (hx : isForeign x = true) (hmem : x ∈ vs) :
    ∃ e, compile r = .error e := by
  obtain ⟨ys, hys, h⟩ := exists_of_bind_eq_ok h
  obtain rfl := Except.ok.inj h
  have hx' : x ∈ ys := mem_flatten hys hx hmem
  match ys, hx' with
  | [y], hx' =>
    obtain rfl := List.mem_singleton.mp hx'
    exact ⟨_, compile_of_isForeign hx⟩
  | y :: z :: ys, hx' =>
    obtain ⟨e, he⟩ : ∃ e, nodeDocuments (y :: z :: ys) = .error e :=
      exists_error_of_isForeign hx hx'
    refine ⟨e, ?_⟩
    have hr : c.ofFlat (y :: z :: ys) = .filter (c.join (.tuple (y :: z :: ys))) := rfl
    rw [hr, compile, nodeDocument_filter, join_document_eq, he]
    rfl

end DocQuery.Filter
