import DocQuery.Proofs.Filter.Foreign

/-!
# DocQuery.Proofs.Update.Foreign — objects that are no updates

As with filters, `Update.combine` loses no foreign object of what is combined.  The last section has
the law for filters and updates together (`foreign_objects_refused`).
-/

namespace DocQuery

open NodeFamily (isForeign objects foreign ProperTree belowUpdate)

namespace Update

/-! ### Combinations -/

theorem holds_combined (xs : List Value) :
    NodeFamily.update.Holds (.update (.combined (.tuple xs))) xs where
  own := rfl
  objects_eq := congrArg (_ :: ·) (NodeFamily.itemObjects_eq_flatMap .update xs)

/-- A combination keeps the foreign objects of what is combined, in their order. -/
theorem foreign_combine (vs : List Value) :
    foreign .update (combine vs) = vs.flatMap (foreign .update) :=
  flatMap_combine rfl (fun xs => (holds_combined xs).foreign_eq) vs

theorem properTree_combine {vs : List Value} (h : ∀ v ∈ vs, ProperTree .update v) :
    ProperTree .update (combine vs) :=
  combine_induction (List.forall_mem_singleton.mpr trivial)
    (fun xs hxs => (holds_combined xs).properTree_iff.mpr ⟨⟨xs, rfl⟩, hxs⟩) h

/-- With a foreign object among what is combined, the combination does not compile, whatever the
others are. -/
theorem compile_combine_of_isForeign {vs : List Value} {x : Value}
    (hx : isForeign .update x = true) (hmem : x ∈ vs) :
    ∃ e, compile (combine vs) = .error e := by
  have hnull : x.isNull = false := NodeFamily.isNull_of_isForeign hx
  have hleft : x ∈ vs.filter fun v => !v.isNull :=
    List.mem_filter.mpr ⟨hmem, by simp [hnull]⟩
  rw [combine]
  split
  · rename_i h
    rw [h] at hleft
    cases hleft
  · rename_i v h
    rw [h] at hleft
    obtain rfl := List.mem_singleton.mp hleft
    exact ⟨_, NodeFamily.compile_of_isForeign hx⟩
  · obtain ⟨e, he⟩ : ∃ e, nodeDocuments _ = .error e :=
      NodeFamily.exists_error_of_isForeign hx hleft
    refine ⟨e, ?_⟩
    rw [compile, nodeDocument_update, document, childDocuments, he]
    rfl

end Update

/-! ### Filters and updates -/

/-- Compiling a tree in which any objects may stand is refused exactly if one of them is foreign,
and the fault names the first of these from left to right.  No constructor loses a foreign object:
joined, negated or combined, they are those of the operands in order, and with a foreign operand
nothing compiles, whatever the other operands are. -/
theorem foreign_objects_refused :
    (∀ (k : NodeFamily) (v : Value), k.ProperTree v →
      (∀ e, k.compile v = .error e ↔
        ∃ x, (k.objects v).find? k.isForeign = some x ∧ e = k.fault x) ∧
      ((∃ d, k.compile v = .ok (.doc d)) ↔ ∀ x ∈ k.objects v, k.isForeign x = false)) ∧
    (∀ x, (NodeFamily.filter.fault x).message? = some ("Unsupported filter node: " ++ x.shown) ∧
      (NodeFamily.update.fault x).message? = some ("Unsupported update node: " ++ x.shown)) ∧
    (∀ (c : Connective) (vs : List Value), (∀ v ∈ vs, ProperTree .filter v) →
      ∃ r, c.combine vs = .ok r ∧ ProperTree .filter r ∧
        foreign .filter r = vs.flatMap (foreign .filter)) ∧
    (∀ v, ProperTree .filter v → ProperTree .filter (Filter.negation v) ∧
      foreign .filter (Filter.negation v) = foreign .filter v) ∧
    (∀ vs : List Value, (∀ v ∈ vs, ProperTree .update v) → ProperTree .update (Update.combine vs) ∧
      foreign .update (Update.combine vs) = vs.flatMap (foreign .update)) ∧
    (∀ (c : Connective) (vs : List Value) (r x : Value), isForeign .filter x = true → x ∈ vs →
      c.combine vs = .ok r → ∃ e, Filter.compile r = .error e) ∧
    (∀ x, isForeign .filter x = true →
      Filter.compile (Filter.negation x) = .error (.foreignFilter x)) ∧
    (∀ (vs : List Value) (x : Value), isForeign .update x = true → x ∈ vs →
      ∃ e, Update.compile (Update.combine vs) = .error e) := by
  refine ⟨fun k v hv => ?_, fun _ => ⟨rfl, rfl⟩, fun c vs => ?_, fun v => ?_,
    fun vs hvs => ?_, fun c vs r x hx hmem hr => ?_, fun x hx => ?_, fun vs x => ?_⟩
  · exact ⟨(NodeFamily.refuses_compile hv).error_iff, NodeFamily.exists_compile_iff hv⟩
  · exact Filter.exists_combine_foreign c
  · exact Filter.properTree_negation
  · exact ⟨Update.properTree_combine hvs, Update.foreign_combine vs⟩
  · exact Filter.compile_combine_of_isForeign hr hx hmem
  · exact Filter.compile_negation_of_isForeign hx
  · exact Update.compile_combine_of_isForeign

/-- The only child of a container, and an object behind it; updates that are combined with a number;
and a filter that is joined with an update. -/
theorem foreign_objects_refused_nested :
    Filter.compile (.filter (.conj (.tuple [.filter (.neg (.filter (.disj (.tuple [.int 5])))),
        .filter (.elemMatch (.str "a") (.doc []))]))) = .error (.foreignFilter (.int 5)) ∧
    Update.compile (Update.combine [.update (Update.inc (.str "a") (.int 1)), .null, .int 5])
      = .error (.foreignUpdate (.int 5)) ∧
    ∃ r, Filter.allOf [.filter (.conj (.tuple [.null])), .update (.rename (.str "a") (.str "b"))]
      = .ok r ∧ ∃ e, Filter.compile r = .error e := by
  obtain ⟨hrefused, -, -, -, hcombine, hlost, -⟩ := foreign_objects_refused
  refine ⟨?_, ?_, ?_⟩
  · refine ((hrefused .filter _ ?_).1 _).mpr ⟨.int 5, rfl, rfl⟩
    simp [ProperTree, objects, NodeFamily.belowFilter, NodeFamily.childObjects,
      NodeFamily.itemObjects, NodeFamily.Proper, Filter.Proper]
  · have hproper : ∀ v ∈ [.update (Update.inc (.str "a") (.int 1)), .null, .int 5],
        ProperTree .update v := by
      simp [ProperTree, objects, belowUpdate, NodeFamily.Proper, Update.Proper, Update.inc,
        Update.assignWith, Update.operatorName?, Value.isCopyable]
    exact ((hrefused .update _ (hcombine _ hproper).1).1 _).mpr ⟨.int 5, rfl, rfl⟩
  · have hjoin :
        Filter.allOf [.filter (.conj (.tuple [.null])), .update (.rename (.str "a") (.str "b"))]
          = .ok (.filter (.conj (.tuple [.null, .update (.rename (.str "a") (.str "b"))]))) := rfl
    exact ⟨_, hjoin, hlost .and _ _ _ rfl (List.mem_cons_of_mem _ List.mem_cons_self) hjoin⟩

end DocQuery
