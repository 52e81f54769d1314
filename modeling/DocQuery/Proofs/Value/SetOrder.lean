import DocQuery.Inspection
import DocQuery.Proofs.Value.Copies

/-!
# DocQuery.Proofs.Value.SetOrder — copies whose sets are met in another order

A copied set is made anew, and its members may then be met in another order.  `Value.copy` keeps the
order; `Value.CopiesTo` has all copies that may come out, given the orders in which sets may be met.
Each of them is its own copy as a value (`CopiesTo.isCopy`) and has the same operators
(`CopiesTo.operatorKeys_eq`).  A copy of what is a copy already is the same value, if each of its
sets (`Value.sets`) is met in the same order again (`CopiesTo.eq_of_keeps`).
-/

namespace DocQuery

/-- The orders in which the members of a set may be met once it is copied. -/
structure SetOrder where
  After : List Value → List Value → Prop
  perm : ∀ {xs ys : List Value}, After xs ys → ys.Perm xs

namespace SetOrder

/-- Any order at all. -/
def any : SetOrder where
  After xs ys := ys.Perm xs
  perm h := h

/-- The members are met in the same order once their set is copied. -/
def Keeps (order : SetOrder) (xs : List Value) : Prop := ∀ ys, order.After xs ys → ys = xs

/-- A set of at most one member is met in one order only. -/
theorem keeps_of_length_le_one (order : SetOrder) {xs : List Value} (h : xs.length ≤ 1) :
    order.Keeps xs := by
  intro ys hafter
  have hperm := order.perm hafter
  cases xs with
  | nil => exact List.perm_nil.mp hperm
  | cons x xs =>
    obtain rfl : xs = [] := List.eq_nil_of_length_eq_zero (by simpa using h)
    exact List.perm_singleton.mp hperm

end SetOrder

mutual

/-- The members of each set that stands in a value, at any depth. -/
def Value.sets : Value → List (List Value)
  | .scalar _ => []
  | .list xs | .tuple xs | .stream xs => setsOfItems xs
  | .set xs => xs :: setsOfItems xs
  | .doc es => setsOfEntries es
  | .filter f => f.sets
  | .update u => u.sets
  | .stage s => s.sets
  | .pipeline _ stages => setsOfStages stages

def Filter.sets : Filter → List (List Value)
  | .comparison f o v => f.sets ++ o.sets ++ v.sets
  | .pattern f r g => f.sets ++ r.sets ++ g.sets
  | .elemMatch f i => f.sets ++ i.sets
  | .conj c | .disj c => c.sets
  | .neg i => i.sets

def Update.sets : Update → List (List Value)
  | .assign o f v => o.sets ++ f.sets ++ v.sets
  | .assignAll ps => setsOfEntries ps
  | .rename s t => s.sets ++ t.sets
  | .combined c => c.sets

def Stage.sets : Stage → List (List Value)
  | ⟨o, s⟩ => o.sets ++ s.sets

def setsOfItems : List Value → List (List Value)
  | [] => []
  | x :: xs => x.sets ++ setsOfItems xs

def setsOfEntries : List (Value × Value) → List (List Value)
  | [] => []
  | (k, v) :: es => k.sets ++ v.sets ++ setsOfEntries es

def setsOfStages : List Stage → List (List Value)
  | [] => []
  | s :: ss => s.sets ++ setsOfStages ss

end

theorem setsOfStages_eq (ss : List Stage) : setsOfStages ss = setsOfItems (ss.map .stage) := by
  induction ss with
  | nil => rfl
  | cons s ss ih => rw [setsOfStages, List.map_cons, setsOfItems, Value.sets, ih]

theorem setsOfEntries_eq (es : List (Value × Value)) :
    setsOfEntries es = setsOfItems (es.flatMap fun e => [e.1, e.2]) := by
  induction es with
  | nil => rfl
  | cons e es ih =>
    rw [setsOfEntries, ih, List.flatMap_cons, List.append_assoc]
    rfl

/-- The sets of a node are those of its fields. -/
theorem Value.sets_of_nodeParts {v : Value} {xs : List Value} (h : v.nodeParts? = some xs) :
    v.sets = setsOfItems xs := by
  unfold nodeParts? at h
  split at h <;> cases h
  case h_8 ps => exact setsOfEntries_eq ps
  all_goals simp [sets, Filter.sets, Update.sets, Stage.sets, setsOfItems]

variable {order : SetOrder}

mutual

/-- The second value may come out when the first is copied. -/
inductive Value.CopiesTo (order : SetOrder) : Value → Value → Prop
  | scalar (s : Scalar) : Value.CopiesTo order (.scalar s) (.scalar s)
  | list {xs ys : List Value} (h : ItemsCopyTo order xs ys) :
    Value.CopiesTo order (.list xs) (.list ys)
  | tuple {xs ys : List Value} (h : ItemsCopyTo order xs ys) :
    Value.CopiesTo order (.tuple xs) (.tuple ys)
  | set {xs ys zs : List Value} (hafter : order.After xs ys) (h : ItemsCopyTo order ys zs) :
    Value.CopiesTo order (.set xs) (.set zs)
  | doc {d e : Document} (h : EntriesCopyTo order d e) : Value.CopiesTo order (.doc d) (.doc e)
  | node {v w : Value} {xs ys : List Value} (hv : v.nodeParts? = some xs)
    (hw : w.nodeParts? = some ys) (hkind : v.kind = w.kind) (h : ItemsCopyTo order xs ys) :
    Value.CopiesTo order v w
  | pipeline {name : Option String} {ss ts : List Stage}
    (h : ItemsCopyTo order (ss.map .stage) (ts.map .stage)) :
    Value.CopiesTo order (.pipeline name ss) (.pipeline none ts)

inductive ItemsCopyTo (order : SetOrder) : List Value → List Value → Prop
  | nil : ItemsCopyTo order [] []
  | cons {x y : Value} {xs ys : List Value} (h : Value.CopiesTo order x y)
    (hs : ItemsCopyTo order xs ys) : ItemsCopyTo order (x :: xs) (y :: ys)

inductive EntriesCopyTo (order : SetOrder) : List (Value × Value) → List (Value × Value) → Prop
  | nil : EntriesCopyTo order [] []
  | cons {k l v w : Value} {es fs : List (Value × Value)} (hkey : Value.CopiesTo order k l)
    (hvalue : Value.CopiesTo order v w) (hs : EntriesCopyTo order es fs) :
    EntriesCopyTo order ((k, v) :: es) ((l, w) :: fs)

end

/-! ### Copies of copies -/

mutual

/-- Whatever comes out of copying is its own copy. -/
theorem Value.CopiesTo.isCopy {v w : Value} (h : v.CopiesTo order w) : w.IsCopy := by
  match h with
  | .scalar s => exact Value.isCopy_scalar s
  | .list h => exact Value.isCopy_list.mpr h.isCopy
  | .tuple h => exact Value.isCopy_tuple.mpr h.isCopy
  | .set _ h => exact Value.isCopy_set.mpr h.isCopy
  | .doc h => exact Value.isCopy_doc.mpr h.isCopy
  | .node _ hw _ h => exact (Value.isCopy_node hw).mpr h.isCopy
  | .pipeline h => exact Value.isCopy_pipeline.mpr ⟨rfl, h.isCopy⟩

theorem ItemsCopyTo.isCopy {xs ys : List Value} (h : ItemsCopyTo order xs ys) :
    ∀ y ∈ ys, y.IsCopy := by
  match h with
  | .nil => exact fun _ hy => nomatch hy
  | .cons h hs => exact List.forall_mem_cons.mpr ⟨h.isCopy, hs.isCopy⟩

theorem EntriesCopyTo.isCopy {es fs : List (Value × Value)} (h : EntriesCopyTo order es fs) :
    ∀ e ∈ fs, e.1.IsCopy ∧ e.2.IsCopy := by
  match h with
  | .nil => exact fun _ he => nomatch he
  | .cons hkey hvalue hs =>
    exact List.forall_mem_cons.mpr ⟨⟨hkey.isCopy, hvalue.isCopy⟩, hs.isCopy⟩

end

theorem ItemsCopyTo.exists_documents {ds : List Document} {ys : List Value}
    (h : ItemsCopyTo order (ds.map .doc) ys) :
    ∃ es : List Document, ys = es.map .doc ∧ es.length = ds.length := by
  induction ds generalizing ys with
  | nil =>
    cases h with
    | nil => exact ⟨[], rfl, rfl⟩
  | cons d ds ih =>
    cases h with
    | cons h hs =>
      obtain ⟨es, rfl, hlength⟩ := ih hs
      cases h with
      | @doc _ e h => exact ⟨e :: es, rfl, congrArg (· + 1) hlength⟩
      | node hd => cases hd

/-- A list of documents copies to a list of as many documents. -/
theorem Value.CopiesTo.exists_documents {ds : List Document} {w : Value}
    (h : (Value.list (ds.map .doc)).CopiesTo order w) :
    ∃ es : List Document, w = .list (es.map .doc) ∧ es.length = ds.length := by
  cases h with
  | list h =>
    obtain ⟨es, rfl, hlength⟩ := h.exists_documents
    exact ⟨es, rfl, hlength⟩
  | node hds => cases hds

/-! ### Operators -/

theorem Value.operatorKeys_of_nodeParts {v : Value} {xs : List Value}
    (h : v.nodeParts? = some xs) : v.operatorKeys = [] := by
  cases v with
  | filter | update | stage => rfl
  | _ => cases h

theorem Value.CopiesTo.operatorKeyOf_eq {k l : Value} (h : k.CopiesTo order l) :
    operatorKeyOf l = operatorKeyOf k := by
  cases h with
  | node hv hw =>
    cases k <;> cases l <;> first | rfl | cases hv | cases hw
  | _ => rfl

mutual

/-- Copies have the operators of what was copied, in the same order. -/
theorem Value.CopiesTo.operatorKeys_eq {v w : Value} (h : v.CopiesTo order w) :
    w.operatorKeys = v.operatorKeys := by
  match h with
  | .scalar s => rfl
  | .list h => exact h.operatorKeys_eq
  | .tuple h | .set _ h | .pipeline h => rfl
  | .doc h => exact h.operatorKeys_eq
  | .node hv hw _ _ =>
    rw [Value.operatorKeys_of_nodeParts hv, Value.operatorKeys_of_nodeParts hw]

theorem ItemsCopyTo.operatorKeys_eq {xs ys : List Value} (h : ItemsCopyTo order xs ys) :
    operatorKeysOfItems ys = operatorKeysOfItems xs := by
  match h with
  | .nil => rfl
  | .cons h hs => rw [operatorKeysOfItems, operatorKeysOfItems, h.operatorKeys_eq,
      hs.operatorKeys_eq]

theorem EntriesCopyTo.operatorKeys_eq {es fs : List (Value × Value)}
    (h : EntriesCopyTo order es fs) : operatorKeysOfEntries fs = operatorKeysOfEntries es := by
  match h with
  | .nil => rfl
  | .cons hkey hvalue hs =>
    rw [operatorKeysOfEntries, operatorKeysOfEntries, hkey.operatorKeyOf_eq,
      hvalue.operatorKeys_eq, hs.operatorKeys_eq]

end

/-! ### The copy that keeps the order -/

namespace Value

/-- One value stands directly in another or is a stage of it.  Streams are not looked into: what has
any cannot be copied. -/
inductive HasPiece : Value → Value → Prop
  | part {v w : Value} (h : v.HasPart w) : HasPiece v w
  | stage {name : Option String} {ss : List Stage} {x : Value} (h : x ∈ ss.map Value.stage) :
    HasPiece (.pipeline name ss) x

variable {v w : Value}

theorem HasPiece.sizeOf_lt (h : v.HasPiece w) : sizeOf w < sizeOf v := by
  cases h with
  | part h => exact h.sizeOf_lt
  | @stage name ss x h =>
    obtain ⟨s, hs, rfl⟩ := List.mem_map.mp h
    have hsize := List.sizeOf_lt_of_mem hs
    rw [stage.sizeOf_spec, pipeline.sizeOf_spec]
    omega

/-- What passes from the pieces of a value to the value itself holds of every value. -/
@[elab_as_elim]
theorem piece_induction {motive : Value → Prop}
    (step : ∀ v : Value, (∀ w, v.HasPiece w → motive w) → motive v) (v : Value) : motive v :=
  step v fun w hw =>
    have : sizeOf w < sizeOf v := hw.sizeOf_lt
    piece_induction step w
termination_by sizeOf v

theorem itemsCopyTo_detached {xs : List Value} (h : ∀ x ∈ xs, x.CopiesTo order x.detached) :
    ItemsCopyTo order xs (xs.map detached) := by
  induction xs with
  | nil => exact .nil
  | cons x xs ih =>
    obtain ⟨hx, hxs⟩ := List.forall_mem_cons.mp h
    exact .cons hx (ih hxs)

theorem entriesCopyTo_detached {d : Document}
    (h : ∀ e ∈ d, e.1.CopiesTo order e.1.detached ∧ e.2.CopiesTo order e.2.detached) :
    EntriesCopyTo order d d.detached := by
  induction d with
  | nil => exact .nil
  | cons e d ih =>
    obtain ⟨he, hd⟩ := List.forall_mem_cons.mp h
    exact .cons he.1 he.2 (ih hd)

/-- If copied sets may keep their order, the copy that keeps the order of every set may come out. -/
theorem copiesTo_detached (horder : ∀ xs, order.After xs xs) (v : Value) (h : v.isCopyable) :
    v.CopiesTo order v.detached := by
  induction v using piece_induction with
  | step v ih =>
    have hparts : ∀ xs : List Value, (∀ x ∈ xs, v.HasPart x) → (∀ x ∈ xs, x.isCopyable = true) →
        ItemsCopyTo order xs (xs.map detached) := by
      intro xs hparts hxs
      exact itemsCopyTo_detached fun x hx => ih x (.part (hparts x hx)) (hxs x hx)
    cases v.shape with
    | scalar s => exact .scalar s
    | list xs =>
      have hxs := hparts xs (fun x hx => .listItem hx) (itemsCopyable_iff.mp h)
      rw [detached, mapPipelines, mapPipelinesItems_eq_map]
      exact .list hxs
    | tuple xs =>
      have hxs := hparts xs (fun x hx => .tupleItem hx) (itemsCopyable_iff.mp h)
      rw [detached, mapPipelines, mapPipelinesItems_eq_map]
      exact .tuple hxs
    | set xs =>
      have hxs := hparts xs (fun x hx => .member hx) (itemsCopyable_iff.mp h)
      rw [detached, mapPipelines, mapPipelinesItems_eq_map]
      exact .set (horder xs) hxs
    | doc d =>
      refine .doc (entriesCopyTo_detached fun e he => ?_)
      obtain ⟨hkey, hvalue⟩ := entriesCopyable_iff.mp h e he
      exact ⟨ih e.1 (.part (.key he)) hkey, ih e.2 (.part (.value he)) hvalue⟩
    | stream xs => cases h
    | pipeline name ss =>
      have hcopyable : ∀ x ∈ ss.map Value.stage, x.isCopyable = true :=
        List.forall_mem_map.mpr (stagesCopyable_iff.mp h)
      have hss : ItemsCopyTo order (ss.map .stage) ((ss.map .stage).map detached) :=
        itemsCopyTo_detached fun x hx => ih x (.stage hx) (hcopyable x hx)
      rw [detached, mapPipelines, mapPipelinesStages_eq_map]
      refine .pipeline ?_
      rw [List.map_map] at hss ⊢
      exact hss
    | node hxs =>
      exact .node hxs (nodeParts?_mapPipelines unnamed hxs) (kind_mapPipelines unnamed hxs).symm
        (hparts _ (fun x hx => .field hxs hx) ((isCopyable_node hxs).mp h))

theorem isCopy_of_copy (h : v.copy = .ok w) : w.IsCopy := by
  obtain ⟨hcopyable, rfl⟩ := copy_eq_ok_iff.mp h
  have hcopies : v.CopiesTo .any v.detached := copiesTo_detached List.Perm.refl v hcopyable
  exact hcopies.isCopy

/-- What is a copy may come out of copying it again. -/
theorem IsCopy.copiesTo_self (horder : ∀ xs, order.After xs xs) (h : v.IsCopy) :
    v.CopiesTo order v := by
  obtain ⟨hcopyable, hdetached⟩ := isCopy_iff.mp h
  have hcopies := copiesTo_detached horder v hcopyable
  rwa [show v.detached = v from hdetached] at hcopies

end Value

theorem Document.isCopy_of_copy {d e : Document} (h : d.copy = .ok e) : (Value.doc e).IsCopy := by
  obtain ⟨hcopyable, rfl⟩ := Document.copy_eq_ok_iff.mp h
  exact Value.isCopy_of_copy (v := .doc d) (Value.copy_of_isCopyable hcopyable)

/-! ### Sets that keep their order -/

mutual

/-- Where each set is met in the same order again, the copy of what is a copy already is the same
value. -/
theorem Value.CopiesTo.eq_of_keeps {v w : Value} (h : v.CopiesTo order w) (hv : v.IsCopy)
    (hkeeps : ∀ ms ∈ v.sets, order.Keeps ms) : w = v := by
  match h with
  | .scalar s => rfl
  | .list h => rw [h.eq_of_keeps (Value.isCopy_list.mp hv) hkeeps]
  | .tuple h => rw [h.eq_of_keeps (Value.isCopy_tuple.mp hv) hkeeps]
  | .set hafter h =>
    obtain ⟨hself, hmembers⟩ := List.forall_mem_cons.mp hkeeps
    obtain rfl := hself _ hafter
    rw [h.eq_of_keeps (Value.isCopy_set.mp hv) hmembers]
  | .doc h => rw [h.eq_of_keeps (Value.isCopy_doc.mp hv) hkeeps]
  | .node hxs hys hkind h =>
    rw [Value.sets_of_nodeParts hxs] at hkeeps
    obtain rfl := h.eq_of_keeps ((Value.isCopy_node hxs).mp hv) hkeeps
    exact Value.eq_of_nodeParts hys hxs hkind.symm
  | .pipeline h =>
    obtain ⟨rfl, hstages⟩ := Value.isCopy_pipeline.mp hv
    rw [Value.sets, setsOfStages_eq] at hkeeps
    rw [List.map_injective_iff.mpr (fun _ _ => Value.stage.inj) (h.eq_of_keeps hstages hkeeps)]

theorem ItemsCopyTo.eq_of_keeps {xs ys : List Value} (h : ItemsCopyTo order xs ys)
    (hxs : ∀ x ∈ xs, x.IsCopy) (hkeeps : ∀ ms ∈ setsOfItems xs, order.Keeps ms) : ys = xs := by
  match h with
  | .nil => rfl
  | .cons h hs =>
    obtain ⟨hx, hxs⟩ := List.forall_mem_cons.mp hxs
    obtain ⟨hfirst, hrest⟩ := List.forall_mem_append.mp hkeeps
    rw [h.eq_of_keeps hx hfirst, hs.eq_of_keeps hxs hrest]

theorem EntriesCopyTo.eq_of_keeps {es fs : List (Value × Value)} (h : EntriesCopyTo order es fs)
    (hes : ∀ e ∈ es, e.1.IsCopy ∧ e.2.IsCopy) (hkeeps : ∀ ms ∈ setsOfEntries es, order.Keeps ms) :
    fs = es := by
  match h with
  | .nil => rfl
  | .cons hkey hvalue hs =>
    obtain ⟨⟨hk, hv⟩, hes⟩ := List.forall_mem_cons.mp hes
    obtain ⟨hfirst, hrest⟩ := List.forall_mem_append.mp hkeeps
    obtain ⟨hkeys, hvalues⟩ := List.forall_mem_append.mp hfirst
    rw [hkey.eq_of_keeps hk hkeys, hvalue.eq_of_keeps hv hvalues, hs.eq_of_keeps hes hrest]

end

end DocQuery
