import Mathlib.Logic.Relation
import DocQuery.Value.Basic

/-!
# DocQuery.Proofs.Value.Parts — what stands in a value

A value is a scalar, a container, or a node: a filter, an update or a stage, of which most proofs
need to know its kind and its fields only (`Value.shape`).  Parts are smaller than what they stand
in, so a property of values that passes from the parts to the whole holds of all values
(`Value.part_induction`).
-/

namespace DocQuery.Value

/-- What stands in a node, in the order of its fields; other values are no nodes. -/
def nodeParts? : Value → Option (List Value)
  | .filter (.comparison field op value) => some [field, op, value]
  | .filter (.pattern field regex flags) => some [field, regex, flags]
  | .filter (.elemMatch field inner) => some [field, inner]
  | .filter (.conj children) | .filter (.disj children) => some [children]
  | .filter (.neg inner) => some [inner]
  | .update (.assign op field value) => some [op, field, value]
  | .update (.assignAll pairs) => some (pairs.flatMap fun p => [p.1, p.2])
  | .update (.rename source target) => some [source, target]
  | .update (.combined children) => some [children]
  | .stage ⟨operator, spec⟩ => some [operator, spec]
  | _ => none

/-- The shapes of values, with one for nodes of all kinds. -/
inductive Shape : Value → Prop
  | scalar (s : Scalar) : Shape (.scalar s)
  | list (xs : List Value) : Shape (.list xs)
  | tuple (xs : List Value) : Shape (.tuple xs)
  | set (xs : List Value) : Shape (.set xs)
  | doc (d : Document) : Shape (.doc d)
  | stream (xs : List Value) : Shape (.stream xs)
  | pipeline (name : Option String) (stages : List Stage) : Shape (.pipeline name stages)
  | node {v : Value} {xs : List Value} (h : v.nodeParts? = some xs) : Shape v

theorem forall_mem_pairParts {p : Value → Prop} {ps : List (Value × Value)} :
    (∀ x ∈ ps.flatMap fun e => [e.1, e.2], p x) ↔ ∀ e ∈ ps, p e.1 ∧ p e.2 := by
  rw [List.forall_mem_flatMap]
  refine forall₂_congr fun e _ => ?_
  simp

theorem shape (v : Value) : v.Shape := by
  cases v with
  | scalar s => exact .scalar s
  | list xs => exact .list xs
  | tuple xs => exact .tuple xs
  | set xs => exact .set xs
  | doc d => exact .doc d
  | stream xs => exact .stream xs
  | pipeline name stages => exact .pipeline name stages
  | filter f => cases f <;> exact .node rfl
  | update u => cases u <;> exact .node rfl
  | stage s => cases s; exact .node rfl

theorem pairParts_inj {ps qs : List (Value × Value)} :
    ps.flatMap (fun e => [e.1, e.2]) = qs.flatMap (fun e => [e.1, e.2]) ↔ ps = qs := by
  refine ⟨fun h => ?_, fun h => by rw [h]⟩
  induction ps generalizing qs with
  | nil =>
    cases qs with
    | nil => rfl
    | cons q qs => cases h
  | cons p ps ih =>
    cases qs with
    | nil => cases h
    | cons q qs =>
      simp only [List.flatMap_cons, List.cons_append, List.nil_append, List.cons.injEq] at h
      rw [Prod.ext h.1 h.2.1, ih h.2.2]

/-- The kind of a node and its fields make the node. -/
theorem eq_of_nodeParts {v w : Value} {xs : List Value} (hv : v.nodeParts? = some xs)
    (hw : w.nodeParts? = some xs) (hkind : v.kind = w.kind) : v = w := by
  have hparts : v.nodeParts? = w.nodeParts? := hv.trans hw.symm
  cases v with
  | filter f =>
    cases w with
    | filter g =>
      cases f <;> cases g <;> simp [kind, Filter.kind] at hkind <;>
        simpa [nodeParts?] using hparts
    | update u => cases f <;> cases u <;> simp [kind, Filter.kind, Update.kind] at hkind
    | stage s => cases f <;> simp [kind, Filter.kind] at hkind
    | _ => cases hw
  | update u =>
    cases w with
    | filter g => cases u <;> cases g <;> simp [kind, Filter.kind, Update.kind] at hkind
    | update x =>
      cases u <;> cases x <;> simp [kind, Update.kind] at hkind <;>
        simpa [nodeParts?, pairParts_inj] using hparts
    | stage s => cases u <;> simp [kind, Update.kind] at hkind
    | _ => cases hw
  | stage s =>
    cases w with
    | filter g => cases g <;> simp [kind, Filter.kind] at hkind
    | update x => cases x <;> simp [kind, Update.kind] at hkind
    | stage t =>
      cases s
      cases t
      simpa [nodeParts?] using hparts
    | _ => cases hw
  | _ => cases hv

/-- One value stands directly in another.  Streams and pipelines are not looked into. -/
inductive HasPart : Value → Value → Prop
  | listItem {xs : List Value} {x : Value} (h : x ∈ xs) : HasPart (.list xs) x
  | tupleItem {xs : List Value} {x : Value} (h : x ∈ xs) : HasPart (.tuple xs) x
  | member {xs : List Value} {x : Value} (h : x ∈ xs) : HasPart (.set xs) x
  | key {d : Document} {e : Value × Value} (h : e ∈ d) : HasPart (.doc d) e.1
  | value {d : Document} {e : Value × Value} (h : e ∈ d) : HasPart (.doc d) e.2
  | field {v : Value} {xs : List Value} {x : Value} (hv : v.nodeParts? = some xs) (h : x ∈ xs) :
    HasPart v x

/-! ### Induction -/

theorem sizeOf_lt_of_mem_entries {es : List (Value × Value)} {e : Value × Value} (h : e ∈ es) :
    sizeOf e.1 < sizeOf es ∧ sizeOf e.2 < sizeOf es := by
  obtain ⟨k, v⟩ := e
  have hsize : 1 + sizeOf k + sizeOf v < sizeOf es := List.sizeOf_lt_of_mem h
  constructor
  · show sizeOf k < sizeOf es
    omega
  · show sizeOf v < sizeOf es
    omega

/-- The fields of a node are smaller than the node. -/
theorem sizeOf_lt_of_mem_nodeParts {v : Value} {xs : List Value} {x : Value}
    (hv : v.nodeParts? = some xs) (h : x ∈ xs) : sizeOf x < sizeOf v := by
  unfold nodeParts? at hv
  split at hv
  case h_8 ps =>
    obtain rfl := Option.some.inj hv
    obtain ⟨p, hp, hx⟩ := List.mem_flatMap.mp h
    obtain ⟨hkey, hvalue⟩ := sizeOf_lt_of_mem_entries hp
    simp only [update.sizeOf_spec, Update.assignAll.sizeOf_spec]
    obtain rfl | hx := List.mem_cons.mp hx
    · omega
    · obtain rfl := List.mem_singleton.mp hx
      omega
  case h_12 => cases hv
  all_goals
    obtain rfl := Option.some.inj hv
    revert x
    simp
    omega

theorem HasPart.sizeOf_lt {v w : Value} (h : v.HasPart w) : sizeOf w < sizeOf v := by
  cases h with
  | @listItem xs _ h =>
    have hsize := List.sizeOf_lt_of_mem h
    rw [list.sizeOf_spec]
    omega
  | @tupleItem xs _ h =>
    have hsize := List.sizeOf_lt_of_mem h
    rw [tuple.sizeOf_spec]
    omega
  | @member xs _ h =>
    have hsize := List.sizeOf_lt_of_mem h
    rw [set.sizeOf_spec]
    omega
  | @key d e h =>
    have hsize := (sizeOf_lt_of_mem_entries h).1
    rw [doc.sizeOf_spec]
    omega
  | @value d e h =>
    have hsize := (sizeOf_lt_of_mem_entries h).2
    rw [doc.sizeOf_spec]
    omega
  | field hv h => exact sizeOf_lt_of_mem_nodeParts hv h

/-- What passes from the parts of a value to the value itself holds of every value. -/
@[elab_as_elim]
theorem part_induction {motive : Value → Prop}
    (step : ∀ v : Value, (∀ w, v.HasPart w → motive w) → motive v) (v : Value) : motive v :=
  step v fun w hw =>
    have : sizeOf w < sizeOf v := hw.sizeOf_lt
    part_induction step w
termination_by sizeOf v

/-! ### Parts at any depth -/

/-- One value is another or stands in it, at any depth. -/
def Contains : Value → Value → Prop := Relation.ReflTransGen HasPart

/-- A property of a value and of all that stands in it. -/
def Everywhere (p : Value → Prop) (v : Value) : Prop := ∀ w, v.Contains w → p w

variable {p q : Value → Prop} {v w : Value}

theorem Everywhere.self (h : v.Everywhere p) : p v := h v .refl

theorem Everywhere.part (h : v.Everywhere p) (hw : v.HasPart w) : w.Everywhere p :=
  fun x hx => h x (.head hw hx)

theorem Everywhere.imp (h : v.Everywhere p) (hpq : ∀ w, p w → q w) : v.Everywhere q :=
  fun w hw => hpq w (h w hw)

theorem everywhere_iff : v.Everywhere p ↔ p v ∧ ∀ w, v.HasPart w → w.Everywhere p := by
  constructor
  · exact fun h => ⟨h.self, fun w hw => h.part hw⟩
  · rintro ⟨hv, hparts⟩ x hx
    rcases Relation.ReflTransGen.cases_head hx with rfl | ⟨w, hw, hx⟩
    · exact hv
    · exact hparts w hw x hx

theorem everywhere_scalar {s : Scalar} : (Value.scalar s).Everywhere p ↔ p (.scalar s) := by
  rw [everywhere_iff]
  refine and_iff_left fun w hw => ?_
  cases hw with
  | field hs => cases hs

theorem everywhere_list {xs : List Value} :
    (Value.list xs).Everywhere p ↔ p (.list xs) ∧ ∀ x ∈ xs, x.Everywhere p := by
  refine everywhere_iff.trans (and_congr_right fun _ => ⟨fun h x hx => h x (.listItem hx), ?_⟩)
  intro h w hw
  cases hw with
  | listItem hx => exact h w hx
  | field hxs => cases hxs

theorem everywhere_tuple {xs : List Value} :
    (Value.tuple xs).Everywhere p ↔ p (.tuple xs) ∧ ∀ x ∈ xs, x.Everywhere p := by
  refine everywhere_iff.trans (and_congr_right fun _ => ⟨fun h x hx => h x (.tupleItem hx), ?_⟩)
  intro h w hw
  cases hw with
  | tupleItem hx => exact h w hx
  | field hxs => cases hxs

theorem everywhere_doc {d : Document} :
    (Value.doc d).Everywhere p ↔
      p (.doc d) ∧ ∀ e ∈ d, e.1.Everywhere p ∧ e.2.Everywhere p := by
  refine everywhere_iff.trans (and_congr_right fun _ =>
    ⟨fun h e he => ⟨h e.1 (.key he), h e.2 (.value he)⟩, ?_⟩)
  intro h w hw
  cases hw with
  | key he => exact (h _ he).1
  | value he => exact (h _ he).2
  | field hd => cases hd

theorem everywhere_node {xs : List Value} (hv : v.nodeParts? = some xs) :
    v.Everywhere p ↔ p v ∧ ∀ x ∈ xs, x.Everywhere p := by
  refine everywhere_iff.trans (and_congr_right fun _ => ⟨fun h x hx => h x (.field hv hx), ?_⟩)
  intro h w hw
  cases hw with
  | field hv' hw =>
    obtain rfl := Option.some.inj (hv.symm.trans hv')
    exact h w hw
  | _ => cases hv

end DocQuery.Value
