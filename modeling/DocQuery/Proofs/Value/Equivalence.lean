import DocQuery.Proofs.Result
import DocQuery.Proofs.Value.Parts
import DocQuery.Value.Equality

/-!
# DocQuery.Proofs.Value.Equivalence — equality of values is an equivalence

What two equal values have in common, shape by shape: nodes have their kind and equal fields, sets
and documents match each other in some order.  Equality is transitive without any condition.  It is
symmetric where sets and documents repeat no member and no key, for then an injective match is a
match (`exists_matching`), and reflexive where no NaN, stream or pipeline is met as well.
-/

namespace DocQuery

/-! ### Lists of values -/

theorem equalItems_iff {xs ys : List Value} :
    equalItems xs ys = true ↔ List.Forall₂ (fun x y : Value => x == y) xs ys := by
  induction xs generalizing ys with
  | nil => cases ys <;> simp [equalItems]
  | cons x xs ih => cases ys <;> simp [equalItems, ih, Value.beq_def]

theorem equalPairs_eq (ps qs : List (Value × Value)) :
    equalPairs ps qs =
      equalItems (ps.flatMap fun p => [p.1, p.2]) (qs.flatMap fun q => [q.1, q.2]) := by
  induction ps generalizing qs with
  | nil => cases qs <;> simp [equalPairs, equalItems]
  | cons p ps ih => cases qs <;> simp [equalPairs, equalItems, ih, Bool.and_assoc]

theorem equalPairs_iff {ps qs : List (Value × Value)} :
    equalPairs ps qs = true ↔ List.Forall₂ (fun p q => p.1 == q.1 ∧ p.2 == q.2) ps qs := by
  induction ps generalizing qs with
  | nil => cases qs <;> simp [equalPairs]
  | cons p ps ih => cases qs <;> simp [equalPairs, ih, Value.beq_def]

theorem itemsWithin_iff {xs ys : List Value} :
    itemsWithin xs ys = true ↔ ∀ x ∈ xs, ∃ y ∈ ys, x == y := by
  induction xs with
  | nil => simp [itemsWithin]
  | cons x xs ih => simp [itemsWithin, ih, Value.beq_def]

theorem entriesWithin_iff {es fs : List (Value × Value)} :
    entriesWithin es fs = true ↔ ∀ e ∈ es, ∃ f ∈ fs, e.1 == f.1 ∧ e.2 == f.2 := by
  induction es with
  | nil => simp [entriesWithin]
  | cons e es ih => simp [entriesWithin, ih, Value.beq_def]

/-! ### Shapes -/

namespace Value

variable {v w : Value} {xs : List Value} {d : Document}

theorem scalar_beq_iff {s : Scalar} :
    (Value.scalar s == w) = true ↔ ∃ t, w = .scalar t ∧ s.equal t = true := by
  constructor
  · intro h
    cases w with
    | scalar t => exact ⟨t, rfl, h⟩
    | _ => cases h
  · rintro ⟨t, rfl, h⟩
    exact h

theorem list_beq_iff :
    (Value.list xs == w) = true ↔
      ∃ ys, w = .list ys ∧ List.Forall₂ (fun x y : Value => x == y) xs ys := by
  constructor
  · intro h
    cases w with
    | list ys => exact ⟨ys, rfl, equalItems_iff.mp h⟩
    | _ => cases h
  · rintro ⟨ys, rfl, h⟩
    exact equalItems_iff.mpr h

theorem tuple_beq_iff :
    (Value.tuple xs == w) = true ↔
      ∃ ys, w = .tuple ys ∧ List.Forall₂ (fun x y : Value => x == y) xs ys := by
  constructor
  · intro h
    cases w with
    | tuple ys => exact ⟨ys, rfl, equalItems_iff.mp h⟩
    | _ => cases h
  · rintro ⟨ys, rfl, h⟩
    exact equalItems_iff.mpr h

theorem set_beq_iff :
    (Value.set xs == w) = true ↔
      ∃ ys, w = .set ys ∧ xs.length = ys.length ∧ ∀ x ∈ xs, ∃ y ∈ ys, x == y := by
  have hset : ∀ ys, (Value.set xs == .set ys) = (xs.length == ys.length && itemsWithin xs ys) :=
    fun _ => rfl
  constructor
  · intro h
    cases w with
    | set ys => exact ⟨ys, rfl, by simpa [hset, itemsWithin_iff] using h⟩
    | _ => cases h
  · rintro ⟨ys, rfl, h⟩
    simpa [hset, itemsWithin_iff] using h

theorem doc_beq_iff :
    (Value.doc d == w) = true ↔
      ∃ fs : Document, w = .doc fs ∧ d.length = fs.length ∧
        ∀ e ∈ d, ∃ f ∈ fs, e.1 == f.1 ∧ e.2 == f.2 := by
  have hdoc : ∀ fs, (Value.doc d == .doc fs) = (d.length == fs.length && entriesWithin d fs) :=
    fun _ => rfl
  constructor
  · intro h
    cases w with
    | doc fs => exact ⟨fs, rfl, by simpa [hdoc, entriesWithin_iff] using h⟩
    | _ => cases h
  · rintro ⟨fs, rfl, h⟩
    simpa [hdoc, entriesWithin_iff] using h

theorem not_stream_beq : ¬(Value.stream xs == w) = true := by
  cases w <;> exact Bool.false_ne_true

theorem pipeline_beq_iff {name : Option String} {stages : List Stage} :
    (Value.pipeline name stages == w) = true ↔
      ∃ n stages', name = some n ∧ w = .pipeline (some n) stages' := by
  constructor
  · intro h
    cases name with
    | none => cases w <;> cases h
    | some n =>
      cases w with
      | pipeline name' stages' =>
        cases name' with
        | none => cases h
        | some m =>
          obtain rfl : n = m := beq_iff_eq.mp h
          exact ⟨n, stages', rfl, rfl⟩
      | _ => cases h
  · rintro ⟨n, stages', rfl, rfl⟩
    exact beq_self_eq_true n

/-! ### Nodes -/

theorem filter_equal_eq {f g : Filter} {ys : List Value}
    (hf : (Value.filter f).nodeParts? = some xs) (hg : (Value.filter g).nodeParts? = some ys) :
    f.equal g = (f.kind == g.kind && equalItems xs ys) := by
  cases f <;> cases g <;> obtain rfl := Option.some.inj hf <;> obtain rfl := Option.some.inj hg <;>
    simp [Filter.equal, Filter.kind, equalItems, Bool.and_assoc]

theorem update_equal_eq {u u' : Update} {ys : List Value}
    (hu : (Value.update u).nodeParts? = some xs) (hu' : (Value.update u').nodeParts? = some ys) :
    u.equal u' = (u.kind == u'.kind && equalItems xs ys) := by
  cases u <;> cases u' <;>
    obtain rfl := Option.some.inj hu <;> obtain rfl := Option.some.inj hu' <;>
    simp [Update.equal, Update.kind, equalItems, equalPairs_eq, Bool.and_assoc]

theorem filter_kind_ne (f : Filter) (u : Update) : f.kind ≠ u.kind := by
  cases f <;> cases u <;> simp [Filter.kind, Update.kind]

theorem filter_kind_ne_stage (f : Filter) : f.kind ≠ "Stage" := by
  cases f <;> simp [Filter.kind]

theorem update_kind_ne_stage (u : Update) : u.kind ≠ "Stage" := by
  cases u <;> simp [Update.kind]

/-- Two nodes are equal by kind and fields. -/
theorem node_beq_iff {ys : List Value} (hv : v.nodeParts? = some xs) (hw : w.nodeParts? = some ys) :
    (v == w) = true ↔ v.kind = w.kind ∧ List.Forall₂ (fun x y : Value => x == y) xs ys := by
  have hdiffer : v.kind ≠ w.kind → (v == w) = false → ((v == w) = true ↔
      v.kind = w.kind ∧ List.Forall₂ (fun x y : Value => x == y) xs ys) := by
    intro hkind hvw
    rw [hvw]
    exact iff_of_false Bool.false_ne_true fun h => hkind h.1
  cases v with
  | filter f =>
    cases w with
    | filter g =>
      have hfg := filter_equal_eq hv hw
      simp [beq_def, equal, hfg, kind, equalItems_iff]
    | update u => exact hdiffer (filter_kind_ne f u) rfl
    | stage s => exact hdiffer (filter_kind_ne_stage f) rfl
    | _ => cases hw
  | update u =>
    cases w with
    | filter g => exact hdiffer (filter_kind_ne g u).symm rfl
    | update u' =>
      have huu := update_equal_eq hv hw
      simp [beq_def, equal, huu, kind, equalItems_iff]
    | stage s => exact hdiffer (update_kind_ne_stage u) rfl
    | _ => cases hw
  | stage s =>
    cases w with
    | filter g => exact hdiffer (filter_kind_ne_stage g).symm rfl
    | update u => exact hdiffer (update_kind_ne_stage u).symm rfl
    | stage s' =>
      obtain ⟨o, p⟩ := s
      obtain ⟨o', p'⟩ := s'
      obtain rfl := Option.some.inj hv
      obtain rfl := Option.some.inj hw
      simp [beq_def, equal, Stage.equal, kind]
    | _ => cases hw
  | _ => cases hv

/-- Only nodes are equal to nodes. -/
theorem exists_nodeParts_of_beq (hv : v.nodeParts? = some xs) (h : (v == w) = true) :
    ∃ ys, w.nodeParts? = some ys := by
  cases w.shape with
  | node hw => exact ⟨_, hw⟩
  | _ =>
    cases v with
    | filter | update | stage => cases h
    | _ => cases hv

theorem beq_node_iff (hv : v.nodeParts? = some xs) :
    (v == w) = true ↔ ∃ ys, w.nodeParts? = some ys ∧ v.kind = w.kind ∧
      List.Forall₂ (fun x y : Value => x == y) xs ys := by
  constructor
  · intro h
    obtain ⟨ys, hw⟩ := exists_nodeParts_of_beq hv h
    exact ⟨ys, hw, (node_beq_iff hv hw).mp h⟩
  · rintro ⟨ys, hw, h⟩
    exact (node_beq_iff hv hw).mpr h

/-- What stands in one of two equal values is equal to something that stands in the other. -/
theorem exists_part_of_beq {p : Value} (hp : v.HasPart p) (h : (v == w) = true) :
    ∃ q, w.HasPart q ∧ p == q := by
  cases hp with
  | listItem hx =>
    obtain ⟨ys, rfl, hxs⟩ := list_beq_iff.mp h
    obtain ⟨y, hy, hxy⟩ := exists_of_mem_forall₂ hxs.flip hx
    exact ⟨y, .listItem hy, hxy⟩
  | tupleItem hx =>
    obtain ⟨ys, rfl, hxs⟩ := tuple_beq_iff.mp h
    obtain ⟨y, hy, hxy⟩ := exists_of_mem_forall₂ hxs.flip hx
    exact ⟨y, .tupleItem hy, hxy⟩
  | member hx =>
    obtain ⟨ys, rfl, -, hxs⟩ := set_beq_iff.mp h
    obtain ⟨y, hy, hxy⟩ := hxs p hx
    exact ⟨y, .member hy, hxy⟩
  | key he =>
    obtain ⟨fs, rfl, -, hd⟩ := doc_beq_iff.mp h
    obtain ⟨f, hf, hkey, -⟩ := hd _ he
    exact ⟨f.1, .key hf, hkey⟩
  | value he =>
    obtain ⟨fs, rfl, -, hd⟩ := doc_beq_iff.mp h
    obtain ⟨f, hf, -, hvalue⟩ := hd _ he
    exact ⟨f.2, .value hf, hvalue⟩
  | field hv hx =>
    obtain ⟨ys, hw, -, hxs⟩ := (beq_node_iff hv).mp h
    obtain ⟨y, hy, hxy⟩ := exists_of_mem_forall₂ hxs.flip hx
    exact ⟨y, .field hw hy, hxy⟩

end Value

/-! ### Transitivity -/

theorem forall₂_trans_of_mem {α β γ : Type} {r : α → β → Prop} {s : β → γ → Prop}
    {t : α → γ → Prop} {xs : List α} {ys : List β} {zs : List γ}
    (h : ∀ x ∈ xs, ∀ y z, r x y → s y z → t x z) (hxs : List.Forall₂ r xs ys)
    (hys : List.Forall₂ s ys zs) : List.Forall₂ t xs zs := by
  induction hxs generalizing zs with
  | nil =>
    cases hys
    exact .nil
  | cons hxy _ ih =>
    obtain ⟨hx, hrest⟩ := List.forall_mem_cons.mp h
    cases hys with
    | cons hyz hys => exact .cons (hx _ _ hxy hyz) (ih hrest hys)

theorem Value.beq_trans {x y z : Value} (hxy : x == y) (hyz : y == z) : x == z := by
  induction x using part_induction generalizing y z with
  | step x ih =>
    have hpart : ∀ w, x.HasPart w → ∀ y z, w == y → y == z → w == z := fun w hw _ _ => ih w hw
    cases x.shape with
    | scalar s =>
      obtain ⟨t, rfl, hst⟩ := scalar_beq_iff.mp hxy
      obtain ⟨u, rfl, htu⟩ := scalar_beq_iff.mp hyz
      exact scalar_beq_iff.mpr ⟨u, rfl, Scalar.equal_trans hst htu⟩
    | list xs =>
      obtain ⟨ys, rfl, hxs⟩ := list_beq_iff.mp hxy
      obtain ⟨zs, rfl, hys⟩ := list_beq_iff.mp hyz
      have hitems := forall₂_trans_of_mem (fun x hx => hpart x (.listItem hx)) hxs hys
      exact list_beq_iff.mpr ⟨zs, rfl, hitems⟩
    | tuple xs =>
      obtain ⟨ys, rfl, hxs⟩ := tuple_beq_iff.mp hxy
      obtain ⟨zs, rfl, hys⟩ := tuple_beq_iff.mp hyz
      have hitems := forall₂_trans_of_mem (fun x hx => hpart x (.tupleItem hx)) hxs hys
      exact tuple_beq_iff.mpr ⟨zs, rfl, hitems⟩
    | set xs =>
      obtain ⟨ys, rfl, hlength, hxs⟩ := set_beq_iff.mp hxy
      obtain ⟨zs, rfl, hlength', hys⟩ := set_beq_iff.mp hyz
      refine set_beq_iff.mpr ⟨zs, rfl, hlength.trans hlength', fun x hx => ?_⟩
      obtain ⟨y, hy, hxy⟩ := hxs x hx
      obtain ⟨z, hz, hyz⟩ := hys y hy
      exact ⟨z, hz, hpart x (.member hx) y z hxy hyz⟩
    | doc d =>
      obtain ⟨es, rfl, hlength, hd⟩ := doc_beq_iff.mp hxy
      obtain ⟨fs, rfl, hlength', hes⟩ := doc_beq_iff.mp hyz
      refine doc_beq_iff.mpr ⟨fs, rfl, hlength.trans hlength', fun p hp => ?_⟩
      obtain ⟨e, he, hkey, hvalue⟩ := hd p hp
      obtain ⟨f, hf, hkey', hvalue'⟩ := hes e he
      exact ⟨f, hf, hpart p.1 (.key hp) _ _ hkey hkey', hpart p.2 (.value hp) _ _ hvalue hvalue'⟩
    | stream xs => exact absurd hxy not_stream_beq
    | pipeline name stages =>
      obtain ⟨n, stages', rfl, rfl⟩ := pipeline_beq_iff.mp hxy
      obtain ⟨m, stages'', hname, rfl⟩ := pipeline_beq_iff.mp hyz
      exact pipeline_beq_iff.mpr ⟨m, stages'', hname, rfl⟩
    | node hx =>
      obtain ⟨ys, hy, hkind, hxs⟩ := (beq_node_iff hx).mp hxy
      obtain ⟨zs, hz, hkind', hys⟩ := (beq_node_iff hy).mp hyz
      have hfields := forall₂_trans_of_mem (fun x hx' => hpart x (.field hx hx')) hxs hys
      exact (beq_node_iff hx).mpr ⟨zs, hz, hkind.trans hkind', hfields⟩

/-! ### Symmetry -/

theorem forall₂_imp_of_mem {α β : Type} {r s : α → β → Prop} {xs : List α} {ys : List β}
    (h : ∀ x ∈ xs, ∀ y ∈ ys, r x y → s x y) (hxs : List.Forall₂ r xs ys) :
    List.Forall₂ s xs ys := by
  rw [List.forall₂_iff_zip] at hxs ⊢
  refine ⟨hxs.1, fun {x y} hxy => ?_⟩
  obtain ⟨hx, hy⟩ := List.of_mem_zip hxy
  exact h x hx y hy (hxs.2 hxy)

theorem forall₂_symm_of_mem {α β : Type} {r : α → β → Prop} {s : β → α → Prop} {xs : List α}
    {ys : List β} (h : ∀ x ∈ xs, ∀ y, r x y → s y x) (hxs : List.Forall₂ r xs ys) :
    List.Forall₂ s ys xs :=
  (forall₂_imp_of_mem (s := fun x y => s y x) (fun x hx y _ => h x hx y) hxs).flip

/-- Where every item has a partner in a list of the same length, and no two have the same, the items
match that list in some order. -/
theorem exists_matching {α β : Type} {r : α → β → Prop} {xs : List α} {ys : List β}
    (hapart : xs.Pairwise fun a b => ∀ y, r a y → ¬r b y) (hlength : xs.length = ys.length)
    (h : ∀ x ∈ xs, ∃ y ∈ ys, r x y) : ∃ zs, List.Forall₂ r xs zs ∧ zs.Perm ys := by
  induction xs generalizing ys with
  | nil =>
    obtain rfl : ys = [] := List.length_eq_zero_iff.mp hlength.symm
    exact ⟨[], .nil, .nil⟩
  | cons x xs ih =>
    obtain ⟨hx, hapart⟩ := List.pairwise_cons.mp hapart
    obtain ⟨⟨y, hy, hxy⟩, hxs⟩ := List.forall_mem_cons.mp h
    obtain ⟨before, after, rfl⟩ := List.append_of_mem hy
    have hrest : ∀ x' ∈ xs, ∃ y' ∈ before ++ after, r x' y' := by
      intro x' hx'
      obtain ⟨y', hy', hr⟩ := hxs x' hx'
      have hne : y' ≠ y := fun heq => hx x' hx' y hxy (heq ▸ hr)
      refine ⟨y', ?_, hr⟩
      simpa [hne] using hy'
    have hlength' : xs.length = (before ++ after).length := by
      simp only [List.length_cons, List.length_append] at hlength ⊢
      omega
    obtain ⟨zs, hzs, hperm⟩ := ih hapart hlength' hrest
    exact ⟨y :: zs, .cons hxy hzs, (hperm.cons y).trans List.perm_middle.symm⟩

namespace Value

/-- Members of a set, and keys of a document, are different from each other. -/
def HasDistinctParts : Value → Prop
  | .set xs => xs.Pairwise fun x y => (x == y) = false
  | .doc d => d.Pairwise fun e f => (e.1 == f.1) = false
  | _ => True

theorem beq_symm {x y : Value} (h : x.Everywhere HasDistinctParts) (hxy : x == y) : y == x := by
  induction x using part_induction generalizing y with
  | step x ih =>
    have hpart : ∀ w, x.HasPart w → ∀ z, w == z → z == w := fun w hw z hwz =>
      ih w hw (h.part hw) hwz
    -- Two different parts have no equal in common.
    have hapart : ∀ a b, x.HasPart b → (a == b) = false → ∀ z, a == z → ¬b == z := by
      intro a b hb hab z haz hbz
      rw [beq_trans haz (hpart b hb z hbz)] at hab
      cases hab
    cases x.shape with
    | scalar s =>
      obtain ⟨t, rfl, hst⟩ := scalar_beq_iff.mp hxy
      exact scalar_beq_iff.mpr ⟨s, rfl, (Scalar.equal_comm t s).trans hst⟩
    | list xs =>
      obtain ⟨ys, rfl, hxs⟩ := list_beq_iff.mp hxy
      have hitems := forall₂_symm_of_mem (fun x hx => hpart x (.listItem hx)) hxs
      exact list_beq_iff.mpr ⟨xs, rfl, hitems⟩
    | tuple xs =>
      obtain ⟨ys, rfl, hxs⟩ := tuple_beq_iff.mp hxy
      have hitems := forall₂_symm_of_mem (fun x hx => hpart x (.tupleItem hx)) hxs
      exact tuple_beq_iff.mpr ⟨xs, rfl, hitems⟩
    | set xs =>
      obtain ⟨ys, rfl, hlength, hxs⟩ := set_beq_iff.mp hxy
      have hdistinct : xs.Pairwise fun a b => ∀ z, a == z → ¬b == z :=
        h.self.imp_of_mem fun {a b} _ hb hab => hapart a b (.member hb) hab
      obtain ⟨zs, hzs, hperm⟩ := exists_matching hdistinct hlength hxs
      refine set_beq_iff.mpr ⟨xs, rfl, hlength.symm, fun y hy => ?_⟩
      obtain ⟨x, hx, hxy⟩ := exists_of_mem_forall₂ hzs (hperm.mem_iff.mpr hy)
      exact ⟨x, hx, hpart x (.member hx) y hxy⟩
    | doc d =>
      obtain ⟨es, rfl, hlength, hd⟩ := doc_beq_iff.mp hxy
      have hdistinct : d.Pairwise fun p q => ∀ e : Value × Value,
          (p.1 == e.1 ∧ p.2 == e.2) → ¬(q.1 == e.1 ∧ q.2 == e.2) :=
        h.self.imp_of_mem fun {p q} _ hq hpq e hpe hqe =>
          hapart p.1 q.1 (.key hq) hpq e.1 hpe.1 hqe.1
      obtain ⟨fs, hfs, hperm⟩ := exists_matching hdistinct hlength hd
      refine doc_beq_iff.mpr ⟨d, rfl, hlength.symm, fun e he => ?_⟩
      obtain ⟨p, hp, hkey, hvalue⟩ := exists_of_mem_forall₂ hfs (hperm.mem_iff.mpr he)
      exact ⟨p, hp, hpart p.1 (.key hp) _ hkey, hpart p.2 (.value hp) _ hvalue⟩
    | stream xs => exact absurd hxy not_stream_beq
    | pipeline name stages =>
      obtain ⟨n, stages', rfl, rfl⟩ := pipeline_beq_iff.mp hxy
      exact pipeline_beq_iff.mpr ⟨n, stages, rfl, rfl⟩
    | node hx =>
      obtain ⟨ys, hy, hkind, hxs⟩ := (beq_node_iff hx).mp hxy
      have hfields := forall₂_symm_of_mem (fun x hx' => hpart x (.field hx hx')) hxs
      exact (beq_node_iff hy).mpr ⟨_, hx, hkind.symm, hfields⟩

/-! ### Reflexivity -/

/-- A NaN is the only scalar that is not equal to itself. -/
theorem scalar_beq_self {s : Scalar} (h : s ≠ .float .nan) : Value.scalar s == .scalar s := by
  have hidentity : ∃ a, s.identity? = some a := by
    cases s with
    | float x =>
      cases x with
      | nan => exact absurd rfl h
      | finite d => exact ⟨_, rfl⟩
      | infinite negative => exact ⟨_, rfl⟩
    | _ => exact ⟨_, rfl⟩
  obtain ⟨a, ha⟩ := hidentity
  exact scalar_beq_iff.mpr ⟨s, rfl, Scalar.equal_iff.mpr ⟨a, ha, ha⟩⟩

/-- No member or key is repeated, and the value is no NaN, which is equal to nothing, and no stream
or pipeline, which is equal at most to itself. -/
def IsDefinite : Value → Prop
  | .scalar s => s ≠ .float .nan
  | .stream _ | .pipeline _ _ => False
  | v => v.HasDistinctParts

/-- A value that is definite, and so is all that stands in it. -/
def IsComparable : Value → Prop := Everywhere IsDefinite

theorem IsComparable.part {v w : Value} (h : v.IsComparable) (hw : v.HasPart w) : w.IsComparable :=
  Everywhere.part h hw

@[simp] theorem isComparable_scalar {s : Scalar} :
    (Value.scalar s).IsComparable ↔ s ≠ .float .nan := everywhere_scalar

@[simp] theorem isComparable_list {xs : List Value} :
    (Value.list xs).IsComparable ↔ ∀ x ∈ xs, x.IsComparable :=
  everywhere_list.trans (and_iff_right trivial)

@[simp] theorem isComparable_tuple {xs : List Value} :
    (Value.tuple xs).IsComparable ↔ ∀ x ∈ xs, x.IsComparable :=
  everywhere_tuple.trans (and_iff_right trivial)

@[simp] theorem isComparable_doc {d : Document} :
    (Value.doc d).IsComparable ↔ d.Pairwise (fun e f => (e.1 == f.1) = false) ∧
      ∀ e ∈ d, e.1.IsComparable ∧ e.2.IsComparable := everywhere_doc

/-- Nodes are comparable if their fields are. -/
theorem isComparable_node {v : Value} {xs : List Value} (hv : v.nodeParts? = some xs) :
    v.IsComparable ↔ ∀ x ∈ xs, x.IsComparable := by
  refine (everywhere_node hv).trans (and_iff_right ?_)
  cases v with
  | filter | update | stage => trivial
  | _ => cases hv

theorem IsDefinite.hasDistinctParts {v : Value} (h : v.IsDefinite) : v.HasDistinctParts := by
  cases v with
  | set xs | doc d => exact h
  | _ => trivial

theorem IsComparable.everywhere_hasDistinctParts {v : Value} (h : v.IsComparable) :
    v.Everywhere HasDistinctParts :=
  h.imp fun _ => IsDefinite.hasDistinctParts

theorem IsComparable.beq_self {v : Value} (h : v.IsComparable) : v == v := by
  induction v using part_induction with
  | step v ih =>
    have hpart : ∀ w, v.HasPart w → w == w := fun w hw => ih w hw (h.part hw)
    cases v.shape with
    | scalar s => exact scalar_beq_self h.self
    | list xs =>
      exact list_beq_iff.mpr ⟨xs, rfl, List.forall₂_same.mpr fun x hx => hpart x (.listItem hx)⟩
    | tuple xs =>
      exact tuple_beq_iff.mpr ⟨xs, rfl, List.forall₂_same.mpr fun x hx => hpart x (.tupleItem hx)⟩
    | set xs => exact set_beq_iff.mpr ⟨xs, rfl, rfl, fun x hx => ⟨x, hx, hpart x (.member hx)⟩⟩
    | doc d =>
      exact doc_beq_iff.mpr ⟨d, rfl, rfl, fun e he =>
        ⟨e, he, hpart e.1 (.key he), hpart e.2 (.value he)⟩⟩
    | stream xs => exact h.self.elim
    | pipeline name stages => exact h.self.elim
    | node hv =>
      exact (beq_node_iff hv).mpr
        ⟨_, hv, rfl, List.forall₂_same.mpr fun x hx => hpart x (.field hv hx)⟩

end Value

end DocQuery
