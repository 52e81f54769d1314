import DocQuery.Proofs.Filter.Tree

/-!
# DocQuery.Proofs.Filter.Flat — constructed filters are flat

Flattening opens containers one level deep, which is enough because its operands are flat already:
that every node is flat is the invariant that all constructors and operators keep
(`Constructed.sound`).  A flat tree compiles to a document without superfluous parts, which
`Emits` describes node by node (`constructed_flat`).
-/

namespace DocQuery.Filter

/-! ### Flat nodes -/

/-- At least two children, none of them absent or a container of the same kind. -/
def FlatChildren (c : Connective) (children : Value) : Prop :=
  ∃ xs, children = .tuple xs ∧ 2 ≤ xs.length ∧
    ∀ x ∈ xs, x ≠ .null ∧ ∀ ys, x ≠ .filter (c.join ys)

/-- A container has flat children, and a negation has something to negate. -/
def FlatNode : Filter → Prop
  | .conj children => FlatChildren .and children
  | .disj children => FlatChildren .or children
  | .neg inner => inner ≠ .null
  | _ => True

theorem flatNode_join {c : Connective} {children : Value} :
    FlatNode (c.join children) ↔ FlatChildren c children := by
  cases c <;> rfl

theorem knownOperator_join (c : Connective) (children : Value) :
    KnownOperator (c.join children) := by
  cases c <;> trivial

/-- What every node of a constructed filter has. -/
def Sound (f : Filter) : Prop := FlatNode f ∧ KnownOperator f

/-! ### Constructors -/

/-- What constructors and operators make of filters and of nothing.  The comparisons, from `eq` to
`size`, are one case. -/
inductive Constructed : Value → Prop
  | absent : Constructed .null
  | comparison (op : ComparisonOp) (field value : Value) :
    Constructed (.filter (compare op field value))
  | pattern (field regex flags : Value) : Constructed (.filter (.pattern field regex flags))
  | between (field low high : Value) : Constructed (between field low high)
  | elemMatch (field : Value) {inner : Value} (h : Constructed inner) :
    Constructed (.filter (.elemMatch field inner))
  | combine (c : Connective) {vs : List Value} {r : Value} (h : ∀ v ∈ vs, Constructed v)
    (hr : c.combine vs = .ok r) : Constructed r
  | negation {v : Value} (h : Constructed v) : Constructed (negation v)
  | operator (c : Connective) {l r v : Value} (hl : Constructed l) (hr : Constructed r)
    (hv : c.apply l r = .ok v) : Constructed v
  | complement {v w : Value} (h : Constructed v) (hw : v.complement = .ok w) : Constructed w

/-- A filter that can stand in a container of a connective without being opened. -/
def Member (c : Connective) (x : Value) : Prop :=
  ∃ f, x = .filter f ∧ f.All Sound ∧ ∀ ys, f ≠ c.join ys

/-- Children of a sound container can stand in any container of its kind. -/
theorem members_of_sound {c : Connective} {children : Value}
    (h : (c.join children).All Sound) :
    ∃ xs, children = .tuple xs ∧ 2 ≤ xs.length ∧ ∀ x ∈ xs, Member c x := by
  obtain ⟨⟨hflat, -⟩, hchildren⟩ := all_join.mp h
  obtain ⟨xs, rfl, hlength, hxs⟩ := flatNode_join.mp hflat
  refine ⟨xs, rfl, hlength, fun x hx => ?_⟩
  obtain ⟨hnull, hjoin⟩ := hxs x hx
  rcases nodeAll_iff.mp (itemsAll_iff.mp hchildren x hx) with hx | ⟨f, rfl, hf⟩
  · exact absurd hx hnull
  · exact ⟨f, rfl, hf, fun ys hys => hjoin ys (hys ▸ rfl)⟩

/-- Flattening sound operands gives filters that can stand in one container. -/
theorem exists_flatten (c : Connective) {vs : List Value}
    (h : ∀ v ∈ vs, Optionally (All Sound) v) :
    ∃ xs, c.flatten vs = .ok xs ∧ ∀ x ∈ xs, Member c x := by
  induction vs with
  | nil => exact ⟨[], rfl, by simp⟩
  | cons v vs ih =>
    obtain ⟨hv, hvs⟩ := List.forall_mem_cons.mp h
    obtain ⟨ys, hys, hmembers⟩ := ih hvs
    rcases hv with rfl | ⟨f, rfl, hf⟩
    · exact ⟨ys, hys, hmembers⟩
    · by_cases hjoin : ∃ children, f = c.join children
      · obtain ⟨children, rfl⟩ := hjoin
        obtain ⟨xs, rfl, -, hxs⟩ := members_of_sound hf
        exact ⟨xs ++ ys, flatten_join_cons c xs vs hys, List.forall_mem_append.mpr ⟨hxs, hmembers⟩⟩
      · have hne : ∀ zs, f ≠ c.join zs := fun zs hzs => hjoin ⟨zs, hzs⟩
        exact ⟨.filter f :: ys, flatten_filter_cons hne hys,
          List.forall_mem_cons.mpr ⟨⟨f, rfl, hf, hne⟩, hmembers⟩⟩

theorem sound_ofFlat {c : Connective} {xs : List Value} (h : ∀ x ∈ xs, Member c x) :
    Optionally (All Sound) (c.ofFlat xs) := by
  match xs with
  | [] => exact Or.inl rfl
  | [x] =>
    obtain ⟨f, rfl, hf, -⟩ := h x (by simp)
    exact Or.inr ⟨f, rfl, hf⟩
  | x :: y :: xs =>
    have hflat : FlatChildren c (.tuple (x :: y :: xs)) := by
      refine ⟨_, rfl, Nat.le_add_left 2 xs.length, fun z hz => ?_⟩
      obtain ⟨f, rfl, -, hf⟩ := h z hz
      exact ⟨nofun, fun ys hys => hf ys (Value.filter.inj hys)⟩
    have hnodes : ∀ z ∈ x :: y :: xs, NodeAll Sound z := by
      intro z hz
      obtain ⟨f, rfl, hf, -⟩ := h z hz
      exact hf
    exact Or.inr ⟨_, rfl,
      all_join_tuple.mpr ⟨⟨flatNode_join.mpr hflat, knownOperator_join c _⟩, hnodes⟩⟩

theorem exists_combine (c : Connective) {vs : List Value}
    (h : ∀ v ∈ vs, Optionally (All Sound) v) :
    ∃ r, c.combine vs = .ok r ∧ Optionally (All Sound) r := by
  obtain ⟨xs, hxs, hmembers⟩ := exists_flatten c h
  refine ⟨c.ofFlat xs, ?_, sound_ofFlat hmembers⟩
  rw [Connective.combine, hxs]
  rfl

theorem sound_combine {c : Connective} {vs : List Value} {r : Value}
    (h : ∀ v ∈ vs, Optionally (All Sound) v) (hr : c.combine vs = .ok r) :
    Optionally (All Sound) r := by
  obtain ⟨r', hr', hsound⟩ := exists_combine c h
  obtain rfl : r' = r := Except.ok.inj (hr'.symm.trans hr)
  exact hsound

theorem sound_negation {v : Value} (h : Optionally (All Sound) v) :
    Optionally (All Sound) (negation v) := by
  rcases h with rfl | ⟨f, rfl, hf⟩
  · exact Or.inl rfl
  · exact Or.inr ⟨.neg (.filter f), rfl, ⟨nofun, trivial⟩, hf⟩

/-- Between filters and nothing, an operator combines, unless both operands are absent. -/
theorem apply_eq_combine {c : Connective} {l r v : Value} (hl : Optionally (All Sound) l)
    (hr : Optionally (All Sound) r) (hv : c.apply l r = .ok v) : c.combine [l, r] = .ok v := by
  rcases hl with rfl | ⟨f, rfl, -⟩
  · rcases hr with rfl | ⟨g, rfl, -⟩
    · cases hv
    · exact hv
  · rcases hr with rfl | ⟨g, rfl, -⟩
    · exact hv
    · exact hv

/-- Everything constructed is absent or a tree with sound nodes only. -/
theorem Constructed.sound {v : Value} (h : Constructed v) : Optionally (All Sound) v := by
  induction h with
  | absent => exact Or.inl rfl
  | comparison op field value => exact Or.inr ⟨_, rfl, trivial, op, rfl⟩
  | pattern field regex flags => exact Or.inr ⟨_, rfl, trivial, trivial⟩
  | between field low high =>
    have hbounds : ∀ v ∈ [.filter (gte field low), .filter (lte field high)],
        Optionally (All Sound) v :=
      List.forall_mem_cons.mpr ⟨Or.inr ⟨_, rfl, trivial, .gte, rfl⟩,
        List.forall_mem_singleton.mpr (Or.inr ⟨_, rfl, trivial, .lte, rfl⟩)⟩
    exact sound_combine hbounds (allOf_gte_lte field low high)
  | elemMatch field _ ih => exact Or.inr ⟨_, rfl, ⟨trivial, trivial⟩, nodeAll_iff.mpr ih⟩
  | combine c _ hr ih => exact sound_combine ih hr
  | negation _ ih => exact sound_negation ih
  | operator c _ _ hv ihl ihr =>
    have hoperands := List.forall_mem_cons.mpr ⟨ihl, List.forall_mem_singleton.mpr ihr⟩
    exact sound_combine hoperands (apply_eq_combine ihl ihr hv)
  | complement _ hw ih =>
    rcases ih with rfl | ⟨f, rfl, hf⟩
    · cases hw
    · obtain rfl := Except.ok.inj hw
      exact sound_negation (Or.inr ⟨f, rfl, hf⟩)

/-- Compiling leaves everything constructed as it is. -/
theorem Constructed.isRereadable {v : Value} (h : Constructed v) : IsRereadable v :=
  NodeAll.isRereadable (nodeAll_iff.mpr h.sound)

/-! ### Documents of flat trees -/

/-- How a document stands for the nodes of a filter; `w` and the parts of a pattern are values of
leaves.  An array of a connective has two members or more, none of them empty or with the same key;
that of a negation has one, which is not empty; and the empty document stands for the absence of a
condition on elements, nowhere else. -/
inductive Emits : Filter → Document → Prop
  | equality {s : String} (hs : isOperatorKey s = false) (value w : Value) :
    Emits (eq (.str s) value) [(.str s, w)]
  | comparison {s : String} (hs : isOperatorKey s = false) {op : ComparisonOp} (hop : op ≠ .eq)
    (value w : Value) : Emits (compare op (.str s) value) [(.str s, .single op.key w)]
  | pattern {s : String} (hs : isOperatorKey s = false) (regex flags : Value) :
    Emits (.pattern (.str s) regex flags) [(.str s, .doc (patternDocument regex flags))]
  | anyElement {s : String} (hs : isOperatorKey s = false) :
    Emits (.elemMatch (.str s) .null) [(.str s, .single Key.elemMatch (.doc []))]
  | elemMatch {s : String} (hs : isOperatorKey s = false) {f : Filter} {d : Document}
    (h : Emits f d) (hd : d ≠ []) :
    Emits (.elemMatch (.str s) (.filter f)) [(.str s, .single Key.elemMatch (.doc d))]
  | join (c : Connective) {ps : List (Filter × Document)} (hlength : 2 ≤ ps.length)
    (h : ∀ p ∈ ps, Emits p.1 p.2)
    (hmembers : ∀ p ∈ ps, p.2 ≠ [] ∧ p.2.lookup? (.str c.key) = none) :
    Emits (c.join (.tuple (ps.map fun p => .filter p.1)))
      [(.str c.key, .list (ps.map fun p => .doc p.2))]
  | neg {f : Filter} {d : Document} (h : Emits f d) (hd : d ≠ []) :
    Emits (.neg (.filter f)) [(.str Key.nor, .list [.doc d])]

theorem key_inj {c c' : Connective} (h : c.key = c'.key) : c = c' := by
  revert h
  cases c <;> cases c' <;> decide

theorem nor_ne_key (c : Connective) : Key.nor ≠ c.key := by cases c <;> decide

theorem ne_key_of_plain {s : String} (hs : isOperatorKey s = false) (c : Connective) :
    s ≠ c.key := by
  rintro rfl
  cases c <;> exact Bool.noConfusion hs

/-- The document of a node has one key, and that of a connective only for its own containers. -/
theorem Emits.exists_single {f : Filter} {d : Document} (h : Emits f d) :
    ∃ k payload, d = [(.str k, payload)] ∧ ∀ c : Connective, k = c.key → ∃ ys, f = c.join ys := by
  cases h with
  | equality hs | comparison hs | pattern hs | anyElement hs | elemMatch hs =>
    exact ⟨_, _, rfl, fun c hc => absurd hc (ne_key_of_plain hs c)⟩
  | join c =>
    refine ⟨_, _, rfl, fun c' hc => ?_⟩
    obtain rfl := key_inj hc
    exact ⟨_, rfl⟩
  | neg => exact ⟨_, _, rfl, fun c hc => absurd hc (nor_ne_key c)⟩

theorem Emits.ne_nil {f : Filter} {d : Document} (h : Emits f d) : d ≠ [] := by
  obtain ⟨k, payload, rfl, -⟩ := h.exists_single
  exact List.cons_ne_nil _ _

/-- A filter that is no container of a connective does not have its key. -/
theorem Emits.lookup?_eq_none {f : Filter} {d : Document} (h : Emits f d) {c : Connective}
    (hf : ∀ ys, f ≠ c.join ys) : d.lookup? (.str c.key) = none := by
  obtain ⟨k, payload, rfl, hk⟩ := h.exists_single
  have hne : k ≠ c.key := by
    intro hkc
    obtain ⟨ys, hys⟩ := hk c hkc
    exact hf ys hys
  simp [Document.lookup?, hne]

/-- A filter compiles to a document that stands for its nodes. -/
def Compiles (f : Filter) : Prop := ∃ d, f.document = .ok d ∧ Emits f d

theorem exists_documents {xs : List Value} (hnull : ∀ x ∈ xs, x ≠ .null)
    (h : ∀ x ∈ xs, Optionally Compiles x) :
    ∃ ps : List (Filter × Document), xs = ps.map (fun p => .filter p.1) ∧
      nodeDocuments xs = .ok (ps.map (·.2)) ∧ ∀ p ∈ ps, Emits p.1 p.2 := by
  induction xs with
  | nil => exact ⟨[], rfl, rfl, by simp⟩
  | cons x xs ih =>
    obtain ⟨hx, hxs⟩ := List.forall_mem_cons.mp h
    obtain ⟨hxnull, hxsnull⟩ := List.forall_mem_cons.mp hnull
    obtain ⟨ps, rfl, hdocs, hps⟩ := ih hxsnull hxs
    rcases hx with hx | ⟨f, rfl, d, hd, hf⟩
    · exact absurd hx hxnull
    · exact ⟨(f, d) :: ps, rfl, nodeDocuments_cons hd hdocs, List.forall_mem_cons.mpr ⟨hf, hps⟩⟩

theorem compiles_comparison {field op value : Value}
    (hop : KnownOperator (.comparison field op value))
    (hplain : PlainNode (.comparison field op value)) : Compiles (.comparison field op value) := by
  obtain ⟨o, rfl⟩ := hop
  obtain ⟨⟨s, rfl, hs⟩, hvalue⟩ := hplain
  by_cases ho : o = .eq
  · subst ho
    exact ⟨_, eq_document s hvalue, .equality hs _ _⟩
  · obtain ⟨w, hw⟩ := exists_operand hvalue
    exact ⟨_, compare_document s ho hw, .comparison hs ho _ _⟩

theorem compiles_elemMatch {field inner : Value} (hfield : PlainField field)
    (h : Optionally Compiles inner) : Compiles (.elemMatch field inner) := by
  obtain ⟨s, rfl, hs⟩ := hfield
  rcases h with rfl | ⟨f, rfl, d, hd, hf⟩
  · exact ⟨_, elemMatch_document s nodeDocument_null, .anyElement hs⟩
  · exact ⟨_, elemMatch_document s hd, .elemMatch hs hf hf.ne_nil⟩

theorem compiles_join {c : Connective} {xs : List Value} (hflat : FlatChildren c (.tuple xs))
    (h : ∀ x ∈ xs, Optionally Compiles x) : Compiles (c.join (.tuple xs)) := by
  obtain ⟨ys, hys, hlength, hchildren⟩ := hflat
  obtain rfl := Value.tuple.inj hys
  obtain ⟨ps, rfl, hdocs, hps⟩ := exists_documents (fun x hx => (hchildren x hx).1) h
  rw [List.length_map] at hlength
  refine ⟨_, join_document c hdocs, ?_⟩
  rw [joined_of_two_le c (by rwa [List.length_map]), List.map_map]
  refine .join c hlength hps fun p hp => ⟨(hps p hp).ne_nil, (hps p hp).lookup?_eq_none ?_⟩
  intro ys hys
  exact (hchildren _ (List.mem_map_of_mem hp)).2 ys (congrArg Value.filter hys)

/-- Sound nodes with plain fields compile, at any depth. -/
theorem compiles_of_sound {f : Filter} (hsound : f.All Sound) (hplain : f.All PlainNode) :
    Compiles f := by
  have cases : TreeCases (fun g => Sound g ∧ PlainNode g) Compiles :=
    { comparison := fun _ _ _ h => compiles_comparison h.1.2 h.2
      pattern := fun field regex flags h => by
        obtain ⟨s, rfl, hs⟩ := h.2
        exact ⟨_, pattern_document s regex flags, .pattern hs regex flags⟩
      elemMatch := fun _ _ h hinner => compiles_elemMatch h.2 hinner
      join := fun _ _ h hxs => compiles_join (flatNode_join.mp h.1.1) hxs
      neg := fun inner h hinner => by
        rcases hinner with rfl | ⟨f, rfl, d, hd, hf⟩
        · exact absurd rfl h.1.1
        · exact ⟨_, neg_document hd, .neg hf hf.ne_nil⟩ }
  exact cases.filter f (hsound.and hplain)

/-- What constructors and operators make is absent or flat at every node; and where fields are plain
and values can be copied, it compiles to a document that stands for its nodes. -/
theorem constructed_flat {v : Value} (h : Constructed v) (hv : v ≠ .null) :
    ∃ f, v = .filter f ∧ f.All FlatNode ∧
      (f.All PlainNode → ∃ d, compile v = .ok (.doc d) ∧ Emits f d) := by
  rcases h.sound with rfl | ⟨f, rfl, hf⟩
  · exact absurd rfl hv
  · refine ⟨f, rfl, hf.imp fun _ hg => hg.1, fun hplain => ?_⟩
    obtain ⟨d, hd, hemits⟩ := compiles_of_sound hf hplain
    refine ⟨d, ?_, hemits⟩
    rw [compile, nodeDocument_filter, hd]
    rfl

/-- A conjunction of a range, nothing and a negation has three children. -/
theorem constructed_flat_range :
    allOf [between (.str "a") (.int 1) (.int 2), .null,
        negation (.filter (.elemMatch (.str "b") .null))]
      = .ok (.filter (.conj (.tuple [.filter (gte (.str "a") (.int 1)),
          .filter (lte (.str "a") (.int 2)),
          .filter (.neg (.filter (.elemMatch (.str "b") .null)))]))) ∧
    ∃ d, compile (.filter (.conj (.tuple [.filter (gte (.str "a") (.int 1)),
          .filter (lte (.str "a") (.int 2)),
          .filter (.neg (.filter (.elemMatch (.str "b") .null)))]))) = .ok (.doc d) ∧
      Emits (.conj (.tuple [.filter (gte (.str "a") (.int 1)),
          .filter (lte (.str "a") (.int 2)),
          .filter (.neg (.filter (.elemMatch (.str "b") .null)))])) d := by
  have hr : allOf [between (.str "a") (.int 1) (.int 2), .null,
        negation (.filter (.elemMatch (.str "b") .null))]
      = .ok (.filter (.conj (.tuple [.filter (gte (.str "a") (.int 1)),
          .filter (lte (.str "a") (.int 2)),
          .filter (.neg (.filter (.elemMatch (.str "b") .null)))]))) := rfl
  have hoperands : ∀ v ∈ [between (.str "a") (.int 1) (.int 2), .null,
      negation (.filter (.elemMatch (.str "b") .null))], Constructed v := by
    simpa using ⟨Constructed.between _ _ _, Constructed.absent,
      (Constructed.elemMatch _ .absent).negation⟩
  obtain ⟨f, hf, -, hdoc⟩ := constructed_flat (.combine .and hoperands hr) nofun
  obtain rfl := Value.filter.inj hf
  have ha : PlainField (.str "a") := ⟨"a", rfl, rfl⟩
  have hb : PlainField (.str "b") := ⟨"b", rfl, rfl⟩
  exact ⟨hr, hdoc ⟨trivial, ⟨ha, rfl⟩, ⟨ha, rfl⟩, ⟨trivial, hb, trivial⟩, trivial⟩⟩

end DocQuery.Filter
