import DocQuery.Fingerprint.Basic
import DocQuery.Proofs.Filter.Flat

/-!
# DocQuery.Proofs.Filter.Bracketing — brackets do not count

A connective is associative, with nothing as its unit: however operands are bracketed, with any
number of them in a bracket, combining bracket by bracket gives what one combination of all of them
gives (`value_eq_combine`).  This needs flat operands.  Flattening opens containers one level deep,
so what a bracket gives to the next is the same as what its operands would have given
(`spread_ofFlat`).
-/

namespace DocQuery

namespace Connective

open DocQuery.Filter (Optionally All Sound Member)

/-! ### What operands give to a container -/

/-- What an operand gives to a container: the children of its own container, or itself. -/
def opened (c : Connective) (v : Value) : List Value :=
  match c.childrenOf? v with
  | some (.tuple xs) => xs
  | _ => [v]

/-- The operands that are there. -/
def remaining (vs : List Value) : List Value := vs.filter fun v => !v.isNull

/-- What operands give to a container, in order. -/
def spread (c : Connective) (vs : List Value) : List Value := (remaining vs).flatMap c.opened

/-- The filter for operands that are there: nothing, the only one, or one container. -/
def ofOperands (c : Connective) : List Value → Value
  | [] => .null
  | [v] => v
  | vs => .filter (c.join (.tuple (vs.flatMap c.opened)))

variable {c : Connective}

@[simp] theorem opened_join (c : Connective) (xs : List Value) :
    c.opened (.filter (c.join (.tuple xs))) = xs := by
  rw [opened, Filter.childrenOf?_join]

theorem opened_of_ne_join {f : Filter} (h : ∀ ys, f ≠ c.join ys) :
    c.opened (.filter f) = [.filter f] := by
  rw [opened, Filter.childrenOf?_of_ne_join h]

theorem remaining_append (vs ws : List Value) :
    remaining (vs ++ ws) = remaining vs ++ remaining ws :=
  List.filter_append ..

theorem spread_append (c : Connective) (vs ws : List Value) :
    c.spread (vs ++ ws) = c.spread vs ++ c.spread ws := by
  rw [spread, remaining_append, List.flatMap_append]
  rfl

theorem spread_filter_cons (c : Connective) (f : Filter) (vs : List Value) :
    c.spread (.filter f :: vs) = c.opened (.filter f) ++ c.spread vs :=
  rfl

theorem spread_singleton (c : Connective) (f : Filter) :
    c.spread [.filter f] = c.opened (.filter f) :=
  List.append_nil _

theorem ofFlat_of_two_le {xs : List Value} (h : 2 ≤ xs.length) :
    c.ofFlat xs = .filter (c.join (.tuple xs)) := by
  match xs with
  | [] => exact absurd h (by simp)
  | [_] => exact absurd h (by simp)
  | _ :: _ :: _ => rfl

/-! ### Flat operands -/

/-- Flattening flat operands spreads them. -/
theorem flatten_eq_spread {vs : List Value} (h : ∀ v ∈ vs, Optionally (All Sound) v) :
    c.flatten vs = .ok (c.spread vs) := by
  induction vs with
  | nil => rfl
  | cons v vs ih =>
    obtain ⟨hv, hvs⟩ := List.forall_mem_cons.mp h
    rcases hv with rfl | ⟨f, rfl, hf⟩
    · exact ih hvs
    · rw [spread_filter_cons]
      by_cases hjoin : ∃ children, f = c.join children
      · obtain ⟨children, rfl⟩ := hjoin
        obtain ⟨xs, rfl, -, -⟩ := Filter.members_of_sound hf
        rw [opened_join]
        exact Filter.flatten_join_cons c xs vs (ih hvs)
      · have hne : ∀ ys, f ≠ c.join ys := fun ys hys => hjoin ⟨ys, hys⟩
        rw [opened_of_ne_join hne]
        exact Filter.flatten_filter_cons hne (ih hvs)

theorem combine_eq_ofFlat {vs : List Value} (h : ∀ v ∈ vs, Optionally (All Sound) v) :
    c.combine vs = .ok (c.ofFlat (c.spread vs)) := by
  rw [combine, flatten_eq_spread h]
  rfl

theorem member_of_mem_spread {vs : List Value} (h : ∀ v ∈ vs, Optionally (All Sound) v) :
    ∀ x ∈ c.spread vs, Member c x := by
  obtain ⟨xs, hxs, hmembers⟩ := Filter.exists_flatten c h
  obtain rfl : c.spread vs = xs := Except.ok.inj ((flatten_eq_spread h).symm.trans hxs)
  exact hmembers

/-- A flat operand alone is what is made of it. -/
theorem ofFlat_spread_singleton {v : Value} (h : Optionally (All Sound) v) :
    c.ofFlat (c.spread [v]) = v := by
  rcases h with rfl | ⟨f, rfl, hf⟩
  · rfl
  · rw [spread_singleton]
    by_cases hjoin : ∃ children, f = c.join children
    · obtain ⟨children, rfl⟩ := hjoin
      obtain ⟨xs, rfl, hlength, -⟩ := Filter.members_of_sound hf
      rw [opened_join, ofFlat_of_two_le hlength]
    · rw [opened_of_ne_join fun ys hys => hjoin ⟨ys, hys⟩]
      rfl

/-- A combination of members gives these members to the next one. -/
theorem spread_ofFlat {xs : List Value} (h : ∀ x ∈ xs, Member c x) :
    c.spread [c.ofFlat xs] = xs := by
  match xs with
  | [] => rfl
  | [x] =>
    obtain ⟨f, rfl, -, hf⟩ := h x (by simp)
    exact (spread_singleton c f).trans (opened_of_ne_join hf)
  | x :: y :: xs => exact (spread_singleton c _).trans (opened_join c _)

/-- An operand that is there gives at least one filter. -/
theorem opened_ne_nil {v : Value} (hv : v ≠ .null) (h : Optionally (All Sound) v) :
    c.opened v ≠ [] := by
  rcases h with rfl | ⟨f, rfl, hf⟩
  · exact absurd rfl hv
  · intro hnil
    have hself := ofFlat_spread_singleton (c := c) (Or.inr ⟨f, rfl, hf⟩)
    rw [spread_singleton, hnil] at hself
    exact Value.noConfusion hself

theorem length_le_length_flatMap_opened {vs : List Value} (h : ∀ v ∈ vs, c.opened v ≠ []) :
    vs.length ≤ (vs.flatMap c.opened).length := by
  induction vs with
  | nil => exact Nat.le_refl 0
  | cons v vs ih =>
    obtain ⟨hv, hvs⟩ := List.forall_mem_cons.mp h
    have hpos : 0 < (c.opened v).length := List.length_pos_iff.mpr hv
    have hle := ih hvs
    rw [List.flatMap_cons, List.length_append, List.length_cons]
    omega

/-- One combination: nothing, the only operand, or one container with what all of them give. -/
theorem ofFlat_flatMap_opened {vs : List Value}
    (h : ∀ v ∈ vs, v ≠ .null ∧ Optionally (All Sound) v) :
    c.ofFlat (vs.flatMap c.opened) = c.ofOperands vs := by
  have hlength : vs.length ≤ (vs.flatMap c.opened).length :=
    length_le_length_flatMap_opened fun v hv => opened_ne_nil (h v hv).1 (h v hv).2
  match vs with
  | [] => rfl
  | [v] =>
    obtain ⟨hv, hsound⟩ := h v (by simp)
    rcases hsound with rfl | ⟨f, rfl, hf⟩
    · exact absurd rfl hv
    · exact ofFlat_spread_singleton (Or.inr ⟨f, rfl, hf⟩)
  | v :: w :: vs => exact ofFlat_of_two_le (Nat.le_trans (Nat.le_add_left 2 vs.length) hlength)

theorem mem_remaining {v : Value} {vs : List Value} : v ∈ remaining vs ↔ v ∈ vs ∧ v ≠ .null := by
  simp [remaining, List.mem_filter, ← Value.isNull_iff]

theorem combine_eq_ofOperands {vs : List Value} (h : ∀ v ∈ vs, Optionally (All Sound) v) :
    c.combine vs = .ok (c.ofOperands (remaining vs)) := by
  have hthere : ∀ v ∈ remaining vs, v ≠ .null ∧ Optionally (All Sound) v := fun v hv =>
    ⟨(mem_remaining.mp hv).2, h v (mem_remaining.mp hv).1⟩
  rw [combine_eq_ofFlat h, spread, ofFlat_flatMap_opened hthere]

end Connective

/-! ### Bracketings -/

/-- Operands with brackets: one operand, or a bracket around any number of bracketings. -/
inductive Bracketing
  | operand (v : Value)
  | bracket (parts : List Bracketing)

namespace Bracketing

open DocQuery.Filter (Optionally All Sound Constructed)
open Connective (remaining)

mutual

/-- The operands from left to right. -/
def operands : Bracketing → List Value
  | .operand v => [v]
  | .bracket bs => operandsOfEach bs

def operandsOfEach : List Bracketing → List Value
  | [] => []
  | b :: bs => b.operands ++ operandsOfEach bs

end

mutual

/-- The value of a bracketing: a bracket combines the values of what stands in it. -/
def value (c : Connective) : Bracketing → Except Fault Value
  | .operand v => .ok v
  | .bracket bs => do c.combine (← values c bs)

def values (c : Connective) : List Bracketing → Except Fault (List Value)
  | [] => .ok []
  | b :: bs => do
    let v ← b.value c
    return v :: (← values c bs)

end

variable {c : Connective}

/-- The value of a bracketing is flat, and gives a container what the operands would give it. -/
def Spreads (c : Connective) (b : Bracketing) (v : Value) : Prop :=
  b.value c = .ok v ∧ Optionally (All Sound) v ∧ c.spread [v] = c.spread b.operands

/-- A bracket spreads its operands if the values in it do. -/
theorem spreads_bracket {bs : List Bracketing} {vs : List Value} (hvs : values c bs = .ok vs)
    (hsound : ∀ v ∈ vs, Optionally (All Sound) v)
    (hspread : c.spread vs = c.spread (operandsOfEach bs)) :
    Spreads c (.bracket bs) (c.ofFlat (c.spread vs)) := by
  have hcombine := Connective.combine_eq_ofFlat (c := c) hsound
  have hmembers := Connective.member_of_mem_spread (c := c) hsound
  refine ⟨?_, Filter.sound_combine hsound hcombine, ?_⟩
  · rw [value, hvs]
    exact hcombine
  · rw [Connective.spread_ofFlat hmembers, hspread, operands]

mutual

theorem exists_spreads (b : Bracketing) (h : ∀ v ∈ b.operands, Optionally (All Sound) v) :
    ∃ v, Spreads c b v := by
  match b with
  | .operand v => exact ⟨v, rfl, h v (by simp [operands]), rfl⟩
  | .bracket bs =>
    obtain ⟨vs, hvs, hsound, hspread⟩ := exists_values_spread bs h
    exact ⟨_, spreads_bracket hvs hsound hspread⟩

theorem exists_values_spread (bs : List Bracketing)
    (h : ∀ v ∈ operandsOfEach bs, Optionally (All Sound) v) :
    ∃ vs, values c bs = .ok vs ∧ (∀ v ∈ vs, Optionally (All Sound) v) ∧
      c.spread vs = c.spread (operandsOfEach bs) := by
  match bs with
  | [] => exact ⟨[], rfl, by simp, rfl⟩
  | b :: bs =>
    obtain ⟨hb, hbs⟩ := List.forall_mem_append.mp h
    obtain ⟨v, hv, hsound, hspread⟩ := exists_spreads b hb
    obtain ⟨vs, hvs, hsounds, hspreads⟩ := exists_values_spread bs hbs
    refine ⟨v :: vs, ?_, List.forall_mem_cons.mpr ⟨hsound, hsounds⟩, ?_⟩
    · rw [values, hv, hvs]
      rfl
    · rw [← List.singleton_append, Connective.spread_append, hspread, hspreads, operandsOfEach,
        Connective.spread_append]

end

theorem value_eq_combine {b : Bracketing} (h : ∀ v ∈ b.operands, Optionally (All Sound) v) :
    b.value c = c.combine b.operands := by
  obtain ⟨v, hv, hsound, hspread⟩ := exists_spreads (c := c) b h
  rw [hv, Connective.combine_eq_ofFlat h, ← hspread, Connective.ofFlat_spread_singleton hsound]

/-- However constructed operands are bracketed, what comes of it is one combination of all of them:
nothing, the only operand that is there, or one container that holds, in order, what the operands
give to it.  So two bracketings of the same operands compile to the same document, with the same
fingerprint. -/
theorem bracketing_irrelevant (c : Connective) {b : Bracketing}
    (h : ∀ v ∈ b.operands, Constructed v) :
    b.value c = c.combine b.operands ∧
    b.value c = .ok (c.ofOperands (remaining b.operands)) ∧
    ∀ b' : Bracketing, remaining b'.operands = remaining b.operands →
      (do Filter.compile (← b'.value c)) = (do Filter.compile (← b.value c)) ∧
      (do return Fingerprint.ofFilter (← Filter.compile (← b'.value c))) =
        (do
          return Fingerprint.ofFilter (← Filter.compile (← b.value c)) : Except Fault String) := by
  have hsound : ∀ v ∈ b.operands, Optionally (All Sound) v := fun v hv => (h v hv).sound
  have hvalue := value_eq_combine (c := c) hsound
  refine ⟨hvalue, hvalue.trans (Connective.combine_eq_ofOperands hsound), fun b' hb' => ?_⟩
  have hsound' : ∀ v ∈ b'.operands, Optionally (All Sound) v := by
    intro v hv
    by_cases hnull : v = .null
    · exact Or.inl hnull
    · have hmem : v ∈ remaining b.operands := hb' ▸ Connective.mem_remaining.mpr ⟨hv, hnull⟩
      exact hsound v (Connective.mem_remaining.mp hmem).1
  have hsame : b'.value c = b.value c := by
    rw [value_eq_combine hsound', hvalue, Connective.combine_eq_ofOperands hsound', hb',
      Connective.combine_eq_ofOperands hsound]
  rw [hsame]
  exact ⟨rfl, rfl⟩

/-- A condition and a range, bracketed with nothing and with an empty bracket: the range gives its
two bounds. -/
theorem bracketing_irrelevant_range :
    (bracket [.operand .null, .bracket [.operand (.filter (.eq (.str "a") (.int 1)))],
        .bracket [.bracket [], .operand (Filter.between (.str "b") (.int 2) (.int 3))]]).value .and
      = .ok (.filter (.conj (.tuple [.filter (.eq (.str "a") (.int 1)),
          .filter (.gte (.str "b") (.int 2)), .filter (.lte (.str "b") (.int 3))]))) ∧
    (do Filter.compile (← (bracket [.operand (.filter (.eq (.str "a") (.int 1))),
        .operand (Filter.between (.str "b") (.int 2) (.int 3))]).value .and))
      = (do Filter.compile (← (bracket [.operand .null,
        .bracket [.operand (.filter (.eq (.str "a") (.int 1)))], .bracket [.bracket [],
          .operand (Filter.between (.str "b") (.int 2) (.int 3))]]).value .and)) := by
  have hoperands : ∀ v ∈ (bracket [.operand .null,
      .bracket [.operand (.filter (.eq (.str "a") (.int 1)))], .bracket [.bracket [],
        .operand (Filter.between (.str "b") (.int 2) (.int 3))]]).operands, Constructed v := by
    simpa [operands, operandsOfEach] using
      ⟨Constructed.absent, Constructed.comparison .eq _ _, Constructed.between _ _ _⟩
  obtain ⟨-, hvalue, hsame⟩ := bracketing_irrelevant .and hoperands
  exact ⟨hvalue, (hsame _ rfl).1⟩

end Bracketing

end DocQuery
