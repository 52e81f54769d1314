import DocQuery.Fault
import Mathlib.Data.List.Forall2

/-!
# DocQuery.Proofs.Result — results that were reached step by step

What a computation that may be refused has done if it was not: a sequence of two had a first
result, and a computation for every item of a list had a result for each.  If it was refused, it
stopped at the first item without a result (`StopsAfter`).  `RefusesFirst` is for computations that
visit values and stop at the first one they do not take.
-/

namespace DocQuery

theorem exists_of_bind_eq_ok {α β : Type} {x : Except Fault α} {g : α → Except Fault β}
    {b : β} (h : x >>= g = .ok b) : ∃ a, x = .ok a ∧ g a = .ok b := by
  cases x with
  | error e => cases h
  | ok a => exact ⟨a, rfl, h⟩

theorem bind_eq_ok_iff {α β : Type} {x : Except Fault α} {g : α → Except Fault β} {b : β} :
    x >>= g = .ok b ↔ ∃ a, x = .ok a ∧ g a = .ok b := by
  constructor
  · exact exists_of_bind_eq_ok
  · rintro ⟨a, rfl, h⟩
    exact h

theorem forall₂_of_mapM_eq_ok {α β : Type} {g : α → Except Fault β} {xs : List α} {ys : List β}
    (h : xs.mapM g = .ok ys) : List.Forall₂ (fun x y => g x = .ok y) xs ys := by
  induction xs generalizing ys with
  | nil =>
    obtain rfl := Except.ok.inj h
    exact .nil
  | cons x xs ih =>
    rw [List.mapM_cons] at h
    obtain ⟨y, hy, h⟩ := exists_of_bind_eq_ok h
    obtain ⟨zs, hzs, h⟩ := exists_of_bind_eq_ok h
    obtain rfl := Except.ok.inj h
    exact .cons hy (ih hzs)

theorem exists_of_mem_forall₂ {α β : Type} {R : α → β → Prop} {xs : List α} {ys : List β}
    (h : List.Forall₂ R xs ys) {y : β} (hy : y ∈ ys) : ∃ x ∈ xs, R x y := by
  induction h with
  | nil => cases hy
  | cons hx _ ih =>
    obtain rfl | hy := List.mem_cons.mp hy
    · exact ⟨_, List.mem_cons_self, hx⟩
    · obtain ⟨x, hmem, hx⟩ := ih hy
      exact ⟨x, List.mem_cons_of_mem _ hmem, hx⟩

theorem exists_of_mem_mapM {α β : Type} {g : α → Except Fault β} {xs : List α} {ys : List β}
    (h : xs.mapM g = .ok ys) {y : β} (hy : y ∈ ys) : ∃ x ∈ xs, g x = .ok y :=
  exists_of_mem_forall₂ (forall₂_of_mapM_eq_ok h) hy

theorem exists_ok_of_mem {α β : Type} {g : α → Except Fault β} {xs : List α} {ys : List β}
    (h : xs.mapM g = .ok ys) {x : α} (hx : x ∈ xs) : ∃ y, g x = .ok y := by
  have hall := forall₂_of_mapM_eq_ok h
  clear h
  induction hall with
  | nil => cases hx
  | cons hy _ ih =>
    obtain rfl | hx := List.mem_cons.mp hx
    · exact ⟨_, hy⟩
    · exact ih hx

theorem mapM_eq_of_map_eq {α β γ : Type} {g : α → Except Fault γ} {h : β → Except Fault γ}
    {xs : List α} {ys : List β} (hmap : xs.map g = ys.map h) : xs.mapM g = ys.mapM h := by
  induction xs generalizing ys with
  | nil =>
    obtain rfl := List.map_eq_nil_iff.mp hmap.symm
    rfl
  | cons x xs ih =>
    cases ys with
    | nil => cases hmap
    | cons y ys =>
      obtain ⟨hhead, htail⟩ := List.cons.inj hmap
      rw [List.mapM_cons, List.mapM_cons, hhead, ih htail]

/-! ### The first item that fails -/

/-- A computation goes through the items before one that fails, and stops there. -/
def StopsAfter {α β : Type} (g : α → Except Fault β) (xs before : List α) (e : Fault) : Prop :=
  ∃ x after, xs = before ++ x :: after ∧ (∀ y ∈ before, ∃ b, g y = .ok b) ∧ g x = .error e

theorem not_stopsAfter_nil {α β : Type} {g : α → Except Fault β} {before : List α} {e : Fault} :
    ¬ StopsAfter g [] before e := by
  rintro ⟨x, after, h, -⟩
  exact absurd h (by simp)

theorem stopsAfter_cons_iff {α β : Type} {g : α → Except Fault β} {x : α} {xs before : List α}
    {e : Fault} : StopsAfter g (x :: xs) before e
      ↔ before = [] ∧ g x = .error e
        ∨ ∃ b rest, g x = .ok b ∧ before = x :: rest ∧ StopsAfter g xs rest e := by
  constructor
  · rintro ⟨y, after, h, hbefore, hy⟩
    cases before with
    | nil =>
      obtain ⟨rfl, -⟩ := List.cons.inj h
      exact .inl ⟨rfl, hy⟩
    | cons z rest =>
      obtain ⟨rfl, hxs⟩ := List.cons.inj h
      obtain ⟨⟨b, hb⟩, hrest⟩ := List.forall_mem_cons.mp hbefore
      exact .inr ⟨b, rest, hb, rfl, y, after, hxs, hrest, hy⟩
  · rintro (⟨rfl, hx⟩ | ⟨b, rest, hb, rfl, y, after, rfl, hrest, hy⟩)
    · exact ⟨x, xs, rfl, by simp, hx⟩
    · exact ⟨y, after, rfl, List.forall_mem_cons.mpr ⟨⟨b, hb⟩, hrest⟩, hy⟩

/-- Computing for every item fails exactly where an item fails, and as the first that does. -/
theorem mapM_eq_error_iff {α β : Type} {g : α → Except Fault β} {xs : List α} {e : Fault} :
    xs.mapM g = .error e ↔ ∃ before, StopsAfter g xs before e := by
  induction xs with
  | nil =>
    refine ⟨fun h => ?_, fun ⟨before, h⟩ => absurd h not_stopsAfter_nil⟩
    cases h
  | cons x xs ih =>
    simp only [List.mapM_cons, stopsAfter_cons_iff]
    cases hx : g x with
    | error e' =>
      constructor
      · intro h
        obtain rfl := Except.error.inj h
        exact ⟨[], .inl ⟨rfl, rfl⟩⟩
      · rintro ⟨before, ⟨-, h⟩ | ⟨b, rest, h, -⟩⟩
        · obtain rfl := Except.error.inj h
          rfl
        · cases h
    | ok b =>
      have hrest : (do let bs ← xs.mapM g; return b :: bs) = Except.error e
          ↔ xs.mapM g = .error e := by
        cases xs.mapM g with
        | error e' => exact Iff.rfl
        | ok bs => exact ⟨nofun, nofun⟩
      refine hrest.trans (ih.trans ⟨?_, ?_⟩)
      · rintro ⟨rest, h⟩
        exact ⟨x :: rest, .inr ⟨b, rest, rfl, rfl, h⟩⟩
      · rintro ⟨before, ⟨-, h⟩ | ⟨b', rest, -, -, h⟩⟩
        · cases h
        · exact ⟨rest, h⟩

theorem exists_mapM_eq_error_iff {α β : Type} {g : α → Except Fault β} {xs : List α} :
    (∃ e, xs.mapM g = .error e) ↔ ∃ x ∈ xs, ∃ e, g x = .error e := by
  constructor
  · rintro ⟨e, h⟩
    obtain ⟨before, x, after, rfl, -, hx⟩ := mapM_eq_error_iff.mp h
    exact ⟨x, by simp, e, hx⟩
  · rintro ⟨x, hmem, e, hx⟩
    cases h : xs.mapM g with
    | error e' => exact ⟨e', rfl⟩
    | ok ys =>
      obtain ⟨y, hy⟩ := exists_ok_of_mem h hmem
      rw [hx] at hy
      cases hy

theorem exists_mapM_eq_ok {α β : Type} {g : α → Except Fault β} {xs : List α}
    (h : ∀ x ∈ xs, ∃ b, g x = .ok b) : ∃ bs, xs.mapM g = .ok bs := by
  cases hxs : xs.mapM g with
  | ok bs => exact ⟨bs, rfl⟩
  | error e =>
    obtain ⟨x, hmem, e', hx⟩ := exists_mapM_eq_error_iff.mp ⟨e, hxs⟩
    obtain ⟨b, hb⟩ := h x hmem
    rw [hx] at hb
    cases hb

/-- The items before the first failure are the longest part from the start that has results. -/
theorem StopsAfter.takeWhile {α β : Type} {g : α → Except Fault β} {xs before : List α} {e : Fault}
    (h : StopsAfter g xs before e) : (xs.takeWhile fun x => (g x).isOk) = before := by
  obtain ⟨x, after, rfl, hbefore, hx⟩ := h
  have hpass : ∀ y ∈ before, (g y).isOk = true := by
    intro y hy
    obtain ⟨b, hb⟩ := hbefore y hy
    rw [hb]
    rfl
  have hstop : ¬ (g x).isOk = true := by rw [hx]; exact Bool.false_ne_true
  rw [List.takeWhile_append_of_pos hpass, List.takeWhile_cons, if_neg hstop, List.append_nil]

/-! ### The first value that is refused -/

/-- A computation that visits values in order and reports the first that is `bad`; it has a result
if there is none. -/
structure RefusesFirst {α : Type} (bad : Value → Bool) (fault : Value → Fault) (xs : List Value)
    (r : Except Fault α) : Prop where
  refused : ∀ x, xs.find? bad = some x → r = .error (fault x)
  accepted : xs.find? bad = none → ∃ a, r = .ok a

namespace RefusesFirst

variable {α β : Type} {bad : Value → Bool} {fault : Value → Fault} {x : Value} {xs ys : List Value}
  {r : Except Fault α}

theorem of_ok (a : α) (h : xs.find? bad = none) : RefusesFirst bad fault xs (.ok a) where
  refused x hx := by rw [h] at hx; cases hx
  accepted _ := ⟨a, rfl⟩

theorem of_bad (h : bad x = true) :
    RefusesFirst bad fault [x] (.error (fault x) : Except Fault α) where
  refused y hy := by
    rw [List.find?_cons_of_pos h] at hy
    obtain rfl := Option.some.inj hy
    rfl
  accepted hx := by rw [List.find?_cons_of_pos h] at hx; cases hx

theorem cons (h : bad x = false) (hr : RefusesFirst bad fault xs r) :
    RefusesFirst bad fault (x :: xs) r := by
  have hfind : (x :: xs).find? bad = xs.find? bad := List.find?_cons_of_neg (by simp [h])
  exact ⟨by rw [hfind]; exact hr.refused, by rw [hfind]; exact hr.accepted⟩

/-- What comes second is visited only if the first part was accepted. -/
theorem bind {g : α → Except Fault β} (hr : RefusesFirst bad fault xs r)
    (hg : ∀ a, r = .ok a → RefusesFirst bad fault ys (g a)) :
    RefusesFirst bad fault (xs ++ ys) (r >>= g) := by
  cases hfind : xs.find? bad with
  | some x =>
    have happend : (xs ++ ys).find? bad = some x := by rw [List.find?_append, hfind]; rfl
    rw [hr.refused x hfind]
    refine ⟨fun y hy => ?_, fun hnone => ?_⟩
    · rw [happend] at hy
      obtain rfl := Option.some.inj hy
      rfl
    · rw [happend] at hnone
      cases hnone
  | none =>
    have happend : (xs ++ ys).find? bad = ys.find? bad := by rw [List.find?_append, hfind]; rfl
    obtain ⟨a, rfl⟩ := hr.accepted hfind
    exact ⟨by rw [happend]; exact (hg a rfl).refused, by rw [happend]; exact (hg a rfl).accepted⟩

theorem map (g : α → β) (hr : RefusesFirst bad fault xs r) :
    RefusesFirst bad fault xs (do return g (← r)) := by
  rw [← List.append_nil xs]
  exact hr.bind fun a _ => .of_ok (g a) rfl

/-- A fault is reported exactly where a value is bad, and it is that of the first such value. -/
theorem error_iff (hr : RefusesFirst bad fault xs r) (e : Fault) :
    r = .error e ↔ ∃ x, xs.find? bad = some x ∧ e = fault x := by
  constructor
  · intro he
    cases hfind : xs.find? bad with
    | some x => exact ⟨x, rfl, Except.error.inj (he.symm.trans (hr.refused x hfind))⟩
    | none =>
      obtain ⟨a, ha⟩ := hr.accepted hfind
      rw [ha] at he
      cases he
  · rintro ⟨x, hx, rfl⟩
    exact hr.refused x hx

theorem ok_iff (hr : RefusesFirst bad fault xs r) : (∃ a, r = .ok a) ↔ ∀ x ∈ xs, bad x = false := by
  constructor
  · rintro ⟨a, ha⟩ x hx
    cases hfind : xs.find? bad with
    | some y =>
      rw [hr.refused y hfind] at ha
      cases ha
    | none => simpa using List.find?_eq_none.mp hfind x hx
  · intro h
    exact hr.accepted (List.find?_eq_none.mpr fun x hx => by simp [h x hx])

end RefusesFirst

end DocQuery
