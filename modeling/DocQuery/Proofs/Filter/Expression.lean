import DocQuery.Proofs.Filter.Bracketing
import DocQuery.Proofs.Filter.Foreign

/-!
# DocQuery.Proofs.Filter.Expression — operators and functions on filters

Between filters an operator is a method of its left operand, or of its right one where the left has
none (`Connective.apply_eq_dispatch`).  An expression over constructed filters fails only where an
operator finds nothing to work on, and has otherwise the value that the functions give
(`Expression.settles`).  A filter never meets a foreign object without a fault, so no filter that an
expression gives holds one.
-/

namespace DocQuery

open DocQuery.Filter (isForeign isForeign_iff isForeign_eq_false_iff Constructed Optionally All
  Sound)

/-! ### Methods -/

namespace Connective

variable {c : Connective} {l r v : Value}

/-- The method of a filter, called from its left or, reflected, from its right: it joins the two
operands in their order, and declines if the other one is neither a filter nor absent. -/
def method? (c : Connective) (reflected : Bool) (self other : Value) :
    Option (Except Fault Value) :=
  match self with
  | .filter _ =>
    if isForeign other then none
    else some (c.combine (if reflected then [other, self] else [self, other]))
  | _ => none

/-- The method of the left operand; if there is none or it declines, that of the right one; and if
this declines too, what the connective means elsewhere. -/
def dispatch (c : Connective) (l r : Value) : Except Fault Value :=
  ((c.method? false l r).or (c.method? true r l)).getD (c.onValues l r)

theorem method?_filter (reflected : Bool) (f : Filter) {other : Value}
    (h : isForeign other = false) :
    c.method? reflected (.filter f) other =
      some (c.combine (if reflected then [other, .filter f] else [.filter f, other])) := by
  rw [method?, h, if_neg Bool.false_ne_true]

theorem method?_of_isForeign (reflected : Bool) (self : Value) {other : Value}
    (h : isForeign other = true) : c.method? reflected self other = none := by
  unfold method?
  split
  · exact if_pos h
  · rfl

theorem method?_of_forall_ne (reflected : Bool) {self : Value} (h : ∀ f, self ≠ .filter f)
    (other : Value) : c.method? reflected self other = none := by
  unfold method?
  split
  · exact absurd rfl (h _)
  · rfl

/-- One filter is enough, if the other operand is a filter or absent. -/
theorem apply_filter_left (f : Filter) (h : isForeign r = false) :
    c.apply (.filter f) r = c.combine [.filter f, r] := by
  obtain rfl | ⟨g, rfl⟩ := isForeign_eq_false_iff.mp h
  · rfl
  · rfl

theorem apply_filter_right (f : Filter) (h : isForeign l = false) :
    c.apply l (.filter f) = c.combine [l, .filter f] := by
  obtain rfl | ⟨g, rfl⟩ := isForeign_eq_false_iff.mp h
  · rfl
  · rfl

theorem apply_of_isForeign_left (h : isForeign l = true) (r : Value) :
    c.apply l r = c.onValues l r := by
  unfold apply
  split
  · cases h
  · cases h
  · cases h
  · rfl

theorem apply_of_isForeign_right (l : Value) (h : isForeign r = true) :
    c.apply l r = c.onValues l r := by
  unfold apply
  split
  · cases h
  · cases h
  · cases h
  · rfl

/-- The operator on two values is what their methods make of it. -/
theorem apply_eq_dispatch (c : Connective) (l r : Value) : c.apply l r = c.dispatch l r := by
  unfold dispatch
  by_cases hl : isForeign l = true
  · rw [apply_of_isForeign_left hl, method?_of_forall_ne false (isForeign_iff.mp hl).2,
      method?_of_isForeign true r hl]
    rfl
  by_cases hr : isForeign r = true
  · rw [apply_of_isForeign_right l hr, method?_of_isForeign false l hr,
      method?_of_forall_ne true (isForeign_iff.mp hr).2]
    rfl
  rw [Bool.not_eq_true] at hl hr
  obtain rfl | ⟨f, rfl⟩ := isForeign_eq_false_iff.mp hl
  · obtain rfl | ⟨g, rfl⟩ := isForeign_eq_false_iff.mp hr
    · rfl
    · have hleft : c.method? false .null (.filter g) = none := rfl
      rw [apply_filter_right g hl, hleft, method?_filter true g hl]
      rfl
  · rw [apply_filter_left f hr, method?_filter false f hr]
    rfl

/-! ### Foreign operands -/

theorem isForeign_of_integer? {n : Int} (h : v.integer? = some n) : isForeign v = true := by
  refine isForeign_iff.mpr ⟨?_, fun f => ?_⟩
  all_goals
    rintro rfl
    cases h

/-- Operators that mean something elsewhere neither take nor give filters. -/
theorem isForeign_of_onValues (h : c.onValues l r = .ok v) :
    isForeign l = true ∧ isForeign r = true ∧ isForeign v = true := by
  unfold onValues at h
  split at h
  · obtain rfl := Except.ok.inj h
    exact ⟨rfl, rfl, rfl⟩
  · obtain rfl := Except.ok.inj h
    exact ⟨rfl, rfl, rfl⟩
  · split at h
    · obtain rfl := Except.ok.inj h
      exact ⟨rfl, rfl, rfl⟩
    · cases h
  · split at h
    · rename_i hm hn
      obtain rfl := Except.ok.inj h
      exact ⟨isForeign_of_integer? hm, isForeign_of_integer? hn, rfl⟩
    · cases h

/-- Whatever the operands are, the only fault of an operator elsewhere is that it does not apply. -/
theorem onValues_eq_error {x : Fault} (h : c.onValues l r = .error x) : x = .operands c l r := by
  unfold onValues at h
  split at h
  · cases h
  · cases h
  · split at h
    · cases h
    · exact (Except.error.inj h).symm
  · split at h
    · cases h
    · exact (Except.error.inj h).symm

/-- An operator that is not given foreign objects on both sides does not apply elsewhere. -/
theorem onValues_eq_error_of (h : isForeign l = false ∨ isForeign r = false) :
    c.onValues l r = .error (.operands c l r) := by
  cases hresult : c.onValues l r with
  | error x => rw [onValues_eq_error hresult]
  | ok v =>
    obtain ⟨hl, hr, -⟩ := isForeign_of_onValues hresult
    rcases h with h | h
    · rw [hl] at h
      cases h
    · rw [hr] at h
      cases h

/-- A filter and a foreign object, on either side, are refused. -/
theorem apply_of_isForeign (c : Connective) (f : Filter) {x : Value} (hx : isForeign x = true) :
    c.apply (.filter f) x = .error (.operands c (.filter f) x) ∧
      c.apply x (.filter f) = .error (.operands c x (.filter f)) :=
  ⟨(apply_of_isForeign_right _ hx).trans (onValues_eq_error_of (Or.inl rfl)),
    (apply_of_isForeign_left hx _).trans (onValues_eq_error_of (Or.inr rfl))⟩

/-- An operator that gives a value was given foreign objects on both sides, or on none. -/
theorem isForeign_eq_of_apply (h : c.apply l r = .ok v) :
    (isForeign l = false ∧ isForeign r = false) ∨
      (isForeign l = true ∧ isForeign r = true ∧ isForeign v = true) := by
  by_cases hl : isForeign l = true
  · rw [apply_of_isForeign_left hl] at h
    exact Or.inr (isForeign_of_onValues h)
  by_cases hr : isForeign r = true
  · rw [apply_of_isForeign_right l hr] at h
    exact Or.inr (isForeign_of_onValues h)
  exact Or.inl ⟨Bool.eq_false_iff.mpr hl, Bool.eq_false_iff.mpr hr⟩

/-! ### Filters and nothing -/

theorem ofOperands_ne_null {vs : List Value} (h : vs ≠ []) (hvs : ∀ v ∈ vs, v ≠ .null) :
    c.ofOperands vs ≠ .null := by
  match vs with
  | [v] => exact hvs v (by simp)
  | _ :: _ :: _ => exact nofun

/-- Between constructed operands, of which at least one is there, an operator is its function. -/
theorem exists_apply (c : Connective) (hl : Constructed l) (hr : Constructed r)
    (h : ¬(l = .null ∧ r = .null)) :
    ∃ v, c.apply l r = .ok v ∧ c.combine [l, r] = .ok v ∧ Constructed v ∧ v ≠ .null := by
  have hoperands : ∀ v ∈ [l, r], Constructed v :=
    List.forall_mem_cons.mpr ⟨hl, List.forall_mem_singleton.mpr hr⟩
  have hcombine := combine_eq_ofOperands (c := c) fun v hv => (hoperands v hv).sound
  have hnull : c.ofOperands (remaining [l, r]) ≠ .null := by
    refine ofOperands_ne_null (fun hnil => h ?_) fun v hv => (mem_remaining.mp hv).2
    have hgone : ∀ v ∈ [l, r], v = .null := fun v hv => by
      by_contra hne
      have hmem : v ∈ remaining [l, r] := mem_remaining.mpr ⟨hv, hne⟩
      rw [hnil] at hmem
      cases hmem
    exact ⟨hgone l (by simp), hgone r (by simp)⟩
  refine ⟨_, ?_, hcombine, .combine c hoperands hcombine, hnull⟩
  rw [← hcombine]
  rcases hl.sound with rfl | ⟨f, rfl, -⟩
  · rcases hr.sound with rfl | ⟨g, rfl, -⟩
    · exact absurd ⟨rfl, rfl⟩ h
    · exact apply_filter_right g rfl
  · exact apply_filter_left f hr.isForeign_eq_false

end Connective

/-! ### Expressions -/

/-- An expression in which operators stand between values. -/
inductive Expression
  | operand (v : Value)
  | join (c : Connective) (left right : Expression)
  | complement (inner : Expression)

namespace Expression

/-- The values from left to right. -/
def operands : Expression → List Value
  | operand v => [v]
  | join _ l r => l.operands ++ r.operands
  | complement e => e.operands

/-- The value of an expression, operands first. -/
def value : Expression → Except Fault Value
  | operand v => .ok v
  | join c l r => do c.apply (← l.value) (← r.value)
  | complement e => do (← e.value).complement

/-- The value of an expression with functions in the place of operators. -/
def functional : Expression → Except Fault Value
  | operand v => .ok v
  | join c l r => do c.combine [← l.functional, ← r.functional]
  | complement e => do return Filter.negation (← e.functional)

/-- Somewhere an operator is applied to nothing: a connective to nothing on both sides, or the
complement to nothing. -/
def AppliesToNothing : Expression → Prop
  | operand _ => False
  | join _ l r =>
    (l.value = .ok .null ∧ r.value = .ok .null) ∨ l.AppliesToNothing ∨ r.AppliesToNothing
  | complement e => e.value = .ok .null ∨ e.AppliesToNothing

/-- The faults of operators that are applied to nothing. -/
def IsNothingFault (x : Fault) : Prop :=
  (∃ c : Connective, x = .operands c .null .null) ∨ x = .operand .null

/-- What becomes of an expression: it fails where an operator is applied to nothing, or has the
value that the functions give, which is nothing only for an operand. -/
inductive Settles (e : Expression) : Prop
  | fails (x : Fault) (hnothing : e.AppliesToNothing) (hvalue : e.value = .error x)
    (hfault : IsNothingFault x)
  | gives (v : Value) (hnothing : ¬e.AppliesToNothing) (hvalue : e.value = .ok v)
    (hfunctional : e.functional = .ok v) (hconstructed : Constructed v)
    (hnull : v = .null → e = operand .null)

theorem settles (e : Expression) (h : ∀ v ∈ e.operands, Constructed v) : Settles e := by
  induction e with
  | operand v =>
    exact .gives v id rfl rfl (h v (by simp [operands])) fun hv => hv ▸ rfl
  | join c l r ihl ihr =>
    obtain ⟨hl, hr⟩ := List.forall_mem_append.mp h
    cases ihl hl with
    | fails x hnothing hvalue hfault =>
      refine .fails x (Or.inr (Or.inl hnothing)) ?_ hfault
      rw [value, hvalue]
      rfl
    | gives vl hleft hlvalue hlfunctional hlconstructed =>
      cases ihr hr with
      | fails x hnothing hvalue hfault =>
        refine .fails x (Or.inr (Or.inr hnothing)) ?_ hfault
        rw [value, hlvalue, hvalue]
        rfl
      | gives vr hright hrvalue hrfunctional hrconstructed =>
        have happly : (join c l r).value = c.apply vl vr := by
          rw [value, hlvalue, hrvalue]
          rfl
        have hcombine : (join c l r).functional = c.combine [vl, vr] := by
          rw [functional, hlfunctional, hrfunctional]
          rfl
        by_cases hnull : vl = .null ∧ vr = .null
        · obtain ⟨rfl, rfl⟩ := hnull
          exact .fails _ (Or.inl ⟨hlvalue, hrvalue⟩) happly (Or.inl ⟨c, rfl⟩)
        · obtain ⟨v, hv, hfunction, hconstructed, hne⟩ :=
            c.exists_apply hlconstructed hrconstructed hnull
          refine .gives _ ?_ (happly.trans hv) (hcombine.trans hfunction) hconstructed
            fun hv => absurd hv hne
          rintro (⟨hlnull, hrnull⟩ | hnothing | hnothing)
          · exact hnull ⟨Except.ok.inj (hlvalue.symm.trans hlnull),
              Except.ok.inj (hrvalue.symm.trans hrnull)⟩
          · exact hleft hnothing
          · exact hright hnothing
  | complement e ih =>
    cases ih h with
    | fails x hnothing hvalue hfault =>
      refine .fails x (Or.inr hnothing) ?_ hfault
      rw [value, hvalue]
      rfl
    | gives v hinner hvalue hfunctional hconstructed =>
      have hcomplement : (complement e).value = v.complement := by
        rw [value, hvalue]
        rfl
      have hnegation : (complement e).functional = .ok (Filter.negation v) := by
        rw [functional, hfunctional]
        rfl
      rcases hconstructed.sound with rfl | ⟨f, rfl, -⟩
      · exact .fails _ (Or.inl hvalue) hcomplement (Or.inr rfl)
      · refine .gives _ ?_ hcomplement hnegation hconstructed.negation nofun
        rintro (hnull | hnothing)
        · cases hvalue.symm.trans hnull
        · exact hinner hnothing

/-! ### Foreign operands -/

theorem isForeign_of_complement {v w : Value} (h : v.complement = .ok w) :
    (∃ f, v = .filter f ∧ w = Filter.negation v) ∨ isForeign v = true ∧ isForeign w = true := by
  unfold Value.complement at h
  split at h
  · rename_i f
    exact Or.inl ⟨f, rfl, (Except.ok.inj h).symm⟩
  · split at h
    · rename_i hn
      obtain rfl := Except.ok.inj h
      exact Or.inr ⟨Connective.isForeign_of_integer? hn, rfl⟩
    · cases h

/-- An expression with a value has constructed operands only, or foreign ones only, and so is its
value. -/
theorem constructed_or_foreign (e : Expression) {v : Value}
    (h : ∀ o ∈ e.operands, Constructed o ∨ isForeign o = true) (hv : e.value = .ok v) :
    (Constructed v ∧ ∀ o ∈ e.operands, Constructed o) ∨
      (isForeign v = true ∧ ∀ o ∈ e.operands, isForeign o = true) := by
  induction e generalizing v with
  | operand w =>
    obtain rfl := Except.ok.inj hv
    have hw := h w (by simp [operands])
    simpa [operands] using hw
  | join c l r ihl ihr =>
    obtain ⟨hl, hr⟩ := List.forall_mem_append.mp h
    obtain ⟨vl, hvl, hv⟩ := exists_of_bind_eq_ok hv
    obtain ⟨vr, hvr, hv⟩ := exists_of_bind_eq_ok hv
    have hleft := ihl hl hvl
    have hright := ihr hr hvr
    rcases Connective.isForeign_eq_of_apply hv with ⟨hfl, hfr⟩ | ⟨hfl, hfr, hfar⟩
    · obtain ⟨hcl, hleft⟩ := hleft.resolve_right fun hfar => by rw [hfl] at hfar; cases hfar.1
      obtain ⟨hcr, hright⟩ := hright.resolve_right fun hfar => by rw [hfr] at hfar; cases hfar.1
      exact Or.inl ⟨.operator c hcl hcr hv, List.forall_mem_append.mpr ⟨hleft, hright⟩⟩
    · obtain ⟨-, hleft⟩ := hleft.resolve_left fun hc => hc.1.not_isForeign hfl
      obtain ⟨-, hright⟩ := hright.resolve_left fun hc => hc.1.not_isForeign hfr
      exact Or.inr ⟨hfar, List.forall_mem_append.mpr ⟨hleft, hright⟩⟩
  | complement e ih =>
    obtain ⟨w, hw, hv⟩ := exists_of_bind_eq_ok hv
    have hinner := ih h hw
    rcases isForeign_of_complement hv with ⟨f, rfl, rfl⟩ | ⟨hfw, hfar⟩
    · obtain ⟨hc, hinner⟩ := hinner.resolve_right fun hfar => Bool.noConfusion hfar.1
      exact Or.inl ⟨hc.negation, hinner⟩
    · exact Or.inr ⟨hfar, (hinner.resolve_left fun hc => hc.1.not_isForeign hfw).2⟩

/-- An operator is the method of one of its operands.  Over constructed filters, an expression fails
exactly where an operator is applied to nothing; elsewhere its value is a constructed filter, or the
absent operand that the expression is, and the same as with functions for the operators.  Beside a
filter a foreign object is refused, so what an expression gives is foreign with all its operands, or
a constructed filter in which nothing is foreign. -/
theorem operators_are_functions :
    (∀ (c : Connective) (l r : Value), c.apply l r = c.dispatch l r) ∧
    (∀ e : Expression, (∀ v ∈ e.operands, Constructed v) →
      ((∃ x, e.value = .error x) ↔ e.AppliesToNothing) ∧
      (∀ x, e.value = .error x → IsNothingFault x) ∧
      ∀ v, e.value = .ok v →
        e.functional = .ok v ∧ Constructed v ∧ (v = .null → e = operand .null)) ∧
    (∀ (c : Connective) (f : Filter) (x : Value), isForeign x = true →
      c.apply (.filter f) x = .error (.operands c (.filter f) x) ∧
      c.apply x (.filter f) = .error (.operands c x (.filter f))) ∧
    (∀ (c : Connective) (l r : Value), (Fault.operands c l r).message? =
      some ("unsupported operand type(s) for " ++ c.symbol ++ ": " ++ Text.quoted l.kind ++ " and "
        ++ Text.quoted r.kind)) ∧
    (∀ (e : Expression) (v : Value), (∀ o ∈ e.operands, Constructed o ∨ isForeign o = true) →
      e.value = .ok v →
      (Constructed v ∧ (∀ o ∈ e.operands, Constructed o) ∧
          ∀ x ∈ NodeFamily.filter.objects v, isForeign x = false) ∨
        (isForeign v = true ∧ ∀ o ∈ e.operands, isForeign o = true)) := by
  refine ⟨Connective.apply_eq_dispatch, fun e he => ?_,
    fun c f x hx => c.apply_of_isForeign f hx, fun c l r => rfl, fun e v he hv => ?_⟩
  · cases e.settles he with
    | fails x hnothing hvalue hfault =>
      refine ⟨⟨fun _ => hnothing, fun _ => ⟨x, hvalue⟩⟩, fun y hy => ?_, fun v hv => ?_⟩
      · exact Except.error.inj (hvalue.symm.trans hy) ▸ hfault
      · cases hvalue.symm.trans hv
    | gives v hnothing hvalue hfunctional hconstructed hnull =>
      refine ⟨⟨?_, fun h => absurd h hnothing⟩, fun y hy => ?_, fun w hw => ?_⟩
      · rintro ⟨x, hx⟩
        cases hvalue.symm.trans hx
      · cases hvalue.symm.trans hy
      · obtain rfl := Except.ok.inj (hvalue.symm.trans hw)
        exact ⟨hfunctional, hconstructed, hnull⟩
  · refine (constructed_or_foreign e he hv).imp (fun h => ⟨h.1, h.2, ?_⟩) id
    exact h.1.isForeign_of_mem_objects

/-- Nothing beside a filter, from both sides; nothing beside nothing, below a negation; and a number
beside a filter. -/
theorem operators_are_functions_nested :
    let a : Value := .filter (.eq (.str "a") (.int 1))
    let b : Value := .filter (.eq (.str "b") (.int 2))
    let e : Expression := .join .or (.join .and (.operand .null) (.operand a))
      (.complement (.join .and (.operand b) (.operand .null)))
    (∃ v, e.value = .ok v ∧ e.functional = .ok v ∧ v ≠ .null) ∧
    (∃ x, (complement (.join .or (.operand .null) (.operand .null))).value = .error x) ∧
    (join .and (.operand (.int 5)) (.operand a)).value =
      .error (.operands .and (.int 5) a) := by
  intro a b e
  obtain ⟨-, hfilters, hforeign, -, -⟩ := operators_are_functions
  have he : ∀ v ∈ e.operands, Constructed v := by
    simp [e, a, b, operands, Constructed.absent, Filter.eq, Constructed.comparison]
  have hvalue : e.value = .ok (.filter (.disj (.tuple [a, .filter (.neg b)]))) := rfl
  have hnothing : ∀ v ∈ (complement (.join .or (.operand .null) (.operand .null))).operands,
      Constructed v := by
    simp [operands, Constructed.absent]
  have hgiven : Value.filter (.disj (.tuple [a, .filter (.neg b)])) ≠ .null := by
    intro h
    cases h
  exact ⟨⟨_, hvalue, ((hfilters e he).2.2 _ hvalue).1, hgiven⟩,
    (hfilters _ hnothing).1.mpr (Or.inr (Or.inl ⟨rfl, rfl⟩)), (hforeign .and _ (.int 5) rfl).2⟩

end Expression

end DocQuery
