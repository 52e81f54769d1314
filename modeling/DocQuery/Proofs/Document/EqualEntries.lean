import DocQuery.Proofs.Document.Reordered
import DocQuery.Proofs.Value.Equivalence

/-!
# DocQuery.Proofs.Document.EqualEntries — equal entries in the same order

Documents have equal entries if they have the same texts as keys, in the same order, and equal
values under them.  They are then equal, and writing pairs with equal values into them keeps this,
since where a pair is written depends on its key only.
-/

namespace DocQuery

namespace Document

/-- The same text with equal values. -/
def EqualEntry (p q : Value × Value) : Prop := ∃ s, p.1 = .str s ∧ q.1 = .str s ∧ p.2 == q.2

/-- The same texts in the same order, with equal values. -/
def EqualEntries (d e : Document) : Prop := List.Forall₂ EqualEntry d e

variable {d e : Document} {ps qs : List (Value × Value)} {v w : Value}

theorem EqualEntry.fst_eq {p q : Value × Value} (h : EqualEntry p q) : p.1 = q.1 := by
  obtain ⟨s, hp, hq, -⟩ := h
  rw [hp, hq]

theorem equalEntries_single (s : String) (h : v == w) : EqualEntries [(.str s, v)] [(.str s, w)] :=
  .cons ⟨s, rfl, rfl, h⟩ .nil

theorem EqualEntries.texts (h : EqualEntries d e) :
    (∀ p ∈ d, ∃ s, p.1 = .str s) ∧ ∀ q ∈ e, ∃ s, q.1 = .str s := by
  induction h with
  | nil => simp
  | cons hpq _ ih =>
    obtain ⟨s, hp, hq, -⟩ := hpq
    exact ⟨List.forall_mem_cons.mpr ⟨⟨s, hp⟩, ih.1⟩, List.forall_mem_cons.mpr ⟨⟨s, hq⟩, ih.2⟩⟩

theorem EqualEntries.doc_beq (h : EqualEntries d e) : Value.doc d == .doc e := by
  refine Value.doc_beq_iff.mpr ⟨e, rfl, h.length_eq, ?_⟩
  induction h with
  | nil => simp
  | cons hpq _ ih =>
    obtain ⟨s, hp, hq, hvalue⟩ := hpq
    refine List.forall_mem_cons.mpr ⟨⟨_, List.mem_cons_self, ?_, hvalue⟩, fun p hp => ?_⟩
    · rw [hp, hq, Value.str_beq_str]
      exact beq_self_eq_true s
    · obtain ⟨q, hq, hpq⟩ := ih p hp
      exact ⟨q, List.mem_cons_of_mem _ hq, hpq⟩

theorem EqualEntries.insert (h : EqualEntries d e) (s : String) (hvw : v == w) :
    EqualEntries (d.insert (.str s) v) (e.insert (.str s) w) := by
  induction h with
  | nil => exact equalEntries_single s hvw
  | @cons p q d e hpq hrest ih =>
    have hkey := hpq.fst_eq
    by_cases hps : (p.1 == .str s) = true
    · rw [insert_cons_of_beq hps, insert_cons_of_beq (hkey ▸ hps)]
      obtain ⟨t, hp, hq, -⟩ := hpq
      exact .cons ⟨t, hp, hq, hvw⟩ hrest
    · rw [insert_cons_of_not_beq hps, insert_cons_of_not_beq (hkey ▸ hps)]
      exact .cons hpq ih

theorem EqualEntries.extend (h : EqualEntries d e) (hps : EqualEntries ps qs) :
    EqualEntries (d.extend ps) (e.extend qs) := by
  induction hps generalizing d e with
  | nil => exact h
  | @cons p q ps qs hpq _ ih =>
    obtain ⟨s, hp, hq, hvw⟩ := hpq
    rw [extend_cons, extend_cons, hp, hq]
    exact ih (h.insert s hvw)

/-- Pairs with equal values settle to documents with equal entries. -/
theorem EqualEntries.settled (h : EqualEntries ps qs) : EqualEntries (settled ps) (settled qs) := by
  rw [← ofPairs_eq_settled (properKeys_of_texts h.texts.1),
    ← ofPairs_eq_settled (properKeys_of_texts h.texts.2)]
  exact EqualEntries.extend .nil h

end Document

/-- Both are documents, with equal entries. -/
def EqualResults (x y : Except Fault Document) : Prop :=
  ∃ d e, x = .ok d ∧ y = .ok e ∧ d.EqualEntries e

end DocQuery
