import Mathlib.Data.List.Forall2
import Mathlib.Data.List.Nodup
import DocQuery.Proofs.Document.Settled

/-!
# DocQuery.Proofs.Document.Reordered — documents up to the order of their keys

Where all keys are texts and none occurs twice, a document is told by what is found under its keys:
two documents that find the same are permutations of each other (`perm_of_lookup?_eq`).
-/

namespace DocQuery.Document

/-- Every key is a text, and none occurs twice. -/
structure TextKeyed (d : Document) : Prop where
  texts : ∀ e ∈ d, ∃ s, e.1 = .str s
  nodup : (d.map (·.1)).Nodup

/-- The same keys with the same documents, up to the order of keys in the document itself and in the
documents under its keys. -/
def SameFields (d e : Document) : Prop :=
  ∃ d', List.Forall₂ (fun p q => p.1 = q.1 ∧
    ∃ fs gs : Document, p.2 = .doc fs ∧ q.2 = .doc gs ∧ fs.Perm gs) d d' ∧ d'.Perm e

variable {d e : Document} {s : String} {v : Value}

theorem TextKeyed.of_cons {p : Value × Value} (h : TextKeyed (p :: d)) :
    (∃ s, p.1 = .str s) ∧ (∀ q ∈ d, p.1 ≠ q.1) ∧ TextKeyed d := by
  obtain ⟨hp, htexts⟩ := List.forall_mem_cons.mp h.texts
  obtain ⟨hne, hnodup⟩ := List.nodup_cons.mp h.nodup
  exact ⟨hp, fun q hq heq => hne (List.mem_map.mpr ⟨q, hq, heq.symm⟩), htexts, hnodup⟩

/-- Texts can be keys. -/
theorem properKeys_of_texts (h : ∀ e ∈ d, ∃ s, e.1 = .str s) : ProperKeys d := by
  intro e he
  obtain ⟨s, hs⟩ := h e he
  exact hs ▸ Value.isHashable_str s

/-- Where keys are texts, what is left of the pairs written is one of them. -/
theorem mem_of_mem_ofPairs {p : Value × Value} (h : ∀ e ∈ d, ∃ s, e.1 = .str s)
    (hp : p ∈ ofPairs d) : p ∈ d := by
  rw [ofPairs_eq_settled (properKeys_of_texts h)] at hp
  obtain ⟨e, he, f, hf, hkey, hvalue, heq⟩ := exists_of_mem_settled hp
  have hkeys : f.1 = e.1 := by
    rcases heq with rfl | heq
    · rfl
    · obtain ⟨s, hs⟩ := h e he
      obtain ⟨t, ht⟩ := h f hf
      rw [hs, ht] at heq ⊢
      simpa using heq
  have hpf : p = f := Prod.ext (hkey.symm.trans hkeys.symm) hvalue.symm
  exact hpf ▸ hf

theorem TextKeyed.perm (hd : TextKeyed d) (h : d.Perm e) : TextKeyed e where
  texts := fun q hq => hd.texts q (h.mem_iff.mpr hq)
  nodup := (h.map (·.1)).nodup_iff.mp hd.nodup

theorem TextKeyed.fresh (hd : TextKeyed d) : Fresh d := by
  refine (List.pairwise_map.mp hd.nodup).imp_of_mem fun {p q} hp hq hne => ?_
  obtain ⟨s, hs⟩ := hd.texts p hp
  obtain ⟨t, ht⟩ := hd.texts q hq
  rw [hs, ht] at hne ⊢
  simpa using hne

theorem TextKeyed.of_fresh (htexts : ∀ e ∈ d, ∃ s, e.1 = .str s) (hf : Fresh d) :
    TextKeyed d where
  texts := htexts
  nodup := by
    refine List.pairwise_map.mpr (hf.imp_of_mem fun {p q} hp hq hne heq => ?_)
    obtain ⟨s, hs⟩ := htexts p hp
    rw [← heq, hs] at hne
    simp at hne

theorem TextKeyed.nodup_entries (hd : TextKeyed d) : d.Nodup :=
  List.Nodup.of_map (·.1) hd.nodup

/-- What is found under a text is the entry of this text. -/
theorem TextKeyed.lookup?_eq_some_iff (hd : TextKeyed d) :
    d.lookup? (.str s) = some v ↔ (.str s, v) ∈ d := by
  induction d with
  | nil => simp [lookup?]
  | cons p d ih =>
    obtain ⟨⟨t, ht⟩, hne, hrest⟩ := hd.of_cons
    obtain ⟨k, w⟩ := p
    obtain rfl : k = .str t := ht
    rw [lookup?_cons, List.mem_cons, ← ih hrest]
    by_cases hts : t = s
    · subst hts
      have hnone : ∀ u, (Value.str t, u) ∉ d := fun u hu => hne _ hu rfl
      simp [ih hrest, hnone, eq_comm]
    · simp [hts, Ne.symm hts]

/-- Documents in which the same is found under every text differ in the order of keys only. -/
theorem perm_of_lookup?_eq (hd : TextKeyed d) (he : TextKeyed e)
    (h : ∀ s, d.lookup? (.str s) = e.lookup? (.str s)) : d.Perm e := by
  refine (List.perm_ext_iff_of_nodup hd.nodup_entries he.nodup_entries).mpr fun p => ?_
  obtain ⟨k, v⟩ := p
  have hiff : ∀ s, (Value.str s, v) ∈ d ↔ (Value.str s, v) ∈ e := by
    intro s
    rw [← hd.lookup?_eq_some_iff, ← he.lookup?_eq_some_iff, h s]
  constructor
  · intro hp
    obtain ⟨s, rfl⟩ := hd.texts _ hp
    exact (hiff s).mp hp
  · intro hp
    obtain ⟨s, rfl⟩ := he.texts _ hp
    exact (hiff s).mpr hp

end DocQuery.Document
