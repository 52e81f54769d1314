import Mathlib.Data.List.Induction
import DocQuery.Document
import DocQuery.Proofs.Value.KeyEquality

/-!
# DocQuery.Proofs.Document.Settled — what a sequence of writes leaves

`Document.settled` describes the document that pairs make without writing them one by one: each key
stands where it first occurs, with the value that it is given last.  Writing the pairs gives the
same (`ofPairs_eq_settled`), and writing into a document what was settled before is writing every
pair into it (`extend_ofPairs`).
-/

namespace DocQuery.Document

/-! ### Fresh keys -/

/-- No key is equal to an earlier one. -/
def Fresh (d : Document) : Prop := d.Pairwise fun e f => (e.1 == f.1) = false

/-- Where no key is equal to an earlier one, writing pairs appends them as they are. -/
theorem extend_eq_append {d : Document} {ps : List (Value × Value)} (h : Fresh (d ++ ps)) :
    d.extend ps = d ++ ps := by
  induction ps generalizing d with
  | nil => simp
  | cons p ps ih =>
    have hnew : d.lookup? p.1 = none := by
      rw [lookup?_eq_none_iff]
      intro e he
      exact (List.pairwise_append.mp h).2.2 e he p (by simp)
    have hsplit : d ++ p :: ps = d ++ [(p.1, p.2)] ++ ps := by simp
    rw [extend_cons, insert_of_lookup?_eq_none hnew, ih (hsplit ▸ h), hsplit]

theorem ofPairs_eq_self {ps : List (Value × Value)} (h : Fresh ps) : ofPairs ps = ps :=
  extend_eq_append (d := []) h

/-! ### Proper keys -/

/-- Every key can be a key. -/
def ProperKeys (d : Document) : Prop := ∀ e ∈ d, e.1.IsHashable

/-- What a document has for a field under a key. -/
def fieldUnder? (d : Document) (key field : Value) : Option Value :=
  match d.lookup? key with
  | some (.doc fields) => lookup? fields field
  | _ => none

variable {d : Document} {k l : Value}

/-! ### One write -/

theorem lookup?_cons (e : Value × Value) (d : Document) (k : Value) :
    lookup? (e :: d) k = if e.1 == k then some e.2 else d.lookup? k := rfl

theorem insert_cons_of_beq {e : Value × Value} (h : (e.1 == k) = true) (v : Value) :
    insert (e :: d) k v = (e.1, v) :: d := if_pos h

theorem insert_cons_of_not_beq {e : Value × Value} (h : ¬(e.1 == k) = true) (v : Value) :
    insert (e :: d) k v = e :: d.insert k v := if_neg h

theorem mem_insert {v : Value} {e : Value × Value} (h : e ∈ d.insert k v) :
    (∃ f ∈ d, f.1 = e.1) ∨ e = (k, v) := by
  induction d with
  | nil => exact Or.inr (List.mem_singleton.mp h)
  | cons f d ih =>
    by_cases hfk : (f.1 == k) = true
    · rw [insert_cons_of_beq hfk] at h
      rcases List.mem_cons.mp h with rfl | h
      · exact Or.inl ⟨f, by simp, rfl⟩
      · exact Or.inl ⟨e, by simp [h], rfl⟩
    · rw [insert_cons_of_not_beq hfk] at h
      rcases List.mem_cons.mp h with rfl | h
      · exact Or.inl ⟨e, by simp, rfl⟩
      · rcases ih h with ⟨g, hg, hge⟩ | he
        · exact Or.inl ⟨g, by simp [hg], hge⟩
        · exact Or.inr he

theorem ProperKeys.insert (hd : ProperKeys d) (hk : k.IsHashable) (v : Value) :
    ProperKeys (d.insert k v) := by
  intro e he
  rcases mem_insert he with ⟨f, hf, hfe⟩ | rfl
  · exact hfe ▸ hd f hf
  · exact hk

theorem ProperKeys.of_cons {e : Value × Value} (h : ProperKeys (e :: d)) :
    e.1.IsHashable ∧ ProperKeys d :=
  List.forall_mem_cons.mp h

theorem Fresh.insert (hd : Fresh d) (v : Value) : Fresh (d.insert k v) := by
  induction d with
  | nil => exact List.pairwise_singleton _ _
  | cons e d ih =>
    obtain ⟨he, hd⟩ := List.pairwise_cons.mp hd
    by_cases hek : (e.1 == k) = true
    · rw [insert_cons_of_beq hek]
      exact List.pairwise_cons.mpr ⟨he, hd⟩
    · rw [insert_cons_of_not_beq hek]
      refine List.pairwise_cons.mpr ⟨fun f hf => ?_, ih hd⟩
      rcases mem_insert hf with ⟨g, hg, hgf⟩ | rfl
      · exact hgf ▸ he g hg
      · simpa using hek

/-- What is found after a write: the value at keys equal to the one written, and what was there at
all others. -/
theorem lookup?_insert (hk : k.IsHashable) (v : Value) (l : Value) :
    (d.insert k v).lookup? l = if k == l then some v else d.lookup? l := by
  induction d with
  | nil => rfl
  | cons e d ih =>
    by_cases hek : (e.1 == k) = true
    · have hl : (e.1 == l) = (k == l) := hk.beq_congr hek l
      rw [insert_cons_of_beq hek, lookup?_cons, lookup?_cons, hl]
      split <;> rfl
    · rw [insert_cons_of_not_beq hek, lookup?_cons, lookup?_cons, ih]
      by_cases hkl : (k == l) = true
      · have hel : ¬(e.1 == l) = true := hk.not_beq_of_beq hek hkl
        rw [if_pos hkl, if_pos hkl, if_neg hel]
      · rw [if_neg hkl, if_neg hkl]

theorem isSome_lookup?_insert (hk : k.IsHashable) (v : Value)
    (h : (d.lookup? l).isSome) : ((d.insert k v).lookup? l).isSome := by
  rw [lookup?_insert hk]
  split
  · rfl
  · exact h

/-- Two writes to equal keys: the second value stays, under the first spelling. -/
theorem insert_insert (hk : k.IsHashable) (hkl : (k == l) = true)
    (v w : Value) : (d.insert k v).insert l w = d.insert k w := by
  induction d with
  | nil => exact insert_cons_of_beq hkl w
  | cons e d ih =>
    by_cases hek : (e.1 == k) = true
    · have hel : (e.1 == l) = true := Value.beq_trans hek hkl
      rw [insert_cons_of_beq hek, insert_cons_of_beq hek]
      exact insert_cons_of_beq (e := (e.1, v)) hel w
    · have hel : ¬(e.1 == l) = true := hk.not_beq_of_beq hek hkl
      rw [insert_cons_of_not_beq hek, insert_cons_of_not_beq hek, insert_cons_of_not_beq hel, ih]

/-- A write to a key that is there and one to a different key can change places. -/
theorem insert_comm (hk : k.IsHashable) (hkl : (k == l) = false)
    (h : (d.lookup? k).isSome) (v w : Value) :
    (d.insert k v).insert l w = (d.insert l w).insert k v := by
  induction d with
  | nil => simp [lookup?] at h
  | cons e d ih =>
    by_cases hek : (e.1 == k) = true
    · have hel : ¬(e.1 == l) = true := by
        rw [hk.beq_congr hek l, hkl]
        exact Bool.false_ne_true
      rw [insert_cons_of_beq hek, insert_cons_of_not_beq hel, insert_cons_of_beq hek]
      exact insert_cons_of_not_beq (e := (e.1, v)) hel w
    · have hdk : (lookup? d k).isSome := by
        rw [lookup?_cons, if_neg hek] at h
        exact h
      rw [insert_cons_of_not_beq hek]
      by_cases hel : (e.1 == l) = true
      · rw [insert_cons_of_beq hel, insert_cons_of_beq hel]
        exact (insert_cons_of_not_beq (e := (e.1, w)) hek v).symm
      · rw [insert_cons_of_not_beq hel, insert_cons_of_not_beq hel, insert_cons_of_not_beq hek,
          ih hdk]

/-- Where no key is equal to an earlier one, a key equal to the first is not found again. -/
theorem lookup?_eq_none_of_fresh {e : Value × Value} (he : e.1.IsHashable)
    (hf : Fresh (e :: d)) (h : (e.1 == k) = true) : d.lookup? k = none := by
  obtain ⟨hne, -⟩ := List.pairwise_cons.mp hf
  rw [lookup?_eq_none_iff]
  intro f hfd
  have hfe : ¬(f.1 == e.1) = true := by
    rw [← he.beq_comm, hne f hfd]
    exact Bool.false_ne_true
  exact Bool.eq_false_iff.mpr (he.not_beq_of_beq hfe h)

/-- Equal keys find the same value. -/
theorem lookup?_congr (hk : k.IsHashable) (h : (k == l) = true) :
    d.lookup? k = d.lookup? l := by
  induction d with
  | nil => rfl
  | cons e d ih =>
    rw [lookup?_cons, lookup?_cons, hk.beq_congr_right h, ih]

/-! ### Many writes -/

theorem ProperKeys.extend {ps : List (Value × Value)} (hd : ProperKeys d) (hps : ProperKeys ps) :
    ProperKeys (d.extend ps) := by
  induction ps generalizing d with
  | nil => exact hd
  | cons p ps ih =>
    obtain ⟨hp, hps⟩ := hps.of_cons
    exact ih (hd.insert hp p.2) hps

theorem Fresh.extend (hd : Fresh d) (ps : List (Value × Value)) : Fresh (d.extend ps) := by
  induction ps generalizing d with
  | nil => exact hd
  | cons p ps ih => exact ih (hd.insert p.2)

/-- What is found after a document was written into another: its own value for the key, or else
what was there. -/
theorem lookup?_extend {es : Document} (hes : ProperKeys es) (hf : Fresh es) (k : Value) :
    (d.extend es).lookup? k = (es.lookup? k).or (d.lookup? k) := by
  induction es generalizing d with
  | nil => rfl
  | cons e es ih =>
    obtain ⟨he, hrest⟩ := hes.of_cons
    obtain ⟨-, hfrest⟩ := List.pairwise_cons.mp hf
    rw [extend_cons, ih hrest hfrest, lookup?_insert he, lookup?_cons]
    by_cases hek : (e.1 == k) = true
    · rw [lookup?_eq_none_of_fresh he hf hek, if_pos hek, if_pos hek]
      rfl
    · rw [if_neg hek, if_neg hek]

theorem ofPairs_concat (ps : List (Value × Value)) (p : Value × Value) :
    ofPairs (ps ++ [p]) = (ofPairs ps).insert p.1 p.2 := extend_append [] ps [p]

theorem ProperKeys.ofPairs {ps : List (Value × Value)} (h : ProperKeys ps) :
    ProperKeys (ofPairs ps) :=
  ProperKeys.extend (d := []) (by simp [ProperKeys]) h

theorem fresh_ofPairs (ps : List (Value × Value)) : Fresh (ofPairs ps) :=
  Fresh.extend (d := []) List.Pairwise.nil ps

/-- A key that is there can be written before or after keys different from it. -/
theorem extend_insert_comm {es : Document} (hes : ProperKeys es) (hk : k.IsHashable)
    (hne : ∀ e ∈ es, (k == e.1) = false) (h : (d.lookup? k).isSome) (v : Value) :
    (d.extend es).insert k v = (d.insert k v).extend es := by
  induction es generalizing d with
  | nil => rfl
  | cons e es ih =>
    obtain ⟨he, hes⟩ := hes.of_cons
    obtain ⟨hke, hne⟩ := List.forall_mem_cons.mp hne
    have hswap : (d.insert k v).insert e.1 e.2 = (d.insert e.1 e.2).insert k v :=
      insert_comm hk hke h v e.2
    rw [extend_cons, extend_cons, hswap]
    exact ih hes hne (isSome_lookup?_insert he e.2 h)

/-- Writing a pair into what is written later is writing it last. -/
theorem extend_insert {es : Document} (hes : ProperKeys es) (hf : Fresh es) (hk : k.IsHashable)
    (v : Value) : d.extend (es.insert k v) = (d.extend es).insert k v := by
  induction es generalizing d with
  | nil => rfl
  | cons e es ih =>
    obtain ⟨he, hes⟩ := hes.of_cons
    obtain ⟨hfe, hf⟩ := List.pairwise_cons.mp hf
    by_cases hek : (e.1 == k) = true
    · have hne : ∀ f ∈ es, (k == f.1) = false := fun f hf => hk.beq_congr hek f.1 ▸ hfe f hf
      have hthere : ((d.insert e.1 e.2).lookup? k).isSome := by
        rw [lookup?_insert he, if_pos hek]
        rfl
      rw [insert_cons_of_beq hek, extend_cons, extend_cons,
        extend_insert_comm hes hk hne hthere, insert_insert he hek]
    · rw [insert_cons_of_not_beq hek, extend_cons, extend_cons]
      exact ih hes hf

/-- Writing what pairs have made of themselves is writing the pairs. -/
theorem extend_ofPairs {ps : List (Value × Value)} (hps : ProperKeys ps) :
    d.extend (ofPairs ps) = d.extend ps := by
  induction ps using List.reverseRecOn with
  | nil => rfl
  | append_singleton ps p ih =>
    obtain ⟨hps, hp⟩ := List.forall_mem_append.mp hps
    have hp : p.1.IsHashable := hp p (by simp)
    rw [ofPairs_concat, extend_insert (ProperKeys.ofPairs hps) (fresh_ofPairs ps) hp, ih hps,
      extend_append]
    rfl

/-! ### What stays -/

/-- The value that pairs give last to the key of `p`; a key that is equal to none, not even to
itself, has its own value only. -/
def lastValue (ps : List (Value × Value)) (p : Value × Value) : Value :=
  ((ps.filter fun q => q.1 == p.1).getLast?.map (·.2)).getD p.2

/-- The pairs whose key is equal to no earlier one. -/
def firstPairs (ps : List (Value × Value)) : List (Value × Value) :=
  ps.eraseDupsBy fun p q => p.1 == q.1

/-- The document that pairs leave: each key where it first occurs, with its last value. -/
def settled (ps : List (Value × Value)) : Document :=
  (firstPairs ps).map fun p => (p.1, lastValue ps p)

theorem lastValue_concat (ps : List (Value × Value)) (p q : Value × Value) :
    lastValue (ps ++ [q]) p = if q.1 == p.1 then q.2 else lastValue ps p := by
  unfold lastValue
  rw [List.filter_append]
  split
  · rename_i h
    simp [h]
  · rename_i h
    simp [h]

/-- A key that is not equal to itself is equal to no other. -/
theorem lastValue_of_not_beq_self {ps : List (Value × Value)} {p : Value × Value}
    (hp : p.1.IsHashable) (h : ¬(p.1 == p.1) = true) :
    lastValue ps p = p.2 := by
  have hnone : (ps.filter fun q => q.1 == p.1) = [] := by
    rw [List.filter_eq_nil_iff]
    intro q hq hqp
    have hpq : (p.1 == q.1) = true := (hp.beq_comm q.1).trans hqp
    exact h (Value.beq_trans hpq hqp)
  rw [lastValue, hnone]
  rfl

/-- The last of a list is kept exactly if none of those kept before repels it. -/
theorem eraseDupsBy_concat {α : Type} (r : α → α → Bool) (as : List α) (b : α) :
    (as ++ [b]).eraseDupsBy r =
      if (as.eraseDupsBy r).any (r b) then as.eraseDupsBy r else as.eraseDupsBy r ++ [b] := by
  match as with
  | [] => simp [List.eraseDupsBy_cons]
  | a :: as =>
    rw [List.cons_append, List.eraseDupsBy_cons, List.eraseDupsBy_cons, List.filter_append,
      List.any_cons]
    by_cases hba : r b a = true
    · simp [hba]
    · have ih := eraseDupsBy_concat r (as.filter fun c => r c a = false) b
      have hb : [b].filter (fun c => r c a = false) = [b] := by simp [hba]
      rw [hb, ih]
      simp only [hba, Bool.false_or]
      split <;> rfl
termination_by as.length
decreasing_by exact Nat.lt_succ_of_le (List.length_filter_le _ _)

/-- Writing a key that is there changes the value there and nothing else. -/
theorem insert_eq_map (hf : Fresh d) (hk : k.IsHashable)
    (h : (d.lookup? k).isSome) (v : Value) :
    d.insert k v = d.map fun e => (e.1, if k == e.1 then v else e.2) := by
  induction d with
  | nil => simp [lookup?] at h
  | cons e d ih =>
    obtain ⟨hfe, hf⟩ := List.pairwise_cons.mp hf
    rw [List.map_cons, hk.beq_comm e.1]
    by_cases hek : (e.1 == k) = true
    · have hrest : (d.map fun f => (f.1, if k == f.1 then v else f.2)) = d := by
        refine (List.map_congr_left fun f hf => ?_).trans (List.map_id' d)
        have hkf : ¬(k == f.1) = true := by
          rw [← hk.beq_congr hek f.1, hfe f hf]
          exact Bool.false_ne_true
        rw [if_neg hkf]
      rw [insert_cons_of_beq hek, if_pos hek, hrest]
    · have hdk : (lookup? d k).isSome := by
        rw [lookup?_cons, if_neg hek] at h
        exact h
      rw [insert_cons_of_not_beq hek, if_neg hek, ih hf hdk]

theorem firstPairs_concat (ps : List (Value × Value)) (q : Value × Value) :
    firstPairs (ps ++ [q]) =
      if (firstPairs ps).any fun p => q.1 == p.1 then firstPairs ps else firstPairs ps ++ [q] :=
  eraseDupsBy_concat _ ps q

theorem mem_of_mem_firstPairs {ps : List (Value × Value)} {p : Value × Value}
    (h : p ∈ firstPairs ps) : p ∈ ps := by
  induction ps using List.reverseRecOn with
  | nil => exact h
  | append_singleton ps q ih =>
    rw [firstPairs_concat] at h
    split at h
    · exact List.mem_append_left _ (ih h)
    · rcases List.mem_append.mp h with h | h
      · exact List.mem_append_left _ (ih h)
      · exact List.mem_append_right _ h

/-- What stays has the key of a pair and the value of that pair or of one with an equal key. -/
theorem exists_of_mem_settled {ps : List (Value × Value)} {e : Value × Value}
    (he : e ∈ settled ps) : ∃ p ∈ ps, ∃ q ∈ ps, p.1 = e.1 ∧ q.2 = e.2 ∧ (q = p ∨ q.1 == p.1) := by
  obtain ⟨p, hp, rfl⟩ := List.mem_map.mp he
  have hmem := mem_of_mem_firstPairs hp
  refine ⟨p, hmem, ?_⟩
  show ∃ q ∈ ps, p.1 = p.1 ∧ q.2 = lastValue ps p ∧ (q = p ∨ q.1 == p.1)
  unfold lastValue
  cases hlast : (ps.filter fun q => q.1 == p.1).getLast? with
  | none => exact ⟨p, hmem, rfl, rfl, .inl rfl⟩
  | some q =>
    obtain ⟨hq, hqp⟩ := List.mem_filter.mp (List.mem_of_getLast? hlast)
    exact ⟨q, hq, rfl, rfl, .inr hqp⟩

theorem fresh_firstPairs {ps : List (Value × Value)} (hps : ProperKeys ps) :
    Fresh (firstPairs ps) := by
  induction ps using List.reverseRecOn with
  | nil => exact .nil
  | append_singleton ps q ih =>
    obtain ⟨hps, hq⟩ := List.forall_mem_append.mp hps
    have hq : q.1.IsHashable := hq q (by simp)
    rw [firstPairs_concat]
    split
    · exact ih hps
    · rename_i hany
      refine List.pairwise_append.mpr ⟨ih hps, List.pairwise_singleton _ _, fun p hp r hr => ?_⟩
      obtain rfl := List.mem_singleton.mp hr
      rw [← hq.beq_comm, Bool.eq_false_iff]
      exact fun hrp => hany (List.any_eq_true.mpr ⟨p, hp, hrp⟩)

theorem fresh_map_firstPairs {ps : List (Value × Value)} (hps : ProperKeys ps)
    (g : Value × Value → Value) : Fresh ((firstPairs ps).map fun p => (p.1, g p)) :=
  List.pairwise_map.mpr (fresh_firstPairs hps)

theorem properKeys_settled {ps : List (Value × Value)} (hps : ProperKeys ps) :
    ProperKeys (settled ps) := by
  intro e he
  obtain ⟨p, hp, rfl⟩ := List.mem_map.mp he
  exact hps p (mem_of_mem_firstPairs hp)

theorem fresh_settled {ps : List (Value × Value)} (hps : ProperKeys ps) : Fresh (settled ps) :=
  fresh_map_firstPairs hps _

/-- Where every first key has a value, writing one more pair changes the values of keys equal to
its own, or appends it. -/
theorem insert_map_firstPairs {ps : List (Value × Value)} {q : Value × Value}
    (hps : ProperKeys ps) (hq : q.1.IsHashable) {g h : Value × Value → Value}
    (hold : ∀ p ∈ firstPairs ps, h p = if q.1 == p.1 then h q else g p) :
    Document.insert ((firstPairs ps).map fun p => (p.1, g p)) q.1 (h q) =
      (firstPairs (ps ++ [q])).map fun p => (p.1, h p) := by
  have hfresh : Fresh ((firstPairs ps).map fun p => (p.1, g p)) := fresh_map_firstPairs hps g
  rw [firstPairs_concat]
  by_cases hany : ((firstPairs ps).any fun p => q.1 == p.1) = true
  · -- The key is there: only the values of equal keys change.
    have hthere : (lookup? ((firstPairs ps).map fun p => (p.1, g p)) q.1).isSome := by
      obtain ⟨p, hp, hqp⟩ := List.any_eq_true.mp hany
      rw [Option.isSome_iff_ne_none, Ne, lookup?_eq_none_iff]
      intro hnone
      have hpq : (p.1 == q.1) = false := hnone (p.1, g p) (List.mem_map_of_mem hp)
      rw [← hq.beq_comm, hqp] at hpq
      exact Bool.noConfusion hpq
    rw [if_pos hany, insert_eq_map hfresh hq hthere, List.map_map]
    refine List.map_congr_left fun p hp => ?_
    rw [hold p hp]
    rfl
  · -- The key is new, and no other pair has it.
    have hne : ∀ p ∈ firstPairs ps, ¬(q.1 == p.1) = true := fun p hp hqp =>
      hany (List.any_eq_true.mpr ⟨p, hp, hqp⟩)
    have hnew : lookup? ((firstPairs ps).map fun p => (p.1, g p)) q.1 = none := by
      rw [lookup?_eq_none_iff]
      intro e he
      obtain ⟨p, hp, rfl⟩ := List.mem_map.mp he
      rw [← hq.beq_comm]
      simpa using hne p hp
    rw [if_neg hany, insert_of_lookup?_eq_none hnew, List.map_append, List.map_singleton]
    congr 1
    refine List.map_congr_left fun p hp => ?_
    rw [hold p hp, if_neg (hne p hp)]

/-- One more pair settles as a write to what was settled before. -/
theorem settled_concat {ps : List (Value × Value)} {q : Value × Value} (hps : ProperKeys ps)
    (hq : q.1.IsHashable) : settled (ps ++ [q]) = (settled ps).insert q.1 q.2 := by
  have hlast : lastValue (ps ++ [q]) q = q.2 := by
    rw [lastValue_concat]
    split
    · rfl
    · rename_i h
      exact lastValue_of_not_beq_self hq h
  have hold : ∀ p ∈ firstPairs ps, lastValue (ps ++ [q]) p =
      if q.1 == p.1 then lastValue (ps ++ [q]) q else lastValue ps p := by
    intro p _
    rw [lastValue_concat, hlast]
  rw [settled, ← insert_map_firstPairs hps hq hold, hlast]
  rfl

/-- Writing pairs leaves what they settle. -/
theorem ofPairs_eq_settled {ps : List (Value × Value)} (hps : ProperKeys ps) :
    ofPairs ps = settled ps := by
  induction ps using List.reverseRecOn with
  | nil => rfl
  | append_singleton ps q ih =>
    obtain ⟨hps, hq⟩ := List.forall_mem_append.mp hps
    have hq : q.1.IsHashable := hq q (by simp)
    rw [ofPairs_concat, settled_concat hps hq, ih hps]

/-- More pairs are written into what is settled already. -/
theorem settled_append {ps qs : List (Value × Value)} (hps : ProperKeys ps) (hqs : ProperKeys qs) :
    settled (ps ++ qs) = (settled ps).extend qs := by
  rw [← ofPairs_eq_settled hps, ← ofPairs_eq_settled (List.forall_mem_append.mpr ⟨hps, hqs⟩)]
  exact extend_append [] ps qs

theorem settled_eq_self (hd : ProperKeys d) (hf : Fresh d) : settled d = d := by
  rw [← ofPairs_eq_settled hd, ofPairs_eq_self hf]

/-- In what pairs settle, a key has the value that the last of them gives it. -/
theorem lookup?_settled {ps : List (Value × Value)} (hps : ProperKeys ps) (k : Value) :
    (settled ps).lookup? k = (ps.filter fun p => p.1 == k).getLast?.map (·.2) := by
  induction ps using List.reverseRecOn with
  | nil => rfl
  | append_singleton ps q ih =>
    obtain ⟨hps, hq⟩ := List.forall_mem_append.mp hps
    have hq : q.1.IsHashable := hq q (by simp)
    rw [settled_concat hps hq, lookup?_insert hq, ih hps,
      List.filter_append]
    split
    · rename_i h
      simp [h]
    · rename_i h
      simp [h]

end DocQuery.Document
