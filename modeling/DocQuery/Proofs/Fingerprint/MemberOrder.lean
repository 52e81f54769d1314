import Mathlib.Data.List.Nodup
import DocQuery.Fingerprint.Json

/-!
# DocQuery.Proofs.Fingerprint.MemberOrder — forms up to the order of members

`Json.Same` relates two forms that differ only in the order in which their objects, at any depth,
have their members.  Where no object has a key twice, sorting picks one form out of each class:
two forms have the same sorted form exactly if they are the same (`Json.sorted_eq_iff_same`).
-/

namespace DocQuery.Json

/-! ### The relation -/

mutual

/-- The same form, but for the order in which objects have their members. -/
inductive Same : Json → Json → Prop
  | null : Same null null
  | bool (b : Bool) : Same (bool b) (bool b)
  | int (n : Int) : Same (int n) (int n)
  | float (x : Binary64) : Same (float x) (float x)
  | str (s : String) : Same (str s) (str s)
  | arr {xs ys : List Json} (h : SameItems xs ys) : Same (arr xs) (arr ys)
  | obj {ms ns os : List (String × Json)} (h : SameMembers ms ns) (hp : ns.Perm os) :
      Same (obj ms) (obj os)

/-- The same items in the same order. -/
inductive SameItems : List Json → List Json → Prop
  | nil : SameItems [] []
  | cons {x y : Json} {xs ys : List Json} (h : Same x y) (hs : SameItems xs ys) :
      SameItems (x :: xs) (y :: ys)

/-- The same members in the same order. -/
inductive SameMembers : List (String × Json) → List (String × Json) → Prop
  | nil : SameMembers [] []
  | cons {k : String} {v w : Json} {ms ns : List (String × Json)} (h : Same v w)
      (hs : SameMembers ms ns) : SameMembers ((k, v) :: ms) ((k, w) :: ns)

end

mutual

/-- No object, at any depth, has a key twice. -/
def Distinct : Json → Prop
  | arr xs => DistinctItems xs
  | obj ms => (ms.map (·.1)).Nodup ∧ DistinctMembers ms
  | _ => True

def DistinctItems : List Json → Prop
  | [] => True
  | x :: xs => Distinct x ∧ DistinctItems xs

def DistinctMembers : List (String × Json) → Prop
  | [] => True
  | (_, v) :: ms => Distinct v ∧ DistinctMembers ms

end

/-! ### Sorted members -/

/-- A member with its value sorted inside. -/
def sortedInside (m : String × Json) : String × Json := (m.1, sorted m.2)

theorem map_fst_sortedInside (ms : List (String × Json)) :
    (ms.map sortedInside).map (·.1) = ms.map (·.1) := by
  rw [List.map_map]
  rfl

theorem sortedMembers_perm (ms : List (String × Json)) :
    (sortedMembers ms).Perm (ms.map sortedInside) := by
  induction ms with
  | nil => exact .refl _
  | cons m ms ih =>
    obtain ⟨k, v⟩ := m
    exact (insertMember_perm k (sorted v) (sortedMembers ms)).trans (ih.cons _)

theorem insertMember_pairwise (k : String) (v : Json) {ms : List (String × Json)}
    (h : ms.Pairwise fun m n => m.1 ≤ n.1) :
    (insertMember k v ms).Pairwise fun m n => m.1 ≤ n.1 := by
  induction ms with
  | nil => simp [insertMember]
  | cons m ms ih =>
    obtain ⟨hm, hms⟩ := List.pairwise_cons.mp h
    unfold insertMember
    split
    · rename_i hk
      refine List.pairwise_cons.mpr ⟨fun n hn => ?_, h⟩
      rcases List.mem_cons.mp hn with rfl | hn
      · exact hk
      · exact String.le_trans hk (hm n hn)
    · rename_i hk
      refine List.pairwise_cons.mpr ⟨fun n hn => ?_, ih hms⟩
      rcases List.mem_cons.mp ((insertMember_perm k v ms).mem_iff.mp hn) with rfl | hn
      · exact (String.le_total k m.1).resolve_left hk
      · exact hm n hn

theorem sortedMembers_pairwise (ms : List (String × Json)) :
    (sortedMembers ms).Pairwise fun m n => m.1 ≤ n.1 := by
  induction ms with
  | nil => exact .nil
  | cons m ms ih =>
    obtain ⟨k, v⟩ := m
    exact insertMember_pairwise k (sorted v) ih

/-- With distinct keys there is one way to sort members. -/
theorem sortedMembers_eq_of_perm {ms ns : List (String × Json)} (hd : (ms.map (·.1)).Nodup)
    (h : (ms.map sortedInside).Perm (ns.map sortedInside)) :
    sortedMembers ms = sortedMembers ns := by
  have hperm := (sortedMembers_perm ms).trans (h.trans (sortedMembers_perm ns).symm)
  refine hperm.eq_of_pairwise (fun m n hm hn hmn hnm => ?_) (sortedMembers_pairwise ms)
    (sortedMembers_pairwise ns)
  have hkeys : ((sortedMembers ms).map (·.1)).Nodup := by
    rw [((sortedMembers_perm ms).map (·.1)).nodup_iff, map_fst_sortedInside]
    exact hd
  have hn' : n ∈ sortedMembers ms := hperm.mem_iff.mpr hn
  exact List.inj_on_of_nodup_map hkeys hm hn' (String.le_antisymm hmn hnm)

/-! ### Sorting and the relation -/

mutual

theorem sorted_eq_of_same (j : Json) {k : Json} (hd : Distinct j) (h : Same j k) :
    sorted j = sorted k := by
  match j, h with
  | null, .null => rfl
  | bool b, .bool _ => rfl
  | int n, .int _ => rfl
  | float x, .float _ => rfl
  | str s, .str _ => rfl
  | arr xs, .arr hs => exact congrArg arr (sortedItems_eq_of_same xs hd hs)
  | obj ms, .obj hs hp =>
    have hmap := map_sortedInside_eq_of_same ms hd.2 hs
    refine congrArg obj (sortedMembers_eq_of_perm hd.1 ?_)
    rw [hmap]
    exact hp.map sortedInside

theorem sortedItems_eq_of_same (xs : List Json) {ys : List Json} (hd : DistinctItems xs)
    (h : SameItems xs ys) : sortedItems xs = sortedItems ys := by
  match xs, h with
  | [], .nil => rfl
  | x :: xs, .cons hx hxs =>
    rw [sortedItems, sortedItems, sorted_eq_of_same x hd.1 hx, sortedItems_eq_of_same xs hd.2 hxs]

theorem map_sortedInside_eq_of_same (ms : List (String × Json)) {ns : List (String × Json)}
    (hd : DistinctMembers ms) (h : SameMembers ms ns) :
    ms.map sortedInside = ns.map sortedInside := by
  match ms, h with
  | [], .nil => rfl
  | (k, v) :: ms, .cons hv hms =>
    rw [List.map_cons, List.map_cons, map_sortedInside_eq_of_same ms hd.2 hms, sortedInside,
      sortedInside, sorted_eq_of_same v hd.1 hv]

end

/-- A permutation of images comes from a permutation. -/
theorem exists_perm_of_perm_map {α β : Type} {f : α → β} {xs : List α} {ys : List β}
    (h : ys.Perm (xs.map f)) : ∃ zs : List α, zs.Perm xs ∧ zs.map f = ys := by
  induction ys generalizing xs with
  | nil =>
    have hnil : xs = [] := by simpa using h.nil_eq
    exact ⟨[], by rw [hnil], rfl⟩
  | cons y ys ih =>
    obtain ⟨x, hx, rfl⟩ := List.mem_map.mp (h.mem_iff.mp (List.mem_cons_self ..))
    obtain ⟨as, bs, rfl⟩ := List.append_of_mem hx
    have hrest : ys.Perm ((as ++ bs).map f) := by
      refine (h.trans ?_).cons_inv
      simp
    obtain ⟨zs, hzs, rfl⟩ := ih hrest
    exact ⟨x :: zs, (hzs.cons x).trans List.perm_middle.symm, rfl⟩

mutual

theorem same_of_sorted_eq (j : Json) {k : Json} (h : sorted j = sorted k) : Same j k := by
  match j with
  | null =>
    cases k <;> simp only [sorted, reduceCtorEq] at h
    exact .null
  | bool b =>
    cases k <;> simp only [sorted, reduceCtorEq, bool.injEq] at h
    exact h ▸ .bool b
  | int n =>
    cases k <;> simp only [sorted, reduceCtorEq, int.injEq] at h
    exact h ▸ .int n
  | float x =>
    cases k <;> simp only [sorted, reduceCtorEq, float.injEq] at h
    exact h ▸ .float x
  | str s =>
    cases k <;> simp only [sorted, reduceCtorEq, str.injEq] at h
    exact h ▸ .str s
  | arr xs =>
    cases k <;> simp only [sorted, reduceCtorEq, arr.injEq] at h
    exact .arr (sameItems_of_sortedItems_eq xs h)
  | obj ms =>
    cases k <;> simp only [sorted, reduceCtorEq, obj.injEq] at h
    rename_i ns
    have hperm : (ms.map sortedInside).Perm (ns.map sortedInside) :=
      (sortedMembers_perm ms).symm.trans (h ▸ sortedMembers_perm ns)
    obtain ⟨os, hos, hmap⟩ := exists_perm_of_perm_map hperm
    exact .obj (sameMembers_of_map_eq ms hmap.symm) hos

theorem sameItems_of_sortedItems_eq (xs : List Json) {ys : List Json}
    (h : sortedItems xs = sortedItems ys) : SameItems xs ys := by
  match xs, ys with
  | [], [] => exact .nil
  | [], y :: ys => simp [sortedItems] at h
  | x :: xs, [] => simp [sortedItems] at h
  | x :: xs, y :: ys =>
    obtain ⟨hx, hxs⟩ := List.cons.inj h
    exact .cons (same_of_sorted_eq x hx) (sameItems_of_sortedItems_eq xs hxs)

theorem sameMembers_of_map_eq (ms : List (String × Json)) {ns : List (String × Json)}
    (h : ms.map sortedInside = ns.map sortedInside) : SameMembers ms ns := by
  match ms, ns with
  | [], [] => exact .nil
  | [], n :: ns => simp at h
  | m :: ms, [] => simp at h
  | (k, v) :: ms, (l, w) :: ns =>
    obtain ⟨hm, hms⟩ := List.cons.inj h
    obtain ⟨rfl, hv⟩ : k = l ∧ sorted v = sorted w := by simpa [sortedInside] using hm
    exact .cons (same_of_sorted_eq v hv) (sameMembers_of_map_eq ms hms)

end

/-- Sorting forgets the order of members and nothing else. -/
theorem sorted_eq_iff_same {j k : Json} (hd : Distinct j) : sorted j = sorted k ↔ Same j k :=
  ⟨same_of_sorted_eq j, sorted_eq_of_same j hd⟩

end DocQuery.Json
