/-!
# Lists

Facts about lists that several parts of the theory use: lists in which at most one element has a
property, ranges of names, and lists with elements left out.
-/

namespace GameScript

/-! ## At most one element -/

section

variable {α : Type} {p : α → Bool} {l : List α}

/-- Where at most one element has a property, it stands in one place. -/
theorem eq_of_countP_le_one (h : l.countP p ≤ 1) {i j : Nat} {a b : α}
    (hi : l[i]? = some a) (hj : l[j]? = some b) (ha : p a = true) (hb : p b = true) : i = j := by
  induction l generalizing i j with
  | nil => simp at hi
  | cons x l ih =>
    -- If the first element has the property, no other one has it.
    have hfirst : ∀ {k : Nat} {c : α}, p x = true → l[k]? = some c → p c = true → False := by
      intro k c hx hk hc
      have hpos : 0 < l.countP p := List.countP_pos_iff.mpr ⟨c, List.mem_of_getElem? hk, hc⟩
      rw [List.countP_cons_of_pos hx] at h
      omega
    cases i with
    | zero =>
      obtain rfl : x = a := by simpa using hi
      cases j with
      | zero => rfl
      | succ j => exact (hfirst ha (by simpa using hj) hb).elim
    | succ i =>
      cases j with
      | zero =>
        obtain rfl : x = b := by simpa using hj
        exact (hfirst hb (by simpa using hi) ha).elim
      | succ j =>
        have hrest : l.countP p ≤ 1 := Nat.le_trans (List.sublist_cons_self x l).countP_le h
        exact congrArg Nat.succ (ih hrest (by simpa using hi) (by simpa using hj))

theorem find?_of_countP_le_one (h : l.countP p ≤ 1) {i : Nat} {a : α} (hi : l[i]? = some a)
    (ha : p a = true) : l.find? p = some a := by
  cases hfound : l.find? p with
  | none =>
    have hnone := List.find?_eq_none.mp hfound a (List.mem_of_getElem? hi)
    exact absurd ha hnone
  | some b =>
    obtain ⟨j, hj⟩ := List.getElem?_of_mem (List.mem_of_find?_eq_some hfound)
    obtain rfl := eq_of_countP_le_one h hi hj ha (List.find?_some hfound)
    exact hj.symm.trans hi

/-- A list with one member at most that passes a test. -/
theorem filter_eq_toList_find? (h : l.countP p ≤ 1) :
    l.filter p = (l.find? p).toList := by
  rw [List.countP_eq_length_filter] at h
  rw [← List.head?_filter]
  cases hl : l.filter p with
  | nil => rfl
  | cons a rest =>
    rw [hl, List.length_cons] at h
    rw [List.eq_nil_of_length_eq_zero (Nat.le_zero.mp (Nat.le_of_succ_le_succ h))]
    rfl

end

/-! ## Ranges of names -/

theorem mem_range'_iff {j n m : Nat} : j ∈ List.range' n m ↔ ∃ i < m, j = n + i := by
  simp [List.mem_range']

theorem notMem_range' {j n : Nat} (h : j < n) (m : Nat) : j ∉ List.range' n m := fun hmem =>
  absurd (List.mem_range'_1.mp hmem).1 (Nat.not_le_of_lt h)

theorem insertIdx_length {α : Type} {before after : List α} (id : α) :
    (before ++ after).insertIdx before.length id = before ++ id :: after := by
  induction before with
  | nil => rfl
  | cons j rest ih =>
    rw [List.cons_append, List.length_cons, List.insertIdx_succ_cons, ih, List.cons_append]

/-! ## Lists with elements left out -/

/-- The second list is the first one with some elements left out, none of which had to be kept. -/
inductive Thins {α : Type} (keep : α → Bool) : List α → List α → Prop
  | nil : Thins keep [] []
  | both (a : α) {l l' : List α} (h : Thins keep l l') : Thins keep (a :: l) (a :: l')
  | drop {a : α} (ha : keep a = false) {l l' : List α} (h : Thins keep l l') : Thins keep
      (a :: l) l'

namespace Thins

variable {α β : Type} {keep : α → Bool} {l l' m m' : List α}

theorem refl (l : List α) : Thins keep l l := by
  induction l with
  | nil => exact .nil
  | cons a l ih => exact .both a ih

theorem drops (h : ∀ a ∈ l, keep a = false) : Thins keep l [] := by
  induction l with
  | nil => exact .nil
  | cons a l ih => exact .drop (h a (by simp)) (ih fun b hb => h b (by simp [hb]))

theorem append (h : Thins keep l l') (h' : Thins keep m m') : Thins keep (l ++ m) (l' ++ m') := by
  induction h with
  | nil => exact h'
  | both a _ ih => exact .both a ih
  | drop ha _ ih => exact .drop ha ih

theorem flatMap {f f' : β → List α} (h : ∀ b, Thins keep (f b) (f' b)) (bs : List β) :
    Thins keep (bs.flatMap f) (bs.flatMap f') := by
  induction bs with
  | nil => exact .nil
  | cons b bs ih =>
    rw [List.flatMap_cons, List.flatMap_cons]
    exact (h b).append ih

theorem map {keep' : β → Bool} {f : α → β} (hf : ∀ a, keep' (f a) = keep a) (h : Thins keep l l') :
    Thins keep' (l.map f) (l'.map f) := by
  induction h with
  | nil => exact .nil
  | both a _ ih => exact .both (f a) ih
  | drop ha _ ih => exact .drop ((hf _).trans ha) ih

/-- A stricter choice leaves elements out. -/
theorem filter {p p' : α → Bool} (hp : ∀ a, p' a = true → p a = true)
    (hkeep : ∀ a ∈ l, keep a = false) :
    Thins keep (l.filter p) (l.filter p') := by
  induction l with
  | nil => exact .nil
  | cons a l ih =>
    have ih := ih fun b hb => hkeep b (by simp [hb])
    cases hp' : p' a with
    | true =>
      rw [List.filter_cons_of_pos (hp a hp'), List.filter_cons_of_pos hp']
      exact .both a ih
    | false =>
      have hnot : ¬p' a = true := by simp [hp']
      rw [List.filter_cons_of_neg hnot, List.filter_cons]
      split
      · exact .drop (hkeep a (by simp)) ih
      · exact ih

theorem sublist (h : Thins keep l l') : l'.Sublist l := by
  induction h with
  | nil => exact .slnil
  | both a _ ih => exact ih.cons_cons a
  | drop _ _ ih => exact ih.cons _

/-- What had to be kept is there. -/
theorem filter_eq (h : Thins keep l l') : l'.filter keep = l.filter keep := by
  induction h with
  | nil => rfl
  | both a _ ih => rw [List.filter_cons, List.filter_cons, ih]
  | drop ha _ ih => rw [List.filter_cons_of_neg (by simp [ha]), ih]

end Thins

end GameScript
