import Mathlib.Data.List.Basic

/-! Writing a run of elements into a list of fixed length. -/
namespace BsdAdditions.Common

variable {α : Type*}

/-- The elements from index `k` on give way to those of `bs`. -/
def overwrite (l : List α) (k : ℕ) (bs : List α) : List α :=
  l.take k ++ (bs ++ l.drop (k + bs.length))

section Overwrite
variable {l bs : List α} {k : ℕ}

@[simp] theorem overwrite_nil (l : List α) (k : ℕ) : overwrite l k [] = l := by
  simp [overwrite]

theorem length_overwrite (h : k + bs.length ≤ l.length) : (overwrite l k bs).length = l.length := by
  simp only [overwrite, List.length_append, List.length_take, List.length_drop]
  omega

theorem take_overwrite (h : k + bs.length ≤ l.length) {m : ℕ} (hm : m ≤ bs.length) :
    (overwrite l k bs).take (k + m) = l.take k ++ bs.take m := by
  have hk : (l.take k).length = k := by
    rw [List.length_take]
    omega
  rw [overwrite, List.take_append, hk, Nat.add_sub_cancel_left, List.take_of_length_le (by omega),
    List.take_append_of_le_length hm]

theorem take_overwrite_of_le (h : k ≤ l.length) {m : ℕ} (hm : m ≤ k) :
    (overwrite l k bs).take m = l.take m := by
  rw [overwrite, List.take_append_of_le_length (by rw [List.length_take]; omega), List.take_take,
    Nat.min_eq_left hm]

theorem getElem?_overwrite (h : k + bs.length ≤ l.length) {m : ℕ} (hm : m < bs.length) :
    (overwrite l k bs)[k + m]? = bs[m]? := by
  have hk : (l.take k).length = k := by
    rw [List.length_take]
    omega
  rw [overwrite, List.getElem?_append_right (by omega), hk, Nat.add_sub_cancel_left,
    List.getElem?_append_left hm]

theorem overwrite_append (xs ys zs : List α) (h : ys.length = bs.length) :
    overwrite (xs ++ (ys ++ zs)) xs.length bs = xs ++ (bs ++ zs) := by
  rw [overwrite, List.take_left, ← h, List.drop_length_add_append, List.drop_left]

/-- A list around a run of it. -/
theorem exists_run {m : ℕ} (h : k + m ≤ l.length) :
    ∃ xs ys zs, l = xs ++ (ys ++ zs) ∧ xs.length = k ∧ ys.length = m := by
  refine ⟨l.take k, (l.drop k).take m, (l.drop k).drop m, ?_, ?_, ?_⟩
  · rw [List.take_append_drop, List.take_append_drop]
  · rw [List.length_take]
    omega
  · rw [List.length_take, List.length_drop]
    omega

/-- One element first, then the others. -/
theorem overwrite_set {b : α} (h : k + (bs.length + 1) ≤ l.length) :
    overwrite (l.set k b) (k + 1) bs = overwrite l k (b :: bs) := by
  obtain ⟨xs, ys, zs, rfl, rfl, hys⟩ := exists_run h
  obtain ⟨y, ys, rfl⟩ := List.exists_cons_of_length_eq_add_one hys
  rw [overwrite_append xs (y :: ys) zs (by simpa using hys)]
  have hset : (xs ++ (y :: ys ++ zs)).set xs.length b = (xs ++ [b]) ++ (ys ++ zs) := by simp
  have hlen : xs.length + 1 = (xs ++ [b]).length := by simp
  rw [hset, hlen, overwrite_append (xs ++ [b]) ys zs (by simpa using hys)]
  simp

/-- The last element first, then those before it. -/
theorem overwrite_set_last {b : α} (h : k + (bs.length + 1) ≤ l.length) :
    overwrite (l.set (k + bs.length) b) k bs = overwrite l k (bs ++ [b]) := by
  obtain ⟨xs, ys, zs, rfl, rfl, hys⟩ := exists_run h
  obtain rfl | ⟨ys, y, rfl⟩ := ys.eq_nil_or_concat'
  · simp at hys
  have hlen : ys.length = bs.length := by simpa using hys
  rw [overwrite_append xs (ys ++ [y]) zs (by simpa using hys)]
  have hset : (xs ++ (ys ++ [y] ++ zs)).set (xs.length + bs.length) b = xs ++ (ys ++ (b :: zs)) := by
    simp [← hlen]
  rw [hset, overwrite_append xs ys (b :: zs) hlen]
  simp

/-- Moving a run up by one cell makes room for an element in front of it. -/
theorem overwrite_shift_set (pre run rest : List α) (last x : α) :
    (overwrite (pre ++ (run ++ last :: rest)) (pre.length + 1) run).set pre.length x =
      pre ++ x :: (run ++ rest) := by
  obtain ⟨y, ys, hy⟩ : ∃ y ys, run ++ last :: rest = y :: ys := by
    cases run with
    | nil => exact ⟨_, _, rfl⟩
    | cons a run => exact ⟨_, _, rfl⟩
  have htake : (pre ++ (run ++ last :: rest)).take (pre.length + 1) = pre ++ [y] := by
    rw [hy, List.take_length_add_append, List.take_succ_cons, List.take_zero]
  have hdrop : (pre ++ (run ++ last :: rest)).drop (pre.length + 1 + run.length) = rest := by
    rw [Nat.add_assoc, List.drop_length_add_append, Nat.add_comm 1, List.drop_length_add_append,
      List.drop_one, List.tail_cons]
  rw [overwrite, htake, hdrop, List.append_assoc, List.set_append_right _ _ (Nat.le_refl _), Nat.sub_self]
  rfl

end Overwrite
end BsdAdditions.Common
