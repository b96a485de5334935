import Mathlib.Data.List.Lex
import Mathlib.Data.List.TakeWhile
import Mathlib.Order.Compare

/-! Strings as C has them, and their comparison. -/
namespace BsdAdditions.Common

/-- The bytes before the terminating NUL, none of which is NUL. -/
def CString := { s : List UInt8 // 0 ∉ s }

/-- The difference of the first bytes that differ, the terminator included. -/
def strcmp : List UInt8 → List UInt8 → ℤ
  | [], [] => 0
  | [], b :: _ => -b.toNat
  | a :: _, [] => a.toNat
  | a :: as, b :: bs => if a = b then strcmp as bs else a.toNat - b.toNat

attribute [local simp] strcmp

theorem strcmp_self (s : List UInt8) : strcmp s s = 0 := by
  induction s with
  | nil => rfl
  | cons a s ih => rw [strcmp, if_pos rfl, ih]

theorem strcmp_swap (s s' : List UInt8) : strcmp s' s = -strcmp s s' := by
  fun_induction strcmp s s' with
  | case1 => rfl
  | case2 b s' => exact (Int.neg_neg _).symm
  | case3 a s => rfl
  | case4 s a s' ih => rw [strcmp, if_pos rfl, ih]
  | case5 a s b s' hab =>
    rw [strcmp, if_neg (Ne.symm hab)]
    omega

theorem toNat_pos_of_ne_zero {b : UInt8} (h : b ≠ 0) : 0 < b.toNat := by
  apply Nat.pos_of_ne_zero
  intro h0
  exact h (UInt8.toNat_inj.mp h0)

/-- Without NULs the comparison is the lexicographic one. -/
theorem strcmp_neg_iff {s s' : List UInt8} (hs' : 0 ∉ s') : strcmp s s' < 0 ↔ s < s' := by
  induction s generalizing s' with
  | nil =>
    cases s' with
    | nil => simp
    | cons b s' =>
      have hb := toNat_pos_of_ne_zero (Ne.symm (List.ne_of_not_mem_cons hs'))
      simp [hb]
  | cons a s ih =>
    cases s' with
    | nil => simp
    | cons b s' =>
      rw [strcmp, List.cons_lt_cons_iff]
      by_cases hab : a = b
      · rw [if_pos hab, ih (List.not_mem_of_not_mem_cons hs')]
        simp [hab]
      · rw [if_neg hab, UInt8.lt_iff_toNat_lt]
        simp only [hab, false_and, or_false]
        omega

theorem strcmp_pos_iff {s s' : List UInt8} (hs : 0 ∉ s) : 0 < strcmp s s' ↔ s' < s := by
  rw [← strcmp_neg_iff hs, strcmp_swap s s']
  omega

theorem strcmp_eq_zero_iff {s s' : List UInt8} (hs : 0 ∉ s) (hs' : 0 ∉ s') : strcmp s s' = 0 ↔ s = s' := by
  induction s generalizing s' with
  | nil =>
    cases s' with
    | nil => simp
    | cons b s' =>
      have hb := toNat_pos_of_ne_zero (Ne.symm (List.ne_of_not_mem_cons hs'))
      simp
      omega
  | cons a s ih =>
    have ha := toNat_pos_of_ne_zero (Ne.symm (List.ne_of_not_mem_cons hs))
    cases s' with
    | nil =>
      simp
      omega
    | cons b s' =>
      rw [strcmp, List.cons.injEq]
      by_cases hab : a = b
      · rw [if_pos hab, ih (List.not_mem_of_not_mem_cons hs) (List.not_mem_of_not_mem_cons hs')]
        simp [hab]
      · rw [if_neg hab]
        have hne : a.toNat ≠ b.toNat := fun h => hab (UInt8.toNat_inj.mp h)
        simp only [hab, false_and, iff_false]
        omega

/-! ### Reading up to a terminator -/

/-- The bytes at a pointer, of which those in the list may be read: the string goes to the first
NUL. -/
def stringAt : List UInt8 → Option (List UInt8)
  | [] => none
  | b :: rest => if b = 0 then some [] else (stringAt rest).map (b :: ·)

/-- A pointer goes over the bytes of a kind, and stays in front of a NUL. -/
def skipWhile (p : UInt8 → Bool) : List UInt8 → Option (List UInt8)
  | [] => none
  | b :: rest => if b ≠ 0 ∧ p b = true then skipWhile p rest else some (b :: rest)

variable {s : List UInt8} (p : UInt8 → Bool)

theorem stringAt_of_mem (h : 0 ∈ s) : stringAt s = some (s.takeWhile (· ≠ 0)) := by
  induction s with
  | nil => exact absurd h List.not_mem_nil
  | cons b s ih =>
    rw [stringAt, List.takeWhile_cons]
    by_cases hb : b = 0
    · simp [hb]
    · rw [ih ((List.mem_cons.mp h).resolve_left (Ne.symm hb))]
      simp [hb]

theorem skipWhile_of_mem (h : 0 ∈ s) :
    skipWhile p s = some (s.dropWhile fun b => b ≠ 0 && p b) := by
  induction s with
  | nil => exact absurd h List.not_mem_nil
  | cons b s ih =>
    rw [skipWhile, List.dropWhile_cons]
    by_cases hb : b ≠ 0 ∧ p b = true
    · rw [if_pos hb, ih ((List.mem_cons.mp h).resolve_left (Ne.symm hb.1))]
      simp [hb]
    · rw [if_neg hb, if_neg (by simpa using hb)]

theorem zero_mem_dropWhile (h : 0 ∈ s) : 0 ∈ s.dropWhile fun b => b ≠ 0 && p b := by
  have hsplit := List.takeWhile_append_dropWhile (p := fun b => b ≠ 0 && p b) (l := s)
  rw [← hsplit, List.mem_append] at h
  refine h.resolve_left fun hmem => ?_
  have hzero := List.mem_takeWhile_imp hmem
  simp at hzero

/-- What is left of the string. -/
theorem takeWhile_dropWhile_ne_zero (s : List UInt8) :
    (s.dropWhile fun b => b ≠ 0 && p b).takeWhile (· ≠ 0) = (s.takeWhile (· ≠ 0)).dropWhile p := by
  induction s with
  | nil => rfl
  | cons b s ih =>
    rw [List.dropWhile_cons, List.takeWhile_cons]
    by_cases hb : b = 0
    · simp [hb]
    · by_cases hp : p b = true
      · rw [if_pos (by simp [hb, hp]), ih, if_pos (by simp [hb]), List.dropWhile_cons, if_pos hp]
      · rw [if_neg (by simp [hp]), List.takeWhile_cons, if_pos (by simp [hb]), List.dropWhile_cons,
          if_neg hp]

end BsdAdditions.Common
