import Mathlib.Data.Nat.Notation

/-! Loops that move an index along an array until a condition fails. -/
namespace BsdAdditions.Common

/-- The first index from `i` on for which the condition fails. Without a result the condition could not
be evaluated, or the rounds did not suffice. -/
def advance (go : ℕ → Option Bool) : ℕ → ℕ → Option ℕ
  | 0, _ => none
  | rounds + 1, i => (go i).bind fun b => if b then advance go rounds (i + 1) else some i

/-- The loop ends when the condition can be evaluated up to an index at which it fails. -/
theorem exists_advance (go : ℕ → Option Bool) (rounds : ℕ) {i n : ℕ} (hi : i ≤ n) (hrounds : n < i + rounds)
    (hgo : ∀ x, i ≤ x → x ≤ n → (go x).isSome = true) (hn : go n = some false) :
    ∃ m, advance go rounds i = some m ∧ i ≤ m ∧ m ≤ n ∧ (∀ x, i ≤ x → x < m → go x = some true) ∧
      go m = some false := by
  induction rounds generalizing i with
  | zero => omega
  | succ rounds ih =>
    obtain ⟨b, hb⟩ := Option.isSome_iff_exists.mp (hgo i (Nat.le_refl i) hi)
    cases b with
    | false =>
      refine ⟨i, ?_, Nat.le_refl i, hi, fun x hix hxi => by omega, hb⟩
      rw [advance, hb]
      rfl
    | true =>
      have hne : i ≠ n := by
        rintro rfl
        rw [hb] at hn
        cases hn
      obtain ⟨m, hm, him, hmn, htrue, hfalse⟩ := ih (i := i + 1) (by omega) (by omega)
        fun x hx => hgo x (by omega)
      refine ⟨m, ?_, by omega, hmn, fun x hix hxm => ?_, hfalse⟩
      · rw [advance, hb]
        exact hm
      · rcases Nat.eq_or_lt_of_le hix with rfl | hlt
        · exact hb
        · exact htrue x hlt hxm

end BsdAdditions.Common
