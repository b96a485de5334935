import Mathlib.Algebra.Order.Ring.GeomSum
import Mathlib.Data.Nat.Prime.Basic

/-! Tables of consecutive primes, and a check of such a table along the bits of one number, in which
the multiples of the primes before have been struck out. -/
namespace BsdAdditions.Common

/-- An ascending list of exactly the primes from `lo` up to, but not including, `hi`. -/
structure IsPrimeTable (lo hi : ℕ) (ps : List ℕ) : Prop where
  sorted : ps.Pairwise (· < ·)
  mem_iff : ∀ p, p ∈ ps ↔ p.Prime ∧ lo ≤ p ∧ p < hi

/-! ### Numbers as sets of bits -/

/-- The bits of the multiples of `p` below `p * k`. -/
def multiples (p k : ℕ) : ℕ := (2 ^ (p * k) - 1) / (2 ^ p - 1)

theorem multiples_succ {p : ℕ} (hp : 0 < p) (k : ℕ) : multiples p (k + 1) = 2 ^ p * multiples p k + 1 := by
  have htwo : 2 ≤ 2 ^ p := Nat.one_lt_two_pow hp.ne'
  have hsum : ∀ k, multiples p k = ∑ j ∈ Finset.range k, (2 ^ p) ^ j := by
    intro k
    rw [multiples, Nat.pow_mul, Nat.geomSum_eq htwo]
  rw [hsum, hsum, Finset.sum_range_succ', Finset.mul_sum, pow_zero]
  simp only [pow_succ']

theorem testBit_multiples {p : ℕ} (hp : 0 < p) (k n : ℕ) :
    (multiples p k).testBit n = true ↔ p ∣ n ∧ n < p * k := by
  induction k generalizing n with
  | zero => simp [multiples]
  | succ k ih =>
    rw [multiples_succ hp, Nat.testBit_two_pow_mul_add _ (Nat.one_lt_two_pow hp.ne'), Nat.mul_succ]
    by_cases hn : n < p
    · rw [if_pos hn, Nat.testBit_one_eq_true_iff_self_eq_zero]
      constructor
      · rintro rfl
        exact ⟨Nat.dvd_zero p, by omega⟩
      · intro h
        exact Nat.eq_zero_of_dvd_of_lt h.1 hn
    · have hle : p ≤ n := by omega
      rw [if_neg hn, ih, Nat.dvd_sub_iff_left hle (Nat.dvd_refl p)]
      exact and_congr_right fun _ => by omega

/-- The bits of the numbers below `hi` of which one of the list is a divisor. -/
def struckOut (ps : List ℕ) (hi : ℕ) : ℕ := ps.foldr (fun p bits => multiples p (hi / p + 1) ||| bits) 0

theorem testBit_struckOut {ps : List ℕ} (hps : ∀ p ∈ ps, 0 < p) {n hi : ℕ} (hn : n < hi) :
    (struckOut ps hi).testBit n = true ↔ ∃ p ∈ ps, p ∣ n := by
  induction ps with
  | nil => simp [struckOut]
  | cons p ps ih =>
    have hp : 0 < p := hps p List.mem_cons_self
    have hlt : n < p * (hi / p + 1) := hn.trans (Nat.lt_mul_div_succ hi hp)
    have hrest := ih fun q hq => hps q (List.mem_cons_of_mem p hq)
    unfold struckOut at hrest ⊢
    rw [List.foldr_cons, Nat.testBit_or, Bool.or_eq_true, testBit_multiples hp, hrest, List.exists_mem_cons_iff,
      and_iff_left hlt]

/-- The bits of the numbers below `hi` that are left. -/
def leftOver (ps : List ℕ) (hi : ℕ) : ℕ := 2 ^ hi - (struckOut ps hi % 2 ^ hi + 1)

theorem testBit_leftOver {ps : List ℕ} (hps : ∀ p ∈ ps, 0 < p) (n hi : ℕ) :
    (leftOver ps hi).testBit n = true ↔ n < hi ∧ ∀ p ∈ ps, ¬ p ∣ n := by
  have hlt : struckOut ps hi % 2 ^ hi < 2 ^ hi := Nat.mod_lt _ (Nat.two_pow_pos hi)
  rw [leftOver, Nat.testBit_two_pow_sub_succ hlt, Bool.and_eq_true, decide_eq_true_eq]
  apply and_congr_right
  intro hn
  rw [Nat.testBit_mod_two_pow, decide_eq_true hn, Bool.true_and, Bool.not_eq_true', ← Bool.not_eq_true,
    testBit_struckOut hps hn]
  simp only [not_exists, not_and]

/-! ### A list along the bits -/

/-- The list has an entry for each bit and no other, where the first bit stands for `lo`. The operations
are written without their instances, which would have to be unfolded at every entry. -/
def listsBits : ℕ → ℕ → List ℕ → Bool
  | bits, _, [] => Nat.beq bits 0
  | bits, lo, p :: ps =>
    Nat.ble lo p && Nat.beq (Nat.mod bits (Nat.pow 2 (Nat.succ (Nat.sub p lo)))) (Nat.pow 2 (Nat.sub p lo)) &&
      listsBits (Nat.shiftRight bits (Nat.succ (Nat.sub p lo))) (Nat.succ p) ps

theorem listsBits_cons (bits lo p : ℕ) (ps : List ℕ) : listsBits bits lo (p :: ps) =
    (Nat.ble lo p && Nat.beq (bits % 2 ^ (p - lo + 1)) (2 ^ (p - lo)) &&
      listsBits (bits >>> (p - lo + 1)) (p + 1) ps) := rfl

theorem listsBits_sound {bits lo : ℕ} {ps : List ℕ} (h : listsBits bits lo ps = true) :
    ps.Pairwise (· < ·) ∧ ∀ n, n ∈ ps ↔ lo ≤ n ∧ bits.testBit (n - lo) = true := by
  induction ps generalizing bits lo with
  | nil =>
    obtain rfl := Nat.eq_of_beq_eq_true h
    refine ⟨.nil, fun n => ?_⟩
    simp
  | cons p ps ih =>
    rw [listsBits_cons, Bool.and_eq_true, Bool.and_eq_true, Nat.ble_eq, Nat.beq_eq] at h
    obtain ⟨⟨hlo, hbit⟩, hrest⟩ := h
    obtain ⟨hsorted, hmem⟩ := ih hrest
    constructor
    · refine List.pairwise_cons.mpr ⟨fun n hn => ?_, hsorted⟩
      exact ((hmem n).mp hn).1
    · intro n
      rw [List.mem_cons, hmem, Nat.testBit_shiftRight]
      by_cases hn : n ≤ p
      · -- up to this entry the bits are those of a power of two
        have hfirst : lo ≤ n → bits.testBit (n - lo) = decide (p - lo = n - lo) := by
          intro hle
          rw [← Nat.testBit_two_pow, ← hbit, Nat.testBit_mod_two_pow, decide_eq_true (by omega), Bool.true_and]
        constructor
        · rintro (rfl | ⟨hlt, -⟩)
          · exact ⟨hlo, by rw [hfirst hlo, decide_eq_true rfl]⟩
          · omega
        · rintro ⟨hle, htest⟩
          rw [hfirst hle] at htest
          have := of_decide_eq_true htest
          exact .inl (by omega)
      · rw [or_iff_right (by omega : n ≠ p), show p - lo + 1 + (n - (p + 1)) = n - lo by omega]
        exact and_congr_left fun _ => by omega

/-! ### Tables that continue -/

/-- Below the square of `b` a number from `b` on is prime exactly when no prime below `b` divides it. -/
theorem prime_iff_forall_not_dvd {b n : ℕ} {small : List ℕ} (hsmall : IsPrimeTable 0 b small)
    (hb : 2 ≤ b) (hn : b ≤ n) (hsq : n < b * b) : n.Prime ↔ ∀ p ∈ small, ¬ p ∣ n := by
  constructor
  · intro hprime p hp hdvd
    obtain ⟨hpp, -, hpb⟩ := (hsmall.mem_iff p).mp hp
    have := (Nat.prime_dvd_prime_iff_eq hpp hprime).mp hdvd
    omega
  · intro hnone
    by_contra hcomposite
    have hfac : n.minFac.Prime := Nat.minFac_prime (by omega)
    have hlt : n.minFac < b := by
      have hle : n.minFac ^ 2 ≤ n := Nat.minFac_sq_le_self (by omega) hcomposite
      rw [Nat.pow_two] at hle
      exact Nat.mul_self_lt_mul_self_iff.mp (by omega)
    exact hnone n.minFac ((hsmall.mem_iff _).mpr ⟨hfac, Nat.zero_le _, hlt⟩) n.minFac_dvd

/-- A table of the primes below `b` continues to `hi` with a list of what they leave from `b` on. -/
theorem IsPrimeTable.append {b hi : ℕ} {small large : List ℕ} (hsmall : IsPrimeTable 0 b small) (hb : 2 ≤ b)
    (hle : b ≤ hi) (hsq : hi ≤ b * b) (hlarge : listsBits (leftOver small hi >>> b) b large = true) :
    IsPrimeTable 0 hi (small ++ large) := by
  have hpos : ∀ p ∈ small, 0 < p := fun p hp => ((hsmall.mem_iff p).mp hp).1.pos
  obtain ⟨hs, hbits⟩ := listsBits_sound hlarge
  have hmem : ∀ n, n ∈ large ↔ b ≤ n ∧ n < hi ∧ ∀ p ∈ small, ¬ p ∣ n := by
    intro n
    rw [hbits, Nat.testBit_shiftRight]
    apply and_congr_right
    intro hn
    rw [Nat.add_sub_cancel' hn, testBit_leftOver hpos]
  constructor
  · refine List.pairwise_append.mpr ⟨hsmall.sorted, hs, fun x hx y hy => ?_⟩
    have hxb := ((hsmall.mem_iff x).mp hx).2.2
    have hby := ((hmem y).mp hy).1
    omega
  · intro p
    rw [List.mem_append, hsmall.mem_iff, hmem]
    constructor
    · rintro (⟨hp, -, hlt⟩ | ⟨hl, hu, hnone⟩)
      · exact ⟨hp, Nat.zero_le _, by omega⟩
      · exact ⟨(prime_iff_forall_not_dvd hsmall hb hl (by omega)).mpr hnone, Nat.zero_le _, hu⟩
    · rintro ⟨hp, -, hlt⟩
      by_cases hpb : p < b
      · exact .inl ⟨hp, Nat.zero_le _, hpb⟩
      · exact .inr ⟨by omega, hlt, (prime_iff_forall_not_dvd hsmall hb (by omega) (by omega)).mp hp⟩

end BsdAdditions.Common
