import Mathlib.Data.List.Prime
import Mathlib.Tactic.NormNum.Prime
import Mathlib.Tactic.Ring
import BsdAdditions.Factor.Model

/-! What `pr_fact` prints, for every number it is given. -/
namespace BsdAdditions.Factor

/-- After the colon stand primes in non-decreasing order whose product is the number. -/
def FactorsCorrectly (hflag : Bool) (n : ℕ) : Prop :=
  ∃ out, prFact hflag n = .ok out ∧ (afterColon out).Pairwise (· ≤ ·) ∧
    (∀ p ∈ afterColon out, p.Prime) ∧ (afterColon out).prod = n

/-- At most one prime factor lies beyond the table, and none when its last entry divides `n`. -/
def WithinTable (n : ℕ) : Prop :=
  ∀ q, q.Prime → q ∣ n → prLimit < q → ¬ prLimit ∣ n ∧ ∀ r, r.Prime → r ∣ n / q → r ≤ prLimit

/-! ### Printing -/

/-- The writes that print these numbers one by one. -/
def puts (hflag : Bool) (l : List ℕ) : List Put := l.flatMap (prPrint hflag)

@[simp] theorem puts_nil (hflag : Bool) : puts hflag [] = [] := rfl

@[simp] theorem puts_append (hflag : Bool) (l l' : List ℕ) :
    puts hflag (l ++ l') = puts hflag l ++ puts hflag l' := List.flatMap_append

theorem puts_singleton (hflag : Bool) (n : ℕ) : puts hflag [n] = prPrint hflag n := by
  simp [puts]

theorem filterMap_puts (hflag : Bool) (l : List ℕ) : (puts hflag l).filterMap Put.number? = l := by
  induction l with
  | nil => rfl
  | cons n l ih =>
    rw [← List.singleton_append, puts_append, List.filterMap_append, ih, puts_singleton]
    cases hflag <;> rfl

/-- The numbers after the colon are those the loop printed. -/
theorem afterColon_line (hflag : Bool) (n : ℕ) (l : List ℕ) :
    afterColon ((if hflag then [.str "0x", .hex n] else [.dec n]) ++ [.str ":"] ++ puts hflag l ++
      [.str "\n"]) = l := by
  have hnum : Put.number? (.str ":") = none := rfl
  cases hflag <;>
    simp [afterColon, List.filterMap_append, filterMap_puts, List.filterMap_cons_none hnum,
      Put.number?]

/-! ### The loops -/

theorem search_spec {val : ℕ} {fact pos : List ℕ} (h : search val fact = .ok pos) :
    (∃ p rest pre, pos = p :: rest ∧ fact = pre ++ pos ∧ p ∣ val ∧ ∀ q ∈ pre, ¬ q ∣ val) ∨
      (pos = [] ∧ fact ≠ [] ∧ ∀ q ∈ fact, ¬ q ∣ val) := by
  induction fact with
  | nil => cases h
  | cons f rest ih =>
    simp only [search] at h
    split at h
    · next hf =>
      cases h
      exact .inl ⟨f, rest, [], rfl, rfl, Nat.dvd_of_mod_eq_zero hf, by simp⟩
    · next hf =>
      have hfd : ¬ f ∣ val := fun hd => hf (Nat.mod_eq_zero_of_dvd hd)
      split at h
      · next hr =>
        cases h
        obtain rfl : rest = [] := by simpa using hr
        exact .inr ⟨rfl, by simp, by simpa using hfd⟩
      · rcases ih h with ⟨p, t, pre, rfl, rfl, hp, hpre⟩ | ⟨rfl, -, hall⟩
        · refine .inl ⟨p, t, f :: pre, rfl, rfl, hp, ?_⟩
          simpa using ⟨hfd, hpre⟩
        · exact .inr ⟨rfl, by simp, by simpa using ⟨hfd, hall⟩⟩

theorem search_ok {fact : List ℕ} (val : ℕ) (h : fact ≠ []) : ∃ pos, search val fact = .ok pos := by
  induction fact with
  | nil => exact absurd rfl h
  | cons f rest ih =>
    simp only [search]
    split
    · exact ⟨_, rfl⟩
    · split
      · exact ⟨_, rfl⟩
      · next hr => exact ih (by simpa using hr)

/-- The division loop ends with the factor gone; its value bounds the rounds it takes. -/
theorem divideOut_spec (hflag : Bool) {p : ℕ} (hp : 2 ≤ p) (fuel val : ℕ) (hfuel : val ≤ fuel)
    (hpos : 0 < val) (hd : p ∣ val) :
    ∃ k val', divideOut hflag p fuel val = .ok (puts hflag (List.replicate (k + 1) p), val') ∧
      val = p ^ (k + 1) * val' ∧ ¬ p ∣ val' := by
  induction fuel generalizing val with
  | zero => omega
  | succ fuel ih =>
    obtain ⟨m, rfl⟩ := hd
    have hm : 0 < m := Nat.pos_of_mul_pos_left hpos
    have hdiv : p * m / p = m := Nat.mul_div_cancel_left m (by omega)
    simp only [divideOut, hdiv]
    split
    · next hmod =>
      have hlt : m < p * m := lt_mul_of_one_lt_left hm hp
      obtain ⟨k, val', hrec, hm', hnd⟩ := ih m (by omega) hm (Nat.dvd_of_mod_eq_zero hmod)
      refine ⟨k + 1, val', ?_, ?_, hnd⟩
      · rw [hrec, List.replicate_succ, ← List.singleton_append, puts_append, puts_singleton]
        rfl
      · rw [hm', pow_succ p (k + 1)]
        ring
    · next hmod =>
      refine ⟨0, m, ?_, by simp, fun hd => hmod (Nat.mod_eq_zero_of_dvd hd)⟩
      rw [List.replicate_one, puts_singleton]

/-- A part of the table that still has to be tried. -/
structure Suffix (fact : List ℕ) : Prop where
  sorted : fact.Pairwise (· < ·)
  prime : ∀ p ∈ fact, p.Prime
  le : ∀ p ∈ fact, p ≤ prLimit
  last : fact ≠ [] → prLimit ∈ fact

theorem suffix_prime : Suffix prime where
  sorted := prime_isPrimeTable.sorted
  prime p hp := ((prime_isPrimeTable.mem_iff p).mp hp).1
  le p hp := Nat.le_of_lt_succ ((prime_isPrimeTable.mem_iff p).mp hp).2.2
  last _ := List.mem_of_getLast? prime_getLast

theorem Suffix.tail {pre rest : List ℕ} {p : ℕ} (h : Suffix (pre ++ p :: rest)) : Suffix rest where
  sorted := (List.pairwise_cons.mp (List.pairwise_append.mp h.sorted).2.1).2
  prime q hq := h.prime q (by simp [hq])
  le q hq := h.le q (by simp [hq])
  last hne := by
    obtain ⟨r, hr⟩ := List.exists_mem_of_ne_nil rest hne
    have hle := h.le r (by simp [hr])
    obtain ⟨-, hs, hlt⟩ := List.pairwise_append.mp h.sorted
    have hp : p < r := (List.pairwise_cons.mp hs).1 r hr
    have hmem := h.last (by simp)
    simp only [List.mem_append, List.mem_cons] at hmem
    rcases hmem with hm | rfl | hm
    · have := hlt prLimit hm r (by simp [hr])
      omega
    · omega
    · exact hm

/-- The last entry has been reached exactly when nothing follows it. -/
theorem Suffix.eq_last_iff {pre rest : List ℕ} {p : ℕ} (h : Suffix (pre ++ p :: rest)) :
    prLimit = p ↔ rest = [] := by
  obtain ⟨-, hs, hlt⟩ := List.pairwise_append.mp h.sorted
  constructor
  · rintro rfl
    by_contra hne
    obtain ⟨r, hr⟩ := List.exists_mem_of_ne_nil rest hne
    have hle := h.le r (by simp [hr])
    have := (List.pairwise_cons.mp hs).1 r hr
    omega
  · rintro rfl
    have hmem := h.last (by simp)
    simp only [List.mem_append, List.mem_cons, List.not_mem_nil, or_false] at hmem
    rcases hmem with hm | hm
    · have := hlt prLimit hm p (by simp)
      have := h.le p (by simp)
      omega
    · exact hm

/-- The value splits into the table's primes, which are printed in order, and a cofactor whose
prime factors all lie beyond the table. The cofactor is printed as it stands, unless the table is
used up: then it is compared with what lies behind the table. -/
theorem factorLoop_spec (hflag : Bool) (fuel : ℕ) (fact : List ℕ) (val : ℕ)
    (hfuel : fact.length < fuel) (hpos : 0 < val) (hfact : Suffix fact)
    (hrough : ∀ q, q.Prime → q ∣ val → q ≤ prLimit → q ∈ fact) :
    ∃ s c, s.Pairwise (· ≤ ·) ∧ (∀ p ∈ s, p ∈ fact) ∧ val = s.prod * c ∧
      (∀ q, q.Prime → q ∣ c → prLimit < q) ∧
      factorLoop hflag fuel fact val =
        if c = 1 then .ok (puts hflag s)
        else if fact = [] ∨ prLimit ∈ s then .error .outOfTable
        else .ok (puts hflag (s ++ [c])) := by
  induction fuel generalizing fact val with
  | zero => omega
  | succ fuel ih =>
    by_cases hone : val = 1
    · refine ⟨[], 1, .nil, by simp, by simpa using hone, ?_, by simp [factorLoop, hone]⟩
      intro q hq hd
      exact absurd (Nat.dvd_one.mp hd) hq.one_lt.ne'
    by_cases hnil : fact = []
    · subst hnil
      refine ⟨[], val, .nil, by simp, by simp, ?_, by simp [factorLoop, hone, search]⟩
      intro q hq hd
      by_contra hle
      simpa using hrough q hq hd (by omega)
    obtain ⟨pos, hsearch⟩ := search_ok val hnil
    rcases search_spec hsearch with ⟨p, rest, pre, rfl, rfl, hpd, hpre⟩ | ⟨rfl, -, hall⟩
    · -- a factor of the table: divided out, then the rest of the table
      have hp := hfact.prime p (by simp)
      obtain ⟨k, val', hdivide, rfl, hnd⟩ :=
        divideOut_spec hflag hp.two_le val val le_rfl hpos hpd
      have hpos' : 0 < val' := Nat.pos_of_mul_pos_left hpos
      have hlen : rest.length < fuel := by
        simp only [List.length_append, List.length_cons] at hfuel
        omega
      have hrough' : ∀ q, q.Prime → q ∣ val' → q ≤ prLimit → q ∈ rest := by
        intro q hq hqd hql
        have hqv : q ∣ p ^ (k + 1) * val' := hqd.mul_left _
        have hmem := hrough q hq hqv hql
        simp only [List.mem_append, List.mem_cons] at hmem
        rcases hmem with hm | rfl | hm
        · exact absurd hqv (hpre q hm)
        · exact absurd hqd hnd
        · exact hm
      obtain ⟨s, c, hs, hmem, rfl, hc, hrec⟩ := ih rest val' hlen hpos' hfact.tail hrough'
      refine ⟨List.replicate (k + 1) p ++ s, c, ?_, ?_, ?_, hc, ?_⟩
      · refine List.pairwise_append.mpr ⟨List.pairwise_replicate_of_refl, hs, fun x hx y hy => ?_⟩
        obtain rfl := List.eq_of_mem_replicate hx
        have hsort := (List.pairwise_append.mp hfact.sorted).2.1
        exact ((List.pairwise_cons.mp hsort).1 y (hmem y hy)).le
      · intro x hx
        rcases List.mem_append.mp hx with hx | hx
        · obtain rfl := List.eq_of_mem_replicate hx
          simp
        · simp [hmem x hx]
      · rw [List.prod_append, List.prod_replicate, mul_assoc]
      · have hlast : (prLimit ∈ List.replicate (k + 1) p ++ s) ↔ (rest = [] ∨ prLimit ∈ s) := by
          rw [List.mem_append, List.mem_replicate, hfact.eq_last_iff]
          simp
        simp only [factorLoop, hone, if_false, hsearch, hdivide, hrec, hlast, hnil, false_or]
        split_ifs <;> simp [Except.map]
    · -- no factor in the table: the value itself is printed
      refine ⟨[], val, .nil, by simp, by simp, ?_, ?_⟩
      · intro q hq hd
        by_contra hle
        exact hall q (hrough q hq hd (by omega)) hd
      · simp [factorLoop, hone, hsearch, hnil, puts_singleton]

/-! ### The line as a whole -/

/-- `n` written as primes of the table and a cofactor without any. -/
structure Split (n : ℕ) (s : List ℕ) (c : ℕ) : Prop where
  sorted : s.Pairwise (· ≤ ·)
  prime : ∀ p ∈ s, p.Prime ∧ p ≤ prLimit
  eq : n = s.prod * c
  rough : ∀ q, q.Prime → q ∣ c → prLimit < q

theorem Split.dvd_iff {n c p : ℕ} {s : List ℕ} (h : Split n s c) (hp : p.Prime)
    (hle : p ≤ prLimit) : p ∣ n ↔ p ∈ s := by
  rw [h.eq, hp.dvd_mul]
  constructor
  · rintro (hd | hd)
    · obtain ⟨q, hq, hpq⟩ := (Prime.dvd_prod_iff hp.prime).mp hd
      rwa [(Nat.prime_dvd_prime_iff_eq hp (h.prime q hq).1).mp hpq]
    · exact absurd (h.rough p hp hd) (by omega)
  · exact fun hm => .inl (List.dvd_prod hm)

theorem Split.dvd_cofactor {n c q : ℕ} {s : List ℕ} (h : Split n s c) (hq : q.Prime)
    (hd : q ∣ n) (hlt : prLimit < q) : q ∣ c := by
  rw [h.eq, hq.dvd_mul] at hd
  refine hd.resolve_left fun hs => ?_
  obtain ⟨p, hp, hqp⟩ := (Prime.dvd_prod_iff hq.prime).mp hs
  have := Nat.le_of_dvd (h.prime p hp).1.pos hqp
  have := (h.prime p hp).2
  omega

/-- The condition in terms of the cofactor. -/
theorem Split.withinTable_iff {n c : ℕ} {s : List ℕ} (hn : 2 ≤ n) (h : Split n s c) :
    WithinTable n ↔ c = 1 ∨ (c.Prime ∧ prLimit ∉ s) := by
  have hL : prLimit.Prime := suffix_prime.prime _ (List.mem_of_getLast? prime_getLast)
  have hpos : 0 < s.prod ∧ 0 < c := by
    constructor <;> refine Nat.pos_of_ne_zero fun h0 => ?_
    · have := h.eq
      simp [h0] at this
      omega
    · have := h.eq
      simp [h0] at this
      omega
  constructor
  · intro hw
    by_cases hc : c = 1
    · exact .inl hc
    have hq : c.minFac.Prime := Nat.minFac_prime hc
    obtain ⟨m, hm⟩ := c.minFac_dvd
    have hn' : n = c.minFac * (s.prod * m) := by
      rw [h.eq]
      nth_rewrite 1 [hm]
      ring
    obtain ⟨hnd, hsmall⟩ := hw c.minFac hq ⟨_, hn'⟩ (h.rough _ hq c.minFac_dvd)
    refine .inr ⟨?_, fun hmem => hnd ((h.dvd_iff hL le_rfl).mpr hmem)⟩
    -- a second prime of the cofactor would lie beyond the table
    have hdiv : n / c.minFac = s.prod * m := by
      rw [hn', Nat.mul_div_cancel_left _ hq.pos]
    obtain rfl : m = 1 := by
      by_contra hm1
      have hr := Nat.minFac_prime hm1
      have hle := hsmall m.minFac hr (hdiv ▸ (m.minFac_dvd.mul_left s.prod))
      have hlt := h.rough m.minFac hr (hm ▸ m.minFac_dvd.mul_left c.minFac)
      omega
    rw [hm, mul_one]
    exact hq
  · intro hc q hq hd hlt
    have hqc := h.dvd_cofactor hq hd hlt
    rcases hc with rfl | ⟨hcp, hLs⟩
    · exact absurd (Nat.dvd_one.mp hqc) hq.one_lt.ne'
    obtain rfl := (Nat.prime_dvd_prime_iff_eq hq hcp).mp hqc
    refine ⟨fun hLn => hLs ((h.dvd_iff hL le_rfl).mp hLn), fun r hr hrd => ?_⟩
    rw [h.eq, Nat.mul_div_cancel _ hq.pos] at hrd
    obtain ⟨p, hp, hrp⟩ := (Prime.dvd_prod_iff hr.prime).mp hrd
    rw [(Nat.prime_dvd_prime_iff_eq hr (h.prime p hp).1).mp hrp]
    exact (h.prime p hp).2

/-- What is printed for `n`, in terms of its split. -/
theorem prFact_split (hflag : Bool) {n : ℕ} (hn : 2 ≤ n) :
    ∃ s c, Split n s c ∧
      (prFact hflag n).map afterColon =
        if c = 1 then .ok s else if prLimit ∈ s then .error .outOfTable else .ok (s ++ [c]) := by
  have hrough : ∀ q, q.Prime → q ∣ n → q ≤ prLimit → q ∈ prime := fun q hq _ hle =>
    (prime_isPrimeTable.mem_iff q).mpr ⟨hq, Nat.zero_le _, Nat.lt_succ_of_le hle⟩
  obtain ⟨s, c, hs, hmem, hprod, hc, hloop⟩ :=
    factorLoop_spec hflag (prime.length + 1) prime n (Nat.lt_succ_self _) (by omega)
      suffix_prime hrough
  refine ⟨s, c, ⟨hs, fun p hp => ?_, hprod, hc⟩, ?_⟩
  · exact ⟨suffix_prime.prime p (hmem p hp), suffix_prime.le p (hmem p hp)⟩
  · have hne : prime ≠ [] := by
      intro h0
      have := prime_getLast
      simp [h0] at this
    have h0 : n ≠ 0 := by omega
    have h1 : n ≠ 1 := by omega
    rw [prFact, if_neg h0, if_neg h1, hloop]
    by_cases hone : c = 1
    · rw [if_pos hone, if_pos hone]
      exact congrArg Except.ok (afterColon_line hflag n s)
    rw [if_neg hone, if_neg hone]
    by_cases hL : prLimit ∈ s
    · have hor : prime = [] ∨ prLimit ∈ s := .inr hL
      rw [if_pos hor, if_pos hL]
      rfl
    · have hor : ¬ (prime = [] ∨ prLimit ∈ s) := fun h => h.elim hne hL
      rw [if_neg hor, if_neg hL]
      exact congrArg Except.ok (afterColon_line hflag n (s ++ [c]))

/-- `factor` is right exactly on the numbers whose factors its table reaches. -/
theorem factorsCorrectly_iff (hflag : Bool) (n : ℕ) (hn : 2 ≤ n) :
    FactorsCorrectly hflag n ↔ WithinTable n := by
  obtain ⟨s, c, h, hout⟩ := prFact_split hflag hn
  rw [h.withinTable_iff hn]
  constructor
  · rintro ⟨out, hok, -, hprimes, -⟩
    rw [hok] at hout
    by_cases hc : c = 1
    · exact .inl hc
    rw [if_neg hc] at hout
    split_ifs at hout with hL
    · cases hout
    · have hl : afterColon out = s ++ [c] := by simpa [Except.map] using hout
      exact .inr ⟨hprimes c (by simp [hl]), hL⟩
  · intro hc
    obtain ⟨out, hok⟩ : ∃ out, prFact hflag n = .ok out := by
      cases hp : prFact hflag n with
      | ok out => exact ⟨out, rfl⟩
      | error e =>
        rw [hp] at hout
        rcases hc with hc | ⟨hc, hL⟩
        · simp [hc, Except.map] at hout
        · simp [hc.ne_one, hL, Except.map] at hout
    rw [hok] at hout
    refine ⟨out, hok, ?_⟩
    rcases hc with rfl | ⟨hc, hL⟩
    · have hl : afterColon out = s := by simpa [Except.map] using hout
      rw [hl]
      exact ⟨h.sorted, fun p hp => (h.prime p hp).1, by simpa using h.eq.symm⟩
    · have hl : afterColon out = s ++ [c] := by simpa [Except.map, hc.ne_one, hL] using hout
      rw [hl]
      refine ⟨?_, ?_, by simpa using h.eq.symm⟩
      · refine List.pairwise_append.mpr ⟨h.sorted, by simp, fun x hx y hy => ?_⟩
        obtain rfl : y = c := by simpa using hy
        have := (h.prime x hx).2
        have := h.rough y hc dvd_rfl
        omega
      · intro p hp
        rcases List.mem_append.mp hp with hp | hp
        · exact (h.prime p hp).1
        · rwa [List.mem_singleton.mp hp]

theorem factorsCorrectly_largest_below : FactorsCorrectly false (2 * 3 * 65521) := by
  refine (factorsCorrectly_iff false (2 * 3 * 65521) (by decide)).mpr fun q hq hd hlt => ?_
  rcases (Nat.Prime.dvd_mul hq).mp hd with hd | hd
  · have := Nat.le_of_dvd (by decide) hd
    simp only [prLimit] at hlt
    omega
  · have := Nat.le_of_dvd (by decide) hd
    simp only [prLimit] at hlt
    omega

/-- The product of the two smallest primes beyond the table is printed as if it were prime. -/
theorem factor_prints_semiprime :
    (prFact false (65539 * 65543)).map afterColon = .ok [65539 * 65543] ∧
      ¬ FactorsCorrectly false (65539 * 65543) := by
  have hout : (prFact false (65539 * 65543)).map afterColon = .ok [65539 * 65543] := by
    decide +kernel
  refine ⟨hout, ?_⟩
  rintro ⟨out, hok, -, hprimes, -⟩
  rw [hok] at hout
  have hl : afterColon out = [65539 * 65543] := by simpa [Except.map] using hout
  have hp := hprimes (65539 * 65543) (by simp [hl])
  exact absurd hp (Nat.not_prime_mul (by decide) (by decide))

/-! ### Reading the table -/

/-- The last entry of the table and a prime beyond it both divide `n`. -/
def PassesTable (n : ℕ) : Prop := prLimit ∣ n ∧ ∃ q, q.Prime ∧ q ∣ n ∧ prLimit < q

theorem Split.passesTable_iff {n c : ℕ} {s : List ℕ} (h : Split n s c) :
    PassesTable n ↔ c ≠ 1 ∧ prLimit ∈ s := by
  have hL : prLimit.Prime := suffix_prime.prime _ (List.mem_of_getLast? prime_getLast)
  rw [PassesTable, h.dvd_iff hL le_rfl, and_comm]
  refine and_congr_left fun _ => ?_
  constructor
  · rintro ⟨q, hq, hd, hlt⟩ rfl
    have hone := h.dvd_cofactor hq hd hlt
    exact absurd (Nat.dvd_one.mp hone) hq.one_lt.ne'
  · intro hc
    have hq := Nat.minFac_prime hc
    refine ⟨c.minFac, hq, ?_, h.rough _ hq c.minFac_dvd⟩
    rw [h.eq]
    exact c.minFac_dvd.mul_left s.prod

/-- The table is left exactly when its last entry is divided out and something else remains: `fact` is
then advanced past `pr_limit` before the next round reads through it. -/
theorem prFact_eq_outOfTable_iff (hflag : Bool) {n : ℕ} (hn : 2 ≤ n) :
    prFact hflag n = .error .outOfTable ↔ PassesTable n := by
  obtain ⟨s, c, h, hout⟩ := prFact_split hflag hn
  have hmap : prFact hflag n = .error .outOfTable ↔
      (prFact hflag n).map afterColon = .error .outOfTable := by
    cases prFact hflag n with
    | ok out => simp [Except.map]
    | error e => simp [Except.map]
  rw [hmap, hout, h.passesTable_iff]
  by_cases hc : c = 1
  · simp [hc]
  · by_cases hL : prLimit ∈ s
    · simp [hc, hL]
    · simp [hc, hL]

/-- Every read of `*fact` is in the table unless its last entry and a prime beyond it divide `n`. -/
theorem prFact_inside_table_iff (hflag : Bool) (n : ℕ) (hn : 2 ≤ n) :
    prFact hflag n ≠ .error .outOfTable ↔ ¬ (prLimit ∣ n ∧ ∃ q, q.Prime ∧ q ∣ n ∧ prLimit < q) :=
  not_congr (prFact_eq_outOfTable_iff hflag hn)

theorem prFact_inside_table_last : prFact false (65537 * 65537) ≠ .error .outOfTable := by
  refine (prFact_inside_table_iff false (65537 * 65537) (by decide)).mpr ?_
  rintro ⟨-, q, hq, hd, hlt⟩
  have hle : q ≤ 65537 := by
    rcases (Nat.Prime.dvd_mul hq).mp hd with hd | hd <;> exact Nat.le_of_dvd (by decide) hd
  exact absurd hlt (Nat.not_lt.mpr hle)

/-- The last entry of the table times the next prime. -/
theorem prFact_leaves_table : 65537 * 65539 < 2 ^ 64 ∧ prFact false (65537 * 65539) = .error .outOfTable := by
  refine ⟨by decide, (prFact_eq_outOfTable_iff false (by decide)).mpr ⟨Nat.dvd_mul_right _ _, 65539, ?_⟩⟩
  exact ⟨by norm_num, Nat.dvd_mul_left _ _, by decide⟩

end BsdAdditions.Factor
