import BsdAdditions.Common.Numerals

/-! `convert_str2bn` of `factor`, as built without OpenSSL, and the numbers its manual documents. -/
namespace BsdAdditions.Factor
open Common

/-- How `convert_str2bn` exits; the second message prints what it has not passed of the string. -/
inductive Refusal where
  | negative
  | format (p : List UInt8)
  deriving DecidableEq

/-- The number that `strtoul` returns, unless it sets `errno`. -/
def bn2bn (base : ℕ) (str : List UInt8) : Option ℕ :=
  if (strtoul base str).2 then none else some (strtoul base str).1

def bnDec2bn : List UInt8 → Option ℕ := bn2bn 10

def bnHex2bn : List UInt8 → Option ℕ := bn2bn 16

/-- The loop of `is_hex_str`. -/
def scanHex (sawHex : Bool) : List UInt8 → Bool
  | [] => sawHex
  | c :: rest =>
    if isDigit c then scanHex sawHex rest
    else if 97 ≤ toLower c && toLower c ≤ 102 then scanHex true rest
    else sawHex

def isHexStr (str : List UInt8) : Bool := scanHex false str

/-- `if (*p == '+') p++`. -/
def skipPlus (p : List UInt8) : List UInt8 := if p.head? = some 43 then p.tail else p

/-- `if (n == 0) errx(…)`. -/
def orIllegal (n : Option ℕ) (p : List UInt8) : Except Refusal ℕ := n.elim (.error (.format p)) .ok

def convertStr2bn (s : List UInt8) : Except Refusal ℕ :=
  let p := skipPlus s
  if p.head? = some 45 then .error .negative
  else if p.head? = some 48 then
    let p := p.tail
    if p.head? = some 120 ∨ p.head? = some 88 then orIllegal (bnHex2bn p.tail) p.tail
    else .error (.format p)
  else orIllegal (if isHexStr p then bnHex2bn p else bnDec2bn p) p

/-! ### The documented numbers -/

/-- The string is an optional plus sign, the mark, the digits, and a rest that starts with no digit. -/
def Spells (mark d s : List UInt8) : Prop :=
  ∃ sign rest, s = sign ++ (mark ++ (d ++ rest)) ∧ (sign = [] ∨ sign = [43]) ∧ d ≠ [] ∧
    d.all isHexDigit ∧ rest.head?.all (!isHexDigit ·)

def IsMark (mark : List UInt8) : Prop := mark = [48, 120] ∨ mark = [48, 88]

/-- Without a mark decimal digits are read in base 10. -/
def baseOf (d : List UInt8) : ℕ := if d.all isDigit then 10 else 16

/-- The number that a string documents; a mark in front of digits is not read as a digit. -/
inductive Documents (s : List UInt8) : ℕ → Prop where
  | marked {mark d} : IsMark mark → Spells mark d s → Documents s (digitsValue 16 d)
  | plain {d} : (∀ mark d', IsMark mark → ¬ Spells mark d' s) → Spells [] d s →
      Documents s (digitsValue (baseOf d) d)

/-- A documented number is stored if 64 bits hold it; everything else is an error. -/
structure Converts (s : List UInt8) : Prop where
  stores : ∀ n, Documents s n → n < 2 ^ 64 → convertStr2bn s = .ok n
  tooLarge : ∀ n, Documents s n → 2 ^ 64 ≤ n → ∃ e, convertStr2bn s = .error e
  others : (∀ n, ¬ Documents s n) → ∃ e, convertStr2bn s = .error e

/-- The number documented behind the plus sign. -/
def documented (p : List UInt8) : Option ℕ :=
  if skipMark p ≠ p then some (digitsValue 16 ((skipMark p).takeWhile isHexDigit))
  else if p.takeWhile isHexDigit = [] then none
  else some (digitsValue (baseOf (p.takeWhile isHexDigit)) (p.takeWhile isHexDigit))

section Documented
variable {s p t d mark : List UInt8} {n : ℕ}

theorem skipPlus_eq_iff : skipPlus s = p ↔ s = 43 :: p ∨ (s = p ∧ p.head? ≠ some 43) := by
  unfold skipPlus
  cases s with
  | nil => grind
  | cons c s => grind

theorem spells_iff (hmark : mark.head? ≠ some 43) : Spells mark d s ↔
    ∃ t, skipPlus s = mark ++ t ∧ t.takeWhile isHexDigit = d ∧ d ≠ [] := by
  have hplus : isHexDigit 43 = false := by decide
  constructor
  · rintro ⟨sign, rest, rfl, hsign, hne, hd, hrest⟩
    refine ⟨d ++ rest, ?_, takeWhile_eq_iff.mpr ⟨rest, rfl, hd, hrest⟩, hne⟩
    rw [skipPlus_eq_iff]
    rcases hsign with rfl | rfl
    · refine .inr ⟨rfl, ?_⟩
      -- neither a mark nor a digit is a plus sign
      cases mark with
      | cons a mark => exact hmark
      | nil => cases d <;> grind
    · exact .inl rfl
  · rintro ⟨t, hs, ht, hne⟩
    obtain ⟨rest, rfl, hd, hrest⟩ := takeWhile_eq_iff.mp ht
    rcases skipPlus_eq_iff.mp hs with rfl | ⟨rfl, -⟩
    · exact ⟨[43], rest, rfl, .inr rfl, hne, hd, hrest⟩
    · exact ⟨[], rest, rfl, .inl rfl, hne, hd, hrest⟩

theorem takeWhile_ne_nil_iff : t.takeWhile isHexDigit ≠ [] ↔ t.head?.any isHexDigit := by
  cases t with
  | nil => simp
  | cons c t => cases h : isHexDigit c <;> simp [h]

theorem skipMark_append (hmark : IsMark mark) (ht : t.takeWhile isHexDigit ≠ []) :
    skipMark (mark ++ t) = t := by
  have hstrip : stripWord [48, 120] (mark ++ t) = some t := by
    rw [stripWord_mark_eq_some_iff]
    rcases hmark with rfl | rfl
    · exact .inl rfl
    · exact .inr rfl
  rw [skipMark, hstrip]
  exact if_pos (takeWhile_ne_nil_iff.mp ht)

/-- Either there is no mark in front of digits, or this is it. -/
theorem skipMark_cases (p : List UInt8) : skipMark p = p ∨
    ∃ mark, IsMark mark ∧ p = mark ++ skipMark p ∧ (skipMark p).takeWhile isHexDigit ≠ [] := by
  unfold skipMark
  split
  · next rest hrest =>
    split
    · next hdigit =>
      right
      rcases stripWord_mark_eq_some_iff.mp hrest with rfl | rfl
      · exact ⟨[48, 120], .inl rfl, rfl, takeWhile_ne_nil_iff.mpr hdigit⟩
      · exact ⟨[48, 88], .inr rfl, rfl, takeWhile_ne_nil_iff.mpr hdigit⟩
    · exact .inl rfl
  · exact .inl rfl

theorem IsMark.append_ne (hmark : IsMark mark) : t ≠ mark ++ t := by
  intro h
  have hlen := congrArg List.length h
  rcases hmark with rfl | rfl <;>
    · simp only [List.length_append, List.length_cons] at hlen
      omega

theorem IsMark.head?_ne (hmark : IsMark mark) : mark.head? ≠ some 43 := by
  rcases hmark with rfl | rfl <;> decide

/-- The two scans of `documented` find the number. -/
theorem documents_iff : Documents s n ↔ documented (skipPlus s) = some n := by
  unfold documented
  constructor
  · intro h
    cases h with
    | @marked mark d hmark hs =>
      obtain ⟨t, hp, rfl, ht⟩ := (spells_iff hmark.head?_ne).mp hs
      rw [hp, skipMark_append hmark ht, if_pos hmark.append_ne]
    | @plain d hno hs =>
      obtain ⟨t, hp, rfl, ht⟩ := (spells_iff (by decide)).mp hs
      rw [List.nil_append] at hp
      have hskip : skipMark t = t := by
        rcases skipMark_cases t with h | ⟨mark, hmark, h, hdigits⟩
        · exact h
        · exact absurd ((spells_iff hmark.head?_ne).mpr ⟨_, hp.trans h, rfl, hdigits⟩) (hno mark _ hmark)
      rw [hp, if_neg (not_not.mpr hskip), if_neg ht]
  · intro h
    rcases skipMark_cases (skipPlus s) with hskip | ⟨mark, hmark, hp, hdigits⟩
    · rw [if_neg (not_not.mpr hskip)] at h
      split at h
      · cases h
      · next hdigits =>
        cases h
        apply Documents.plain
        · intro mark d hmark hs
          obtain ⟨t, hp, rfl, ht⟩ := (spells_iff hmark.head?_ne).mp hs
          rw [hp, skipMark_append hmark ht] at hskip
          exact hmark.append_ne hskip
        · exact (spells_iff (by decide)).mpr ⟨_, rfl, rfl, hdigits⟩
    · have hne : skipMark (skipPlus s) ≠ skipPlus s := by
        intro h
        exact hmark.append_ne (h.trans hp)
      rw [if_pos hne] at h
      cases h
      exact .marked hmark ((spells_iff hmark.head?_ne).mpr ⟨_, hp, rfl, hdigits⟩)

theorem converts_iff : Converts s ↔
    (convertStr2bn s).toOption = (documented (skipPlus s)).filter (· < 2 ^ 64) := by
  have herror : (∃ e, convertStr2bn s = .error e) ↔ (convertStr2bn s).toOption = none := by
    cases convertStr2bn s <;> simp [Except.toOption]
  have hok : ∀ n, convertStr2bn s = .ok n ↔ (convertStr2bn s).toOption = some n := by
    cases convertStr2bn s <;> simp [Except.toOption]
  constructor
  · intro h
    cases hd : documented (skipPlus s) with
    | none =>
      apply herror.mp
      apply h.others
      intro n hn
      rw [documents_iff, hd] at hn
      cases hn
    | some n =>
      by_cases hn : n < 2 ^ 64
      · rw [Option.filter_some_pos (by simpa using hn)]
        exact (hok n).mp (h.stores n (documents_iff.mpr hd) hn)
      · rw [Option.filter_some_neg (by simpa using hn)]
        exact herror.mp (h.tooLarge n (documents_iff.mpr hd) (Nat.le_of_not_lt hn))
  · intro h
    constructor
    · intro n hn hlt
      rw [documents_iff.mp hn, Option.filter_some_pos (by simpa using hlt)] at h
      exact (hok n).mpr h
    · intro n hn hle
      rw [documents_iff.mp hn, Option.filter_some_neg (by simpa using hle)] at h
      exact herror.mpr h
    · intro hno
      have hnone : documented (skipPlus s) = none := by
        cases hd : documented (skipPlus s) with
        | none => rfl
        | some n => exact absurd (documents_iff.mpr hd) (hno n)
      rw [hnone] at h
      exact herror.mpr h

end Documented

/-! ### Where the scanners agree -/

/-- Behind `0x` there are digits without a second mark, or `strtoul` reads zero; a zero without `x`
is followed by too large a number; where neither a digit nor a minus sign is, `strtoul` reads too
large a number behind blanks and a sign. -/
def ScannersAgree (p : List UInt8) : Prop :=
  match stripWord [48, 120] p with
  | some t => (t.head?.any isHexDigit ∧ skipMark t = t) ∨ magnitude 16 t = 0
  | none =>
    match p with
    | [] => False
    | c :: _ =>
      if c = 48 then 2 ^ 64 ≤ digitsValue (baseOf (p.takeWhile isHexDigit)) (p.takeWhile isHexDigit)
      else c = 45 ∨ isHexDigit c ∨ 2 ^ 64 ≤ magnitude 10 p

section Scanners
variable {s p t : List UInt8} {c : UInt8} {base : ℕ}

theorem bn2bn_eq_none_iff : bn2bn base t = none ↔ 2 ^ 64 ≤ magnitude base t := by
  unfold bn2bn strtoul
  split_ifs <;> simp_all

theorem bn2bn_eq_zero_iff : bn2bn base t = some 0 ↔ magnitude base t = 0 := by
  unfold bn2bn strtoul
  split_ifs <;> simp_all <;> omega

/-- At a digit `strtoul` reads the digits that it finds there. -/
theorem bn2bn_of_isHexDigit (hc : isHexDigit c) : bn2bn base (c :: t) =
    (some (digitsValue base (integerDigits base (c :: t)))).filter (· < 2 ^ 64) := by
  unfold bn2bn strtoul magnitude
  rw [takeSign_dropWhile_of_isHexDigit hc]
  by_cases hn : 2 ^ 64 ≤ digitsValue base (integerDigits base (c :: t))
  · rw [if_pos hn, Option.filter_some_neg (by simpa using hn)]
    rfl
  · rw [if_neg hn, Option.filter_some_pos (by simpa using hn)]
    rfl

theorem scanHex_eq (sawHex : Bool) : scanHex sawHex p = (sawHex || !(p.takeWhile isHexDigit).all isDigit) := by
  induction p generalizing sawHex with
  | nil => simp [scanHex]
  | cons c p ih =>
    have hhex : isHexDigit c = (isDigit c || (97 ≤ toLower c && toLower c ≤ 102)) := rfl
    rw [scanHex, ih, ih, List.takeWhile_cons, hhex]
    generalize (decide (97 ≤ toLower c) && decide (toLower c ≤ 102)) = letter
    cases hd : isDigit c with
    | true => simp [hd]
    | false => cases letter <;> simp [hd]

/-- The base that `is_hex_str` chooses. -/
theorem choose_base : (if isHexStr p then bnHex2bn p else bnDec2bn p) =
    bn2bn (baseOf (p.takeWhile isHexDigit)) p := by
  unfold isHexStr baseOf
  rw [scanHex_eq]
  cases (p.takeWhile isHexDigit).all isDigit <;> rfl

theorem toOption_orIllegal : (orIllegal (bn2bn base t) p).toOption = bn2bn base t := by
  cases bn2bn base t <;> rfl

/-- In that base `strtoul` reads all the digits, unless it finds a mark. -/
theorem integerDigits_baseOf (hskip : skipMark p = p) :
    integerDigits (baseOf (p.takeWhile isHexDigit)) p = p.takeWhile isHexDigit := by
  unfold integerDigits baseOf
  split_ifs with hall h16 h16
  · cases h16
  · obtain ⟨rest, hp, -, hrest⟩ := takeWhile_eq_iff.mp (rfl : p.takeWhile isHexDigit = _)
    refine takeWhile_eq_iff.mpr ⟨rest, hp, hall, ?_⟩
    cases rest with
    | nil => rfl
    | cons c rest =>
      have hc : isHexDigit c = false := by simpa using hrest
      have hd : isDigit c = false := (Bool.or_eq_false_iff.mp hc).1
      simp [hd]
  · rw [hskip]
  · exact absurd rfl h16

/-! ### The strings by how they start -/

theorem toOption_of_mark (hs : stripWord [48, 120] (skipPlus s) = some t) :
    (convertStr2bn s).toOption = bn2bn 16 t := by
  unfold convertStr2bn
  rcases stripWord_mark_eq_some_iff.mp hs with h | h <;>
    · simp only [h]
      exact toOption_orIllegal

theorem documented_of_mark (hp : stripWord [48, 120] p = some t) : documented p =
    some (if t.head?.any isHexDigit then digitsValue 16 (t.takeWhile isHexDigit) else 0) := by
  have hmark : IsMark (p.take 2) ∧ p = p.take 2 ++ t ∧ p.takeWhile isHexDigit = [48] := by
    rcases stripWord_mark_eq_some_iff.mp hp with rfl | rfl
    · exact ⟨.inl rfl, rfl, rfl⟩
    · exact ⟨.inr rfl, rfl, rfl⟩
  obtain ⟨hmark, happ, hzero⟩ := hmark
  unfold documented skipMark
  simp only [hp, hzero]
  split
  · next ht => rw [if_pos (fun h => hmark.append_ne (h.trans happ))]
  · next ht => simp [digitsValue, digitValue, show isDigit 48 = true by decide]

/-- The zero is passed before the `x` is looked for. -/
theorem convertStr2bn_of_zero (hs : skipPlus s = 48 :: t) (hno : stripWord [48, 120] (skipPlus s) = none) :
    convertStr2bn s = .error (.format t) := by
  have hx : ¬ (t.head? = some 120 ∨ t.head? = some 88) := by
    intro h
    cases t with
    | nil => simp at h
    | cons x u =>
      have hsome : stripWord [48, 120] (skipPlus s) = some u := by
        rw [stripWord_mark_eq_some_iff, hs]
        simpa using h
      rw [hsome] at hno
      cases hno
  unfold convertStr2bn
  simp [hs, hx]

theorem toOption_of_other (h45 : (skipPlus s).head? ≠ some 45) (h48 : (skipPlus s).head? ≠ some 48) :
    (convertStr2bn s).toOption =
      bn2bn (baseOf ((skipPlus s).takeWhile isHexDigit)) (skipPlus s) := by
  unfold convertStr2bn
  simp only [if_neg h45, if_neg h48, choose_base]
  exact toOption_orIllegal

theorem agree_of_mark (hs : stripWord [48, 120] (skipPlus s) = some t) :
    (convertStr2bn s).toOption = (documented (skipPlus s)).filter (· < 2 ^ 64) ↔
      (t.head?.any isHexDigit ∧ skipMark t = t) ∨ magnitude 16 t = 0 := by
  rw [toOption_of_mark hs, documented_of_mark hs]
  by_cases ht : t.head?.any isHexDigit
  · obtain ⟨c, u, rfl⟩ : ∃ c u, t = c :: u := by
      cases t with
      | nil => cases ht
      | cons c u => exact ⟨c, u, rfl⟩
    have hc : isHexDigit c := by simpa using ht
    simp only [ht, if_true, true_and]
    by_cases hskip : skipMark (c :: u) = c :: u
    · have hdigits : integerDigits 16 (c :: u) = (c :: u).takeWhile isHexDigit := by
        rw [integerDigits, if_pos rfl, hskip]
      rw [bn2bn_of_isHexDigit hc, hdigits]
      exact iff_of_true rfl (.inl hskip)
    · rw [takeWhile_of_skipMark_ne hskip]
      exact bn2bn_eq_zero_iff.trans (or_iff_right hskip).symm
  · simp only [ht, Bool.false_eq_true, if_false, false_and, false_or]
    exact bn2bn_eq_zero_iff

theorem skipMark_of_none (hp : stripWord [48, 120] p = none) : skipMark p = p := by
  rw [skipMark, hp]

theorem documented_of_none (hp : stripWord [48, 120] p = none) (hne : p.takeWhile isHexDigit ≠ []) :
    documented p = some (digitsValue (baseOf (p.takeWhile isHexDigit)) (p.takeWhile isHexDigit)) := by
  rw [documented, if_neg (not_not.mpr (skipMark_of_none hp)), if_neg hne]

theorem documented_of_nil (hp : stripWord [48, 120] p = none) (hnil : p.takeWhile isHexDigit = []) :
    documented p = none := by
  rw [documented, if_neg (not_not.mpr (skipMark_of_none hp)), if_pos hnil]

/-- What is not a number is refused where it is too large a one for `strtoul`. -/
theorem agree_of_nil (hno : stripWord [48, 120] (skipPlus s) = none)
    (hnil : (skipPlus s).takeWhile isHexDigit = []) (h45 : (skipPlus s).head? ≠ some 45) :
    (convertStr2bn s).toOption = (documented (skipPlus s)).filter (· < 2 ^ 64) ↔
      2 ^ 64 ≤ magnitude 10 (skipPlus s) := by
  have h48 : (skipPlus s).head? ≠ some 48 := by
    intro h
    apply takeWhile_ne_nil_iff.mpr _ hnil
    rw [h]
    decide
  rw [toOption_of_other h45 h48, documented_of_nil hno hnil, hnil]
  exact bn2bn_eq_none_iff

theorem agree_of_zero (hs : skipPlus s = 48 :: t) (hno : stripWord [48, 120] (skipPlus s) = none) :
    (convertStr2bn s).toOption = (documented (skipPlus s)).filter (· < 2 ^ 64) ↔
      2 ^ 64 ≤ digitsValue (baseOf ((skipPlus s).takeWhile isHexDigit))
        ((skipPlus s).takeWhile isHexDigit) := by
  have hne : (skipPlus s).takeWhile isHexDigit ≠ [] := by
    rw [takeWhile_ne_nil_iff, hs]
    exact (by decide : isHexDigit 48)
  rw [convertStr2bn_of_zero hs hno, documented_of_none hno hne]
  generalize digitsValue _ _ = n
  by_cases hn : n < 2 ^ 64
  · rw [Option.filter_some_pos (by simpa using hn)]
    exact iff_of_false nofun (Nat.not_le.mpr hn)
  · rw [Option.filter_some_neg (by simpa using hn)]
    exact iff_of_true rfl (Nat.le_of_not_lt hn)

theorem agree_of_digit (hs : skipPlus s = c :: t) (hc : isHexDigit c) (h48 : c ≠ 48) :
    (convertStr2bn s).toOption = (documented (skipPlus s)).filter (· < 2 ^ 64) := by
  have hno : stripWord [48, 120] (skipPlus s) = none := by
    simp [hs, stripWord, toLower_eq_zero_digit_iff, h48]
  have hne : (skipPlus s).takeWhile isHexDigit ≠ [] := by
    rw [takeWhile_ne_nil_iff, hs]
    exact hc
  have h45 : c ≠ 45 := by
    rintro rfl
    exact absurd hc (by decide)
  rw [toOption_of_other (by simpa [hs] using h45) (by simpa [hs] using h48), documented_of_none hno hne]
  have hdigits := integerDigits_baseOf (skipMark_of_none hno)
  rw [hs] at hdigits ⊢
  rw [bn2bn_of_isHexDigit hc, hdigits]

end Scanners

/-- The strings of which `convert_str2bn` makes what the manual says. -/
theorem converts_iff_scannersAgree (s : List UInt8) : Converts s ↔ ScannersAgree (skipPlus s) := by
  rw [converts_iff]
  unfold ScannersAgree
  split
  · next t hs => exact agree_of_mark hs
  · next hno =>
    split
    · next hp =>
      have hsmall : ¬ 2 ^ 64 ≤ magnitude 10 [] := by decide
      rw [agree_of_nil hno (by rw [hp]; rfl) (by rw [hp]; decide), hp]
      exact iff_false_intro hsmall
    · next c t hp =>
      split_ifs with h48
      · subst h48
        exact agree_of_zero hp hno
      · by_cases hc : isHexDigit c
        · exact iff_of_true (agree_of_digit hp hc h48) (.inr (.inl hc))
        · have hnil : (skipPlus s).takeWhile isHexDigit = [] := by simp [hp, hc]
          by_cases h45 : c = 45
          · -- both refuse a minus sign
            have hneg : convertStr2bn s = .error .negative := by simp [convertStr2bn, hp, h45]
            rw [hneg, documented_of_nil hno hnil]
            exact iff_of_true rfl (.inl h45)
          · rw [agree_of_nil hno hnil (by simpa [hp] using h45), hp]
            simp [h45, hc]

/-- `012` is refused, and behind a blank the minus sign of ` -5` is read. -/
theorem leading_zero_refused : convertStr2bn [48, 49, 50] = .error (.format [49, 50]) ∧
    Documents [48, 49, 50] 12 ∧ ¬ Converts [48, 49, 50] ∧
    convertStr2bn [32, 45, 53] = .ok (2 ^ 64 - 5) ∧ ¬ Converts [32, 45, 53] := by
  have h12 : Documents [48, 49, 50] 12 := documents_iff.mpr (by decide)
  refine ⟨by decide, h12, ?_, by decide, ?_⟩
  · intro h
    have hok := h.stores 12 h12 (by decide)
    exact absurd hok (by decide)
  · intro h
    have hagree := converts_iff.mp h
    exact absurd hagree (by decide)

end BsdAdditions.Factor
