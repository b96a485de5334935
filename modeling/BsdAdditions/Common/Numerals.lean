import Mathlib.Algebra.Order.Field.Rat
import Mathlib.Algebra.Ring.Rat

/-! The numerals that the C library reads, in the C locale: what of a string `strtod` and `strtoul`
take for a number, and which one. -/
namespace BsdAdditions.Common

def isSpace (b : UInt8) : Bool := b == 32 || (9 ≤ b && b ≤ 13)

def isDigit (b : UInt8) : Bool := 48 ≤ b && b ≤ 57

def toLower (b : UInt8) : UInt8 := if 65 ≤ b ∧ b ≤ 90 then b + 32 else b

def isHexDigit (b : UInt8) : Bool := isDigit b || (97 ≤ toLower b && toLower b ≤ 102)

def digitValue (b : UInt8) : ℕ := if isDigit b then (b - 48).toNat else (toLower b - 87).toNat

/-- The value of a run of digits. -/
def digitsValue (base : ℕ) (ds : List UInt8) : ℕ := ds.foldl (fun n d => base * n + digitValue d) 0

/-- An optional sign, and whether it is a minus. -/
def takeSign : List UInt8 → Bool × List UInt8
  | [] => (false, [])
  | c :: text => if c = 45 then (true, text) else if c = 43 then (false, text) else (false, c :: text)

/-- What follows the word, in whatever case the text has it. -/
def stripWord : List UInt8 → List UInt8 → Option (List UInt8)
  | [], text => some text
  | _ :: _, [] => none
  | w :: word, c :: text => if toLower c = w then stripWord word text else none

/-! ### Real numbers -/

/-- A value of type `double`, its finite ones exact. -/
inductive Number where
  | finite (q : ℚ)
  | infinite (negative : Bool)
  | nan
  deriving DecidableEq

def Number.neg : Number → Number
  | .finite q => .finite (-q)
  | .infinite negative => .infinite (!negative)
  | .nan => .nan

/-- Digits with an optional point among them. -/
def mantissa (isDigit : UInt8 → Bool) (base : ℕ) (text : List UInt8) : Option (ℚ × List UInt8) :=
  let whole := text.takeWhile isDigit
  match text.dropWhile isDigit with
  | [] => if whole = [] then none else some (digitsValue base whole, [])
  | c :: rest =>
    if c = 46 then
      let fraction := rest.takeWhile isDigit
      if whole ++ fraction = [] then none
      else some (digitsValue base (whole ++ fraction) / (base : ℚ) ^ fraction.length, rest.dropWhile isDigit)
    else if whole = [] then none
    else some (digitsValue base whole, c :: rest)

/-- An optional exponent; without digits it is none. -/
def exponent (mark : UInt8) : List UInt8 → ℤ × List UInt8
  | [] => (0, [])
  | c :: text =>
    if toLower c = mark then
      let signed := takeSign text
      let ds := signed.2.takeWhile isDigit
      if ds = [] then (0, c :: text)
      else (if signed.1 then -digitsValue 10 ds else digitsValue 10 ds, signed.2.dropWhile isDigit)
    else (0, c :: text)

/-- A numeral with a mantissa in one base and an exponent to another. -/
def numeral (isDigit : UInt8 → Bool) (base : ℕ) (mark : UInt8) (radix : ℚ) (text : List UInt8) :
    Option (Number × List UInt8) :=
  (mantissa isDigit base text).map fun m =>
    let e := exponent mark m.2
    (.finite (m.1 * radix ^ e.1), e.2)

def isWordByte (b : UInt8) : Bool := isDigit b || b == 95 || (97 ≤ toLower b && toLower b ≤ 122)

/-- What may follow `nan` in parentheses. -/
def afterNan : List UInt8 → List UInt8
  | [] => []
  | c :: text =>
    if c = 40 then
      match text.dropWhile isWordByte with
      | [] => c :: text
      | d :: rest => if d = 41 then rest else c :: text
    else c :: text

/-- A number without its sign. -/
def unsignedNumber (text : List UInt8) : Option (Number × List UInt8) :=
  match stripWord [105, 110, 102] text with
  | some rest => some (.infinite false, (stripWord [105, 110, 105, 116, 121] rest).getD rest)
  | none =>
    match stripWord [110, 97, 110] text with
    | some rest => some (.nan, afterNan rest)
    | none =>
      match (stripWord [48, 120] text).bind (numeral isHexDigit 16 112 2) with
      | some r => some r
      | none => numeral isDigit 10 101 10 text

/-- The number at the start of the string and what is behind it, if there is one. -/
def strtod (text : List UInt8) : Option (Number × List UInt8) :=
  let signed := takeSign (text.dropWhile isSpace)
  (unsignedNumber signed.2).map fun r => (if signed.1 then r.1.neg else r.1, r.2)

/-! ### Unsigned integers -/

/-- Behind an `0x` that digits follow. -/
def skipMark (text : List UInt8) : List UInt8 :=
  match stripWord [48, 120] text with
  | some rest => if rest.head?.any isHexDigit then rest else text
  | none => text

/-- The digits of an integer in base 10 or 16, behind its sign. -/
def integerDigits (base : ℕ) (text : List UInt8) : List UInt8 :=
  if base = 16 then (skipMark text).takeWhile isHexDigit else text.takeWhile isDigit

/-- The integer that `strtoul` reads in base 10 or 16, without its sign; no digits are read as zero. -/
def magnitude (base : ℕ) (text : List UInt8) : ℕ :=
  digitsValue base (integerDigits base (takeSign (text.dropWhile isSpace)).2)

/-- What `strtoul` returns in base 10 or 16, and whether it sets `errno`; a minus sign negates in the
64 bits of an `unsigned long`. -/
def strtoul (base : ℕ) (text : List UInt8) : ℕ × Bool :=
  if 2 ^ 64 ≤ magnitude base text then (2 ^ 64 - 1, true)
  else if (takeSign (text.dropWhile isSpace)).1 then ((2 ^ 64 - magnitude base text) % 2 ^ 64, false)
  else (magnitude base text, false)

section Integers
variable {text d : List UInt8} {base : ℕ} {c : UInt8}

theorem toLower_eq_zero_digit_iff : toLower c = 48 ↔ c = 48 := by
  unfold toLower
  grind

theorem toLower_eq_x_iff : toLower c = 120 ↔ c = 120 ∨ c = 88 := by
  unfold toLower
  grind

theorem stripWord_mark_eq_some_iff : stripWord [48, 120] text = some d ↔
    text = 48 :: 120 :: d ∨ text = 48 :: 88 :: d := by
  match text with
  | [] => simp [stripWord]
  | [a] =>
    simp only [stripWord]
    split <;> simp
  | a :: b :: rest =>
    simp only [stripWord, toLower_eq_zero_digit_iff, toLower_eq_x_iff]
    grind

/-- A maximal run of bytes. -/
theorem takeWhile_eq_iff {p : UInt8 → Bool} : text.takeWhile p = d ↔
    ∃ rest, text = d ++ rest ∧ d.all p ∧ rest.head?.all (!p ·) := by
  constructor
  · rintro rfl
    refine ⟨text.dropWhile p, List.takeWhile_append_dropWhile.symm, List.all_takeWhile, ?_⟩
    have hhead := List.head?_dropWhile_not p text
    cases h : (text.dropWhile p).head? with
    | none => rfl
    | some b => simpa [h] using hhead
  · rintro ⟨rest, rfl, hd, hrest⟩
    rw [List.takeWhile_append_of_pos (List.all_eq_true.mp hd)]
    cases rest with
    | nil => simp
    | cons b rest => simp_all

/-- In front of such a mark there is the digit zero and no other. -/
theorem takeWhile_of_skipMark_ne (h : skipMark text ≠ text) : text.takeWhile isHexDigit = [48] := by
  unfold skipMark at h
  split at h
  · next rest hrest =>
    rcases stripWord_mark_eq_some_iff.mp hrest with rfl | rfl
    · simp [show isHexDigit 48 = true by decide, show isHexDigit 120 = false by decide]
    · simp [show isHexDigit 48 = true by decide, show isHexDigit 88 = false by decide]
  · exact absurd rfl h

theorem isSpace_of_isHexDigit (h : isHexDigit c) : isSpace c = false := by
  unfold isHexDigit isDigit toLower at h
  unfold isSpace
  grind

theorem takeSign_of_isHexDigit (h : isHexDigit c) : takeSign (c :: text) = (false, c :: text) := by
  have h45 : c ≠ 45 := by
    rintro rfl
    exact absurd h (by decide)
  have h43 : c ≠ 43 := by
    rintro rfl
    exact absurd h (by decide)
  rw [takeSign, if_neg h45, if_neg h43]

/-- At a digit there are neither blanks nor a sign. -/
theorem takeSign_dropWhile_of_isHexDigit (h : isHexDigit c) :
    takeSign ((c :: text).dropWhile isSpace) = (false, c :: text) := by
  rw [List.dropWhile_cons_of_neg (by simp [isSpace_of_isHexDigit h]), takeSign_of_isHexDigit h]

end Integers

/-! ### A byte that no numeral goes on with -/

section Inert
variable {text : List UInt8} {p : UInt8 → Bool} {s : UInt8}

theorem takeWhile_concat (hp : p s = false) : (text ++ [s]).takeWhile p = text.takeWhile p := by
  induction text with
  | nil => simp [hp]
  | cons c text ih =>
    rw [List.cons_append, List.takeWhile_cons, List.takeWhile_cons, ih]

theorem dropWhile_concat (hp : p s = false) : (text ++ [s]).dropWhile p = text.dropWhile p ++ [s] := by
  induction text with
  | nil => simp [hp]
  | cons c text ih =>
    rw [List.cons_append, List.dropWhile_cons, List.dropWhile_cons, ih]
    split <;> rfl

theorem takeSign_concat (h1 : s ≠ 45) (h2 : s ≠ 43) :
    takeSign (text ++ [s]) = ((takeSign text).1, (takeSign text).2 ++ [s]) := by
  cases text with
  | nil => simp [takeSign, h1, h2]
  | cons c text =>
    rw [List.cons_append, takeSign, takeSign]
    split
    · rfl
    · split <;> rfl

theorem stripWord_concat {word : List UInt8} (h : toLower s ∉ word) :
    stripWord word (text ++ [s]) = (stripWord word text).map (· ++ [s]) := by
  induction word generalizing text with
  | nil => rfl
  | cons w word ih =>
    have hw : toLower s ≠ w := List.ne_of_not_mem_cons h
    cases text with
    | nil => simp [stripWord, hw]
    | cons c text =>
      rw [List.cons_append, stripWord, stripWord, ih (List.not_mem_of_not_mem_cons h)]
      split <;> rfl

theorem mantissa_concat {base : ℕ} (hp : p s = false) (hpoint : s ≠ 46) :
    mantissa p base (text ++ [s]) = (mantissa p base text).map fun m => (m.1, m.2 ++ [s]) := by
  unfold mantissa
  rw [takeWhile_concat hp, dropWhile_concat hp]
  cases text.dropWhile p with
  | nil =>
    simp only [List.nil_append, if_neg hpoint]
    split <;> rfl
  | cons c rest =>
    simp only [List.cons_append, takeWhile_concat hp, dropWhile_concat hp]
    split
    · split <;> rfl
    · split <;> rfl

theorem exponent_concat {mark : UInt8} (hmark : toLower s ≠ mark) (hd : isDigit s = false) (h1 : s ≠ 45)
    (h2 : s ≠ 43) : exponent mark (text ++ [s]) = ((exponent mark text).1, (exponent mark text).2 ++ [s]) := by
  cases text with
  | nil => simp [exponent, hmark]
  | cons c text =>
    rw [List.cons_append, exponent, exponent, takeSign_concat h1 h2]
    simp only [takeWhile_concat hd, dropWhile_concat hd]
    split
    · split <;> rfl
    · rfl

theorem numeral_concat {base : ℕ} {mark : UInt8} {radix : ℚ} (hp : p s = false) (hpoint : s ≠ 46)
    (hmark : toLower s ≠ mark) (hd : isDigit s = false) (h1 : s ≠ 45) (h2 : s ≠ 43) :
    numeral p base mark radix (text ++ [s]) =
      (numeral p base mark radix text).map fun r => (r.1, r.2 ++ [s]) := by
  rw [numeral, numeral, mantissa_concat hp hpoint, Option.map_map, Option.map_map]
  congr 1
  funext m
  simp only [Function.comp_apply, exponent_concat hmark hd h1 h2]

theorem afterNan_concat (hopen : s ≠ 40) (hclose : s ≠ 41) : afterNan (text ++ [s]) = afterNan text ++ [s] := by
  cases text with
  | nil => simp [afterNan, hopen]
  | cons c text =>
    rw [List.cons_append, afterNan, afterNan, List.dropWhile_append]
    split
    · cases text.dropWhile isWordByte with
      | nil =>
        cases hs : isWordByte s with
        | true => simp [hs]
        | false => simp [hs, hclose]
      | cons d rest =>
        simp only [List.isEmpty_cons, Bool.false_eq_true, if_false, List.cons_append]
        split <;> rfl
    · rfl

/-- The byte can be read as no part of a number. -/
structure Inert (s : UInt8) : Prop where
  space : isSpace s = false
  digit : isDigit s = false
  hex : isHexDigit s = false
  signs : s ≠ 45 ∧ s ≠ 43
  point : s ≠ 46
  marks : toLower s ≠ 101 ∧ toLower s ≠ 112
  parens : s ≠ 40 ∧ s ≠ 41
  words : toLower s ∉ [105, 110, 102] ∧ toLower s ∉ [105, 110, 105, 116, 121] ∧ toLower s ∉ [110, 97, 110] ∧
    toLower s ∉ [48, 120]

theorem Inert.unsignedNumber (h : Inert s) : Common.unsignedNumber (text ++ [s]) =
    (Common.unsignedNumber text).map fun r => (r.1, r.2 ++ [s]) := by
  obtain ⟨hinf, hinity, hnan, hzerox⟩ := h.words
  unfold Common.unsignedNumber
  rw [stripWord_concat hinf, stripWord_concat hnan, stripWord_concat hzerox,
    numeral_concat h.digit h.point h.marks.1 h.digit h.signs.1 h.signs.2]
  cases stripWord [105, 110, 102] text with
  | some rest =>
    simp only [Option.map_some, stripWord_concat hinity]
    cases stripWord [105, 110, 105, 116, 121] rest <;> rfl
  | none =>
    cases stripWord [110, 97, 110] text with
    | some rest => simp only [Option.map_some, Option.map_none, afterNan_concat h.parens.1 h.parens.2]
    | none =>
      cases stripWord [48, 120] text with
      | none => rfl
      | some rest =>
        simp only [Option.map_some, Option.map_none, Option.bind_some,
          numeral_concat h.hex h.point h.marks.2 h.digit h.signs.1 h.signs.2]
        cases numeral isHexDigit 16 112 2 rest <;> rfl

/-- Behind such a byte `strtod` reads what it reads without it. -/
theorem Inert.strtod (h : Inert s) : Common.strtod (text ++ [s]) =
    (Common.strtod text).map fun r => (r.1, r.2 ++ [s]) := by
  unfold Common.strtod
  rw [dropWhile_concat h.space, takeSign_concat h.signs.1 h.signs.2]
  simp only [h.unsignedNumber, Option.map_map]
  rfl

end Inert

end BsdAdditions.Common
