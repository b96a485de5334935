import BsdAdditions.Common.Returns
import BsdAdditions.Curse.Terminfo

/-! When `INFO_PARSE` stays inside the bytes it has read and inside its tables. -/
namespace BsdAdditions.Curse
open Common Common.Prog

variable {s : Terminfo} {fuel : ℕ}

/-! ### What each part does, and when it returns -/

/-- The number at an offset of the data, zero bytes taken for missing ones. -/
def Terminfo.intAt (s : Terminfo) (p : ℕ) : ℤ :=
  intOfBytes s.flipBytes (s.dataLine.getD p 0) (s.dataLine.getD (p + 1) 0)

theorem intOfBytes_bounds (flip : Bool) (first second : UInt8) :
    intOfBytes flip first second = -1 ∨
      0 ≤ intOfBytes flip first second ∧ intOfBytes flip first second < 65535 := by
  unfold intOfBytes
  dsimp only
  generalize (if flip = true then second else first) = low
  generalize (if flip = true then first else second) = high
  have hlow := low.toNat_lt
  have hhigh := high.toNat_lt
  split
  next => exact .inl rfl
  next h =>
    rw [← UInt8.toNat_inj, ← UInt8.toNat_inj] at h
    have hmax : (255 : UInt8).toNat = 255 := rfl
    omega

theorem returns_nextByte {post : UInt8 → Terminfo → Prop} : Returns nextByte post s ↔
    s.termDataPtr < s.dataLine.length ∧
      post (s.dataLine.getD s.termDataPtr 0) { s with termDataPtr := s.termDataPtr + 1 } := by
  rw [nextByte, returns_bind, returns_get, returns_bind]
  by_cases h : s.termDataPtr < s.dataLine.length
  · rw [List.getElem?_eq_getElem h, returns_orFault_some, returns_bind, returns_set, returns_pure,
      List.getD_eq_getElem?_getD, List.getElem?_eq_getElem h]
    exact ⟨fun hpost => ⟨h, hpost⟩, fun hpost => hpost.2⟩
  · rw [List.getElem?_eq_none (by omega)]
    exact ⟨fun hfault => absurd hfault (returns_fault _ _), fun hpost => absurd hpost.1 h⟩

theorem returns_getInt {post : ℤ → Terminfo → Prop} : Returns getInt post s ↔
    s.termDataPtr + 2 ≤ s.dataLine.length ∧
      post (s.intAt s.termDataPtr) { s with termDataPtr := s.termDataPtr + 2 } := by
  rw [getInt, returns_bind, returns_nextByte, returns_bind, returns_nextByte, returns_bind, returns_get,
    returns_pure]
  constructor
  · rintro ⟨_, hlen, hpost⟩
    exact ⟨hlen, hpost⟩
  · rintro ⟨hlen, hpost⟩
    exact ⟨by omega, hlen, hpost⟩

/-- A table with a run of new entries. -/
def storeFrom {α : Type} {n : ℕ} (array : Vector α n) (i : ℕ) : List α → Vector α n
  | [] => array
  | x :: xs => storeFrom (array.setIfInBounds i x) (i + 1) xs

theorem getElem?_storeFrom {α : Type} {n : ℕ} (array : Vector α n) (i : ℕ) (xs : List α) (j : ℕ) :
    (storeFrom array i xs)[j]? =
      if i ≤ j ∧ j < i + xs.length ∧ j < n then xs[j - i]? else array[j]? := by
  induction xs generalizing array i with
  | nil =>
    rw [storeFrom, if_neg]
    rw [List.length_nil]
    omega
  | cons x xs ih =>
    rw [storeFrom, ih, List.length_cons]
    obtain hlt | rfl | hgt := Nat.lt_trichotomy j i
    · rw [if_neg (by omega), if_neg (by omega), Vector.getElem?_setIfInBounds_ne (by omega)]
    · rw [if_neg (by omega), Vector.getElem?_setIfInBounds_self, Nat.sub_self, List.getElem?_cons_zero]
      split
      next hj => rw [if_pos (by omega)]
      next hj => rw [if_neg (by omega), Vector.getElem?_eq_none (by omega)]
    · obtain ⟨d, rfl⟩ : ∃ d, j = i + 1 + d := ⟨j - (i + 1), by omega⟩
      rw [Vector.getElem?_setIfInBounds_ne (by omega), show i + 1 + d - (i + 1) = d by omega,
        show i + 1 + d - i = d + 1 by omega, List.getElem?_cons_succ]
      refine if_congr ?_ rfl rfl
      omega

theorem returns_store {α : Type} {n i : ℕ} {array : Vector α n} {x : α} {post : Vector α n → Terminfo → Prop} :
    Returns (orFault (store array i x)) post s ↔ i < n ∧ post (array.setIfInBounds i x) s := by
  unfold store
  split
  next h => exact ⟨fun hpost => ⟨h, (returns_orFault_some _ _ _).mp hpost⟩,
    fun hpost => (returns_orFault_some _ _ _).mpr hpost.2⟩
  next h => exact ⟨fun hfault => absurd hfault (returns_fault _ _), fun hpost => absurd hpost.1 h⟩

/-- The data has `width` more bytes, and the table of `size` entries has the index. -/
def Room (width size c : ℕ) (s : Terminfo) : Prop :=
  s.termDataPtr + width ≤ s.dataLine.length ∧ c < size

def Terminfo.withBoolean (c : ℕ) (s : Terminfo) : Terminfo :=
  { s with
    termDataPtr := s.termDataPtr + 1
    booleans := s.booleans.setIfInBounds c (charValue (s.dataLine.getD s.termDataPtr 0)) }

def Terminfo.withNumber (c : ℕ) (s : Terminfo) : Terminfo :=
  { s with
    termDataPtr := s.termDataPtr + 2
    numbers := s.numbers.setIfInBounds c (s.intAt s.termDataPtr) }

/-- What becomes of an entry of `stringTable`. -/
def newEntry (old : Option ℤ) (offset : ℤ) : Option ℤ :=
  if offset ≠ -1 then (if old = none then some offset else old) else none

def Terminfo.withString (c : ℕ) (s : Terminfo) : Terminfo :=
  { s with
    termDataPtr := s.termDataPtr + 2
    stringTable := s.stringTable.setIfInBounds c
      (newEntry (s.stringTable[c]?.getD none) (s.intAt s.termDataPtr)) }

theorem returns_readBoolean (c : ℕ) (s : Terminfo) (post : Unit → Terminfo → Prop) :
    Returns (readBoolean c) post s ↔ Room 1 128 c s ∧ post () (s.withBoolean c) := by
  rw [readBoolean, returns_bind, returns_nextByte, returns_bind, returns_get, returns_bind, returns_store,
    returns_set, ← and_assoc]
  rfl

theorem returns_readNumber (c : ℕ) (s : Terminfo) (post : Unit → Terminfo → Prop) :
    Returns (readNumber c) post s ↔ Room 2 128 c s ∧ post () (s.withNumber c) := by
  rw [readNumber, returns_bind, returns_getInt, returns_bind, returns_get, returns_bind, returns_store,
    returns_set, ← and_assoc]
  rfl

theorem returns_readString (c : ℕ) (s : Terminfo) (post : Unit → Terminfo → Prop) :
    Returns (readString c) post s ↔ Room 2 1024 c s ∧ post () (s.withString c) := by
  rw [readString, returns_bind, returns_getInt, returns_bind, returns_get, returns_bind, Room, and_assoc]
  by_cases h : c < 1024
  · rw [Vector.getElem?_eq_getElem h, returns_orFault_some, returns_bind, returns_store, returns_set,
      Terminfo.withString, Vector.getElem?_eq_getElem h]
    rfl
  · rw [Vector.getElem?_eq_none (by omega)]
    constructor
    · rintro ⟨_, hfault⟩
      exact absurd hfault (returns_fault _ _)
    · rintro ⟨_, hc, _⟩
      exact absurd hc h

/-! ### Counting down -/

section CountDown
variable {body : ℕ → Prog Terminfo Unit} {ok : ℕ → Terminfo → Prop} {next : ℕ → Terminfo → Terminfo}

/-- The state after `k` rounds, the counter starting at `c`. -/
def rounds (next : ℕ → Terminfo → Terminfo) : ℕ → ℕ → Terminfo → Terminfo
  | 0, _, s => s
  | k + 1, c, s => rounds next k (c + 1) (next c s)

/-- Each of the `k` rounds can be made. -/
def RoundsOk (ok : ℕ → Terminfo → Prop) (next : ℕ → Terminfo → Terminfo) : ℕ → ℕ → Terminfo → Prop
  | 0, _, _ => True
  | k + 1, c, s => ok c s ∧ RoundsOk ok next k (c + 1) (next c s)

theorem returns_countDown_zero {c : ℕ} {post : Unit → Terminfo → Prop} :
    Returns (countDown (fuel + 1) body 0 c) post s ↔ post () s := by
  rw [countDown, loop]
  simp

theorem returns_countDown_of_ne {num : ℤ} (hnum : num ≠ 0) {c : ℕ} {post : Unit → Terminfo → Prop} :
    Returns (countDown (fuel + 1) body num c) post s ↔
      Returns (body c) (fun _ t => Returns (countDown fuel body (num - 1) (c + 1)) post t) s := by
  rw [countDown, loop]
  simp [hnum, countDown]

/-- A count that is negative never comes to an end. -/
theorem not_returns_countDown_of_neg {num : ℤ} (hnum : num < 0) {c : ℕ} {post : Unit → Terminfo → Prop} :
    ¬ Returns (countDown fuel body num c) post s := by
  induction fuel generalizing num c s with
  | zero =>
    rintro ⟨_, _, hrun, _⟩
    cases hrun
  | succ fuel ih =>
    rw [returns_countDown_of_ne (by omega)]
    rintro ⟨_, t, _, hrest⟩
    exact ih (by omega) hrest

theorem returns_countDown
    (hbody : ∀ c s post, Returns (body c) post s ↔ ok c s ∧ post () (next c s))
    {num : ℤ} {c : ℕ} (hfuel : num < fuel) {post : Unit → Terminfo → Prop} :
    Returns (countDown fuel body num c) post s ↔
      0 ≤ num ∧ RoundsOk ok next num.toNat c s ∧ post () (rounds next num.toNat c s) := by
  obtain hneg | hnum := Int.lt_or_le num 0
  · constructor
    · exact fun h => absurd h (not_returns_countDown_of_neg hneg)
    · exact fun h => absurd h.1 (by omega)
  obtain ⟨k, rfl⟩ := Int.eq_ofNat_of_zero_le hnum
  induction k generalizing fuel c s with
  | zero =>
    obtain ⟨fuel, rfl⟩ : ∃ f, fuel = f + 1 := ⟨fuel - 1, by omega⟩
    rw [Int.natCast_zero, returns_countDown_zero]
    exact ⟨fun h => ⟨Int.le_refl 0, trivial, h⟩, fun h => h.2.2⟩
  | succ k ih =>
    obtain ⟨fuel, rfl⟩ : ∃ f, fuel = f + 1 := ⟨fuel - 1, by omega⟩
    have hpred : ((k + 1 : ℕ) : ℤ) - 1 = k := by omega
    rw [returns_countDown_of_ne (by omega), hbody, hpred, ih (by omega) (by omega)]
    simp only [Int.toNat_natCast, RoundsOk, rounds, Int.natCast_nonneg, true_and, and_assoc]

end CountDown

/-! ### The three tables -/

/-- The bytes of `k` boolean capabilities. -/
def Terminfo.booleansAt (s : Terminfo) (p k : ℕ) : List ℤ :=
  (List.range k).map fun i => charValue (s.dataLine.getD (p + i) 0)

def Terminfo.numbersAt (s : Terminfo) (p k : ℕ) : List ℤ :=
  (List.range k).map fun i => s.intAt (p + 2 * i)

/-- The `k` entries of `stringTable` from `c` on as the offsets at `p` leave them. -/
def Terminfo.entriesAt (s : Terminfo) (p k c : ℕ) : List (Option ℤ) :=
  (List.range k).map fun i => newEntry (s.stringTable[c + i]?.getD none) (s.intAt (p + 2 * i))

theorem map_range_succ {α : Type} (f : ℕ → α) (k : ℕ) :
    (List.range (k + 1)).map f = f 0 :: (List.range k).map fun i => f (i + 1) := by
  rw [List.range_succ_eq_map, List.map_cons, List.map_map]
  rfl

/-- Rounds that each take `width` bytes and one entry of the table. -/
theorem roundsOk_room {width size : ℕ} (next : ℕ → Terminfo → Terminfo)
    (hdata : ∀ c s, (next c s).dataLine = s.dataLine)
    (hptr : ∀ c s, (next c s).termDataPtr = s.termDataPtr + width) {k c : ℕ} :
    RoundsOk (Room width size) next k c s ↔
      (0 < k → s.termDataPtr + width * k ≤ s.dataLine.length ∧ c + k ≤ size) := by
  induction k generalizing c s with
  | zero => simp [RoundsOk]
  | succ k ih =>
    rw [RoundsOk, ih, Room, hdata, hptr, Nat.mul_succ]
    obtain rfl | hk := Nat.eq_zero_or_pos k
    · simp only [Nat.lt_irrefl, false_imp_iff, and_true]
      omega
    · simp only [hk, Nat.succ_pos, true_imp_iff]
      omega

theorem rounds_withBoolean (k c : ℕ) (s : Terminfo) : rounds Terminfo.withBoolean k c s =
    { s with
      termDataPtr := s.termDataPtr + k
      booleans := storeFrom s.booleans c (s.booleansAt s.termDataPtr k) } := by
  induction k generalizing c s with
  | zero => rfl
  | succ k ih =>
    rw [rounds, ih, Terminfo.booleansAt, Terminfo.booleansAt, map_range_succ, storeFrom]
    simp only [Terminfo.withBoolean, Nat.add_assoc, Nat.add_comm 1, Nat.add_zero]

theorem rounds_withNumber (k c : ℕ) (s : Terminfo) : rounds Terminfo.withNumber k c s =
    { s with
      termDataPtr := s.termDataPtr + 2 * k
      numbers := storeFrom s.numbers c (s.numbersAt s.termDataPtr k) } := by
  induction k generalizing c s with
  | zero => rfl
  | succ k ih =>
    rw [rounds, ih, Terminfo.numbersAt, Terminfo.numbersAt, map_range_succ, storeFrom]
    simp only [Terminfo.withNumber, Terminfo.intAt, Nat.add_assoc, Nat.mul_add, Nat.add_comm 2, Nat.mul_zero,
      Nat.add_zero, Nat.mul_one]

theorem rounds_withString (k c : ℕ) (s : Terminfo) : rounds Terminfo.withString k c s =
    { s with
      termDataPtr := s.termDataPtr + 2 * k
      stringTable := storeFrom s.stringTable c (s.entriesAt s.termDataPtr k c) } := by
  induction k generalizing c s with
  | zero => rfl
  | succ k ih =>
    -- the entries behind the one just stored are still the old ones
    have hold : ∀ (i : ℕ) (x : Option ℤ),
        (s.stringTable.setIfInBounds c x)[c + (1 + i)]? = s.stringTable[c + (i + 1)]? := by
      intro i x
      rw [Vector.getElem?_setIfInBounds_ne (by omega), Nat.add_comm 1]
    rw [rounds, ih, Terminfo.entriesAt, Terminfo.entriesAt, map_range_succ, storeFrom]
    simp only [Terminfo.withString, Terminfo.intAt, hold, Nat.add_assoc, Nat.mul_add, Nat.add_comm 2, Nat.mul_zero,
      Nat.add_zero, Nat.mul_one]

/-! ### The whole file -/

/-- The counts as they stand behind the magic number. -/
def Terminfo.header (s : Terminfo) : Header where
  numNames := s.intAt 2
  numBools := s.intAt 4
  numInts := s.intAt 6
  numStrings := s.intAt 8
  stringTableLen := s.intAt 10

section Layout
variable (s : Terminfo)

/-! Where each section of the file starts. -/

def Terminfo.boolsAt : ℕ := 12 + s.header.numNames.toNat

def Terminfo.boolsEnd : ℕ := s.boolsAt + s.header.numBools.toNat

def Terminfo.intsAt : ℕ := s.boolsEnd + (s.address + s.boolsEnd) % 2

def Terminfo.stringsAt : ℕ := s.intsAt + 2 * s.header.numInts.toNat

def Terminfo.tableAt : ℕ := s.stringsAt + 2 * s.header.numStrings.toNat

/-- Every section lies in the data, and every table has room for its section. -/
structure Terminfo.Fits : Prop where
  bools : 0 ≤ s.header.numBools ∧
    (0 < s.header.numBools → s.boolsEnd ≤ s.dataLine.length ∧ s.header.numBools ≤ 128)
  ints : 0 ≤ s.header.numInts ∧
    (0 < s.header.numInts → s.stringsAt ≤ s.dataLine.length ∧ s.header.numInts ≤ 128)
  strings : 0 ≤ s.header.numStrings ∧
    (0 < s.header.numStrings → s.tableAt ≤ s.dataLine.length ∧ s.header.numStrings ≤ 1024)
  table : 0 ≤ s.header.stringTableLen ∧
    (0 < s.header.stringTableLen → s.tableAt + s.header.stringTableLen ≤ s.dataLine.length)

/-- The state in which the sections have been read. -/
def Terminfo.parsed : Terminfo :=
  { s with
    termDataPtr := s.tableAt
    booleans := storeFrom s.booleans 0 (s.booleansAt s.boolsAt s.header.numBools.toNat)
    numbers := storeFrom s.numbers 0 (s.numbersAt s.intsAt s.header.numInts.toNat)
    strings := (s.dataLine.drop s.tableAt).take s.header.stringTableLen.toNat
    stringTable := storeFrom s.stringTable bt (s.entriesAt s.stringsAt s.header.numStrings.toNat bt) }

end Layout

theorem Terminfo.intAt_bounds (s : Terminfo) (p : ℕ) : s.intAt p = -1 ∨ 0 ≤ s.intAt p ∧ s.intAt p < 65535 :=
  intOfBytes_bounds _ _ _

theorem Terminfo.intAt_lt (s : Terminfo) (p : ℕ) (hfuel : 65535 ≤ fuel) : s.intAt p < fuel := by
  have := s.intAt_bounds p
  omega

theorem returns_readBooleans {num : ℤ} (hfuel : num < fuel) {c : ℕ} {post : Unit → Terminfo → Prop} :
    Returns (countDown fuel readBoolean num c) post s ↔
      (0 ≤ num ∧ (0 < num → s.termDataPtr + num.toNat ≤ s.dataLine.length ∧ c + num ≤ 128)) ∧ post ()
        { s with
          termDataPtr := s.termDataPtr + num.toNat
          booleans := storeFrom s.booleans c (s.booleansAt s.termDataPtr num.toNat) } := by
  rw [returns_countDown returns_readBoolean hfuel, roundsOk_room Terminfo.withBoolean (fun _ _ => rfl) (fun _ _ => rfl),
    rounds_withBoolean, and_assoc]
  refine and_congr_right fun hnum => and_congr_left' ?_
  omega

theorem returns_readNumbers {num : ℤ} (hfuel : num < fuel) {c : ℕ} {post : Unit → Terminfo → Prop} :
    Returns (countDown fuel readNumber num c) post s ↔
      (0 ≤ num ∧ (0 < num → s.termDataPtr + 2 * num.toNat ≤ s.dataLine.length ∧ c + num ≤ 128)) ∧ post ()
        { s with
          termDataPtr := s.termDataPtr + 2 * num.toNat
          numbers := storeFrom s.numbers c (s.numbersAt s.termDataPtr num.toNat) } := by
  rw [returns_countDown returns_readNumber hfuel, roundsOk_room Terminfo.withNumber (fun _ _ => rfl) (fun _ _ => rfl),
    rounds_withNumber, and_assoc]
  refine and_congr_right fun hnum => and_congr_left' ?_
  omega

theorem returns_readStrings {num : ℤ} (hfuel : num < fuel) {c : ℕ} {post : Unit → Terminfo → Prop} :
    Returns (countDown fuel readString num c) post s ↔
      (0 ≤ num ∧ (0 < num → s.termDataPtr + 2 * num.toNat ≤ s.dataLine.length ∧ c + num ≤ 1024)) ∧ post ()
        { s with
          termDataPtr := s.termDataPtr + 2 * num.toNat
          stringTable := storeFrom s.stringTable c (s.entriesAt s.termDataPtr num.toNat c) } := by
  rw [returns_countDown returns_readString hfuel, roundsOk_room Terminfo.withString (fun _ _ => rfl) (fun _ _ => rfl),
    rounds_withString, and_assoc]
  refine and_congr_right fun hnum => and_congr_left' ?_
  omega

theorem returns_copyStrings {p len : ℤ} {post : Unit → Terminfo → Prop} :
    Returns (copyStrings p len) post s ↔
      (0 ≤ len ∧ (0 < len → 0 ≤ p ∧ p + len ≤ s.dataLine.length)) ∧
        post () { s with strings := (s.dataLine.drop p.toNat).take len.toNat } := by
  rw [copyStrings, returns_bind, onlyIf]
  split
  next hneg =>
    constructor
    · exact fun h => absurd h (returns_fault _ _)
    · exact fun h => absurd h.1.1 (by omega)
  next hlen =>
    rw [returns_pure, returns_bind, returns_get, returns_bind, onlyIf]
    split
    next hout =>
      constructor
      · exact fun h => absurd h (returns_fault _ _)
      · intro h
        have := h.1.2 hout.1
        omega
    next hin =>
      rw [returns_pure, returns_set]
      have : 0 ≤ len ∧ (0 < len → 0 ≤ p ∧ p + len ≤ s.dataLine.length) := by omega
      exact ⟨fun h => ⟨this, h⟩, fun h => h.2⟩

theorem returns_getHeader (hptr : s.termDataPtr = 2) {post : Header → Terminfo → Prop} :
    Returns getHeader post s ↔ 12 ≤ s.dataLine.length ∧ post s.header { s with termDataPtr := 12 } := by
  rw [getHeader, returns_bind, returns_getInt, returns_bind, returns_getInt, returns_bind, returns_getInt,
    returns_bind, returns_getInt, returns_bind, returns_getInt, returns_pure, hptr]
  constructor
  · rintro ⟨_, _, _, _, hlen, hpost⟩
    exact ⟨hlen, hpost⟩
  · rintro ⟨hlen, hpost⟩
    exact ⟨by omega, by dsimp only; omega, by dsimp only; omega, by dsimp only; omega, hlen, hpost⟩

theorem returns_parseSections (hptr : s.termDataPtr = 12) (hfuel : 65535 ≤ fuel) {post : Unit → Terminfo → Prop} :
    Returns (parseSections fuel s.header) post s ↔ s.Fits ∧ post () s.parsed := by
  have hb : s.header.numBools < fuel := s.intAt_lt _ hfuel
  have hi : s.header.numInts < fuel := s.intAt_lt _ hfuel
  have hs : s.header.numStrings < fuel := s.intAt_lt _ hfuel
  -- where the strings are copied from, if their number is not negative
  have htable : 0 ≤ s.header.numStrings →
      (s.stringsAt : ℤ) + s.header.numStrings + s.header.numStrings = s.tableAt := by
    unfold Terminfo.tableAt
    omega
  rw [parseSections, returns_bind, returns_modify, hptr, returns_bind, returns_readBooleans hb,
    returns_bind, returns_modify, returns_bind, returns_readNumbers hi, returns_bind, returns_get,
    returns_bind, returns_copyStrings, returns_readStrings hs]
  change (0 ≤ s.header.numBools ∧ (0 < s.header.numBools →
      s.boolsEnd ≤ s.dataLine.length ∧ ((0 : ℕ) : ℤ) + s.header.numBools ≤ 128)) ∧
    (0 ≤ s.header.numInts ∧ (0 < s.header.numInts →
      s.stringsAt ≤ s.dataLine.length ∧ ((0 : ℕ) : ℤ) + s.header.numInts ≤ 128)) ∧
    (0 ≤ s.header.stringTableLen ∧ (0 < s.header.stringTableLen →
      0 ≤ (s.stringsAt : ℤ) + s.header.numStrings + s.header.numStrings ∧
      (s.stringsAt : ℤ) + s.header.numStrings + s.header.numStrings + s.header.stringTableLen ≤ s.dataLine.length)) ∧
    (0 ≤ s.header.numStrings ∧ (0 < s.header.numStrings →
      s.tableAt ≤ s.dataLine.length ∧ ((0 : ℕ) : ℤ) + s.header.numStrings ≤ 1024)) ∧
    post () { s.parsed with
      strings := (s.dataLine.drop ((s.stringsAt : ℤ) + s.header.numStrings + s.header.numStrings).toNat).take
        s.header.stringTableLen.toNat } ↔ _
  constructor
  · rintro ⟨hb, hi, ht, hs, hpost⟩
    rw [htable hs.1] at ht hpost
    exact ⟨⟨by omega, by omega, by omega, by omega⟩, hpost⟩
  · rintro ⟨⟨hb, hi, hs, ht⟩, hpost⟩
    rw [htable hs.1]
    exact ⟨by omega, by omega, by omega, by omega, hpost⟩

/-- The layout does not depend on the pointer. -/
theorem fits_iff_of_ptr (s : Terminfo) (p : ℕ) : Terminfo.Fits { s with termDataPtr := p } ↔ s.Fits :=
  ⟨fun h => ⟨h.bools, h.ints, h.strings, h.table⟩, fun h => ⟨h.bools, h.ints, h.strings, h.table⟩⟩

/-- The state with a file read and its magic number passed. -/
def Terminfo.loaded (s : Terminfo) (file : List UInt8) (flip : Bool) : Terminfo :=
  { s with dataLine := file, termDataPtr := 2, flipBytes := flip }

/-- The byte order in which the magic number is right, the usual one tried first. -/
def byteOrder (file : List UInt8) : Option Bool :=
  if intOfBytes false (file.getD 0 0) (file.getD 1 0) = 282 then some false
  else if intOfBytes true (file.getD 0 0) (file.getD 1 0) = 282 then some true
  else none

theorem returns_checkMagic {file : List UInt8} (hflip : s.flipBytes = false) {post : Bool → Terminfo → Prop} :
    Returns checkMagic post { s with dataLine := file, termDataPtr := 0 } ↔ 2 ≤ file.length ∧
      (match byteOrder file with
        | some flip => post true (s.loaded file flip)
        | none => post false (s.loaded file true)) := by
  rw [checkMagic, returns_bind, returns_getInt]
  dsimp only
  rw [Nat.zero_add]
  refine and_congr_right fun hlen => ?_
  have hfirst : Terminfo.intAt { s with
      dataLine := file
      termDataPtr := 0 } 0 = intOfBytes false (file.getD 0 0) (file.getD 1 0) := by
    rw [Terminfo.intAt, hflip]
  -- the bytes are read again, in the other order
  have hsecond : Terminfo.intAt { s with
      dataLine := file
      termDataPtr := 0
      flipBytes := true } 0 = intOfBytes true (file.getD 0 0) (file.getD 1 0) := rfl
  rw [hfirst, byteOrder]
  by_cases hmagic : intOfBytes false (file.getD 0 0) (file.getD 1 0) = 282
  · rw [if_neg (not_not.mpr hmagic), if_pos hmagic, returns_pure, hflip]
    rfl
  · rw [if_pos hmagic, if_neg hmagic, returns_bind, returns_modify, returns_bind, returns_getInt, returns_pure]
    dsimp only
    rw [Nat.sub_self, hsecond]
    by_cases hswapped : intOfBytes true (file.getD 0 0) (file.getD 1 0) = 282
    · rw [if_pos hswapped, decide_eq_true hswapped]
      exact ⟨fun h => h.2, fun h => ⟨hlen, h⟩⟩
    · rw [if_neg hswapped, decide_eq_false hswapped]
      exact ⟨fun h => h.2, fun h => ⟨hlen, h⟩⟩

theorem returns_infoParse {file : List UInt8} (hflip : s.flipBytes = false) (hfuel : 65535 ≤ fuel)
    (hlen : file.length < 10240) {post : Bool → Terminfo → Prop} :
    Returns (infoParse fuel (some file)) post s ↔ 2 ≤ file.length ∧
      (match byteOrder file with
        | some flip => 12 ≤ file.length ∧ (s.loaded file flip).Fits ∧ post true (s.loaded file flip).parsed
        | none => post false (s.loaded file true)) := by
  have hshort : ¬ 10240 ≤ file.length := by omega
  rw [infoParse, List.take_of_length_le (by omega), returns_bind, returns_modify, returns_bind, returns_get]
  dsimp only
  rw [if_neg hshort, returns_bind, returns_checkMagic hflip]
  refine and_congr_right fun _ => ?_
  cases byteOrder file with
  | none => exact returns_pure _ _ _
  | some flip =>
    dsimp only
    rw [if_pos rfl, returns_bind, returns_getHeader rfl]
    refine and_congr_right fun _ => ?_
    have hheader : (s.loaded file flip).header = Terminfo.header { s.loaded file flip with termDataPtr := 12 } := rfl
    rw [hheader, returns_bind, returns_parseSections rfl hfuel]
    exact and_congr (fits_iff_of_ptr _ _) (returns_pure _ _ _)

/-! ### Pointers -/

/-- A pointer that was not in the table before points into the block of strings. -/
def PointersInside (s s' : Terminfo) : Prop :=
  ∀ (i : ℕ) (o : ℤ), s'.stringTable[i]? = some (some o) →
    s.stringTable[i]? = some (some o) ∨ 0 ≤ o ∧ o < s'.strings.length

/-- Every offset that is stored is less than the length of the block. -/
def Terminfo.OffsetsInside (s : Terminfo) : Prop :=
  ∀ k < s.header.numStrings.toNat, s.stringTable[k]? = some none →
    s.intAt (s.stringsAt + 2 * k) < s.header.stringTableLen

theorem Terminfo.Fits.strings_length (h : s.Fits) : (s.parsed.strings.length : ℤ) = s.header.stringTableLen := by
  have ht := h.table
  have hlen : s.parsed.strings.length =
      min s.header.stringTableLen.toNat (s.dataLine.length - s.tableAt) := by
    simp [Terminfo.parsed]
  omega

theorem Terminfo.Fits.getElem?_parsed (h : s.Fits) {k : ℕ} (hk : k < s.header.numStrings.toNat) :
    s.parsed.stringTable[k]? =
      some (newEntry (s.stringTable[k]?.getD none) (s.intAt (s.stringsAt + 2 * k))) := by
  have hs := h.strings
  have hlen : (s.entriesAt s.stringsAt s.header.numStrings.toNat bt).length = s.header.numStrings.toNat := by
    simp [Terminfo.entriesAt]
  rw [Terminfo.parsed]
  dsimp only
  rw [getElem?_storeFrom, hlen, if_pos (by unfold bt; omega), Terminfo.entriesAt, List.getElem?_map, bt,
    Nat.sub_zero, List.getElem?_range hk, Option.map_some, Nat.zero_add]

theorem Terminfo.getElem?_parsed_of_le {k : ℕ} (hk : s.header.numStrings.toNat ≤ k) :
    s.parsed.stringTable[k]? = s.stringTable[k]? := by
  have hlen : (s.entriesAt s.stringsAt s.header.numStrings.toNat bt).length = s.header.numStrings.toNat := by
    simp [Terminfo.entriesAt]
  rw [Terminfo.parsed]
  dsimp only
  rw [getElem?_storeFrom, hlen, if_neg (by unfold bt; omega)]

theorem Terminfo.Fits.pointersInside_iff (h : s.Fits) : PointersInside s s.parsed ↔ s.OffsetsInside := by
  have hlen := h.strings_length
  constructor
  · intro hinside k hk hnone
    by_cases hoff : s.intAt (s.stringsAt + 2 * k) = -1
    · have := h.table.1
      omega
    have hentry : s.parsed.stringTable[k]? = some (some (s.intAt (s.stringsAt + 2 * k))) := by
      rw [h.getElem?_parsed hk, hnone, Option.getD_some, newEntry, if_pos hoff, if_pos rfl]
    obtain hold | hnew := hinside k _ hentry
    · simp [hnone] at hold
    · omega
  · intro hoffs i o ho
    obtain hk | hk := Nat.lt_or_ge i s.header.numStrings.toNat
    · have hn : i < 1024 := by
        have := h.strings
        omega
      rw [h.getElem?_parsed hk, Vector.getElem?_eq_getElem hn, Option.getD_some, newEntry] at ho
      rw [Vector.getElem?_eq_getElem hn]
      split at ho
      next hoff =>
        split at ho
        next hnone =>
          -- a new pointer
          have hlt := hoffs i hk (by rw [Vector.getElem?_eq_getElem hn, hnone])
          have hbounds := s.intAt_bounds (s.stringsAt + 2 * i)
          have ho : s.intAt (s.stringsAt + 2 * i) = o := Option.some.inj (Option.some.inj ho)
          omega
        next => exact .inl ho
      next => simp at ho
    · rw [Terminfo.getElem?_parsed_of_le hk] at ho
      exact .inl ho

/-- The counts and the offsets of a file do no harm: the file is too long to be looked at, or it
has no magic number, or its sections fit and its offsets lie inside the strings. -/
def Harmless (s : Terminfo) (file : List UInt8) : Prop :=
  10240 ≤ file.length ∨ 2 ≤ file.length ∧ ∀ flip, byteOrder file = some flip →
    12 ≤ file.length ∧ (s.loaded file flip).Fits ∧ (s.loaded file flip).OffsetsInside

/-- `INFO_PARSE` ends, stays inside the bytes it has read and inside its tables, and stores only
pointers into the strings, exactly on the harmless files. -/
theorem infoParse_safe_iff (hflip : s.flipBytes = false) (hfuel : 65535 ≤ fuel) (file : List UInt8) :
    Returns (infoParse fuel (some file)) (fun _ s' => PointersInside s s') s ↔ Harmless s file := by
  obtain hlong | hlen := Nat.lt_or_ge 10239 file.length
  · have htake : 10240 ≤ (file.take 10240).length := by
      rw [List.length_take]
      omega
    rw [infoParse, returns_bind, returns_modify, returns_bind, returns_get, if_pos htake, returns_pure]
    exact ⟨fun _ => .inl hlong, fun _ _ _ h => .inl h⟩
  · rw [returns_infoParse hflip hfuel (by omega), Harmless, or_iff_right (by omega)]
    refine and_congr_right fun _ => ?_
    cases byteOrder file with
    | none => exact ⟨fun _ => nofun, fun _ _ _ h => .inl h⟩
    | some flip =>
      constructor
      · rintro ⟨hhead, hfits, hinside⟩ flip' ⟨⟩
        exact ⟨hhead, hfits, hfits.pointersInside_iff.mp hinside⟩
      · intro h
        obtain ⟨hhead, hfits, hoffs⟩ := h flip rfl
        exact ⟨hhead, hfits, hfits.pointersInside_iff.mpr hoffs⟩

/-- An entry with one capability of each kind. -/
theorem infoParse_safe_small :
    Harmless (.empty 0) [26, 1, 1, 0, 1, 0, 1, 0, 1, 0, 2, 0, 0, 1, 80, 0, 0, 0, 97, 0] ∧
      Returns (infoParse 65535 (some [26, 1, 1, 0, 1, 0, 1, 0, 1, 0, 2, 0, 0, 1, 80, 0, 0, 0, 97, 0]))
        (fun _ s' => PointersInside (.empty 0) s') (.empty 0) := by
  have h : Harmless (.empty 0) [26, 1, 1, 0, 1, 0, 1, 0, 1, 0, 2, 0, 0, 1, 80, 0, 0, 0, 97, 0] := by
    refine .inr ⟨by decide, ?_⟩
    rintro flip ⟨⟩
    refine ⟨by decide, ⟨by decide, by decide, by decide, by decide⟩, fun k hk _ => ?_⟩
    have hk0 : k = 0 := Nat.lt_one_iff.mp hk
    subst hk0
    decide
  exact ⟨h, (infoParse_safe_iff rfl (Nat.le_refl _) _).mpr h⟩

/-- A header that announces 65535 booleans, which is taken for the count -1. -/
theorem infoParse_negative_count :
    ¬ Returns (infoParse 65535 (some [26, 1, 0, 0, 255, 255, 0, 0, 0, 0, 0, 0]))
      (fun _ s' => PointersInside (.empty 0) s') (.empty 0) := by
  rw [returns_infoParse rfl (Nat.le_refl _) (by decide)]
  rintro ⟨_, _, hfits, _⟩
  exact absurd hfits.bools.1 (by decide)

end BsdAdditions.Curse
