import BsdAdditions.Curse.TerminfoSafe

/-! The legacy format of a compiled terminfo entry, and what `INFO_PARSE` makes of it. -/
namespace BsdAdditions.Curse
open Common Common.Prog

/-- A boolean capability as a file has it. -/
inductive Flag where
  | absent | present | cancelled
  deriving DecidableEq

def Flag.byte : Flag → UInt8
  | .absent => 0
  | .present => 1
  | .cancelled => 254

def Flag.value : Flag → ℤ
  | .absent => 0
  | .present => 1
  | .cancelled => -2

/-- A number below `bound` or one of the two special values. -/
inductive Capability (bound : ℕ) where
  | absent
  | cancelled
  | is (n : Fin bound)
  deriving DecidableEq

/-- The two bytes of a number, the low one first. -/
def short (v : ℕ) : List UInt8 := [UInt8.ofNat (v % 256), UInt8.ofNat (v / 256)]

namespace Capability
variable {bound : ℕ}

/-- The special values are -1 and -2 in sixteen bits. -/
def code : Capability bound → ℕ
  | absent => 65535
  | cancelled => 65534
  | is n => n

def value : Capability bound → ℤ
  | absent => -1
  | cancelled => -2
  | is n => n

/-- An offset, if there is one. -/
def offset? : Capability bound → Option ℤ
  | is n => some n
  | _ => none

end Capability

/-- The sections of a file. -/
structure Sections where
  names : List UInt8
  flags : List Flag
  numbers : List (Capability 32768)
  table : List UInt8
  strings : List (Capability table.length)

namespace Sections
variable (e : Sections)

/-- A zero byte, where the numbers would start at an odd place. -/
def pad : List UInt8 := List.replicate ((e.names.length + e.flags.length) % 2) 0

def encode : List UInt8 :=
  short 282 ++ short e.names.length ++ short e.flags.length ++ short e.numbers.length ++ short e.strings.length ++
    short e.table.length ++
    (e.names ++ (e.flags.map Flag.byte ++ (e.pad ++ (e.numbers.flatMap (fun n => short n.code) ++
      (e.strings.flatMap (fun o => short o.code) ++ e.table)))))

end Sections

/-- A file that is read in one piece and whose sections have room in the tables. -/
structure Entry extends Sections where
  flags_le : flags.length ≤ 128
  numbers_le : numbers.length ≤ 128
  strings_le : bt + strings.length ≤ 1024
  short_file : toSections.encode.length < 10240

/-- The tables hold the entry. -/
structure Decoded (e : Entry) (s : Terminfo) : Prop where
  booleans : ∀ i < 128, s.booleans[i]? = some ((e.flags[i]?.map Flag.value).getD 0)
  numbers : ∀ i < 128, s.numbers[i]? = some ((e.numbers[i]?.map Capability.value).getD 0)
  strings : ∀ k < e.strings.length, s.stringTable[bt + k]? = some (e.strings[k]?.bind Capability.offset?)
  table : s.strings = e.table

/-! ### Reading back what was written -/

/-- What `Get_int` makes of a number of sixteen bits. -/
def getIntValue (v : ℕ) : ℤ := if v = 65535 then -1 else v

theorem intOfBytes_short {v : ℕ} (hv : v < 65536) :
    intOfBytes false (UInt8.ofNat (v % 256)) (UInt8.ofNat (v / 256)) = getIntValue v := by
  have hlow : (UInt8.ofNat (v % 256)).toNat = v % 256 := UInt8.toNat_ofNat_of_lt' (Nat.mod_lt v (by decide))
  have hhigh : (UInt8.ofNat (v / 256)).toNat = v / 256 := UInt8.toNat_ofNat_of_lt' (show v / 256 < 256 by omega)
  have hmax : (255 : UInt8).toNat = 255 := rfl
  simp only [intOfBytes, getIntValue, Bool.false_eq_true, if_false, ← UInt8.toNat_inj, hlow, hhigh, hmax]
  split
  next h => rw [if_pos (by omega)]
  next h =>
    rw [if_neg (by omega)]
    omega

theorem intAt_append {s : Terminfo} (hflip : s.flipBytes = false) {xs ys : List UInt8} {v : ℕ} (hv : v < 65536)
    (hdata : s.dataLine = xs ++ (short v ++ ys)) : s.intAt xs.length = getIntValue v := by
  rw [Terminfo.intAt, hflip, ← intOfBytes_short hv, hdata]
  simp [short]

/-- A run of numbers in the data. -/
theorem numbersAt_append {s : Terminfo} (hflip : s.flipBytes = false) {xs ys : List UInt8} {vs : List ℕ}
    (hvs : ∀ v ∈ vs, v < 65536) (hdata : s.dataLine = xs ++ (vs.flatMap short ++ ys)) :
    s.numbersAt xs.length vs.length = vs.map getIntValue := by
  induction vs generalizing xs with
  | nil => rfl
  | cons v vs ih =>
    have hv : v < 65536 := hvs v List.mem_cons_self
    have hsplit : s.dataLine = xs ++ (short v ++ (vs.flatMap short ++ ys)) := by
      rw [hdata, List.flatMap_cons, List.append_assoc]
    have hrest : s.numbersAt (xs ++ short v).length vs.length = vs.map getIntValue :=
      ih (fun u hu => hvs u (List.mem_cons_of_mem v hu)) (by rw [hsplit, List.append_assoc])
    rw [List.length_cons, Terminfo.numbersAt, map_range_succ, List.map_cons, ← hrest]
    congr 1
    · exact intAt_append hflip hv hsplit
    · refine List.map_congr_left fun i _ => ?_
      congr 1
      rw [List.length_append, short, List.length_cons, List.length_cons, List.length_nil]
      omega

theorem booleansAt_append {s : Terminfo} {xs ys bs : List UInt8} (hdata : s.dataLine = xs ++ (bs ++ ys)) :
    s.booleansAt xs.length bs.length = bs.map charValue := by
  induction bs generalizing xs with
  | nil => rfl
  | cons b bs ih =>
    have hrest : s.booleansAt (xs ++ [b]).length bs.length = bs.map charValue := ih (by simp [hdata])
    rw [List.length_cons, Terminfo.booleansAt, map_range_succ, List.map_cons, ← hrest]
    congr 1
    · simp [hdata]
    · refine List.map_congr_left fun i _ => ?_
      rw [List.length_append, List.length_singleton, Nat.add_assoc, Nat.add_comm 1]

theorem Capability.code_lt {bound : ℕ} (hbound : bound ≤ 65536) (c : Capability bound) : c.code < 65536 := by
  cases c with
  | absent => exact Nat.lt_add_one 65535
  | cancelled => exact Nat.lt_add_of_pos_right (Nat.zero_lt_two)
  | is n => exact Nat.lt_of_lt_of_le n.isLt hbound

/-- A run of capabilities in the data. -/
theorem capabilitiesAt_append {s : Terminfo} (hflip : s.flipBytes = false) {bound : ℕ} (hbound : bound ≤ 65536)
    {xs ys : List UInt8} {cs : List (Capability bound)}
    (hdata : s.dataLine = xs ++ (cs.flatMap (fun c => short c.code) ++ ys)) :
    s.numbersAt xs.length cs.length = cs.map fun c => getIntValue c.code := by
  have hcodes : ∀ v ∈ cs.map Capability.code, v < 65536 := by
    intro v hv
    obtain ⟨c, _, rfl⟩ := List.mem_map.mp hv
    exact c.code_lt hbound
  have hread := numbersAt_append hflip hcodes (by rw [hdata, List.flatMap_map])
  rw [List.length_map, List.map_map] at hread
  exact hread

/-- Only a cancelled number is not read as it is meant. -/
theorem Capability.getIntValue_code {bound : ℕ} (hbound : bound ≤ 32768) (c : Capability bound) :
    getIntValue c.code = c.value ↔ c ≠ cancelled := by
  cases c with
  | absent => exact iff_of_true rfl nofun
  | cancelled => simp [getIntValue, code, value]
  | is n =>
    have hn := n.isLt
    have hcode : getIntValue (is n).code = (is n).value := if_neg (show (n : ℕ) ≠ 65535 by omega)
    exact iff_of_true hcode nofun

theorem Capability.newEntry_code {bound : ℕ} (hbound : bound ≤ 32768) (c : Capability bound) :
    newEntry none (getIntValue c.code) = c.offset? ↔ c ≠ cancelled := by
  cases c with
  | absent => exact iff_of_true rfl (by simp)
  | cancelled => simp [newEntry, getIntValue, code, offset?]
  | is n =>
    have hn := n.isLt
    have hcode : getIntValue (is n).code = n := if_neg (show (n : ℕ) ≠ 65535 by omega)
    have hentry : newEntry none (getIntValue (is n).code) = (is n).offset? := by
      rw [hcode, newEntry, if_pos (by omega), if_pos rfl]
      rfl
    exact iff_of_true hentry (by simp)

theorem getElem?_storeFrom_replicate {α : Type} {n i : ℕ} (hi : i < n) (d : α) (xs : List α) :
    (storeFrom (Vector.replicate n d) 0 xs)[i]? = some (xs[i]?.getD d) := by
  rw [getElem?_storeFrom, Nat.sub_zero, Nat.zero_add]
  split
  next h => rw [List.getElem?_eq_getElem h.2.1, Option.getD_some]
  next h =>
    rw [List.getElem?_eq_none (by omega), Option.getD_none, Vector.getElem?_eq_getElem hi, Vector.getElem_replicate]

/-! ### The layout of an entry -/

@[simp] theorem length_short (v : ℕ) : (short v).length = 2 := rfl

theorem length_flatMap_short {α : Type} (f : α → ℕ) (xs : List α) :
    (xs.flatMap fun x => short (f x)).length = 2 * xs.length := by
  induction xs with
  | nil => rfl
  | cons x xs ih =>
    rw [List.flatMap_cons, List.length_append, ih, length_short, List.length_cons]
    omega

theorem Sections.length_encode (e : Sections) : e.encode.length =
    12 + e.names.length + e.flags.length + e.pad.length + 2 * e.numbers.length + 2 * e.strings.length +
      e.table.length := by
  simp only [encode, List.length_append, List.length_map, length_flatMap_short, length_short]
  omega

namespace Entry
variable (e : Entry) (address : ℕ)

/-- The state with the entry's file read. -/
def loaded : Terminfo := (Terminfo.empty address).loaded e.encode false

theorem byteOrder_encode : byteOrder e.encode = some false := by
  have h0 : e.encode.getD 0 0 = 26 := rfl
  have h1 : e.encode.getD 1 0 = 1 := rfl
  rw [byteOrder, h0, h1]
  rfl

theorem getIntValue_of_lt {v : ℕ} (hv : v < 10240) : getIntValue v = v := if_neg (by omega)

theorem header_loaded : (e.loaded address).header =
    ⟨e.names.length, e.flags.length, e.numbers.length, e.strings.length, e.table.length⟩ := by
  have hlen := e.short_file
  rw [e.length_encode] at hlen
  have hshort : ∀ v, v < 10240 → intOfBytes false (UInt8.ofNat (v % 256)) (UInt8.ofNat (v / 256)) = v := by
    intro v hv
    rw [intOfBytes_short (by omega), getIntValue_of_lt hv]
  rw [Terminfo.header, Header.mk.injEq]
  exact ⟨hshort _ (by omega), hshort _ (by omega), hshort _ (by omega), hshort _ (by omega), hshort _ (by omega)⟩

/-- The header in front of everything else. -/
def head : List UInt8 :=
  short 282 ++ short e.names.length ++ short e.flags.length ++ short e.numbers.length ++ short e.strings.length ++
    short e.table.length

theorem length_head : e.head.length = 12 := rfl

/-! What stands in the file before each of the later sections. -/

def beforeFlags : List UInt8 := e.head ++ e.names

def beforeNumbers : List UInt8 := e.beforeFlags ++ e.flags.map Flag.byte ++ e.pad

def beforeStrings : List UInt8 := e.beforeNumbers ++ e.numbers.flatMap fun n => short n.code

def beforeTable : List UInt8 := e.beforeStrings ++ e.strings.flatMap fun o => short o.code

theorem encode_eq : e.encode = e.beforeTable ++ e.table := by
  simp [Sections.encode, beforeTable, beforeStrings, beforeNumbers, beforeFlags, head]

theorem boolsAt_loaded : (e.loaded address).boolsAt = e.beforeFlags.length := by
  rw [Terminfo.boolsAt, header_loaded, beforeFlags, List.length_append, length_head]
  rfl

section Even
variable {address} (heven : address % 2 = 0)
include heven

theorem intsAt_loaded : (e.loaded address).intsAt = e.beforeNumbers.length := by
  have hend : (e.loaded address).boolsEnd = 12 + e.names.length + e.flags.length := by
    rw [Terminfo.boolsEnd, boolsAt_loaded, header_loaded, beforeFlags, List.length_append, length_head]
    rfl
  have haddr : (e.loaded address).address = address := rfl
  rw [Terminfo.intsAt, hend, haddr]
  simp only [beforeNumbers, beforeFlags, List.length_append, length_head, List.length_map, Sections.pad,
    List.length_replicate]
  omega

theorem stringsAt_loaded : (e.loaded address).stringsAt = e.beforeStrings.length := by
  rw [Terminfo.stringsAt, e.intsAt_loaded heven, header_loaded, beforeStrings, List.length_append,
    length_flatMap_short]
  rfl

theorem tableAt_loaded : (e.loaded address).tableAt = e.beforeTable.length := by
  rw [Terminfo.tableAt, e.stringsAt_loaded heven, header_loaded, beforeTable, List.length_append,
    length_flatMap_short]
  rfl

theorem fits_loaded : (e.loaded address).Fits := by
  have hb := e.boolsAt_loaded address
  have hs := e.stringsAt_loaded heven
  have ht := e.tableAt_loaded heven
  have hlen : (e.loaded address).dataLine.length = e.encode.length := rfl
  have hflags := e.flags_le
  have hnumbers := e.numbers_le
  have hstrings : e.strings.length ≤ 1024 := Nat.le_trans (Nat.le_add_left _ _) e.strings_le
  rw [e.length_encode] at hlen
  simp only [beforeTable, beforeStrings, beforeNumbers, beforeFlags, List.length_append, length_head, List.length_map,
    length_flatMap_short] at hb hs ht
  constructor
  all_goals
    rw [header_loaded, hlen]
    dsimp only
  · rw [Terminfo.boolsEnd, hb, header_loaded]
    dsimp only
    omega
  · omega
  · omega
  · omega

theorem numbersAt_loaded : (e.loaded address).numbersAt (e.loaded address).intsAt e.numbers.length =
    e.numbers.map fun n => getIntValue n.code := by
  have hdata : (e.loaded address).dataLine = e.beforeNumbers ++ (e.numbers.flatMap (fun n => short n.code) ++
      (e.strings.flatMap (fun o => short o.code) ++ e.table)) := by
    change e.encode = _
    rw [encode_eq, beforeTable, beforeStrings, List.append_assoc, List.append_assoc]
  rw [e.intsAt_loaded heven]
  exact capabilitiesAt_append rfl (by decide) hdata

theorem offsetsAt_loaded : (e.loaded address).numbersAt (e.loaded address).stringsAt e.strings.length =
    e.strings.map fun o => getIntValue o.code := by
  have hbound : e.table.length ≤ 65536 := by
    have hlen := e.short_file
    rw [e.length_encode] at hlen
    omega
  have hdata : (e.loaded address).dataLine =
      e.beforeStrings ++ (e.strings.flatMap (fun o => short o.code) ++ e.table) := by
    change e.encode = _
    rw [encode_eq, beforeTable, List.append_assoc]
  rw [e.stringsAt_loaded heven]
  exact capabilitiesAt_append rfl hbound hdata

theorem strings_loaded : (e.loaded address).parsed.strings = e.table := by
  have hdata : (e.loaded address).dataLine = e.beforeTable ++ e.table := e.encode_eq
  rw [Terminfo.parsed, e.tableAt_loaded heven, hdata, header_loaded]
  dsimp only
  rw [List.drop_left, Int.toNat_natCast, List.take_length]

end Even

theorem booleansAt_loaded : (e.loaded address).booleansAt (e.loaded address).boolsAt e.flags.length =
    e.flags.map Flag.value := by
  have hvalue : charValue ∘ Flag.byte = Flag.value := by
    funext f
    cases f <;> rfl
  have hdata : (e.loaded address).dataLine = e.beforeFlags ++ (e.flags.map Flag.byte ++
      (e.pad ++ (e.numbers.flatMap (fun n => short n.code) ++ (e.strings.flatMap (fun o => short o.code) ++ e.table)))) := by
    change e.encode = _
    rw [encode_eq]
    simp [beforeTable, beforeStrings, beforeNumbers]
  have hread := booleansAt_append hdata
  rw [List.length_map, List.map_map, hvalue] at hread
  rw [boolsAt_loaded, hread]

theorem booleans_parsed : (e.loaded address).parsed.booleans =
    storeFrom (Vector.replicate 128 0) 0 (e.flags.map Flag.value) := by
  rw [← e.booleansAt_loaded address, Terminfo.parsed, header_loaded]
  rfl

theorem numbers_parsed {address : ℕ} (heven : address % 2 = 0) : (e.loaded address).parsed.numbers =
    storeFrom (Vector.replicate 128 0) 0 (e.numbers.map fun n => getIntValue n.code) := by
  rw [← e.numbersAt_loaded heven, Terminfo.parsed, header_loaded]
  rfl

theorem getElem?_stringTable_parsed {address : ℕ} (heven : address % 2 = 0) {k : ℕ} (hk : k < e.strings.length) :
    (e.loaded address).parsed.stringTable[k]? = e.strings[k]?.map fun o => newEntry none (getIntValue o.code) := by
  have hn : k < 1024 := Nat.lt_of_lt_of_le hk (Nat.le_trans (Nat.le_add_left _ _) e.strings_le)
  have hcount : (e.loaded address).header.numStrings.toNat = e.strings.length := by
    rw [header_loaded]
    rfl
  have hnone : (e.loaded address).stringTable[k]? = some none := by
    change (Vector.replicate 1024 (none : Option ℤ))[k]? = _
    rw [Vector.getElem?_eq_getElem hn, Vector.getElem_replicate]
  have hoffset := congrArg (·[k]?) (e.offsetsAt_loaded heven)
  simp only [Terminfo.numbersAt, List.getElem?_map, List.getElem?_range hk, Option.map_some] at hoffset
  rw [(e.fits_loaded heven).getElem?_parsed (by omega), hnone, Option.getD_some]
  obtain ⟨o, ho⟩ : ∃ o, e.strings[k]? = some o := ⟨_, List.getElem?_eq_getElem hk⟩
  rw [ho, Option.map_some] at hoffset ⊢
  rw [Option.some.inj hoffset]

theorem table_length_le : e.table.length ≤ 32768 := by
  have hlen := e.short_file
  rw [e.length_encode] at hlen
  omega

/-- The entry is decoded exactly if none of its numbers and strings is cancelled. -/
theorem decoded_loaded {address : ℕ} (heven : address % 2 = 0) : Decoded e (e.loaded address).parsed ↔
    Capability.cancelled ∉ e.numbers ∧ Capability.cancelled ∉ e.strings := by
  constructor
  · intro h
    constructor
    · intro hmem
      obtain ⟨i, hi⟩ := List.mem_iff_getElem?.mp hmem
      obtain ⟨hlt, _⟩ := List.getElem?_eq_some_iff.mp hi
      have hn : i < 128 := Nat.lt_of_lt_of_le hlt e.numbers_le
      have hnumber := h.numbers i hn
      rw [e.numbers_parsed heven, getElem?_storeFrom_replicate hn, List.getElem?_map, hi] at hnumber
      exact (Capability.getIntValue_code (by decide) _).mp (Option.some.inj hnumber) rfl
    · intro hmem
      obtain ⟨k, hk⟩ := List.mem_iff_getElem?.mp hmem
      obtain ⟨hlt, _⟩ := List.getElem?_eq_some_iff.mp hk
      have hstring := h.strings k hlt
      rw [bt, Nat.zero_add, e.getElem?_stringTable_parsed heven hlt, hk] at hstring
      exact (Capability.newEntry_code e.table_length_le _).mp (Option.some.inj hstring) rfl
  · rintro ⟨hnumbers, hstrings⟩
    constructor
    · intro i hi
      rw [booleans_parsed, getElem?_storeFrom_replicate hi, List.getElem?_map]
    · intro i hi
      rw [e.numbers_parsed heven, getElem?_storeFrom_replicate hi, List.getElem?_map]
      cases hget : e.numbers[i]? with
      | none => rfl
      | some n =>
        have hn : n ≠ .cancelled := fun hc => hnumbers (hc ▸ List.mem_of_getElem? hget)
        rw [Option.map_some, Option.map_some, (Capability.getIntValue_code (by decide) n).mpr hn]
    · intro k hk
      rw [bt, Nat.zero_add, e.getElem?_stringTable_parsed heven hk]
      cases hget : e.strings[k]? with
      | none => rw [List.getElem?_eq_getElem hk] at hget; cases hget
      | some o =>
        have ho : o ≠ .cancelled := fun hc => hstrings (hc ▸ List.mem_of_getElem? hget)
        rw [Option.map_some, (Capability.newEntry_code e.table_length_le o).mpr ho]
        rfl
    · exact e.strings_loaded heven

end Entry

/-- `INFO_PARSE` leaves the entry of the file in the tables exactly if the entry cancels no number
and no string. -/
theorem infoParse_decodes_iff (e : Entry) {address fuel : ℕ} (heven : address % 2 = 0) (hfuel : 65535 ≤ fuel) :
    Returns (infoParse fuel (some e.encode)) (fun found s' => found = true ∧ Decoded e s') (.empty address) ↔
      Capability.cancelled ∉ e.numbers ∧ Capability.cancelled ∉ e.strings := by
  have hlong : 12 ≤ e.encode.length := by
    rw [e.length_encode]
    omega
  rw [returns_infoParse rfl hfuel e.short_file, e.byteOrder_encode]
  constructor
  · rintro ⟨_, _, _, _, hdecoded⟩
    exact (e.decoded_loaded heven).mp hdecoded
  · intro h
    exact ⟨by omega, hlong, e.fits_loaded heven, rfl, (e.decoded_loaded heven).mpr h⟩

/-- One capability of each kind. -/
def Entry.small : Entry where
  names := [0]
  flags := [.present]
  numbers := [.is 80]
  table := [97, 0]
  strings := [.is 0]
  flags_le := by decide
  numbers_le := by decide
  strings_le := by decide
  short_file := by decide

theorem infoParse_decodes_small : Returns (infoParse 65535 (some Entry.small.encode))
    (fun found s' => found = true ∧ Decoded .small s') (.empty 0) :=
  (infoParse_decodes_iff .small rfl (Nat.le_refl _)).mpr ⟨by decide, by decide⟩

/-- An entry whose only string is cancelled. -/
def Entry.withCancelled : Entry where
  names := [0]
  flags := []
  numbers := []
  table := []
  strings := [.cancelled]
  flags_le := by decide
  numbers_le := by decide
  strings_le := by decide
  short_file := by decide

/-- The cancelled string gets a pointer far behind the strings. -/
theorem infoParse_cancelled_string : Returns (infoParse 65535 (some Entry.withCancelled.encode))
    (fun found s' => found = true ∧ s'.stringTable[0]? = some (some 65534) ∧ ¬ Decoded .withCancelled s') (.empty 0) := by
  rw [returns_infoParse rfl (Nat.le_refl _) Entry.withCancelled.short_file, Entry.byteOrder_encode]
  refine ⟨by decide, by decide, Entry.fits_loaded _ rfl, rfl, ?_, ?_⟩
  · exact Entry.getElem?_stringTable_parsed _ rfl (by decide)
  · exact fun h => absurd ((Entry.decoded_loaded _ rfl).mp h).2 (by decide)

end BsdAdditions.Curse
