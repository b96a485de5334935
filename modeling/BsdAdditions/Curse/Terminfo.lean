import Mathlib.Data.Int.Notation
import BsdAdditions.Common.Prog

/-! Reading a compiled terminfo entry: `Get_int` and `INFO_PARSE` of `new_curse.c`. -/
namespace BsdAdditions.Curse
open Common Common.Prog

/-- What `INFO_PARSE` reads and fills. `dataLine` holds the bytes of `Data_Line` that the read has
filled, and `termDataPtr` counts from its start; a pointer in `stringTable` counts from the start
of `Strings`. -/
structure Terminfo where
  dataLine : List UInt8
  address : ℕ
  termDataPtr : ℕ
  flipBytes : Bool
  booleans : Vector ℤ 128
  numbers : Vector ℤ 128
  strings : List UInt8
  stringTable : Vector (Option ℤ) 1024

/-- The tables as they are before any file is read. -/
def Terminfo.empty (address : ℕ) : Terminfo where
  dataLine := []
  address := address
  termDataPtr := 0
  flipBytes := false
  booleans := Vector.replicate 128 0
  numbers := Vector.replicate 128 0
  strings := []
  stringTable := Vector.replicate 1024 none

/-- The first index of a string in `stringTable`. -/
def bt : ℕ := 0

/-- The value of a `char`, which is signed. -/
def charValue (b : UInt8) : ℤ := if b < 128 then b.toNat else b.toNat - 256

/-- `array[i] = x`, where the array has the index. -/
def store {α : Type} {n : ℕ} (array : Vector α n) (i : ℕ) (x : α) : Option (Vector α n) :=
  if i < n then some (array.setIfInBounds i x) else none

/-- `*TERM_data_ptr++`. -/
def nextByte : Prog Terminfo UInt8 := do
  let s ← get
  let b ← orFault s.dataLine[s.termDataPtr]?
  set { s with termDataPtr := s.termDataPtr + 1 }
  pure b

def intOfBytes (flip : Bool) (first second : UInt8) : ℤ :=
  let lowByte := if flip then second else first
  let highByte := if flip then first else second
  if highByte = 255 ∧ lowByte = 255 then -1 else lowByte.toNat + highByte.toNat * 256

def getInt : Prog Terminfo ℤ := do
  let first ← nextByte
  let second ← nextByte
  pure (intOfBytes (← get).flipBytes first second)

/-- `while (num) { num--; body; counter++; }` -/
def countDown (fuel : ℕ) (body : ℕ → Prog Terminfo Unit) (num : ℤ) (counter : ℕ) : Prog Terminfo Unit := do
  let _ ← loop (fun c : ℤ × ℕ => pure (decide (c.1 ≠ 0)))
    (fun c => do body c.2; pure (c.1 - 1, c.2 + 1)) fuel (num, counter)

def readBoolean (counter : ℕ) : Prog Terminfo Unit := do
  let b ← nextByte
  let s ← get
  let booleans ← orFault (store s.booleans counter (charValue b))
  set { s with booleans }

def readNumber (counter : ℕ) : Prog Terminfo Unit := do
  let n ← getInt
  let s ← get
  let numbers ← orFault (store s.numbers counter n)
  set { s with numbers }

def readString (counter : ℕ) : Prog Terminfo Unit := do
  let offset ← getInt
  let s ← get
  let old ← orFault s.stringTable[counter]?
  let new := if offset ≠ -1 then (if old = none then some offset else old) else none
  let stringTable ← orFault (store s.stringTable counter new)
  set { s with stringTable }

/-- `memcpy(Strings, temp_ptr, len)`. With a length of -1 the allocation of `Strings` has failed. -/
def copyStrings (tempPtr len : ℤ) : Prog Terminfo Unit := do
  onlyIf (len < 0) fault
  let s ← get
  onlyIf (0 < len ∧ (tempPtr < 0 ∨ s.dataLine.length < tempPtr + len)) fault
  set { s with strings := (s.dataLine.drop tempPtr.toNat).take len.toNat }

/-- Whether the magic number is right, in one byte order or in the other. -/
def checkMagic : Prog Terminfo Bool := do
  if (← getInt) ≠ 282 then
    modify fun s => { s with flipBytes := true, termDataPtr := s.termDataPtr - 2 }
    return (← getInt) = 282
  else return true

/-- The counts that follow the magic number. -/
structure Header where
  numNames : ℤ
  numBools : ℤ
  numInts : ℤ
  numStrings : ℤ
  stringTableLen : ℤ

def getHeader : Prog Terminfo Header := do
  let numNames ← getInt
  let numBools ← getInt
  let numInts ← getInt
  let numStrings ← getInt
  let stringTableLen ← getInt
  pure { numNames, numBools, numInts, numStrings, stringTableLen }

/-- Everything behind the header. -/
def parseSections (fuel : ℕ) (h : Header) : Prog Terminfo Unit := do
  modify fun s => { s with termDataPtr := s.termDataPtr + h.numNames.toNat }
  countDown fuel readBoolean h.numBools 0
  -- force alignment
  modify fun s => { s with termDataPtr := s.termDataPtr + (s.address + s.termDataPtr) % 2 }
  countDown fuel readNumber h.numInts 0
  let s ← get
  copyStrings (s.termDataPtr + h.numStrings + h.numStrings) h.stringTableLen
  countDown fuel readString h.numStrings bt

/-- `INFO_PARSE` on a file of the given contents; `none` is a file that cannot be read. -/
def infoParse (fuel : ℕ) : Option (List UInt8) → Prog Terminfo Bool
  | none => pure false
  | some file => do
    modify fun s => { s with termDataPtr := 0, dataLine := file.take 10240 }
    if 10240 ≤ (← get).dataLine.length then return false
    if ← checkMagic then
      parseSections fuel (← getHeader)
      return true
    else return false

end BsdAdditions.Curse
