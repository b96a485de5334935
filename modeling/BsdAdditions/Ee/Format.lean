import BsdAdditions.Ee.Edit

/-! Typing, and the two paragraph formatters. Typing a blank may format the paragraph, and
formatting types blanks. -/
namespace BsdAdditions.Ee
open Common Common.Prog

/-! ### What the formatters look at -/

/-- A line with a `.` or a `>` in front counts as blank. -/
def blankLine : Option ℕ → Ed Bool
  | none => pure true
  | some i => do
    let n ← node i
    let b ← orFault n.bytes[0]?
    if b = 46 ∨ b = 62 then return true
    else return (n.content.takeWhile isBlank).length + 1 == n.lineLength

def blankHere : Ed Bool := do blankLine (some (← get).currLine)

def blankNext : Ed Bool := do blankLine (← curr).next

def blankPrev : Ed Bool := do blankLine (← curr).prev

def firstByte : Ed UInt8 := do orFault (← curr).bytes[0]?

def nextWord (string : List UInt8) : List UInt8 :=
  ((cString string).dropWhile fun b => !isBlank b).dropWhile isBlank

def firstWordLen : Option ℕ → Ed ℕ
  | none => pure 0
  | some i => do
    let n ← node i
    match cString n.bytes with
    | [] => return 0
    | b :: bs =>
      if b = 46 ∨ b = 62 then return 0
      else return wordLength (if isBlank b then nextWord (b :: bs) else b :: bs)

def nextWordLen : Ed ℕ := do firstWordLen (← curr).next

/-- To the first line of the paragraph. -/
def paragraphStart (fuel : ℕ) : Ed Unit := do
  onlyIf ((← get).position ≠ 1) (bol fuel)
  repeatWhile fuel (do return !(← blankPrev)) (bol fuel)

/-- The word at the cursor becomes the search string. -/
def takeWord : Ed Unit := do
  let s ← get
  let n ← curr
  let rest ← orFault (n.readMany s.point (n.lineLength - s.position))
  set { s with srchStr := some (rest.takeWhile fun b => b ≠ 0 && !isBlank b) }

/-- Searches until the cursor is at `line`, counting the searches. -/
def countSearches (fuel : ℕ) (line : Ptr) : Ed (ℕ × Bool) :=
  loop (fun c => do return decide ((← get).point ≠ line) && c.2)
    (fun c => do return (c.1 + 1, ← search fuel)) fuel (0, true)

/-- Puts a blank at the end of the line unless there is one. -/
def blankAtEnd (fuel : ℕ) (insert : ℤ → Ed Unit) : Ed Unit := do
  left fuel true
  if (← atPoint) ≠ 32 then
    right fuel true
    insert SPACE
  else right fuel true

def recenter (fuel : ℕ) : Ed Unit := do
  let s ← get
  midscreen fuel s.scrVert s.point

/-! ### Automatic formatting -/

/-- The line the word was taken from goes when nothing is left of it. -/
def dropEmptied (fuel : ℕ) : Ed Bool := do
  let b ← firstByte
  if (← blankHere) && b ≠ 46 && b ≠ 62 then
    delLine fuel
    return false
  else return true

/-- One round of the loop that fills the line with words of the next one. -/
def fillRound (fuel : ℕ) (insert : ℤ → Ed Unit) : Ed Bool := do
  advLine fuel
  onlyIf (← atBlank) (advWord fuel)
  delWord
  onlyIf ((← get).position ≠ 1) (bol fuel)
  let notBlank ← dropEmptied fuel
  left fuel true
  undelWord
  eol fuel
  blankAtEnd fuel insert
  return notBlank

/-- To the next line of the paragraph, or to a new one at its end. -/
def toNextPlace (fuel : ℕ) : Ed Unit := do
  if ← blankNext then insertLine fuel true else advLine fuel

/-- One round of the loop that moves words across the margin to the next line. -/
def spillRound (fuel : ℕ) (notBlank : Bool) : Ed Bool := do
  prevWord fuel
  if (← get).position ≠ 1 then
    delWord
    toNextPlace fuel
    onlyIf (← atBlank) (advWord fuel)
    undelWord
    onlyIf ((← get).position ≠ 1) (bol fuel)
    left fuel true
    return true
  else return notBlank

/-- One line of the paragraph; returns whether to leave the loop. -/
def autoLine (fuel : ℕ) (insert : ℤ → Ed Unit) : Ed Bool := do
  onlyIf ((← get).position ≠ (← curr).lineLength) (eol fuel)
  blankAtEnd fuel insert
  let notBlank ← loop
    (fun _ => do
      let wordLen ← nextWordLen
      let s ← get
      return 0 < wordLen && s.scrPos + wordLen < s.rightMargin)
    (fun _ => fillRound fuel insert) fuel false
  let notBlank ← loop (fun _ => do let s ← get; return s.rightMargin ≤ s.scrPos)
    (spillRound fuel) fuel notBlank
  if !(← blankNext) || notBlank then
    advLine fuel
    return false
  else return true

/-- Off a blank and off the end of the line, to the word before. -/
def backToWord (fuel : ℕ) : Ed Unit := do
  let s ← get
  onlyIf (s.position ≠ 1) do
    let b ← atPoint
    let n ← curr
    onlyIf (isBlank b || s.position = n.lineLength || b = 0) (prevWord fuel)

/-- What `Auto_Format` does between saving the deleted text and restoring it. -/
def autoFormatCore (fuel : ℕ) (insert : ℤ → Ed Unit) : Ed Unit := do
  let offset : ℤ := (← get).position
  backToWord fuel
  modify fun s => { s with dWrdLen := 0, dWord := none, caseSen := true }
  onlyIf (← atBlank) (advWord fuel)
  let s ← get
  let offset := offset - s.position
  takeWord
  paragraphStart fuel
  let (stringCount, _) ← countSearches fuel s.point
  paragraphStart fuel
  let (counter, _) ← loop (fun c : ℕ × Bool => pure !c.2)
    (fun c => do
      let leave ← autoLine fuel insert
      return (if leave then c.1 else c.1 + 1, leave)) fuel (0, false)
  onlyIf ((← get).position ≠ 1) (bol fuel)
  let _ ← loop (fun c : ℤ => do
      if 0 < c then return true else return !(← blankPrev))
    (fun c => do bol fuel; return c - 1) fuel (counter : ℤ)
  let (left', _) ← loop (fun c : ℕ × Bool => return c.2 && 0 < c.1)
    (fun c => do return (c.1 - 1, ← search fuel)) fuel (stringCount, true)
  times (right fuel true) offset.toNat
  onlyIf (0 < left' ∧ offset < 0) (times (left fuel true) (-offset).toNat)

def autoFormatBody (fuel : ℕ) (insert : ℤ → Ed Unit) : Ed Unit := do
  let old ← get
  onlyIf (old.observMargins = true) do
    if ← blankHere then return
    else
      set { old with dLine := none, autoFormat := false }
      autoFormatCore fuel insert
      modify fun s => { s with dWord := old.dWord, dWrdLen := old.dWrdLen, caseSen := old.caseSen,
                               srchStr := old.srchStr, dChar := old.dChar, autoFormat := true,
                               dltLineLength := old.dltLineLength, dLine := old.dLine,
                               formatted := true }
      recenter fuel

/-! ### Typing -/

/-- Brings the cursor's word to a new line when it crosses the right margin. -/
def wrap (fuel : ℕ) : Ed Unit := do
  let s ← get
  onlyIf (s.observMargins = true ∧ s.rightMargin < s.scrPos) do
    let counter := s.position
    repeatWhile fuel (do let s ← get; return s.rightMargin < s.scrPos) (prevWord fuel)
    let s ← get
    if s.scrPos = 0 then goRight fuel counter
    else
      insertLine fuel true
      times (right fuel true) (counter - s.position)

/-- The byte is put at `p`, and the rest of the line moves up. -/
def Node.insertByte (n : Node) (p : Ptr) (position : ℕ) (b : UInt8) : Option Node := do
  let n := { n with lineLength := n.lineLength + 1 }
  let n ← n.shiftUp p (n.lineLength - position + 1)
  n.write p b

def putByte (b : UInt8) : Ed Unit := do
  let s ← get
  let n ← curr
  onlyIf (n.maxLength < n.lineLength + 5) do
    setPoint (← resizLine 10 s.currLine s.position)
  let s ← get
  setCurr (← orFault ((← curr).insertByte s.point s.position b))

/-- The character goes into the line, and the cursor behind it. -/
def typeByte (character : ℤ) : Ed Unit := do
  markChanged
  putByte (toByte character)
  modify fun s =>
    { s with scrHorz := s.scrHorz + if s.host.isprint (toByte character) then 1
               else outChar s.eightbit character s.scrHorz }
  syncScrPos
  advance 1

/-- Keeps the cursor on the screen. -/
def scrollRight (fuel : ℕ) : Ed Unit := do
  let s ← get
  onlyIf (s.scrHorz - s.horizOffset > s.lastCol) do
    set { s with horizOffset := s.horizOffset + 8 }
    midscreen fuel s.scrVert s.point

def insertBody (fuel : ℕ) (autoFormat : Ed Unit) (insert : ℤ → Ed Unit) (character : ℤ) :
    Ed Unit := do
  let s ← get
  if character = TAB ∧ s.expandTabs = true then
    times (insert SPACE) (lenChar s.eightbit TAB s.scrHorz).toNat
    onlyIf ((← get).autoFormat = true) autoFormat
  else
    typeByte character
    wrap fuel
    scrollRight fuel
    let s ← get
    if s.autoFormat = true ∧ character = SPACE ∧ s.formatted = false then autoFormat
    else onlyIf (character ≠ SPACE ∧ character ≠ TAB) (set { s with formatted := false })

/-- `insert` and `Auto_Format`, which call each other, to a given depth. -/
def typing (fuel : ℕ) : ℕ → (ℤ → Ed Unit) × Ed Unit
  | 0 => (fun _ => outOfFuel, outOfFuel)
  | depth + 1 =>
    (insertBody fuel (typing fuel depth).2 (typing fuel depth).1,
      autoFormatBody fuel (typing fuel depth).1)

def insert (fuel : ℕ) : ℤ → Ed Unit := (typing fuel fuel).1

def autoFormat (fuel : ℕ) : Ed Unit := (typing fuel fuel).2

def undelChar (fuel : ℕ) : Ed Unit := do
  let b0 := (← get).dChar.getD 0 0
  if b0 = 10 then insertLine fuel true
  else
    modify fun s => { s with inChar := b0.toNat }
    insert fuel b0.toNat
    let b1 := (← get).dChar.getD 1 0
    onlyIf (b1 ≠ 0) do
      modify fun s => { s with inChar := b1.toNat }
      insert fuel b1.toNat

/-! ### Formatting a paragraph on request -/

/-- Appends the next line of the paragraph to this one. -/
def joinNext (fuel : ℕ) : Ed Unit := do
  eol fuel
  blankAtEnd fuel (insert fuel)
  delChar fuel
  onlyIf (← atBlank) delWord

/-- Whether the cursor is at the given byte with a blank behind it. -/
def followedBlank (b : UInt8) : Ed Bool := do
  let p := (← get).point
  if (← deref p) = b then return (← deref (p.add 1)) == 32 else return false

/-- Two blanks after a full stop. -/
def spaceStop (fuel : ℕ) : Ed Unit := do
  onlyIf (← followedBlank 46) do
    right fuel true
    insert fuel SPACE
    insert fuel SPACE
    repeatWhile fuel (do return (← atPoint) == 32) (delChar fuel)
  right fuel true

/-- One blank where there are several. -/
def squeezeBlank (fuel : ℕ) : Ed Unit := do
  if ← followedBlank 32 then delChar fuel else right fuel true

/-- The next line between the margins. -/
def breakLine (fuel : ℕ) : Ed Unit := do
  repeatWhile fuel (do
    let s ← get
    if s.scrPos < s.rightMargin then beforeEnd else return false) (right fuel true)
  onlyIf (← beforeEnd) do
    prevWord fuel
    onlyIf ((← get).position = 1) (advWord fuel)
    insertLine fuel true

/-- What `Format` does between saving the deleted text and restoring it. -/
def formatCore (fuel : ℕ) : Ed Unit := do
  let offset : ℤ := (← get).position
  onlyIf ((← get).position ≠ 1) (prevWord fuel)
  modify fun s => { s with dWord := none, caseSen := true }
  onlyIf (← atBlank) (advWord fuel)
  let s ← get
  let offset := offset - s.position
  takeWord
  paragraphStart fuel
  let (stringCount, status) ← countSearches fuel s.point
  paragraphStart fuel
  modify fun s => { s with observMargins := false }
  repeatWhile fuel (do return !(← blankNext)) (joinNext fuel)
  bol fuel
  advWord fuel
  repeatWhile fuel beforeEnd (squeezeBlank fuel)
  bol fuel
  repeatWhile fuel beforeEnd (spaceStop fuel)
  modify fun s => { s with observMargins := true }
  bol fuel
  repeatWhile fuel beforeEnd (breakLine fuel)
  bol fuel
  repeatWhile fuel (do return !(← blankPrev)) (bol fuel)
  onlyIf (status = true) (times (do let _ ← search fuel) stringCount)
  times (right fuel true) offset.toNat

def format (fuel : ℕ) : Ed Unit := do
  let old ← get
  onlyIf (old.observMargins = true) do
    if ← blankHere then return
    else
      set { old with autoFormat := false }
      formatCore fuel
      modify fun s => { s with dWord := old.dWord, caseSen := old.caseSen, srchStr := old.srchStr,
                               dChar := old.dChar, autoFormat := old.autoFormat }
      recenter fuel

end BsdAdditions.Ee
