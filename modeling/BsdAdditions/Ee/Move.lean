import BsdAdditions.Ee.State

/-! Columns and cursor movement. -/
namespace BsdAdditions.Ee
open Common Common.Prog

def TAB : ℤ := 9
def SPACE : ℤ := 32

def isBlank (b : UInt8) : Bool := b = 32 || b = 9

/-! ### Columns -/

def tabshift (tempInt : ℤ) : ℤ :=
  let leftover := (tempInt + 1).tmod 8
  if leftover = 0 then 1 else 9 - leftover

def lenChar (eightbit : Bool) (character column : ℤ) : ℤ :=
  if character = TAB then tabshift column
  else if 0 ≤ character ∧ character < 32 then 2
  else if 32 ≤ character ∧ character ≤ 126 then 1
  else if character = 127 then 2
  else if (character > 126 ∨ character < 0) ∧ eightbit = false then 5
  else 1

/-- The width that `out_char` returns. -/
def outChar (eightbit : Bool) (character column : ℤ) : ℤ :=
  if character = TAB then tabshift column
  else if 0 ≤ character ∧ character < 32 then 2
  else if character < 0 ∨ 127 ≤ character then
    if character = 127 then 2
    else if eightbit = false then
      (toString (if character < 0 then character + 256 else character)).length + 2
    else 1
  else 1

/-- The column after one more byte, as `scanline` counts. -/
def scanByte (eightbit : Bool) (temp : ℤ) (b : UInt8) : ℤ :=
  if b ≤ 8 then temp + 2
  else if b = 9 then temp + tabshift temp
  else if 10 ≤ b ∧ b ≤ 31 then temp + 2
  else if 32 ≤ b ∧ b < 127 then temp + 1
  else if b = 127 then temp + 2
  else if eightbit = false then temp + 5
  else temp + 1

/-- How many lines up, at most `k`, there are. -/
def countUp (heap : ℕ → Option Node) : ℕ → ℕ → Option ℕ
  | 0, _ => some 0
  | k + 1, i => do
    match (← heap i).prev with
    | none => some 0
    | some p => do some ((← countUp heap k p) + 1)

/-- `midscreen`, which finds the cursor's column with `scan`. -/
def midscreenWith (scan : Ptr → Ed Unit) (line : ℤ) (pnt : Ptr) : Ed Unit := do
  let s ← get
  let i ← orFault (countUp s.heap (min line s.lastLine).toNat s.currLine)
  set { s with scrVert := i, scrHorz := 0 }
  scan pnt

def scanline : ℕ → Ptr → Ed Unit
  | 0, _ => outOfFuel
  | fuel + 1, pos => do
    let n ← curr
    onlyIf (pos.block ≠ n.line ∨ n.bytes.length < pos.off) fault
    modify fun s => { s with scrHorz := (n.bytes.take pos.off).foldl (scanByte s.eightbit) 0 }
    let s ← get
    if s.scrHorz - s.horizOffset > s.lastCol then
      set { s with horizOffset := s.scrHorz - s.scrHorz.tmod 8 - (s.cols - 8) }
      midscreenWith (scanline fuel) s.scrVert s.point
    else if s.scrHorz < s.horizOffset then
      set { s with horizOffset := max 0 (s.scrHorz - s.scrHorz.tmod 8) }
      midscreenWith (scanline fuel) s.scrVert s.point

def midscreen (fuel : ℕ) : ℤ → Ptr → Ed Unit := midscreenWith (scanline fuel)

/-! ### Single steps -/

def syncScrPos : Ed Unit := modify fun s => { s with scrPos := s.scrHorz }

/-- Back to the left edge of the text. -/
def resetOffset (fuel : ℕ) : Ed Unit := do
  let s ← get
  onlyIf (s.horizOffset ≠ 0) do
    set { s with horizOffset := 0 }
    midscreen fuel s.scrVert s.point

def nextline : Ed Unit := do
  let s ← get
  let n ← curr
  let i ← orFault n.next
  let m ← node i
  set { s with currLine := i, absoluteLin := s.absoluteLin + 1, point := m.start, position := 1,
               scrVert := if s.scrVert = s.lastLine then s.scrVert else s.scrVert + 1 }

def prevline : Ed Unit := do
  let s ← get
  let n ← curr
  let i ← orFault n.prev
  let m ← node i
  set { s with currLine := i, absoluteLin := s.absoluteLin - 1,
               point := m.start.add (m.lineLength - 1), position := 1 + (m.lineLength - 1),
               scrVert := if s.scrVert = 0 then s.scrVert else s.scrVert - 1 }

/-- Whether the byte two before the cursor starts a two-byte character. -/
def wideBefore : Ed Bool := do
  let s ← get
  if s.eeChinese ∧ 2 ≤ s.position then
    return (127 : UInt8) < (← deref (← orFault (s.point.sub? 2)))
  else return false

/-- Whether a two-byte character starts at the cursor. -/
def wideAt : Ed Bool := do
  let s ← get
  if s.eeChinese then
    return decide ((127 : UInt8) < (← deref s.point)) && 2 ≤ (← curr).lineLength - s.position
  else return false

def left (fuel : ℕ) (disp : Bool) : Ed Unit := do
  let s ← get
  let n ← curr
  if s.point ≠ n.start then
    onlyIf (← wideBefore) (retreat 1)
    retreat 1
    scanline fuel (← get).point
    syncScrPos
  else
    match n.prev with
    | none => pure ()
    | some p =>
      if disp = false then
        let m ← node p
        set { s with absoluteLin := s.absoluteLin - 1, currLine := p,
                     point := m.start.add m.lineLength, position := m.lineLength }
      else
        prevline
        scanline fuel (← get).point
        syncScrPos

def right (fuel : ℕ) (disp : Bool) : Ed Unit := do
  let s ← get
  let n ← curr
  if s.position < n.lineLength then
    onlyIf (← wideAt) (advance 1)
    advance 1
    scanline fuel (← get).point
    syncScrPos
  else
    match n.next with
    | none => pure ()
    | some i =>
      if disp = false then
        let m ← node i
        set { s with absoluteLin := s.absoluteLin + 1, currLine := i, point := m.start,
                     position := 1 }
      else
        nextline
        modify fun s => { s with scrPos := 0, scrHorz := 0 }
        resetOffset fuel
        modify fun s => { s with position := 1 }

/-- One round of the loop of `find_pos`. -/
def findStep : Ed Unit := do
  let s ← get
  let b ← deref s.point
  if b = 9 then
    set { s with scrHorz := s.scrHorz + tabshift s.scrHorz }
  else if b < 32 then
    set { s with scrHorz := s.scrHorz + 2 }
  else if ← wideAt then
    set { s with scrHorz := s.scrHorz + 2 }
    advance 1
  else
    set { s with scrHorz := s.scrHorz + 1 }
  advance 1

def findPos (fuel : ℕ) : Ed Unit := do
  modify fun s => { s with scrHorz := 0, position := 1 }
  repeatWhile fuel
    (do
      let s ← get
      return s.scrHorz < s.scrPos && s.position < (← curr).lineLength)
    findStep
  let s ← get
  if s.scrHorz - s.horizOffset > s.lastCol then
    set { s with horizOffset := s.scrHorz - s.scrHorz.tmod 8 - (s.cols - 8) }
    midscreen fuel s.scrVert s.point
  else if s.scrHorz < s.horizOffset then
    set { s with horizOffset := max 0 (s.scrHorz - s.scrHorz.tmod 8) }
    midscreen fuel s.scrVert s.point

def up (fuel : ℕ) : Ed Unit := do
  onlyIf ((← curr).prev ≠ none) do
    prevline
    setPoint (← curr).start
    findPos fuel

def down (fuel : ℕ) : Ed Unit := do
  onlyIf ((← curr).next ≠ none) do
    nextline
    findPos fuel

/-! ### Words and lines -/

def beforeEnd : Ed Bool := do return decide ((← get).position < (← curr).lineLength)

def atBlank : Ed Bool := do return isBlank (← atPoint)

/-- Not in the first column, and on a blank or not as asked. -/
def insideOn (blank : Bool) : Ed Bool := do
  if (← get).position ≠ 1 then return (← atBlank) == blank else return false

def prevWord (fuel : ℕ) : Ed Unit := do
  let s ← get
  if s.position ≠ 1 then
    -- at the start of a word
    onlyIf (isBlank (← deref (← orFault (s.point.sub? 1))))
      (repeatWhile fuel (insideOn false) (left fuel true))
    repeatWhile fuel (insideOn true) (left fuel true)
    repeatWhile fuel (insideOn false) (left fuel true)
    onlyIf (← insideOn true) (right fuel true)
  else left fuel true

def advWord (fuel : ℕ) : Ed Unit := do
  repeatWhile fuel (do if ← beforeEnd then return !(← atBlank) else return false) (right fuel true)
  repeatWhile fuel (do if ← beforeEnd then atBlank else return false) (right fuel true)

def eol (fuel : ℕ) : Ed Unit := do
  if ← beforeEnd then repeatWhile fuel beforeEnd (right fuel true)
  else
    onlyIf ((← curr).next ≠ none) do
      right fuel true
      repeatWhile fuel beforeEnd (right fuel true)

/-- Whether `point` differs from the start of the line. -/
def offStart : Ed Bool := do return decide ((← get).point ≠ (← curr).start)

def bol (fuel : ℕ) : Ed Unit := do
  if ← offStart then repeatWhile fuel offStart (left fuel true)
  else
    onlyIf ((← curr).prev ≠ none) do
      modify fun s => { s with scrPos := 0 }
      up fuel

def advLine (fuel : ℕ) : Ed Unit := do
  if (← offStart) ∨ (← get).scrPos > 0 then
    repeatWhile fuel beforeEnd (right fuel true)
    right fuel true
  else
    onlyIf ((← curr).next ≠ none) do
      modify fun s => { s with scrPos := 0 }
      down fuel

inductive Direction where
  | up | down
  deriving DecidableEq

/-- Up to five more lines, to see how many there are; the count is returned. -/
def peek (there : Node → Option ℕ) (step : Ed Unit) : ℕ → Ed ℕ
  | 0 => pure 0
  | k + 1 => do
    if there (← curr) ≠ none then
      step
      return (← peek there step k) + 1
    else return 0

/-- Makes room on the screen around the cursor: looks at the lines ahead, then returns to the
saved copies of the line and of `point`. -/
def lookAround (fuel : ℕ) (there : Node → Option ℕ) (step : Ed Unit) (sign : ℤ) : Ed Unit := do
  let s ← get
  set { s with tmpLine := s.currLine }
  let i ← peek there step 5
  modify fun t => { t with scrVert := t.scrVert + sign * i, currLine := t.tmpLine,
                           absoluteLin := t.absoluteLin + sign * i, point := s.point }
  scanline fuel s.point

/-- To the start of the next line. -/
def toNextLine (fuel : ℕ) : Ed Unit := do
  if (← get).position ≠ 1 ∧ (← curr).next ≠ none then
    nextline
    modify fun s => { s with scrPos := 0, scrHorz := 0 }
    resetOffset fuel
  else advLine fuel

def moveRel (fuel : ℕ) (direction : Direction) (lines : ℕ) : Ed Unit := do
  match direction with
  | .up =>
    modify fun s => { s with scrPos := 0 }
    repeatWhile fuel (do return 1 < (← get).position) (left fuel true)
    times (up fuel) lines
    let s ← get
    onlyIf (s.lastLine > 5 ∧ s.scrVert < 4) (lookAround fuel Node.prev (up fuel) 1)
  | .down =>
    toNextLine fuel
    times (down fuel) (lines - 1)
    let s ← get
    onlyIf (s.lastLine > 10 ∧ s.scrVert > s.lastLine - 5)
      (lookAround fuel Node.next (down fuel) (-1))

/-- Follows the links while the line asks for it, counting the steps. -/
def walkTo (there : Node → Option ℕ) (more : Node → Bool) : ℕ → ℕ → ℕ → Ed (ℕ × ℕ)
  | 0, _, _ => outOfFuel
  | fuel + 1, line, i => do
    let n ← node line
    match there n with
    | some line' => if more n then walkTo there more fuel line' (i + 1) else pure (line, i)
    | none => pure (line, i)

def digits (cmdStr : List UInt8) : ℕ :=
  (cmdStr.takeWhile fun b => 48 ≤ b && b ≤ 57).foldl (fun i b => i * 10 + (b.toNat - 48)) 0

/-- The jump of `goto_line`, for a line that is not near. -/
def jumpTo (fuel line i : ℕ) (direction : Option Direction) : Ed Unit := do
  let s ← get
  let m ← node line
  set { s with absoluteLin := if direction = some Direction.down then s.absoluteLin - i
                 else s.absoluteLin + i,
               currLine := line, point := m.start, position := 1 }
  midscreen fuel (s.lastLine.tdiv 2) m.start
  syncScrPos

def gotoLine (fuel : ℕ) (cmdStr : List UInt8) : Ed Unit := do
  let number : ℤ := digits cmdStr
  let s ← get
  let (line, ups) ← walkTo Node.prev (fun n => n.lineNumber > number) fuel s.currLine 0
  let (line, i) ← walkTo Node.next (fun n => n.lineNumber < number) fuel line ups
  -- the direction of the last walk that took a step
  let direction := if ups < i then some Direction.down
    else if 0 < ups then some Direction.up else none
  match direction with
  | some d => if i < 30 then moveRel fuel d i else jumpTo fuel line i direction
  | none => jumpTo fuel line i direction

/-- Follows the links to their end, counting the steps. -/
def walkEnd (there : Node → Option ℕ) : ℕ → ℕ → ℕ → Ed (ℕ × ℕ) := walkTo there fun _ => true

def bottom (fuel : ℕ) : Ed Unit := do
  let s ← get
  let (line, i) ← walkEnd Node.next fuel s.currLine 0
  let m ← node line
  set { s with currLine := line, absoluteLin := s.absoluteLin + i, point := m.start,
               horizOffset := 0, position := 1 }
  midscreen fuel s.lastLine m.start
  syncScrPos

def top (fuel : ℕ) : Ed Unit := do
  let s ← get
  let (line, i) ← walkEnd Node.prev fuel s.currLine 0
  let m ← node line
  set { s with currLine := line, absoluteLin := s.absoluteLin - i, point := m.start,
               horizOffset := 0, position := 1 }
  midscreen fuel 0 m.start
  syncScrPos

end BsdAdditions.Ee
