import BsdAdditions.Common.Overwrite
import BsdAdditions.Common.Prog
import BsdAdditions.Common.Scan
import BsdAdditions.Common.Terminal

/-! The update of the screen: what is sent to the terminal so that it shows the virtual screen. -/
namespace BsdAdditions.Curse.Screen
open Common Common.Prog

/-- A character of a line with its attributes. -/
structure Cell where
  char : UInt8
  attr : UInt8
  deriving DecidableEq

/-- A line. Its buffers have one place more than the screen has columns. -/
structure Line where
  cells : List Cell
  lastChar : ℕ
  changed : Bool

/-- The size of the screen, the capabilities that the terminal has besides cursor addressing, and the
handling of two-byte characters. -/
structure Setup where
  lines : ℕ
  cols : ℕ
  cl : Bool
  ce : Bool
  cs : Bool
  al : Bool
  dl : Bool
  sr : Bool
  ic : Bool
  im : Bool
  ei : Bool
  dc : Bool
  sa : Bool
  so : Bool
  me : Bool
  se : Bool
  ms : Bool
  xs : Bool
  chinese : Bool

/-- `nc_scrolling_ability` as `initscr` sets it. -/
def Setup.scrolls (g : Setup) : Bool := (g.al && g.dl) || (g.cs && g.sr)

/-- `curscr` is what the terminal is taken to show, the virtual screen what it is to show. Both cover
the screen. -/
structure Display where
  curscr : List Line
  virtualScr : List Line
  lx : ℤ
  ly : ℤ
  scrollUp : ℕ
  scrollDown : ℕ
  currX : ℤ
  currY : ℤ
  stand : Bool
  repaintScreen : Bool
  virtualLines : List Bool
  out : List Order

abbrev Disp := Prog Display

def emit (o : Order) : Disp Unit := modify fun s => { s with out := s.out ++ [o] }

/-- `String_Out` of a capability: nothing is sent if the terminal does not have it. -/
def stringOut (cap : Bool) (o : Order) : Disp Unit := onlyIf (cap = true) (emit o)

def curLine (y : ℕ) : Disp Line := do orFault (← get).curscr[y]?

def virtLine (y : ℕ) : Disp Line := do orFault (← get).virtualScr[y]?

def curCell (y x : ℕ) : Disp Cell := do orFault (← curLine y).cells[x]?

def virtCell (y x : ℕ) : Disp Cell := do orFault (← virtLine y).cells[x]?

def setCur (y : ℕ) (l : Line) : Disp Unit := modify fun s => { s with curscr := s.curscr.set y l }

/-- A fault unless the buffers are large enough. -/
def inBounds (c : Prop) [Decidable c] : Disp Unit := if c then pure () else fault

/-- A place of a line is written. -/
def writeCur (y x : ℕ) (c : Cell) : Disp Unit := do
  let l ← curLine y
  inBounds (x < l.cells.length)
  setCur y { l with cells := l.cells.set x c }

section
variable (g : Setup)

def attributeOn : Disp Unit :=
  if g.sa then emit (.standout true) else stringOut g.so (.standout true)

def attributeOff : Disp Unit :=
  if g.me then emit (.standout false)
  else if g.sa then emit (.standout false)
  else stringOut g.se (.standout false)

/-- Both windows begin in the first row and column. -/
def position (row col : ℤ) : Disp Unit := do
  let s ← get
  onlyIf (row ≠ s.currY ∨ col ≠ s.currX) do
    emit (.moveTo row col)
    onlyIf (s.stand = true ∧ g.ms = false) (attributeOn g)
    modify fun s => { s with currX := col, currY := row }

/-- The highlighting for a character. -/
def mark (attr : UInt8) : Disp Unit := do
  let s ← get
  if attr ≠ 0 ∧ s.stand = false then
    modify fun s => { s with stand := true }
    attributeOn g
  else onlyIf (s.stand = true ∧ attr = 0) do
    modify fun s => { s with stand := false }
    attributeOff g

/-- A character goes to the terminal and into `curscr`, but for the last one of the last line. -/
def charOut (y : ℕ) (c : Cell) (offset : ℕ) : Disp Unit := do
  mark g c.attr
  let s ← get
  onlyIf (c.attr ≠ 0 ∧ s.stand = true ∧ g.xs = true) (attributeOn g)
  let s ← get
  onlyIf (¬ ((g.lines : ℤ) - 1 ≤ s.currY ∧ (g.cols : ℤ) - 1 ≤ s.currX)) do
    emit (.char c.char)
    writeCur y offset c
  modify fun s => { s with currX := s.currX + 1 }

/-- Standout mode is left at this place. -/
def endStand (row col : ℤ) : Disp Unit := do
  let s ← get
  onlyIf (s.stand = true) do
    modify fun s => { s with stand := false }
    position g row col
    attributeOff g

/-- The line from this column on, in `curscr`. -/
def blankFrom (cells : List Cell) (column cols : ℕ) : List Cell :=
  (overwrite cells column (List.replicate (cols - column) ⟨32, 0⟩)).modify column fun c => { c with char := 0 }

def clearToEol (row column : ℕ) : Disp Unit := do
  -- the walk along the lines ends with the last one
  let y := min row ((← get).curscr.length - 1)
  let l ← curLine y
  inBounds (column < l.cells.length ∧ g.cols ≤ l.cells.length)
  setCur y { l with cells := blankFrom l.cells column g.cols, lastChar := column }
  onlyIf (column < g.cols) do
    endStand g row column
    if g.ce then emit .clearToEol
    else do
      Prog.times (emit (.char 32)) (g.cols - column)
      modify fun s => { s with currX := g.cols }

/-! ### Comparing lines -/

/-- The lines agree at this place, and neither of them ends there. -/
def goesOn (a b : List Cell) (i j : ℕ) : Option Bool :=
  a[i]?.bind fun c => b[j]?.map fun d => decide (c = d ∧ c.char ≠ 0 ∧ d.char ≠ 0)

/-- 2 or 1 for different lines, 0 for blank ones and -1 for equal ones. -/
def compLine (l₁ l₂ : Line) : Option ℤ :=
  if l₁.lastChar ≠ l₂.lastChar then some 2
  else
    (advance (fun i => goesOn l₁.cells l₂.cells i i) (l₁.cells.length + 1) 0).bind fun i =>
      l₁.cells[i]?.bind fun c => l₂.cells[i]?.map fun d =>
        if c.char = 0 ∧ d.char = 0 then if i = 0 then 0 else -1 else 1

/-! ### Characters deleted and inserted within a line -/

/-- `Char_del` on the line from the place on: `maxlen` counts the places that it may change. -/
def shiftDown : ℕ → List Cell → Option (List Cell)
  | _, [] => none
  | 0, c :: rest => some (c :: rest)
  | maxlen + 1, c :: rest =>
    if c.char = 0 then some (c :: rest)
    else rest.head?.bind fun d => (shiftDown maxlen rest).map (d :: ·)

def charDel (y offset : ℕ) : Disp Unit := do
  let l ← curLine y
  let cells ← orFault (shiftDown (g.cols - offset) (l.cells.drop offset))
  setCur y { l with cells := l.cells.take offset ++ cells }
  stringOut g.dc .deleteChar

/-- The end of the line, or the last place but one. -/
def lastToMove (cells : List Cell) : Option ℕ :=
  advance (fun i => cells[i]?.map fun c => decide (c.char ≠ 0 ∧ i + 2 < g.cols)) (cells.length + 1) 0

def charIns (y : ℕ) (c : Cell) (offset : ℕ) : Disp Unit := do
  let l ← curLine y
  let one ← orFault (lastToMove g l.cells)
  let moved := (l.cells.drop offset).take (one + 1 - offset)
  inBounds (one + 1 < l.cells.length ∧ offset < l.cells.length)
  setCur y { l with cells := (overwrite l.cells (offset + 1) moved).set offset c }
  charOut g y c offset

/-- The first place from the offset on where the line ends, or the width of the screen. -/
def lineEnd (cells : List Cell) (offset : ℕ) : Option ℕ :=
  advance (fun i => cells[i]?.map fun c => decide (c.char ≠ 0 ∧ i < g.cols)) (cells.length + 1) offset

/-- The last character is found again, after the line has been changed. -/
def setLastChar (y offset : ℕ) : Disp Unit := do
  let l ← curLine y
  let last ← orFault (lineEnd g l.cells offset)
  setCur y { l with lastChar := last }

/-- How many characters agree from these places on, up to ten. -/
def common (old new : List Cell) (endOld endNew : ℕ) : Option ℕ :=
  advance (fun k => (goesOn old new (endOld + k) (endNew + k)).map (· && decide (k < 10))) (old.length + 1) 0

/-- Whether characters have been deleted in the middle of the line; if so, they are deleted. -/
def checkDelete (line offset : ℕ) : Disp Bool := do
  let new := (← virtLine line).cells
  let old := (← curLine line).cells
  let endOld ← orFault (advance (fun i => new[offset]?.bind fun n => old[i]?.bind fun o => new[i]?.map fun m =>
    decide (n ≠ o ∧ o.char ≠ 0 ∧ m.char ≠ 0)) (old.length + 1) offset)
  let o ← orFault old[endOld]?
  if o.char = 0 then return false
  let k ← orFault (common old new endOld offset)
  let n ← orFault new[offset + k]?
  if 8 < k ∨ n.char = 0 ∧ k ≠ 0 then
    onlyIf (n.char = 0) do
      position g line (offset + k : ℕ)
      clearToEol g line (offset + k)
    position g line offset
    Prog.times (charDel g line offset) (endOld - offset)
    setLastChar g line offset
    return true
  else return false

/-- A character is inserted: at a place that is opened for it, unless the terminal is in insert mode. -/
def insertCell (line : ℕ) (insert : Bool) (c : Cell) (k : ℕ) : Disp Unit := do
  onlyIf (insert = false) (stringOut g.ic .insertChar)
  charIns g line c k

/-- The characters of the virtual line up to an end are inserted, each behind the one before it. -/
def insertCells (line : ℕ) (insert : Bool) : ℕ → ℕ → Disp Unit
  | 0, _ => pure ()
  | n + 1, k => do
    insertCell g line insert (← virtCell line k) k
    insertCells line insert n (k + 1)

/-- Whether characters have been inserted in the middle of the line; if so, they are inserted. -/
def checkInsert (line offset : ℕ) : Disp Bool := do
  let new := (← virtLine line).cells
  let old := (← curLine line).cells
  let endNew ← orFault (advance (fun i => new[i]?.bind fun n => old[offset]?.bind fun o => old[i]?.map fun p =>
    decide (n ≠ o ∧ n.char ≠ 0 ∧ p.char ≠ 0)) (old.length + 1) offset)
  let n ← orFault new[endNew]?
  if n.char = 0 then return false
  let k ← orFault (common old new offset endNew)
  -- the rest of both lines may be the same where it stands
  let oldOff ← orFault (advance (fun i => goesOn old new i i) (old.length + 1) endNew)
  let same := decide (old[oldOff]? = new[oldOff]?)
  let n ← orFault new[endNew + k]?
  if same = false ∧ (8 < k ∨ n.char = 0 ∧ k ≠ 0) then
    position g line offset
    let insert := !g.ic
    onlyIf (insert = true) (stringOut g.im (.insertMode true))
    insertCells g line insert (endNew - offset) offset
    onlyIf (insert = true) (stringOut g.ei (.insertMode false))
    setLastChar g line offset
    return true
  else return false

/-! ### One line -/

/-- The next place that differs. With the glitch of some terminals highlighted text is passed first. -/
def skipSame (y j : ℕ) : Disp ℕ := do
  let new := (← virtLine y).cells
  let old := (← curLine y).cells
  if (← get).stand = true ∧ g.xs = true then
    let j ← orFault (advance (fun i => new[i]?.bind fun n => old[i]?.map fun o =>
      decide (n = o ∧ n.char ≠ 0 ∧ n.attr ≠ 0)) (old.length + 1) j)
    let n ← orFault new[j]?
    onlyIf ((← get).stand = true ∧ n.attr = 0) do
      endStand g y j
      attributeOff g
    return j
  else
    orFault (advance (fun i => new[i]?.bind fun n => old[i]?.map fun o =>
      decide (n = o ∧ n.char ≠ 0)) (old.length + 1) j)

/-- A character that differs is written, or only noted if it is a space behind the end of the line. -/
def mendCell (y j : ℕ) (v : Cell) (changed : Bool) : Disp Unit := do
  let c ← curCell y j
  onlyIf ((changed = false ∨ c ≠ v) ∧ j < g.cols) do
    if v.char = 32 ∧ c.char = 0 ∧ v.attr = c.attr then writeCur y j { c with char := 32 }
    else do
      position g y j
      charOut g y v j

def clearChanged (y : ℕ) : Disp Unit :=
  modify fun s => { s with virtualScr := s.virtualScr.modify y fun l => { l with changed := false } }

/-- Characters are looked for that have been inserted, unless some have been deleted. -/
def checkInsertUnless (deleted : Bool) (y j : ℕ) : Disp Bool := if deleted then pure true else checkInsert g y j

/-- One place that differs: the lines are brought into step around it, and it is written. -/
def mend (y j : ℕ) (v : Cell) (firstTime : Bool) : Disp Unit := do
  let virt ← virtLine y
  onlyIf (firstTime = true ∧ virt.changed = true) do
    let curr ← curLine y
    onlyIf (curr.lastChar ≤ virt.lastChar) do
      let _ ← checkInsert g y j
  let deleted ← checkDelete g y j
  clearChanged y
  let changed ← checkInsertUnless g deleted y j
  mendCell g y j v changed

/-- The rounds over a line of a terminal that inserts and deletes characters. -/
def editLoop (y : ℕ) : ℕ → ℕ → Bool → Disp ℕ
  | 0, _, _ => outOfFuel
  | fuel + 1, j, firstTime => do
    let v ← virtCell y j
    if v.char ≠ 0 ∧ j < g.cols then
      let j ← skipSame g y j
      let v ← virtCell y j
      let c ← curCell y j
      onlyIf (v.attr ≠ c.attr ∧ c.attr ≠ 0 ∧ g.xs = true) do
        position g y j
        attributeOff g
        attributeOff g
      if v.char ≠ 0 then
        mend g y j v firstTime
        let v ← virtCell y (j + 1)
        onlyIf (v.attr = 0) (endStand g y (j + 1))
        editLoop y fuel (j + 1) false
      else
        onlyIf (v.attr = 0) (endStand g y j)
        editLoop y fuel j firstTime
    else return j

/-- The characters of a line from a place to its end are sent; they are read by `cell`. -/
def putCells (y : ℕ) (cell : ℕ → Disp Cell) : ℕ → ℕ → Disp ℕ
  | 0, _ => outOfFuel
  | fuel + 1, j => do
    let c ← cell j
    if c.char ≠ 0 ∧ j < g.cols then
      charOut g y c j
      putCells y cell fuel (j + 1)
    else return j

/-- Two-byte characters are redrawn from their first byte; the byte before the first one of the line is
not in the buffer. -/
def backToLead (y j : ℕ) : Disp ℕ :=
  if g.chinese then
    if j = 0 then fault
    else do
      let c ← curCell y (j - 1)
      return if 128 ≤ c.char then j - 1 else j
  else return j

/-- The rounds over a line that is written again from the first difference on. -/
def rewriteLoop (y : ℕ) : ℕ → ℕ → Disp ℕ
  | 0, _ => outOfFuel
  | fuel + 1, j => do
    let v ← virtCell y j
    if j < g.cols ∧ v.char ≠ 0 then
      let new := (← virtLine y).cells
      let old := (← curLine y).cells
      let j ← orFault (advance (fun i => new[i]?.bind fun n => old[i]?.map fun o =>
        decide (o = n ∧ i < g.cols ∧ n.char ≠ 0)) (old.length + 1) j)
      let j ← backToLead g y j
      let v ← virtCell y j
      if j < g.cols ∧ v.char ≠ 0 then
        position g y j
        clearToEol g y j
        position g y j
        let j ← putCells g y (virtCell y) (g.cols + 1) j
        rewriteLoop y fuel j
      else rewriteLoop y fuel j
    else return j

/-- What is left of the old line behind the end of the new one goes. -/
def dropRest (y j : ℕ) : Disp Unit := do
  let v ← virtCell y j
  let c ← curCell y j
  onlyIf (v.char = 0 ∧ c.char ≠ 0) do
    position g y j
    clearToEol g y j

/-- The rounds over a line, by what the terminal can do. -/
def lineRounds (y : ℕ) : Disp ℕ := do
  let first ← curCell y 0
  if (g.ic = true ∨ g.im = true) ∧ g.dc = true ∧ first.char ≠ 0 ∧ g.chinese = false then
    editLoop g y (g.cols + 1) 0 true
  else rewriteLoop g y (g.cols + 1) 0

def updateLine (y : ℕ) : Disp Unit := do
  let j ← lineRounds g y
  dropRest g y j
  endStand g y j

def updateLines : ℕ → ℕ → Disp Unit
  | 0, _ => pure ()
  | n + 1, y => do
    updateLine g y
    updateLines n (y + 1)

/-! ### Scrolling -/

/-- `clear_line` from the first column on. -/
def Line.clear (l : Line) : Line := { cells := l.cells.set 0 ⟨0, 0⟩, lastChar := 0, changed := true }

/-- The line at `endRow` leaves the screen and comes back, blank, at `row`. -/
def insertLine (row endRow : ℕ) : Disp Unit := do
  let lines := (← get).curscr
  let bottom := min endRow (lines.length - 1)
  let l ← curLine bottom
  inBounds (row + 1 < lines.length)
  modify fun s => { s with curscr := (lines.eraseIdx bottom).insertIdx row l.clear }
  onlyIf (g.cs = false ∧ endRow < g.lines) do
    position g endRow 0
    stringOut g.dl .deleteLine
  position g row 0
  if g.al then emit .insertLine else stringOut g.sr .scrollBack

/-- The line at `row` leaves the screen and comes back, blank, in front of the line that has come to
`endRow`, or of the last line. -/
def deleteLine (row endRow : ℕ) : Disp Unit := do
  let lines := (← get).curscr
  let l ← curLine row
  inBounds (1 < lines.length)
  modify fun s => { s with curscr := (lines.eraseIdx row).insertIdx (min endRow (lines.length - 2)) l.clear }
  position g row 0
  stringOut g.dl .deleteLine
  if g.cs = false ∧ endRow < g.lines then
    position g endRow 0
    stringOut g.al .insertLine
  else onlyIf (g.cs = true ∧ g.dl = false) do
    position g endRow 0
    emit (.char 10)

/-- The part of the screen that scrolls is set, which leaves the cursor anywhere. -/
def setRegion (top bottom : ℤ) : Disp Unit :=
  onlyIf (g.cs = true) do
    emit (.region top bottom)
    modify fun s => { s with currX := -1, currY := -1 }

/-- The lines from `offset` on are compared, and it is noted which are the same; the result tells whether
one is not. -/
def compareLines : ℕ → ℕ → Disp Bool
  | 0, _ => return false
  | n + 1, offset => do
    let similar ← orFault (compLine (← curLine offset) (← virtLine offset))
    modify fun s => { s with virtualLines := s.virtualLines.set offset (decide (similar ≤ 0)) }
    let diff ← compareLines n (offset + 1)
    return decide (0 < similar) || diff

def sameLine (y : ℕ) : Disp Bool := do orFault (← get).virtualLines[y]?

/-- How many lines of `curscr` from `old` on match the lines of the virtual screen from `new` on. -/
def matching : ℕ → ℕ → ℕ → Disp ℕ
  | 0, _, _ => return 0
  | n + 1, old, new => do
    let similar ← orFault (compLine (← curLine old) (← virtLine new))
    if similar ≤ 0 then return (← matching n (old + 1) (new + 1)) + 1 else return 0

/-- Lines have been deleted: the lines from `tmpFt` to the one before `bottom` move up to `fromTop`. -/
def scrollLinesUp (fromTop tmpFt bottom : ℕ) : Disp Unit := do
  let last := min (bottom - 1) (g.lines - 1)
  setRegion g fromTop last
  Prog.times (deleteLine g fromTop last) (tmpFt - fromTop)
  setRegion g 0 (g.lines - 1)
  let _ ← compareLines (g.lines - fromTop) fromTop

/-- Lines have been inserted: the lines from `tmpFt` on move down to `fromTop`. -/
def scrollLinesDown (fromTop tmpFt bottom : ℕ) : Disp Unit := do
  let last := min (bottom - 1) (g.lines - 1)
  setRegion g tmpFt last
  Prog.times (insertLine g tmpFt last) (fromTop - tmpFt)
  setRegion g 0 (g.lines - 1)
  let _ ← compareLines (g.lines - fromTop) fromTop

/-- The search for lines that have been deleted, from `tmpFt` down. `old` is left where it is when too
few lines match. The result tells whether nothing has been scrolled. -/
def searchDeleted (fromTop lastSame : ℕ) : ℕ → ℕ → ℕ → Disp Bool
  | 0, _, _ => return true
  | n + 1, tmpFt, old => do
    if tmpFt < lastSame then
      if ← sameLine tmpFt then return true
      let similar ← orFault (compLine (← curLine old) (← virtLine fromTop))
      if similar = -1 ∧ (← sameLine fromTop) = false then
        let count ← matching (g.lines - tmpFt) old fromTop
        if 3 < count then
          scrollLinesUp g fromTop tmpFt (tmpFt + count)
          return false
        searchDeleted fromTop lastSame n (tmpFt + 1) old
      else searchDeleted fromTop lastSame n (tmpFt + 1) (old + 1)
    else return true

/-- The search for lines that have been inserted, from the line before `tmpFt` up. -/
def searchInserted (fromTop : ℕ) : ℕ → ℕ → Disp Unit
  | 0, _ => pure ()
  | tmpFt + 1, old => do
    if ← sameLine tmpFt then return
    let similar ← orFault (compLine (← curLine old) (← virtLine fromTop))
    if similar = -1 then
      let count ← matching (g.lines - fromTop) old fromTop
      if 3 < count then scrollLinesDown g fromTop tmpFt (fromTop + count)
      else searchInserted fromTop tmpFt old
    else searchInserted fromTop tmpFt (old - 1)

/-- The first line of the screen from which on all lines are the same. -/
def firstSame (same : List Bool) : ℕ → Option ℕ
  | 0 => some 0
  | n + 1 => same[n]?.bind fun b => if b then firstSame same n else some (n + 1)

/-- The first line from `y` on that is the same. -/
def nextSame (y : ℕ) : Disp ℕ := do
  let same := (← get).virtualLines
  orFault (advance (fun i => if i < g.lines then same[i]?.map fun b => !b else some false) (g.lines + 1) y)

/-- The next line that is the same, found again once it has been passed. -/
def sameAhead (fromTop lastSame : ℕ) : Disp ℕ :=
  if lastSame ≤ fromTop then nextSame g fromTop else return lastSame

/-- Deleted lines are looked for if something has been scrolled up. -/
def scrolledUp (fromTop lastSame : ℕ) : Disp Bool := do
  if (← get).scrollUp ≠ 0 then searchDeleted g fromTop lastSame g.lines (fromTop + 1) (fromTop + 1)
  else return true

/-- Inserted lines are looked for if something has been scrolled down. -/
def scrolledDown (fromTop : ℕ) (diff : Bool) : Disp Unit := do
  onlyIf ((← get).scrollDown ≠ 0 ∧ diff = true) (searchInserted g fromTop fromTop (fromTop - 1))

/-- The lines down to `first` are looked at, one after the other. -/
def scrollLoop (first : ℕ) : ℕ → ℕ → ℕ → Disp Unit
  | 0, _, _ => pure ()
  | n + 1, fromTop, lastSame => do
    if fromTop < first ∧ g.scrolls = true then
      let lastSame ← sameAhead g fromTop lastSame
      let same ← sameLine fromTop
      onlyIf (same = false) do
        let diff ← scrolledUp g fromTop lastSame
        scrolledDown g fromTop diff
      scrollLoop first n (fromTop + 1) lastSame

def scroll : Disp Unit := do
  let first ← orFault (firstSame (← get).virtualLines g.lines)
  scrollLoop g first g.lines 0 (← nextSame g 0)

/-! ### The whole screen -/

def eraseLine (y : ℕ) : Disp Unit := do
  position g y 0
  if g.ce then emit .clearToEol else Prog.times (emit (.char 32)) g.cols

def eraseLines : ℕ → ℕ → Disp Unit
  | 0, _ => pure ()
  | n + 1, y => do
    eraseLine g y
    eraseLines n (y + 1)

/-- Without the capability to clear the screen every line is cleared. -/
def eraseScreen : Disp Unit := if g.cl then emit .clearScreen else eraseLines g g.lines 0

def paintLines : ℕ → ℕ → Disp Unit
  | 0, _ => pure ()
  | n + 1, y => do
    position g y 0
    let j ← putCells g y (curCell y) (g.cols + 1) 0
    endStand g y j
    paintLines n (y + 1)

/-- The terminal is cleared, and `curscr` is sent. -/
def repaint : Disp Unit := do
  eraseScreen g
  paintLines g g.lines 0
  modify fun s => { s with repaintScreen := false }

def doupdate : Disp Unit := do
  onlyIf ((← get).repaintScreen = true) (repaint g)
  let diff ← compareLines g.lines 0
  onlyIf (diff = true) (scroll g)
  updateLines g g.lines 0
  let s ← get
  position g s.ly s.lx

end

end BsdAdditions.Curse.Screen
