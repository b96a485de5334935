import BsdAdditions.Ee.Move

/-! Splitting and joining lines, deleting and undeleting, and searching. -/
namespace BsdAdditions.Ee
open Common Common.Prog

/-- A character stored in a byte. -/
def toByte (character : ℤ) : UInt8 := UInt8.ofNat (character % 256).toNat

def markChanged : Ed Unit := modify fun s => { s with textChanges := true }

/-! ### Lines -/

/-- The copying loop of `insert_line`: the bytes go to the end of the new line, which grows. -/
def appendBytes (nod : ℕ) : List UInt8 → Ptr → ℕ → Ed Ptr
  | [], extra, _ => pure extra
  | b :: bs, extra, tempPos => do
    let m ← node nod
    let extra ← (if m.maxLength < m.lineLength + 5 then resizLine 10 nod tempPos else pure extra)
    let m ← node nod
    setNode nod (← orFault ({ m with lineLength := m.lineLength + 1 }.write extra b))
    appendBytes nod bs (extra.add 1) (tempPos + 1)

/-- `if (i != NULL) i->prev_line = p` -/
def setPrev (i : Option ℕ) (p : ℕ) : Ed Unit :=
  match i with
  | none => pure ()
  | some j => do setNode j { (← node j) with prev := some p }

/-- A new node behind the current line, with its links, and an empty block of ten bytes. -/
def linkNew : Ed ℕ := do
  let s ← get
  let n ← curr
  let nod ← allocLine 10 { line := 0, bytes := [], lineNumber := n.lineNumber + 1, lineLength := 1,
                           maxLength := 10, next := n.next, prev := some s.currLine }
  setPrev n.next nod
  setNode s.currLine { n with next := some nod }
  pure nod

/-- What is behind the cursor goes to the new line, and the current line shrinks. -/
def moveTail (nod : ℕ) : Ed Ptr := do
  let s ← get
  let n ← curr
  let start := (← node nod).start
  if s.position < n.lineLength then
    let rest ← orFault (n.readMany s.point (n.lineLength - s.position))
    let extra ← appendBytes nod rest start 1
    setCurr (← orFault (n.write s.point 0))
    let _ ← resizLine (1 - (← node nod).lineLength) s.currLine s.position
    pure extra
  else pure start

def insertLine (fuel : ℕ) (disp : Bool) : Ed Unit := do
  markChanged
  let nod ← linkNew
  let extra ← moveTail nod
  let s ← get
  setCurr { (← curr) with lineLength := s.position }
  setNode nod (← orFault ((← node nod).write extra 0))
  let start := (← node nod).start
  modify fun s => { s with absoluteLin := s.absoluteLin + 1, currLine := nod, position := 1,
                           point := start }
  onlyIf disp do
    modify fun s => { s with scrVert := if s.scrVert < s.lastLine then s.scrVert + 1 else s.scrVert,
                             scrPos := 0, scrHorz := 0 }
    resetOffset fuel

/-- The bytes that `d_char` keeps of a deleted character. -/
def saveChar (bs : List UInt8) : Ed Unit := do
  let s ← get
  onlyIf (s.inChar = 8) (set { s with dChar := bs ++ [0] ++ s.dChar.drop (bs.length + 1) })

/-- The column after the byte at the cursor has been given up. -/
def columnBack (fuel width : ℕ) : Ed Unit := do
  let s ← get
  let b ← deref s.point
  if b < 32 ∨ 127 ≤ b then
    scanline fuel s.point
    syncScrPos
  else set { s with scrHorz := s.scrHorz - width, scrPos := s.scrHorz - width }

/-- The branch of `delete` inside a line. -/
def deleteInLine (fuel : ℕ) : Ed Unit := do
  markChanged
  let width := if ← wideBefore then 2 else 1
  retreat width
  let s ← get
  let n ← curr
  setCurr { n with lineLength := n.lineLength - width }
  columnBack fuel width
  saveChar (← orFault ((← curr).readMany s.point width))
  let n ← curr
  setCurr (← orFault (n.copyDown s.point (s.point.add width) (n.lineLength + 1 - s.position)))
  let s ← get
  onlyIf (s.scrHorz < s.horizOffset ∧ 0 < s.horizOffset) do
    set { s with horizOffset := s.horizOffset - 8 }
    midscreen fuel s.scrVert s.point

/-- The branch of `delete` at the start of a line that has one before it. -/
def joinLines (fuel : ℕ) (disp : Bool) : Ed Unit := do
  markChanged
  left fuel disp
  let s ← get
  let j ← orFault (← curr).next
  let tempBuff ← node j
  let point ← resizLine tempBuff.lineLength s.currLine s.position
  setPoint point
  setPrev tempBuff.next s.currLine
  setCurr { (← curr) with next := tempBuff.next }
  saveChar [10]
  let bs ← orFault (tempBuff.readMany tempBuff.start (tempBuff.lineLength - 1))
  let n ← curr
  let n ← orFault ({ n with lineLength := n.lineLength + bs.length }.copyFrom point (bs ++ [0]))
  setCurr n
  modify fun s => { s with heap := Function.update s.heap j none }
  syncScrPos

/-- One byte, or the end of the line before. -/
def deleteBack (fuel : ℕ) (disp : Bool) : Ed Unit := do
  if ← offStart then deleteInLine fuel
  else onlyIf ((← curr).prev ≠ none) (joinLines fuel disp)

def delete (fuel : ℕ) (disp : Bool) : Ed Unit := do
  deleteBack fuel disp
  modify fun s => { s with formatted := false }

/-! ### Deleted text -/

def delChar (fuel : ℕ) : Ed Unit := do
  modify fun s => { s with inChar := 8 }
  if ← beforeEnd then
    onlyIf (← wideAt) (advance 1)
    advance 1
    scanline fuel (← get).point
    delete fuel true
  else
    right fuel true
    delete fuel true

/-- The word at the cursor and the blanks after it. -/
def wordLength (rest : List UInt8) : ℕ :=
  let word := rest.takeWhile fun b => !isBlank b
  word.length + ((rest.drop word.length).takeWhile isBlank).length

def delWord : Ed Unit := do
  let s ← get
  let n ← curr
  let rest ← orFault (n.readMany s.point (n.lineLength - s.position))
  let difference := wordLength rest
  let word := rest.take difference ++ [0]
  set { s with dWord := some (word ++ (s.host.malloc s.fresh n.lineLength).drop word.length),
               dWrdLen := difference, fresh := s.fresh + 1 }
  let count := rest.length - difference
  let n ← orFault (n.copyDown s.point (s.point.add difference) count)
  let n ← orFault (n.write (s.point.add count) 0)
  setCurr { n with lineLength := n.lineLength - difference }
  modify fun s => { s with textChanges := true, formatted := false }

/-- The first bytes at a pointer; behind the end of its block lies whatever lies there. -/
def Editor.readBlock (s : Editor) (k : ℕ) : Option (List UInt8) → Option (List UInt8)
  | some bytes => some (s.host.realloc s.fresh bytes k)
  | none => if k = 0 then some [] else none

def undelWord : Ed Unit := do
  let s ← get
  let n ← curr
  onlyIf (n.maxLength < n.lineLength + s.dWrdLen + 5) do
    setPoint (← resizLine s.dWrdLen s.currLine s.position)
  let s ← get
  let n ← curr
  let word ← orFault (s.readBlock s.dWrdLen s.dWord)
  let rest ← orFault (n.readMany s.point (n.lineLength - s.position))
  let n ← orFault (n.copyFrom s.point (word ++ rest ++ [0]))
  setCurr { n with lineLength := n.lineLength + s.dWrdLen }

def delLine (fuel : ℕ) : Ed Unit := do
  let s ← get
  let n ← curr
  let rest ← orFault (n.readMany s.point (n.lineLength - s.position))
  set { s with dLine := some (rest ++ [0]), dltLineLength := 1 + rest.length }
  setCurr { (← orFault (n.write s.point 0)) with lineLength := s.position }
  onlyIf (n.next ≠ none) do
    right fuel false
    delete fuel false
  markChanged

def undelLine (fuel : ℕ) : Ed Unit := do
  onlyIf ((← get).dltLineLength ≠ 0) do
    insertLine fuel true
    left fuel true
    let s ← get
    let point ← resizLine s.dltLineLength s.currLine s.position
    setPoint point
    let bs ← orFault (s.readBlock (s.dltLineLength - 1) s.dLine)
    let n ← curr
    let n ← orFault (n.copyFrom point (bs ++ [0]))
    setCurr { n with lineLength := n.lineLength + (s.dltLineLength - 1) }

/-! ### Searching -/

/-- Whether the string stands at this place. The line's terminator ends the comparison. -/
def matchAt (h : Host) (fold : UInt8 → UInt8) (n : Node) : Ptr → List UInt8 → Bool
  | _, [] => true
  | p, c :: cs => fold (n.peek h p) == c && matchAt h fold n (p.add 1) cs

/-- The first place in the line, from a position on, where the string stands. -/
def searchLine (h : Host) (fold : UInt8 → UInt8) (n : Node) (str : List UInt8) :
    ℕ → Ptr → ℕ → Option (Ptr × ℕ)
  | 0, _, _ => none
  | k + 1, p, iter =>
    if matchAt h fold n p str then some (p, iter)
    else searchLine h fold n str k (p.add 1) (iter + 1)

structure Found where
  line : ℕ
  place : Ptr
  iter : ℕ
  linesMoved : ℕ

/-- Line after line, from the given place on. -/
def searchFrom (fold : UInt8 → UInt8) (str : List UInt8) :
    ℕ → ℕ → Ptr → ℕ → ℕ → Ed (Option Found)
  | 0, _, _, _, _ => outOfFuel
  | fuel + 1, srchLine, p, iter, linesMoved => do
    let n ← node srchLine
    match searchLine (← get).host fold n str (n.lineLength - iter) p iter with
    | some (place, iter) => pure (some ⟨srchLine, place, iter, linesMoved⟩)
    | none =>
      match n.next with
      | none => pure none
      | some j => do searchFrom fold str fuel j (← node j).start 1 (linesMoved + 1)

/-- The string as C sees it. -/
def cString (bs : List UInt8) : List UInt8 := bs.takeWhile (· ≠ 0)

/-- Walks right until the position is reached. -/
def goRight (fuel iter : ℕ) : Ed Unit :=
  repeatWhile fuel (do return (← get).position < iter) (right fuel true)

/-- The first loop of `search`. An empty string never sets `found`. -/
def findString (fuel : ℕ) : Ed (Option Found) := do
  let s ← get
  let n ← curr
  let str := if s.caseSen then cString (s.srchStr.getD []) else cString (s.uSrchStr.getD [])
  let fold := if s.caseSen then id else s.host.toupper
  let start := if s.position < n.lineLength then s.point.add 1 else s.point
  if cString (s.srchStr.getD []) = [] ∨ str = [] then return none
  else searchFrom fold str fuel s.currLine start (s.position + 1) 0

/-- Brings the cursor to what was found. -/
def goToFound (fuel : ℕ) (f : Found) : Ed Unit := do
  if f.linesMoved = 0 then goRight fuel f.iter
  else if f.linesMoved < 30 then
    moveRel fuel .down f.linesMoved
    goRight fuel f.iter
  else
    let s ← get
    set { s with absoluteLin := s.absoluteLin + f.linesMoved, currLine := f.line,
                 point := f.place, position := f.iter }
    scanline fuel f.place
    syncScrPos
    midscreen fuel (s.lastLine.tdiv 2) f.place

def search (fuel : ℕ) : Ed Bool := do
  match ← findString fuel with
  | none => return false
  | some f =>
    goToFound fuel f
    return true

/-- A new string is asked for, `answer`, and looked for. -/
def searchPrompt (fuel : ℕ) (answer : List UInt8) : Ed Unit := do
  modify fun s => { s with srchStr := some (cString answer),
                           uSrchStr := some ((cString answer).map s.host.toupper) }
  let _ ← search fuel

end BsdAdditions.Ee
