import BsdAdditions.Ee.Format

/-! Reading and writing files, and leaving the editor. -/
namespace BsdAdditions.Ee
open Common Common.Prog

/-! ### Reading -/

/-- A new node behind the current line that becomes the current one. -/
def linkRead (charCount : ℕ) : Ed Unit := do
  let s ← get
  let n ← curr
  let tline ← allocLine charCount
    { line := 0, bytes := [], lineNumber := n.lineNumber + 1, lineLength := charCount,
      maxLength := charCount, next := n.next, prev := some s.currLine }
  setNode s.currLine { n with next := some tline }
  setPrev n.next tline
  let start := (← node tline).start
  modify fun s => { s with currLine := tline, point := start }

/-- Room for so many bytes in the current line. -/
def growCurr (charCount : ℕ) : Ed Unit := do
  let s ← get
  setPoint (← resizLine charCount s.currLine (← curr).lineLength)
  let n ← curr
  setCurr { n with lineLength := n.lineLength + (charCount - 1) }

/-- One line, or the part of one that has been read. -/
def getPart (append : Bool) (part : List UInt8) : Ed Unit := do
  let charCount := part.length + 1
  (if append then growCurr charCount else linkRead charCount)
  let s ← get
  setCurr (← orFault ((← curr).copyFrom s.point (part ++ [0])))
  setPoint (s.point.add part.length)

/-- Where the line that starts at `num` ends: at a newline, or at the end of what was read. -/
def lineEnd (inString : List UInt8) (num length : ℕ) : ℕ :=
  num + (((inString.take length).drop num).takeWhile (· ≠ 10)).length

/-- The loop of `get_line`, from the start of a line on; returns `append`. -/
def getLineFrom (inString : List UInt8) (length : ℕ) : ℕ → ℕ → Bool → Ed Bool
  | 0, _, _ => outOfFuel
  | fuel + 1, num, append => do
    let stop := lineEnd inString num length
    getPart append (((inString.take length).drop num).take (stop - num))
    let append := stop = length && inString.getD stop 0 ≠ 10
    if stop < length then getLineFrom inString length fuel (stop + 1) append else pure append

/-- Every line after the first takes at least its newline. -/
def getLine (length : ℕ) (inString : List UInt8) (append : Bool) : Ed Bool :=
  if 0 < length then getLineFrom inString length (length + 1) 0 append else pure append

/-- `read(get_fd, in_string, 512)`; what is behind the bytes read stays. -/
def InString.fill (b : InString) (chunk : List UInt8) : InString where
  bytes := chunk.take 512 ++ b.bytes.drop (chunk.take 512).length
  last := by
    have hlen : (chunk.take 512).length ≤ 512 := List.length_take_le 512 chunk
    have hlast := b.last
    rw [List.getD_eq_getElem?_getD] at hlast ⊢
    rwa [List.getElem?_append_right hlen, List.getElem?_drop, Nat.add_sub_cancel' hlen]

/-- The reads, each of at most 512 bytes, until one returns nothing. -/
def readLoop : List (List UInt8) → Bool → Ed Unit
  | [], _ => pure ()
  | chunk :: chunks, append => do
    if chunk = [] then return
    else
      modify fun s => { s with inString := s.inString.fill chunk }
      let append ← getLine (chunk.take 512).length (← get).inString.bytes append
      readLoop chunks append

/-- Removes the current line. -/
def unlinkCurr : Ed Unit := do
  let s ← get
  let n ← curr
  let p ← orFault n.prev
  setNode p { (← node p) with next := n.next }
  setPrev n.next p
  modify fun t => { t with heap := Function.update t.heap s.currLine none, currLine := p }

def canRead (chunks : List (List UInt8)) : Bool := chunks.head?.any (· ≠ [])

/-- Makes room for the lines of the file; an empty line takes in the first of them. -/
def openLine : Ed Bool := do
  if 1 < (← curr).lineLength then
    insertLine 0 false
    left 0 false
    return false
  else return true

def getFile (chunks : List (List UInt8)) : Ed Unit := do
  readLoop chunks (← openLine)
  onlyIf (canRead chunks ∧ (← curr).lineLength = 1) unlinkCurr
  onlyIf ((← get).inputFile = false ∧ canRead chunks) markChanged
  onlyIf ((← get).recvFile = true) (modify fun s => { s with inChar := -1 })

/-- What the file system says about the name. -/
inductive File where
  | special
  | missing
  | regular (chunks : List (List UInt8))

/-- `startAt` is the line asked for on the command line. -/
def checkFp (fuel : ℕ) (file : File) (startAt : Option ℕ) : Ed Unit := do
  let old ← get
  set { old with tmpLine := old.currLine }
  match file with
  | .special => pure ()
  | .missing => modify fun s => { s with recvFile := false, inputFile := false }
  | .regular chunks =>
    getFile chunks
    modify fun s => { s with recvFile := false, scrVert := old.scrVert, scrHorz := old.scrHorz,
                             currLine := if s.inputFile then s.firstLine else s.tmpLine }
    setPoint (← curr).start
    if (← get).inputFile then
      modify fun s => { s with inputFile := false }
      match startAt with
      | none => pure ()
      | some n => moveRel fuel .down (n - 1)
    else markChanged

/-- The command to read a file. -/
def readFile (fuel : ℕ) (file : File) : Ed Unit := do
  modify fun s => { s with recvFile := true }
  checkFp fuel file none

/-! ### Writing -/

/-- The bytes handed to the stream, line after line. -/
def writeLines : ℕ → Option ℕ → Ed (List UInt8)
  | _, none => pure []
  | 0, some _ => outOfFuel
  | fuel + 1, some i => do
    let n ← node i
    let bs ← orFault (n.readMany n.start (n.lineLength - 1))
    return bs ++ [10] ++ (← writeLines fuel n.next)

/-- What happens when a name is written to: the file may exist and the user decline to overwrite
it, or it cannot be created. -/
inductive Target where
  | declined
  | cannotCreate
  | stream

/-- The bytes written, if any are. -/
def writeFile (fuel : ℕ) (target : Target) : Ed (Option (List UInt8)) := do
  match target with
  | .declined | .cannotCreate => return none
  | .stream => return some (← writeLines fuel (some (← get).firstLine))

/-- The save of `file_op`, for a name that is known. -/
def save (fuel : ℕ) (target : Target) : Ed Unit := do
  if (← writeFile fuel target).isSome then modify fun s => { s with textChanges := false }

/-! ### Leaving -/

/-- Frees the lines from the current one back to the first, which is kept. -/
def freeBack : ℕ → Ed Unit
  | 0 => outOfFuel
  | fuel + 1 => do
    let s ← get
    if s.currLine ≠ s.firstLine then
      let p ← orFault (← curr).prev
      set { s with heap := Function.update s.heap s.currLine none, currLine := p,
                   absoluteLin := s.absoluteLin - 1 }
      freeBack fuel
    else pure ()

def deleteText (fuel : ℕ) : Ed Unit := do
  let (last, _) ← walkEnd Node.next fuel (← get).currLine 0
  modify fun s => { s with currLine := last }
  freeBack fuel
  let n ← curr
  let n ← orFault (n.write n.start 0)
  setCurr { n with next := none, lineLength := 1, lineNumber := 1 }
  modify fun s => { s with point := n.start, scrPos := 0, scrVert := 0, scrHorz := 0,
                           position := 1 }

/-- What the user sees before the text is thrown away. -/
inductive Asked where
  | nothing
  | prompt
  | menu
  deriving DecidableEq

/-- How `quit` comes out: the question asked, and whether the text is given up. -/
structure Quit where
  asked : Asked
  discards : Bool
  deriving DecidableEq

/-- `yes` is the answer at the prompt. -/
def quit (noverify yes : Bool) : Ed Quit := do
  let s ← get
  if s.textChanges = true ∧ noverify = false then
    if yes then
      set { s with textChanges := false }
      return ⟨.prompt, true⟩
    else return ⟨.prompt, false⟩
  else return ⟨.nothing, true⟩

/-- The menu offers to save, to leave without saving, or to stay. -/
def leaveOp (yes : Bool) : Ed Quit := do
  if (← get).textChanges then return ⟨.menu, yes⟩ else quit true yes

/-! ### Starting -/

/-- The buffer of a program that has read nothing. -/
def InString.zero : InString where
  bytes := List.replicate 513 0
  last := by rw [List.getD_eq_getElem?_getD, List.getElem?_replicate_of_lt (by omega), Option.getD_some]

/-- The state that `main` sets up, on a terminal of the given size. -/
def Editor.initial (h : Host) (lastLine cols : ℤ) : Editor where
  host := h
  heap := Function.update (fun _ => none) 0 (some
    { line := 1, bytes := h.malloc 1 10, lineNumber := 1, lineLength := 1, maxLength := 10,
      next := none, prev := none })
  fresh := 2
  firstLine := 0
  currLine := 0
  tmpLine := 0
  point := ⟨1, 0⟩
  position := 1
  absoluteLin := 1
  scrPos := 0
  scrVert := 0
  scrHorz := 0
  horizOffset := 0
  lastLine := lastLine
  lastCol := cols - 1
  cols := cols
  rightMargin := cols - 1
  observMargins := true
  autoFormat := false
  formatted := false
  expandTabs := true
  eightbit := true
  eeChinese := false
  caseSen := false
  textChanges := false
  inChar := 0
  dChar := h.malloc 2 3
  dWord := some [0]
  dWrdLen := 0
  dLine := none
  dltLineLength := 0
  srchStr := none
  uSrchStr := none
  recvFile := false
  inputFile := false
  inString := .zero

end BsdAdditions.Ee
