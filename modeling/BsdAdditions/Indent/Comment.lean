import BsdAdditions.Indent.Lexi

/-! Scanning and filling comments. -/
namespace BsdAdditions.Indent
open Common Common.Prog

namespace Buf

def block (b : Buf) : List UInt8 := b.front ++ b.text ++ b.tail

/-- The text becomes what lies between two offsets of the block. -/
def between (b : Buf) (start stop : ℕ) : Buf where
  front := b.block.take start
  text := (b.block.take stop).drop start
  tail := b.block.drop stop

/-- The offset of the end of the text. -/
def stop (b : Buf) : ℕ := b.front.length + b.text.length

end Buf

variable (env : Env) (fuel : ℕ)

/-- `CHECK_SIZE_COM`. When the buffer grows, the text is taken to start behind the first byte of
the block, wherever it started before. -/
def checkSizeCom (desiredSize : ℕ) : Ind Unit := do
  let b := (← get).com
  onlyIf (b.tail.length ≤ desiredSize + 5) do
    let more ← allocate env (395 + desiredSize - b.front.length)
    let b := { b with tail := b.tail ++ more }
    modify fun s => { s with com := b.between 1 (1 + b.text.length) }

def putsCom (cs : List UInt8) : Ind Unit := cs.forM putCom

/-- The start of a continuation line. -/
def continueCom : Ind Unit := do
  onlyIf ((← get).ps.boxCom = false ∧ env.opt.starCommentCont = true) (putsCom (bytes " * "))

def setCom (f : Buf → Buf) : Ind Unit := modify fun s => { s with com := f s.com }

/-- The column behind the code or the label that the comment follows. -/
def lineTarget : Ind ℤ := do
  let s ← get
  if s.code.text ≠ [] then
    let target ← computeCodeTarget env.opt
    orDivide (countSpaces env.opt target (← orFault (← get).code.string?))
  else if s.lab.text ≠ [] then
    let target ← computeLabelTarget env.opt
    orDivide (countSpaces env.opt target (← orFault (← get).lab.string?))
  else return 1

/-- Where the comment goes and how it is treated: whether its delimiters get lines of their own,
and how wide it may be. -/
def alignComment : Ind (Bool × ℤ) := do
  let s ← get
  if s.ps.col1 && !env.opt.formatCol1Comments then
    modifyPs fun ps => { ps with boxCom := true, comCol := 1 }
    return (false, env.opt.maxCol)
  else
    let c ← peek
    let box := c = byte '-' || c = byte '*' || c = 10 && !env.opt.formatBlockComments
    onlyIf (box = true) (modifyPs fun ps => { ps with boxCom := true })
    if s.lab.text = [] ∧ s.code.text = [] then
      let comCol : ℤ := (s.ps.indLevel - env.opt.unindentDisplace) * env.opt.indSize + 1
      modifyPs fun ps => { ps with
        comCol := if comCol ≤ 1 then if env.opt.formatCol1Comments then 1 else 2 else comCol }
      return (env.opt.commentDelimiterOnBlankline && !box, env.opt.blockCommentMaxCol)
    else
      let targetCol ← lineTarget env
      let comCol : ℤ :=
        if s.ps.declOnLine ∨ s.ps.indLevel = 0 then env.opt.declComInd else env.opt.comInd
      let comCol ← if comCol ≤ targetCol then orDivide (tabStop env.opt targetCol) else pure comCol
      modifyPs fun ps => { ps with comCol }
      return (false, if comCol + 24 > env.opt.maxCol then comCol + 24 else env.opt.maxCol)

/-- The blanks that are skipped without a look at the end of the buffer. -/
def skipBlanksHere : Ind Unit := repeatWhile (do return isBlank (← peek)) advance fuel

/-- The start of the comment goes to its buffer. A boxed comment keeps its indentation. -/
def openComment : Ind Unit := do
  let s ← get
  (if s.ps.boxCom then do
    onlyIf (s.src.before.length < 2) fault
    let col ← orDivide (countSpaces env.opt 1 (s.src.before.take (s.src.before.length - 2)))
    modifyPs fun ps => { ps with nCommentDelta := 1 - col }
  else do
    modifyPs fun ps => { ps with nCommentDelta := 0 }
    skipBlanksHere fuel)
  modifyPs fun ps => { ps with commentDelta := 0 }
  putsCom (bytes "/*")
  onlyIf ((← peek) ≠ 32 ∧ s.ps.boxCom = false) (putCom 32)

/-- Whether the rest of the comment fits on the line that it is on. -/
def fitsOnLine (adjMaxCol : ℤ) : Ind Bool := do
  let s ← get
  match findEnd s.src.rest with
  | none => fault
  | some none => return false
  | some (some n) => return adjMaxCol ≥ (← orDivide (countSpaces env.opt s.ps.comCol (s.src.rest.take n)))
where
  /-- The bytes up to the end of the comment, if it comes before the end of the line. -/
  findEnd : List UInt8 → Option (Option ℕ)
    | [] => none
    | c :: cs =>
      if c = 0 ∨ c = 10 then some none
      else if c = byte '*' ∧ cs.head? = some (byte '/') then some (some 2)
      else (findEnd cs).map fun r => r.map (· + 1)

/-- The opening delimiter gets a line of its own. -/
def breakDelimiter : Ind Unit := do
  let t := (← get).com.stop
  setCom fun b => b.cut 2
  let s ← get
  set { s with com := ← orFault s.com.close? }
  onlyIf (env.opt.blanklinesBeforeBlockcomments = true ∧ s.ps.lastToken ≠ .lbrace)
    (modify fun s => { s with prefixBlanklineRequested := 1 })
  dumpLine env
  setCom fun b => b.between t t
  continueCom env

def endComment (breakDelim : Bool) (lJustSawDecl : ℤ) : Ind Unit := do
  next env fuel
  (if breakDelim then do
    (if (← get).com.text.length > 3 then dumpLine env else setCom fun b => b.between b.stop b.stop)
    putCom 32
  else pure ())
  let s ← get
  onlyIf (s.com.last? ≠ some 32 ∧ s.com.last? ≠ some 9 ∧ s.ps.boxCom = false) (putCom 32)
  putsCom (bytes "*/")
  let s ← get
  set { s with com := ← orFault s.com.close? }
  modifyPs fun ps => { ps with justSawDecl := lJustSawDecl }

/-- The blanks at the start of the next line, and one star among them; returns whether the comment
ends there. -/
def skipLineStart : ℕ → ℤ → Ind Bool
  | 0, _ => outOfFuel
  | n + 1, nstar => do
    next env fuel
    let (ends, nstar) ←
      if (← peek) = byte '*' then
        if nstar - 1 ≥ 0 then do
          next env fuel
          pure (decide ((← peek) = byte '/'), nstar - 1)
        else pure (false, nstar - 1)
      else pure (false, nstar)
    if ends then return true
    else if isBlank (← peek) then skipLineStart n nstar
    else return false

/-- A run of ordinary bytes; returns the column behind it and where the last blank is. -/
def copyRun (adjMaxCol : ℤ) : ℕ → ℤ → Option ℕ → Ind (ℤ × Option ℕ)
  | 0, _, _ => outOfFuel
  | n + 1, nowCol, lastBl => do
    checkSizeCom env 1
    let c ← peek
    advance
    refill env fuel
    let stop := (← get).com.stop
    let lastBl := if isBlank c then some stop else lastBl
    putCom c
    let nowCol := nowCol + 1
    let c' ← peek
    if c' ∉ [byte '*', 10, 13, 8, 9, 0] ∧ (nowCol ≤ adjMaxCol ∨ lastBl = none) then
      copyRun adjMaxCol n nowCol lastBl
    else return (nowCol, lastBl)

/-- Moves what is found from offset `t` of the block up to a terminator behind the text. -/
def moveUp : ℕ → ℕ → Option ℕ → Ind (Option ℕ)
  | 0, _, _ => outOfFuel
  | n + 1, t, lastBl => do
    let s ← get
    let c ← orFault s.com.block[t]?
    if c = 0 then return lastBl
    else
      putCom c
      moveUp n (t + 1) (if isBlank c then some s.com.stop else lastBl)

/-- The line is full: what stands behind its last blank goes to the next one. -/
def breakComment (lastBl : ℕ) : Ind (Option ℕ) := do
  let s ← get
  set { s with com := ← orFault s.com.close? }
  setCom fun b => b.between b.front.length lastBl
  dumpLine env
  continueCom env
  let s ← get
  let blanks := ((s.com.block.drop (lastBl + 1)).takeWhile isBlank).length
  moveUp fuel (lastBl + 1 + blanks) none

def copyDefault (adjMaxCol : ℤ) (lastBl : Option ℕ) : Ind (Option ℕ) := do
  let s ← get
  let nowCol ← orDivide (countSpaces env.opt s.ps.comCol s.com.text)
  let (nowCol, lastBl) ← copyRun env fuel adjMaxCol fuel nowCol lastBl
  modifyPs fun ps => { ps with lastNl := false }
  let s ← get
  let c ← orFault s.com.last?
  -- a `char` is signed here
  if nowCol > adjMaxCol ∧ s.ps.boxCom = false ∧ 32 < c ∧ c < 128 then
    match lastBl with
    | none =>
      dumpLine env
      continueCom env
      return none
    | some lastBl => breakComment env fuel lastBl
  else return lastBl

/-- A form feed breaks the line of a text comment. -/
def copyFormFeed (lastBl : Option ℕ) : Ind (Option ℕ) := do
  checkSizeCom env 3
  if (← get).ps.boxCom then
    next env fuel
    putCom 12
    return lastBl
  else
    modifyPs fun ps => { ps with useFf := true }
    dumpLine env
    continueCom env
    advance
    skipBlanksHere fuel
    return none

/-- A newline; returns where the last blank is, or `none` if the comment ends on the next line
before anything else. -/
def copyNewline : Ind (Option (Option ℕ)) := do
  checkSizeCom env 4
  let s ← get
  let lastBl ←
    if s.ps.boxCom ∨ s.ps.lastNl then do
      onlyIf (s.com.text = []) (putCom 32)
      let s ← get
      onlyIf (s.ps.boxCom = false ∧ s.com.text.length > 3) do
        dumpLine env
        onlyIf (env.opt.starCommentCont = true) (putsCom (bytes " * "))
      dumpLine env
      continueCom env
      pure none
    else do
      modifyPs fun ps => { ps with lastNl := true }
      if s.com.last?.any isBlank then pure (some (s.com.stop - 1))
      else do
        putCom 32
        pure (some s.com.stop)
  modify fun s => { s with lineNo := s.lineNo + 1 }
  if s.ps.boxCom then
    next env fuel
    return some lastBl
  else if ← skipLineStart env fuel fuel 1 then return none
  else return some lastBl

def copyComment (adjMaxCol : ℤ) (breakDelim : Bool) (lJustSawDecl : ℤ) : ℕ → Option ℕ → Ind Unit
  | 0, _ => outOfFuel
  | n + 1, lastBl => do
    let c ← peek
    if c = 12 then copyComment adjMaxCol breakDelim lJustSawDecl n (← copyFormFeed env fuel lastBl)
    else if c = 10 then
      if (← get).hadEof then
        say env (bytes "Unterminated comment\n")
        dumpLine env
      else
        match ← copyNewline env fuel with
        | none => endComment env fuel breakDelim lJustSawDecl
        | some lastBl => copyComment adjMaxCol breakDelim lJustSawDecl n lastBl
    else if c = byte '*' then
      next env fuel
      checkSizeCom env 4
      if (← peek) = byte '/' then endComment env fuel breakDelim lJustSawDecl
      else
        putCom (byte '*')
        copyComment adjMaxCol breakDelim lJustSawDecl n lastBl
    else
      copyComment adjMaxCol breakDelim lJustSawDecl n (← copyDefault env fuel adjMaxCol lastBl)

def prComment : Ind Unit := do
  let lJustSawDecl := (← get).ps.justSawDecl
  modifyPs fun ps => { ps with justSawDecl := 0, boxCom := false, outComs := ps.outComs + 1 }
  let (breakDelim, adjMaxCol) ← alignComment env
  openComment env fuel
  let breakDelim ← if breakDelim then do pure (!(← fitsOnLine env adjMaxCol)) else pure false
  (if breakDelim then breakDelimiter env else pure ())
  copyComment env fuel adjMaxCol breakDelim lJustSawDecl fuel none

end BsdAdditions.Indent
