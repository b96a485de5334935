import BsdAdditions.Indent.State

/-! Writing lines and reading them. -/
namespace BsdAdditions.Indent
open Common Common.Prog

def isBlank (c : UInt8) : Bool := c = 32 || c = 9

/-- `isspace` in the C locale. -/
def isSpace (c : UInt8) : Bool := c = 32 || 9 ≤ c && c ≤ 13

/-- The text without the bytes at its end that satisfy `p`. -/
def trimEnd (p : UInt8 → Bool) (text : List UInt8) : List UInt8 := (text.reverse.dropWhile p).reverse

/-! ### Columns -/

/-- The column after a tab; a tab size of zero divides by zero. -/
def tabStop (opt : Options) (cur : ℤ) : Option ℤ :=
  if opt.tabsize = 0 then none else some (opt.tabsize * (1 + (cur - 1).tdiv opt.tabsize) + 1)

/-- Where printing the text leaves the column. -/
def countSpaces (opt : Options) : ℤ → List UInt8 → Option ℤ
  | cur, [] => some cur
  | cur, c :: cs =>
    if c = 0 then some cur
    else if c = 10 ∨ c = 12 then countSpaces opt 1 cs
    else if c = 9 then (tabStop opt cur).bind fun cur => countSpaces opt cur cs
    else if c = 8 then countSpaces opt (cur - 1) cs
    else countSpaces opt (cur + 1) cs

/-- The tabs of `pad_output`. Each moves at least one column, so they are fewer than the columns. -/
def padTabs (opt : Options) (target : ℤ) : ℕ → ℤ → Ind ℤ
  | 0, curr => pure curr
  | n + 1, curr => do
    let tcur ← orDivide (tabStop opt curr)
    if tcur ≤ target then
      putc 9
      padTabs opt target n tcur
    else pure curr

def padOutput (opt : Options) (current target : ℤ) : Ind ℤ := do
  if current ≥ target then return current
  else
    let curr ← if opt.useTabs then padTabs opt target (target - current).toNat current else pure current
    puts (List.replicate (target - curr).toNat 32)
    return target

def computeCodeTarget (opt : Options) : Ind ℤ := do
  let s ← get
  let targetCol : ℤ := opt.indSize * s.ps.indLevel + 1
  if s.ps.parenLevel ≠ 0 then
    if !opt.lineupToParens then
      return targetCol + opt.continuationIndent *
        (if 2 * opt.continuationIndent = opt.indSize then 1 else s.ps.parenLevel)
    else if opt.lineupToParensAlways then return s.parenTarget
    else
      let text ← orFault s.code.string?
      let w := (← orDivide (countSpaces opt s.parenTarget text)) - opt.maxCol
      if w > 0 then
        if (← orDivide (countSpaces opt targetCol text)) ≤ opt.maxCol then
          let t := s.parenTarget - (w + 1)
          return if t > targetCol then t else targetCol
        else return s.parenTarget
      else return s.parenTarget
  else if s.ps.indStmt then return targetCol + opt.continuationIndent
  else return targetCol

def computeLabelTarget (opt : Options) : Ind ℤ := do
  let s ← get
  if s.ps.pcase then return truncate (s.caseInd * opt.indSize) + 1
  else if (s.lab.text ++ s.lab.tail).head? = some (byte '#') then return 1
  else return opt.indSize * (s.ps.indLevel - 2) + 1

/-! ### Writing a line -/

/-- A comment that is still open is closed in front of the code. -/
def closeComment : Ind Unit := do
  onlyIf ((← get).commentOpen = true) do
    modify fun s => { s with commentOpen := false }
    puts (bytes ".*/\n")

/-- What follows `#else` and `#endif` is made a comment. -/
def elseText (lab : List UInt8) : List UInt8 :=
  let lab := if lab.getLast? = some 10 then lab.dropLast else lab
  let word := (lab.drop 1).takeWhile fun c => byte 'a' ≤ c && c ≤ byte 'z'
  let rest := (lab.drop (1 + word.length)).dropWhile isBlank
  lab.take 1 ++ word ++
    (if rest = [] then []
    else if (bytes "/*").isPrefixOf rest then [9] ++ rest.takeWhile (· ≠ 0)
    else bytes "\t/* " ++ rest.takeWhile (· ≠ 0) ++ bytes " */")

/-- The label section; returns the column behind it. -/
def writeLab (opt : Options) : Ind ℤ := do
  if (← get).lab.text ≠ [] then
    closeComment
    modify fun s => { s with lab := s.lab.cut (trimEnd isBlank s.lab.text).length }
    closeLab
    let curCol ← padOutput opt 1 (← computeLabelTarget opt)
    let text := (← get).lab.text
    puts (if (bytes "#else").isPrefixOf text ∨ (bytes "#endif").isPrefixOf text then elseText text
      else text.takeWhile (· ≠ 0))
    orDivide (countSpaces opt curCol text)
  else return 1

/-- The conversion of an `int` to a `short`. -/
def toShort (n : ℤ) : ℤ := n.bmod 65536

/-- A byte of the code section; byte 0200 stands for a column. -/
def codeByte (targetCol : ℤ) (c : UInt8) : List UInt8 :=
  if c = 128 then bytes (toString (targetCol * 7)) else [c]

/-- The columns of the open parentheses, now that the line they are in has its place. -/
def placeParens (targetCol : ℤ) (ps : ParserState) : ParserState :=
  { ps with parenIndents := ps.parenIndents.mapIdx fun i p =>
      if i < ps.pLFollow ∧ 0 ≤ p then toShort (-(p + targetCol)) else p }

/-- The code section; returns the column behind it. -/
def writeCode (opt : Options) (curCol : ℤ) : Ind ℤ := do
  if (← get).code.text ≠ [] then
    closeComment
    let targetCol ← computeCodeTarget opt
    within .parenIndents ((← get).ps.pLFollow ≤ 20)
    modifyPs (placeParens targetCol)
    let curCol ← padOutput opt curCol targetCol
    puts ((← get).code.text.flatMap (codeByte targetCol))
    orDivide (countSpaces opt curCol (← orFault (← get).code.string?))
  else return curCol

/-- The indentation of a comment that `dump_line` takes out of it when there is no room for it;
returns the column and the number of bytes. -/
def dropIndent (opt : Options) : ℤ → List UInt8 → Except Halt (ℤ × ℕ)
  | target, [] => if target > 0 then pure (target, 0) else throw .fault
  | target, c :: cs => do
    if target > 0 then return (target, 0)
    else if c = 32 then
      let (target, n) ← dropIndent opt (target + 1) cs
      return (target, n + 1)
    else if c = 9 then
      match tabStop opt target with
      | some target =>
        let (target, n) ← dropIndent opt target cs
        return (target, n + 1)
      | none => throw .divide
    else return (1, 0)

def writeCom (opt : Options) (curCol : ℤ) : Ind Unit := do
  let s ← get
  onlyIf (s.com.text ≠ []) do
    let memory := s.com.text ++ s.com.tail
    let tabs := (memory.takeWhile (· = 9)).length
    let (target, blanks) ← (dropIndent opt (s.ps.comCol + s.ps.commentDelta + opt.tabsize * tabs)
      (memory.drop tabs) : Except Halt _)
    let comSt := tabs + blanks
    let curCol ←
      if curCol > target then do
        putc 10
        modifyPs fun ps => { ps with outLines := ps.outLines + 1 }
        pure 1
      else pure curCol
    onlyIf (s.com.text.length < comSt) fault
    let text := trimEnd isSpace (s.com.text.drop comSt)
    let _ ← padOutput opt curCol target
    puts text
    modifyPs fun ps => { ps with commentDelta := ps.nCommentDelta, comLines := ps.comLines + 1 }

/-- The blank lines in front of a line. -/
def writeBlankLines (opt : Options) : Ind Unit := do
  let s ← get
  let n :=
    if s.prefixBlanklineRequested ≠ 0 ∧ s.notFirstLine then
      if opt.swallowOptionalBlanklines then if s.nRealBlanklines = 1 then 0 else s.nRealBlanklines
      else if s.nRealBlanklines = 0 then 1 else s.nRealBlanklines
    else s.nRealBlanklines
  puts (List.replicate n 10)
  modify fun s => { s with nRealBlanklines := 0 }

def writeLine (opt : Options) : Ind Unit := do
  modify fun s => { s with suppressBlanklines := 0, ps := { s.ps with blLine := false } }
  writeBlankLines opt
  let s ← get
  onlyIf (s.ps.indLevel = 0) (modifyPs fun ps => { ps with indStmt := false })
  onlyIf (s.lab.text ≠ [] ∨ s.code.text ≠ []) (modify fun s => { s with codeLines := s.codeLines + 1 })
  let curCol ← writeLab opt
  modifyPs fun ps => { ps with pcase := false }
  let curCol ← writeCode opt curCol
  writeCom opt curCol
  putc (if (← get).ps.useFf then 12 else 10)
  modifyPs fun ps => { ps with outLines := ps.outLines + 1 }
  let s ← get
  (if s.ps.justSawDecl = 1 ∧ opt.blanklinesAfterDeclarations then
    set { s with prefixBlanklineRequested := 1, ps := { s.ps with justSawDecl := 0 } }
  else set { s with prefixBlanklineRequested := s.postfixBlanklineRequested })
  modify fun s => { s with postfixBlanklineRequested := 0 }

/-- The comment buffer starts again behind its first byte. -/
def Buf.restart (b : Buf) : Buf :=
  let block := b.front ++ b.text ++ b.tail
  { front := block.take 1, text := [], tail := 0 :: block.drop 2 }

/-- What `dump_line` does to the parser state whether or not the line is blank. -/
def ParserState.newLine (ps : ParserState) : ParserState :=
  { ps with declOnLine := ps.inDecl, indStmt := ps.inStmt && !ps.inDecl, useFf := false
            dumpedDeclIndent := false, indLevel := ps.iLFollow, parenLevel := ps.pLFollow }

def finishLine : Ind Unit := do
  modify fun s => { s with lab := s.lab.cut 0, code := s.code.cut 0, com := s.com.restart
                           ps := s.ps.newLine }
  closeLab
  closeCode
  let s ← get
  onlyIf (0 < s.ps.parenLevel) do
    let p ← orRange .parenIndents s.ps.parenIndents[s.ps.parenLevel - 1]?
    modify fun s => { s with parenTarget := -p }
  modify fun s => { s with notFirstLine := true }

def dumpLine (env : Env) : Ind Unit := do
  onlyIf ((← get).ps.hasProcname = true)
    (modifyPs fun ps => { ps with indLevel := 0, procname := ps.procname.set 0 0 })
  let s ← get
  (if s.code.text = [] ∧ s.lab.text = [] ∧ s.com.text = [] then
    if 0 < s.suppressBlanklines then set { s with suppressBlanklines := s.suppressBlanklines - 1 }
    else set { s with nRealBlanklines := s.nRealBlanklines + 1, ps := { s.ps with blLine := true } }
  else onlyIf (s.inhibitFormatting = false) (writeLine env.opt))
  finishLine

/-! ### Reading a line -/

/-- The bytes up to the next newline without NULs, what follows them, and whether the end of the
file was met: it counts as a blank and a newline. -/
def readLine : List UInt8 → List UInt8 × List UInt8 × Bool
  | [] => ([32, 10], [], true)
  | c :: cs =>
    if c = 10 then ([10], cs, false)
    else if c = 0 then readLine cs
    else (c :: (readLine cs).1, (readLine cs).2)

/-- The size that the input buffer is given when it has to take a byte at index `p`; the bound on
the rounds is generous. -/
def grownSize (p : ℕ) : ℕ → ℕ → ℕ
  | 0, size => size
  | n + 1, size => if size ≤ p + 2 then grownSize p n ((size - 2) * 2 + 10) else size

/-- The control comments: whether formatting is turned off, if the line is one of them. -/
def control? (line : List UInt8) : Option Bool :=
  let p := line.dropWhile isBlank
  if !(bytes "/*").isPrefixOf p then none
  else
    let p := (p.drop 2).dropWhile isBlank
    if !(bytes "INDENT").isPrefixOf p then none
    else
      let p := (p.drop 6).dropWhile isBlank
      let (com, p) :=
        if (bytes "*").isPrefixOf p then (some false, p)
        else if (bytes "ON").isPrefixOf p then (some false, p.drop 2)
        else if (bytes "OFF").isPrefixOf p then (some true, p.drop 3)
        else (none, p)
      if (bytes "*/\n").isPrefixOf (p.dropWhile isBlank) then com else none

/-- The input buffer takes in the next line. -/
def readBuffer (env : Env) : Ind Unit := do
  let s ← get
  let (line, input, eof) := readLine s.input
  let block := s.src.before ++ s.src.rest ++ s.src.after
  let last := if eof then line.length - 2 else line.length - 1
  let size := grownSize last (last + 1) block.length
  let block := block ++ (← allocate env (size - block.length))
  modify fun s => { s with
    input, hadEof := s.hadEof || eof
    src := { before := [], rest := line, after := block.drop line.length } }

/-- A control comment takes effect. -/
def obeyControl (env : Env) (off : Bool) : Ind Unit := do
  let s ← get
  onlyIf (s.com.text ≠ [] ∨ s.lab.text ≠ [] ∨ s.code.text ≠ []) (dumpLine env)
  modify fun s => { s with inhibitFormatting := off }
  onlyIf (off = false) (modify fun s => { s with
    nRealBlanklines := 0, postfixBlanklineRequested := 0, prefixBlanklineRequested := 0
    suppressBlanklines := 1 })

/-- The part of `fill_buffer` that reads; `again` is the call for the line behind a message. -/
def fillFromInput (env : Env) (again : Ind Unit) : Ind Unit := do
  readBuffer env
  let line := (← get).src.rest
  (if (bytes "*/\n").reverse.isPrefixOf line.reverse then
    if (bytes "/**INDENT**").isPrefixOf line then again
    else
      match control? line with
      | some off => obeyControl env off
      | none => pure ()
  else pure ())
  let s ← get
  onlyIf (s.inhibitFormatting = true) (puts s.src.rest)

def fillBuffer (env : Env) : ℕ → Ind Unit
  | 0 => outOfFuel
  | fuel + 1 => do
    let s ← get
    match s.saved with
    | some src =>
      set { s with src, saved := none }
      onlyIf (src.rest = []) (fillFromInput env (fillBuffer env fuel))
    | none => fillFromInput env (fillBuffer env fuel)

end BsdAdditions.Indent
