import BsdAdditions.Indent.Comment
import BsdAdditions.Indent.Parse

/-! The main loop. -/
namespace BsdAdditions.Indent
open Common Common.Prog

variable (env : Env) (fuel : ℕ)

/-! ### Looking for a brace -/

def putSc (c : UInt8) : Ind Unit := do
  let s ← get
  set { s with sc := ← orRange .scBuf (s.sc.put? c) }

def putsSc (cs : List UInt8) : Ind Unit := cs.forM putSc

/-- `save_com` starts behind `n` bytes of `sc_buf`, with so many bytes in it. -/
def setSc (start stop : ℕ) : Ind Unit := modify fun s =>
  { s with sc := s.sc.between start stop, saving := true }

/-- The first newline that is saved. -/
def startSaving : Ind Unit := do
  onlyIf ((← get).saving = false) do
    setSc 0 0
    putsSc [32, 32]

/-- The first comment that is saved, behind what stands before it on its line. -/
def startSavingComment : Ind Unit := do
  let s ← get
  onlyIf (s.saving = false) do
    within .scBuf (s.saved = none ∧ 4 ≤ s.src.before.length)
    let n := s.src.before.length - 4
    setSc 0 0
    putsSc (s.src.before.take n)
    setSc n n
    putsSc [32, 32]

/-- The size of `sc_buf`. -/
def scSize : ℕ := 5000

/-- Copies a comment up to its last star. -/
def saveComment : ℕ → Ind Unit
  | 0 => outOfFuel
  | n + 1 => do
    let c ← peek
    putSc c
    next env fuel
    if c = byte '*' ∧ (← peek) = byte '/' then return
    else
      onlyIf ((← get).sc.text.length ≥ scSize) do
        diag env true
          "Internal buffer overflow - Move big comment from right after if, while, or whatever"
        throw (.exit "Internal buffer overflow")
      saveComment n

/-- Tokens are now taken out of `save_com`. It is never filled while it is being read: its last
token is followed by a blank that `lexi` skips before it looks at the next one. -/
def switchBuffer : Ind Unit := do
  putSc 32
  let s ← get
  onlyIf (s.saved.isSome = true) fault
  set { s with
    saved := some s.src, src := { before := s.sc.front, rest := s.sc.text, after := s.sc.tail }
    saving := false }

/-- The white space behind a brace that is moved, up to a newline. -/
def skipToNewline : ℕ → Ind Unit
  | 0 => outOfFuel
  | n + 1 => do
    if isSpace (← peek) then
      next env fuel
      onlyIf ((← peek) ≠ 10) (skipToNewline n)

/-- Whether the newlines before the token are dropped: `} else` and `else if`. -/
def removesNewlines (typeCode : Code) : Ind Bool := do
  let s ← get
  return (typeCode = .spNparen && s.token.head? = some (byte 'e') && s.code.text ≠ [] &&
      s.code.text.getLast? = some 125) ||
    (typeCode = .spParen && s.token.head? = some (byte 'i') && s.lastElse && env.opt.elseIf)

/-- The end of the saved text loses the bytes that satisfy `p`. -/
def trimSc (p : UInt8 → Bool) : Ind Unit := modify fun s =>
  { s with sc := s.sc.cut (trimEnd p s.sc.text).length }

/-- The first token of a statement joins what has been saved, and all of it will be read again. -/
def endSearch (commentBuffered removeNewlines : Bool) : Ind Unit := do
  trimSc isBlank
  onlyIf (env.opt.swallowOptionalBlanklines = true ∨ commentBuffered = false ∧ removeNewlines = true) do
    modify fun s => { s with forceNl := !removeNewlines }
    trimSc (· = 10)
  onlyIf ((← get).forceNl = true) do
    modify fun s => { s with forceNl := false, lineNo := s.lineNo - 1 }
    putsSc [10, 32]
    onlyIf (env.opt.verbose = true) (diag env false "Line broken")
  putsSc ((← get).token.takeWhile (· ≠ 0))
  modifyPs fun ps => { ps with searchBrace := false }
  switchBuffer

/-- The blanks in front of the next token are saved too. -/
def saveBlanks : ℕ → Ind Unit
  | 0 => outOfFuel
  | n + 1 => do
    let c ← peek
    onlyIf (isBlank c = true) do
      putSc c
      advance
      onlyIf ((← get).sc.text.length ≥ scSize) (throw (.exit "input too long"))
      saveBlanks n

/-- The look at the next token, on a copy of the parser state. -/
def lookFurther : Ind Code := do
  onlyIf ((← get).saving = true) do
    saveBlanks fuel
    refill env fuel
  modify fun s => { s with transientState := s.ps }
  let typeCode ← lexi env fuel true
  let s ← get
  onlyIf (typeCode ≠ .newline ∧ typeCode ≠ .formFeed ∧ typeCode ≠ .comment ∧
      s.transientState.searchBrace = false)
    (modify fun s => { s with ps := s.transientState })
  return typeCode

/-- What is done with one token while a brace is looked for; returns whether a comment has been
buffered, or `none` when the token is to be processed at once. -/
def searchStep (typeCode : Code) (commentBuffered : Bool) : Ind (Option Bool) := do
  match typeCode with
  | .newline =>
    startSaving
    putSc 10
    modify fun s => { s with forceNl := false }
    return some commentBuffered
  | .formFeed => return some commentBuffered
  | .comment =>
    startSavingComment
    putsSc (bytes "/*")
    saveComment env fuel fuel
    putSc (byte '/')
    next env fuel
    return some true
  | _ =>
    if typeCode = .lbrace ∧ (← get).saving = true ∧ env.opt.btype2 = true then
      modify fun s => { s with sc := { s.sc with text := s.sc.text.set 0 123 } }
      skipToNewline env fuel fuel
      modifyPs fun ps => { ps with searchBrace := false }
      switchBuffer
      return some commentBuffered
    else
      let removeNewlines ← removesNewlines env typeCode
      onlyIf (removeNewlines = true) (modify fun s => { s with forceNl := false })
      if (← get).saving then
        endSearch env commentBuffered removeNewlines
        return some commentBuffered
      else
        modifyPs fun ps => { ps with searchBrace := false }
        return none

/-- Newlines and comments after `if ()`, `else` and the like are moved to a buffer up to the start
of the statement. Returns the code of the token that is to be processed. -/
def searchBrace : ℕ → Code → Bool → Ind Code
  | 0, _, _ => outOfFuel
  | n + 1, typeCode, commentBuffered => do
    if (← get).ps.searchBrace then
      match ← searchStep env fuel typeCode commentBuffered with
      | none => return typeCode
      | some commentBuffered =>
        if typeCode = .eof then searchBrace n typeCode commentBuffered
        else searchBrace n (← lookFurther env fuel) commentBuffered
    else
      modify fun s => { s with lastElse := false }
      return typeCode

/-! ### The tokens -/

/-- The tabs in front of a declared name. -/
def declTabs (curDecInd : ℤ) : ℕ → ℤ → Ind ℤ
  | 0, pos => pure pos
  | n + 1, pos => do
    let tpos := env.opt.tabsize * (1 + pos.tdiv env.opt.tabsize)
    if tpos ≤ curDecInd then
      putCode 9
      declTabs curDecInd n tpos
    else return pos

/-- Whether the code section has got a new address since so many blocks were allocated. -/
def movedSince (fresh : ℕ) : Ind Bool := do
  return ((List.range (← get).fresh).drop fresh).any env.moves

def indentDeclaration (curDecInd : ℤ) (tabsToVar : Bool) : Ind Unit := do
  divisor env.opt.tabsize
  let s ← get
  let shift := (s.ps.indLevel * env.opt.indSize).tmod env.opt.tabsize
  let pos := s.code.text.length + shift
  let curDecInd := curDecInd + shift
  let pos ←
    if tabsToVar then do
      checkSizeCode env (curDecInd.tdiv env.opt.tabsize)
      declTabs env curDecInd (curDecInd - pos).toNat pos
    else pure pos
  checkSizeCode env (curDecInd - pos + 1)
  putsCode (List.replicate (curDecInd - pos).toNat 32)
  let s' ← get
  onlyIf (s'.code.text.length = s.code.text.length ∧ (← movedSince env s.fresh) = false ∧
      s'.ps.wantBlank = true) do
    putCode 32
    modifyPs fun ps => { ps with wantBlank := false }

def setWantBlank (b : Bool) : Ind Unit := modifyPs fun ps => { ps with wantBlank := b }

def putBlank : Ind Unit := do onlyIf ((← get).ps.wantBlank = true) (putCode 32)

/-- The line so far is written, and the next one starts without a blank. -/
def breakLine : Ind Unit := do
  dumpLine env
  setWantBlank false

def lineBroken : Ind Unit := onlyIf (env.opt.verbose = true) (diag env false "Line broken")

def copyId (typeCode : Code) : Ind Unit := do
  let token := (← get).token
  checkSizeCode env (token.length + 1)
  putBlank
  putsCode token
  onlyIf (typeCode ≠ .funcname) (setWantBlank true)

/-- The first byte of the token. -/
def tokenByte : Ind UInt8 := do orFault (← get).token.head?

def doNewline : Ind Unit := do
  let s ← get
  onlyIf (s.ps.lastToken ≠ .comma ∨ s.ps.pLFollow > 0 ∨ env.opt.leaveComma = false ∨
      s.ps.blockInit = true ∨ s.breakComma = false ∨ s.com.text ≠ []) (breakLine env)
  modify fun s => { s with lineNo := s.lineNo + 1 }

/-- Whether a token of a declaration is to be moved to the column of the declared names. -/
def awaitsIndent (ps : ParserState) : Bool :=
  ps.inDecl && !ps.blockInit && !ps.dumpedDeclIndent && ps.parenLevel = 0

def doLparen : Ind Unit := do
  modifyPs fun ps => { ps with pLFollow := ps.pLFollow + 1 }
  onlyIf ((← get).ps.pLFollow = 20) do
    diag env false "Reached internal limit of 20 unclosed parens"
    modifyPs fun ps => { ps with pLFollow := ps.pLFollow - 1 }
  let c ← tokenByte
  let s ← get
  (if c = byte '[' then pure ()
  else if awaitsIndent s.ps && !s.ps.hasProcname then do
    indentDeclaration env s.decInd s.tabsToVar
    modifyPs fun ps => { ps with dumpedDeclIndent := true }
  else onlyIf (s.ps.wantBlank = true ∧
      (s.ps.lastToken ≠ .ident ∧ s.ps.lastToken ≠ .funcname ∨ env.opt.procCallsSpace = true ∨
        s.ps.keyword + (if env.opt.billShannon then 1 else 0) > 2)) (putCode 32))
  setWantBlank false
  putCode c
  let s ← get
  let col := toShort ((← orDivide (countSpaces env.opt 1 s.code.text)) - 1)
  within .parenIndents (0 < s.ps.pLFollow ∧ s.ps.pLFollow ≤ 20)
  modifyPs fun ps => { ps with parenIndents := ps.parenIndents.set (ps.pLFollow - 1) col }
  onlyIf (s.spSw = true ∧ s.ps.pLFollow = 1 ∧ env.opt.extraExpressionIndent = true ∧
      col < 2 * env.opt.indSize)
    (modifyPs fun ps => { ps with parenIndents := ps.parenIndents.set 0 (toShort (2 * env.opt.indSize)) })
  -- the kluge for a procedure with an explicit type
  onlyIf (s.ps.inOrSt = true ∧ c = byte '(' ∧ s.ps.tos ≤ 2) do
    parse env .semicolon
    modifyPs fun ps => { ps with inOrSt := false }
  onlyIf (s.ps.keyword = 1 ∨ s.ps.keyword = 2) do
    within .castMask ((← get).ps.pLFollow < 20)
    modifyPs fun ps => { ps with notCastMask := ps.notCastMask ||| bit ps.pLFollow }

/-- The head of an `if`, `while`, `for` or `switch` is complete. -/
def endHead : Ind Unit := do
  modify fun s => { s with
    spSw := false, forceNl := true, ps := { s.ps with lastUD := true, inStmt := false } }
  parse env (← get).hdType

def doRparen : Ind Unit := do
  within .castMask ((← get).ps.pLFollow < 20)
  modifyPs fun ps =>
    if ps.castMask &&& bit ps.pLFollow &&& ~~~ps.notCastMask ≠ 0 then
      { ps with lastUD := true, castMask := ps.castMask &&& (bit ps.pLFollow - 1)
                wantBlank := env.opt.spaceAfterCast }
    else { ps with wantBlank := true }
  modifyPs fun ps => { ps with notCastMask := ps.notCastMask &&& (bit ps.pLFollow - 1) }
  let c ← tokenByte
  (if (← get).ps.pLFollow = 0 then diag env false ("Extra " ++ String.singleton (Char.ofNat c.toNat))
  else modifyPs fun ps => { ps with pLFollow := ps.pLFollow - 1 })
  onlyIf ((← get).code.text = []) (modifyPs fun ps => { ps with parenLevel := ps.pLFollow })
  putCode c
  let s ← get
  onlyIf (s.spSw = true ∧ s.ps.pLFollow = 0) (endHead env)
  modifyPs fun ps => { ps with searchBrace := env.opt.btype2 }

def doUnaryOp : Ind Unit := do
  let s ← get
  (if awaitsIndent s.ps && !s.ps.hasProcname then do
    indentDeclaration env (s.decInd - (s.token.takeWhile (· ≠ 0)).length) s.tabsToVar
    modifyPs fun ps => { ps with dumpedDeclIndent := true }
  else putBlank)
  checkSizeCode env s.token.length
  putsCode s.token
  setWantBlank false

def doBinaryOp : Ind Unit := do
  let token := (← get).token
  checkSizeCode env (token.length + 1)
  putBlank
  putsCode token
  setWantBlank true

def doPostop : Ind Unit := do
  match (← get).token with
  | c :: c' :: _ =>
    putCode c
    putCode c'
    setWantBlank true
  | _ => fault

def doQuestion : Ind Unit := do
  modify fun s => { s with squest := s.squest + 1 }
  putBlank
  putCode (byte '?')
  setWantBlank true

def doColon : Ind Unit := do
  let s ← get
  if 0 < s.squest then
    modify fun s => { s with squest := s.squest - 1 }
    putBlank
    putCode (byte ':')
    setWantBlank true
  else if s.ps.inOrSt then
    putCode (byte ':')
    setWantBlank false
  else
    -- everything so far is a label
    modifyPs fun ps => { ps with inStmt := false }
    checkSizeLab env (s.code.text.length + 3)
    s.code.text.forM putLab
    putLab (byte ':')
    closeLab
    modify fun t => { t with
      code := t.code.cut 0, forceNl := s.scase, scase := false
      ps := { t.ps with pcase := s.scase, wantBlank := false } }

/-- Parentheses that are still open where they must not be; `after` is done for an open head. -/
def unbalanced (after : Ind Unit) : Ind Unit := do
  diag env true "Unbalanced parens"
  modifyPs fun ps => { ps with pLFollow := 0 }
  onlyIf ((← get).spSw = true) do
    modify fun s => { s with spSw := false }
    after

def doSemicolon : Ind Unit := do
  modify fun s => { s with
    scase := false, squest := 0
    ps := { s.ps with
      inOrSt := s.ps.inOrSt && s.ps.decNest ≠ 0
      inParameterDeclaration := s.ps.inParameterDeclaration && s.ps.lastToken ≠ .rparen
      castMask := 0, notCastMask := 0, blockInit := false, blockInitLevel := 0
      justSawDecl := s.ps.justSawDecl - 1 } }
  let s ← get
  onlyIf (awaitsIndent s.ps = true ∧ s.code.text = []) do
    -- a stray semicolon
    indentDeclaration env (s.decInd - 1) s.tabsToVar
    modifyPs fun ps => { ps with dumpedDeclIndent := true }
  modifyPs fun ps => { ps with inDecl := ps.decNest > 0 }
  let s ← get
  onlyIf ((s.spSw = false ∨ s.hdType ≠ .forstmt) ∧ s.ps.pLFollow > 0)
    (unbalanced env (parse env s.hdType))
  putCode (byte ';')
  modifyPs fun ps => { ps with wantBlank := true, inStmt := ps.pLFollow > 0 }
  onlyIf ((← get).spSw = false) do
    parse env .semicolon
    modify fun s => { s with forceNl := true }

/-- A brace that opens a structure or an initialization goes one level down in `di_stack`. -/
def enterDecl : Ind Unit := do
  let s ← get
  within .diStack (s.ps.decNest < 20)
  set { s with diStack := s.diStack.set s.ps.decNest s.decInd, ps := { s.ps with decNest := s.ps.decNest + 1 } }
  onlyIf (s.ps.decNest + 1 = 20) do
    diag env false "Reached internal limit of 20 struct levels"
    modifyPs fun ps => { ps with decNest := ps.decNest - 1 }

/-- A brace that opens a block. -/
def enterBlock : Ind Unit := do
  modifyPs fun ps => { ps with declOnLine := false }
  onlyIf (env.opt.blanklinesAfterDeclarationsAtProctop = true ∧
      (← get).ps.inParameterDeclaration = true)
    (modify fun s => { s with postfixBlanklineRequested := 1 })
  modifyPs fun ps => { ps with inParameterDeclaration := false, inDecl := false }

/-- What a brace does to the line that it comes behind. -/
def braceOnLine : Ind Unit := do
  let s ← get
  onlyIf (s.code.text ≠ [] ∧ s.ps.blockInit = false) do
    if env.opt.btype2 = false then breakLine env
    else
      onlyIf (s.ps.inParameterDeclaration = true ∧ s.ps.inOrSt = false) do
        modifyPs fun ps => { ps with iLFollow := 0 }
        if env.opt.functionBraceSplit then breakLine env else setWantBlank true

def doLbrace : Ind Unit := do
  modify fun s =>
    let s := { s with ps := { s.ps with inStmt := false } }
    if s.ps.blockInit = false then { s with forceNl := true }
    else { s with ps := { s.ps with
      blockInitLevel := if s.ps.blockInitLevel ≤ 0 then 1 else s.ps.blockInitLevel + 1 } }
  braceOnLine env
  onlyIf ((← get).ps.inParameterDeclaration = true)
    (modify fun s => { s with prefixBlanklineRequested := 0 })
  onlyIf ((← get).ps.pLFollow > 0) do
    let hdType := (← get).hdType
    unbalanced env do
      parse env hdType
      modifyPs fun ps => { ps with indLevel := ps.iLFollow }
  onlyIf ((← get).code.text = []) (modifyPs fun ps => { ps with indStmt := false })
  let s ← get
  (if s.ps.inDecl && s.ps.inOrSt then enterDecl env else enterBlock env)
  modify fun s => { s with decInd := 0 }
  parse env .lbrace
  putBlank
  setWantBlank false
  putCode 123
  modifyPs fun ps => { ps with justSawDecl := 0 }

def doRbrace : Ind Unit := do
  let s ← get
  onlyIf (s.ps.top? = some .decl ∧ s.ps.blockInit = false) (parse env .semicolon)
  onlyIf ((← get).ps.pLFollow ≠ 0) do
    diag env true "Unbalanced parens"
    modify fun s => { s with spSw := false, ps := { s.ps with pLFollow := 0 } }
  modifyPs fun ps => { ps with justSawDecl := 0, blockInitLevel := ps.blockInitLevel - 1 }
  let s ← get
  onlyIf (s.code.text ≠ [] ∧ s.ps.blockInit = false) do
    lineBroken env
    dumpLine env
  putCode 125
  modifyPs fun ps => { ps with wantBlank := true, inStmt := false, indStmt := false }
  onlyIf ((← get).ps.decNest > 0) do
    -- in a structure declaration of several levels
    modifyPs fun ps => { ps with decNest := ps.decNest - 1 }
    let s ← get
    let decInd ← orRange .diStack s.diStack[s.ps.decNest]?
    modify fun s => { s with
      decInd
      ps := { s.ps with
        justSawDecl := if s.ps.decNest = 0 ∧ s.ps.inParameterDeclaration = false then 2
          else s.ps.justSawDecl
        inDecl := true } }
  modify fun s => { s with prefixBlanklineRequested := 0 }
  parse env .rbrace
  let s ← get
  modifyPs fun ps => { ps with
    searchBrace := env.opt.cuddleElse && ps.top? = some .ifhead &&
      ps.stack.head?.any fun f => f.il ≥ ps.indLevel }
  onlyIf (s.ps.tos ≤ 1 ∧ env.opt.blanklinesAfterProcs = true ∧ s.ps.decNest = 0)
    (modify fun s => { s with postfixBlanklineRequested := 1 })

/-- `if`, `while` and `for`. -/
def doSpParen : Ind Unit := do
  let c ← tokenByte
  modify fun s => { s with
    spSw := true
    hdType := if c = byte 'i' then .ifstmt else if c = byte 'w' then .whilestmt else .forstmt }
  copyId env .spParen

/-- `else` and `do`. -/
def doSpNparen : Ind Unit := do
  modifyPs fun ps => { ps with inStmt := false }
  let isElse := (← tokenByte) = byte 'e'
  let s ← get
  onlyIf (s.code.text ≠ [] ∧ (isElse → env.opt.cuddleElse = false ∨ s.code.text.getLast? ≠ some 125)) do
    lineBroken env
    breakLine env
  modify fun s => { s with forceNl := true, lastElse := isElse }
  parse env (if isElse then .elselit else .dolit)
  copyId env .spNparen

/-- Where the names of a declaration start, for a type name with so many bytes. -/
def setDecInd (length : ℤ) : Ind Unit := modify fun s =>
  if s.ps.indLevel = 0 ∨ s.ps.decNest > 0 then
    { s with decInd := if env.opt.declIndent > 0 then (env.opt.declIndent : ℤ) else length
             tabsToVar := env.opt.useTabs && env.opt.declIndent > 0 }
  else
    { s with decInd := if env.opt.localDeclIndent > 0 then env.opt.localDeclIndent else length
             tabsToVar := env.opt.useTabs && env.opt.localDeclIndent > 0 }

def doDecl (typeCode : Code) : Ind Unit := do
  parse env .decl
  let s ← get
  onlyIf (s.ps.lastToken = .rparen ∧ s.ps.tos ≤ 1 ∧ s.code.text ≠ []) (breakLine env)
  modifyPs fun ps =>
    if ps.inParameterDeclaration && env.opt.indentParameters && ps.decNest = 0 then
      { ps with indLevel := 1, iLFollow := 1, indStmt := false }
    else ps
  modify fun s => { s with
    prefixBlanklineRequested := 0
    ps := { s.ps with
      inOrSt := true, inDecl := s.ps.lastToken ≠ .typeDef, declOnLine := s.ps.lastToken ≠ .typeDef
      justSawDecl := if s.ps.decNest = 0 then 2 else s.ps.justSawDecl } }
  setDecInd env (((← get).token.takeWhile (· ≠ 0)).length + 1)
  copyId env typeCode

def doIdent (typeCode : Code) : Ind Unit := do
  let s ← get
  (if s.ps.inDecl then
    if typeCode = .funcname then do
      modifyPs fun ps => { ps with inDecl := false }
      (if env.opt.procnamesStartLine = true ∧ s.code.text ≠ [] then do
        closeCode
        dumpLine env
      else putBlank)
      setWantBlank false
    else onlyIf (awaitsIndent s.ps = true) do
      indentDeclaration env s.decInd s.tabsToVar
      modifyPs fun ps => { ps with dumpedDeclIndent := true, wantBlank := false }
  else onlyIf (s.spSw = true ∧ s.ps.pLFollow = 0) (endHead env))
  copyId env typeCode

def doStrpfx : Ind Unit := do
  let token := (← get).token
  checkSizeCode env (token.length + 1)
  putBlank
  putsCode token
  setWantBlank false

def doPeriod : Ind Unit := do
  putCode (byte '.')
  setWantBlank false

def doComma : Ind Unit := do
  setWantBlank ((← get).code.text ≠ [])
  let s ← get
  onlyIf (awaitsIndent s.ps = true ∧ s.ps.hasProcname = false) do
    indentDeclaration env (s.decInd - 1) s.tabsToVar
    modifyPs fun ps => { ps with dumpedDeclIndent := true }
  putCode (byte ',')
  onlyIf ((← get).ps.pLFollow = 0) do
    modifyPs fun ps => { ps with blockInit := ps.blockInit && ps.blockInitLevel > 0 }
    onlyIf ((← get).breakComma = true) do
      if env.opt.leaveComma = false then modify fun s => { s with forceNl := true }
      else
        let target ← computeCodeTarget env.opt
        let col ← orDivide (countSpaces env.opt target (← get).code.text)
        onlyIf (col > env.opt.maxCol - env.opt.tabsize) (modify fun s => { s with forceNl := true })

/-! ### Preprocessor lines -/

/-- The rest of a preprocessor line goes to the label buffer. Returns the offsets between which its
last comment stands. -/
def moveDirective : ℕ → Bool → ℕ → ℕ → Ind (ℕ × ℕ)
  | 0, _, _, _ => outOfFuel
  | n + 1, inComment, comStart, comEnd => do
    let c ← peek
    if c ≠ 10 ∨ inComment = true ∧ (← get).hadEof = false then
      checkSizeLab env 2
      putLab c
      next env fuel
      if c = byte '\\' ∧ inComment = false then
        putLab (← peek)
        next env fuel
        moveDirective n inComment comStart comEnd
      else if c = byte '/' ∧ inComment = false ∧ (← peek) = byte '*' then
        putLab (byte '*')
        advance
        moveDirective n true ((← get).lab.text.length - 2) comEnd
      else if c = byte '*' ∧ inComment = true ∧ (← peek) = byte '/' then
        putLab (byte '/')
        advance
        moveDirective n false comStart (← get).lab.text.length
      else moveDirective n inComment comStart comEnd
    else return (comStart, comEnd)

def trimLab : Ind Unit := modify fun s => { s with lab := s.lab.cut (trimEnd isBlank s.lab.text).length }

/-- A comment at the end of a preprocessor line is read as if it followed it. -/
def moveComment (comStart comEnd : ℕ) : Ind Unit := do
  let s ← get
  (if s.saving then do
    putsSc [10, 32]
    modify fun s => { s with lineNo := s.lineNo - 1 }
  else setSc 0 0)
  onlyIf ((← get).sc.text.length + (comEnd - comStart) > scSize) (throw (.exit "input too long"))
  putsSc ((s.lab.text.take comEnd).drop comStart)
  modify fun s => { s with lab := s.lab.cut comStart }
  trimLab
  switchBuffer

def doPreesc : Ind Unit := do
  let s ← get
  onlyIf (s.com.text ≠ [] ∨ s.lab.text ≠ [] ∨ s.code.text ≠ []) (dumpLine env)
  checkSizeLab env 1
  putLab (byte '#')
  skipBlanks env fuel
  let (comStart, comEnd) ← moveDirective env fuel fuel false 0 0
  trimLab
  let s ← get
  onlyIf (s.lab.text.length = comEnd ∧ s.saved = none) (moveComment comStart comEnd)
  checkSizeLab env 1
  closeLab
  modifyPs fun ps => { ps with pcase := false }

/-! ### The loop -/

/-- What is done before the switch on the type of a token. -/
def beforeSwitch (typeCode : Code) : Ind Unit := do
  (if typeCode ≠ .comment ∧ typeCode ≠ .newline ∧ typeCode ≠ .preesc ∧ typeCode ≠ .formFeed then do
    onlyIf ((← get).forceNl = true ∧ typeCode ≠ .semicolon ∧
        (typeCode ≠ .lbrace ∨ env.opt.btype2 = false)) do
      lineBroken env
      breakLine env
      modify fun s => { s with forceNl := false }
    modifyPs fun ps => { ps with inStmt := true }
    let s ← get
    onlyIf (s.com.text ≠ []) do
      -- a comment in the middle of a line
      checkSizeCode env (s.com.text.length + 3)
      putsCode ([32] ++ s.com.text ++ [32])
      closeCode
      setWantBlank false
      setCom fun b => b.cut 0
  else onlyIf (typeCode ≠ .comment) (modify fun s => { s with forceNl := false }))
  checkSizeCode env 3

/-- The switch on the type of a token, preprocessor lines apart. -/
def doToken (typeCode : Code) : Ind Unit :=
  match typeCode with
  | .formFeed => do
    modifyPs fun ps => { ps with useFf := true }
    breakLine env
  | .newline => doNewline env
  | .lparen => doLparen env
  | .rparen => doRparen env
  | .unaryOp => doUnaryOp env
  | .binaryOp => doBinaryOp env
  | .postop => doPostop
  | .question => doQuestion
  | .casestmt => do
    modify fun s => { s with scase := true }
    copyId env typeCode
  | .colon => doColon env
  | .semicolon => doSemicolon env
  | .lbrace => doLbrace env
  | .rbrace => doRbrace env
  | .swstmt => do
    modify fun s => { s with spSw := true, hdType := .swstmt }
    copyId env typeCode
  | .spParen => doSpParen env
  | .spNparen => doSpNparen env
  | .typeDef | .storage => do
    modify fun s => { s with prefixBlanklineRequested := 0 }
    copyId env typeCode
  | .struct => do
    if (← get).ps.pLFollow > 0 then copyId env typeCode else doDecl env typeCode
  | .decl => doDecl env typeCode
  | .funcname | .ident => doIdent env typeCode
  | .strpfx => doStrpfx env
  | .period => doPeriod
  | .comma => doComma env
  | .comment => prComment env fuel
  | _ => pure ()

def afterSwitch (typeCode : Code) : Ind Unit := do
  closeCode
  onlyIf (typeCode ≠ .comment ∧ typeCode ≠ .newline ∧ typeCode ≠ .preesc)
    (modifyPs fun ps => { ps with lastToken := typeCode })

/-- The end of the input. -/
def finish : Ind Unit := do
  let s ← get
  onlyIf (s.lab.text ≠ [] ∨ s.code.text ≠ [] ∨ s.com.text ≠ []) (dumpLine env)
  onlyIf ((← get).ps.tos > 1) (diag env true "Stuff missing from end of file")
  let s ← get
  onlyIf (env.opt.verbose = true) do
    say env (bytes ("There were " ++ toString s.ps.outLines ++ " output lines and " ++
      toString s.ps.outComs ++ " comments\n"))
    say env (bytes "(Lines with comments)/(Lines with code): ")
    say env (env.ratio s.ps.comLines s.codeLines)
    say env (bytes "\n")

/-- The token that is to be processed next. -/
def nextToken : Ind Code := do
  let typeCode ← lexi env fuel false
  searchBrace env fuel fuel typeCode false

/-- The state of `main` with the stack of parser states that `#if` saves. Only preprocessor lines
touch that stack. -/
structure Main where
  core : Indenter
  ifdefLevel : ℕ
  stateStack : Fin 5 → ParserState

abbrev MainM (α : Type) := StateT Main (Except Halt) α

def onCore {α : Type} (m : Ind α) : MainM α := fun s => do
  let (a, core) ← m s.core
  return (a, { s with core })

/-- The kinds of preprocessor lines. -/
inductive Directive where
  | opens
  | switches
  | closes
  | other
  | unrecognized
  deriving DecidableEq

def Directive.of (lab : List UInt8) : Directive :=
  if (bytes "#if").isPrefixOf lab then .opens
  else if (bytes "#el").isPrefixOf lab then .switches
  else if (bytes "#endif").isPrefixOf lab then .closes
  else if ["include", "define", "undef", "line", "error", "pragma"].any
      (fun d => (bytes d).isPrefixOf (lab.drop 1)) then .other
  else .unrecognized

/-- What a conditional does to the parser state. -/
def conditional (lab : List UInt8) : MainM Unit := do
  let s ← get
  match Directive.of lab with
  | .opens =>
    if h : s.ifdefLevel < 5 then
      set { s with
        ifdefLevel := s.ifdefLevel + 1
        stateStack := Function.update s.stateStack ⟨s.ifdefLevel, h⟩ s.core.ps }
    else onCore (diag env true "#if stack overflow")
  | .switches =>
    if s.ifdefLevel = 0 then
      onCore (diag env true (if lab[3]? = some (byte 'i') then "Unmatched #elif" else "Unmatched #else"))
    else if h : s.ifdefLevel - 1 < 5 then
      set { s with core := { s.core with ps := s.stateStack ⟨s.ifdefLevel - 1, h⟩ } }
    else throw .fault
  | .closes =>
    if s.ifdefLevel = 0 then onCore (diag env true "Unmatched #endif")
    else set { s with ifdefLevel := s.ifdefLevel - 1 }
  | .other => pure ()
  | .unrecognized => onCore (diag env true "Unrecognized cpp directive")

/-- The blank lines around a preprocessor line. -/
def blanklinesAround : Ind Unit := modify fun s =>
  if env.opt.blanklinesAroundConditionalCompilation then
    { s with postfixBlanklineRequested := s.postfixBlanklineRequested + 1, nRealBlanklines := 0 }
  else { s with postfixBlanklineRequested := 0, prefixBlanklineRequested := 0 }

/-- A preprocessor line; returns its kind. -/
def directive : MainM Directive := do
  onCore (doPreesc env fuel)
  let lab := (← get).core.lab.text
  conditional env lab
  (if Directive.of lab = .unrecognized then pure () else onCore (blanklinesAround env))
  return Directive.of lab

/-- What one round of the main loop has met. -/
inductive Round where
  | finished
  | token (typeCode : Code)
  | line (d : Directive)
  deriving DecidableEq

def round : MainM Round := do
  let typeCode ← onCore (nextToken env fuel)
  if typeCode = .eof then
    onCore (finish env)
    return .finished
  else
    onCore (beforeSwitch env typeCode)
    if typeCode = .preesc then
      let d ← directive env fuel
      onCore (afterSwitch typeCode)
      return .line d
    else
      onCore (doToken env fuel typeCode)
      onCore (afterSwitch typeCode)
      return .token typeCode

def mainLoop : ℕ → MainM Unit
  | 0 => throw .fuel
  | n + 1 => do
    if (← round env fuel) = .finished then return else mainLoop n

/-! ### The start -/

def ParserState.initial : ParserState where
  lastToken := .semicolon
  stack := [⟨.stmt, 0, 0⟩]
  boxCom := false
  commentDelta := 0
  nCommentDelta := 0
  castMask := 0
  notCastMask := 0
  blockInit := false
  blockInitLevel := 0
  lastNl := true
  inOrSt := false
  blLine := true
  col1 := false
  comCol := 0
  comLines := 0
  decNest := 0
  declOnLine := false
  iLFollow := 0
  inDecl := false
  inStmt := false
  indLevel := 0
  indStmt := false
  lastUD := false
  outComs := 0
  outLines := 0
  pLFollow := 0
  parenLevel := 0
  parenIndents := List.replicate 20 0
  pcase := false
  searchBrace := false
  useFf := false
  wantBlank := false
  keyword := 0
  dumpedDeclIndent := false
  inParameterDeclaration := false
  procname := List.replicate 100 0
  justSawDecl := 0

/-- A buffer of 200 bytes that starts with a blank and a terminator. -/
def Buf.initial (env : Env) (block : ℕ) : Buf where
  front := [32]
  text := []
  tail := 0 :: (List.range 198).map fun i => env.junk block (i + 2)

def Indenter.initial (env : Env) (input : List UInt8) : Indenter where
  ps := .initial
  transientState := .initial
  lab := .initial env 0
  code := .initial env 1
  com := .initial env 2
  token := []
  src := { before := [], rest := [], after := (List.range 10).map (env.junk 3) }
  saved := none
  sc := { front := [], text := [], tail := List.replicate scSize 0 }
  saving := false
  input := input
  output := []
  log := []
  fresh := 4
  foundErr := false
  nRealBlanklines := 0
  prefixBlanklineRequested := 0
  postfixBlanklineRequested := 0
  breakComma := false
  caseInd := 0
  codeLines := 0
  hadEof := false
  lineNo := 1
  inhibitFormatting := false
  suppressBlanklines := 0
  commentOpen := false
  parenTarget := 0
  notFirstLine := false
  decInd := 0
  diStack := List.replicate 20 0
  forceNl := false
  hdType := .eof
  scase := false
  spSw := false
  squest := 0
  tabsToVar := false
  lastElse := false

def Main.initial (env : Env) (input : List UInt8) : Main where
  core := .initial env input
  ifdefLevel := 0
  stateStack := fun _ => .initial

/-- The column of the first token of the input. -/
def firstColumn (opt : Options) (line : List UInt8) : Option ℤ :=
  countSpaces opt 1 (line.takeWhile isBlank)

/-- What comes before the loop: the first line, and the indentation that it starts with. -/
def start : Ind Unit := do
  fillBuffer env fuel
  parse env .semicolon
  let col ← orDivide (firstColumn env.opt (← get).src.rest)
  onlyIf (col > env.opt.indSize) do
    divisor env.opt.indSize
    let level := col.tdiv env.opt.indSize
    modifyPs fun ps => { ps with indLevel := level, iLFollow := level }

def main : MainM Unit := do
  onCore (start env fuel)
  mainLoop env fuel fuel

/-- The state in which the loop starts. -/
def Main.started (env : Env) (fuel : ℕ) (input : List UInt8) : Option Main :=
  match onCore (start env fuel) (.initial env input) with
  | .ok (_, s) => some s
  | .error _ => none

/-- The default options, with a file for the output and a memory full of zeros. -/
def Env.plain : Env where
  opt := Options.default.settled
  typenames := []
  toStdout := false
  junk := fun _ _ => 0
  moves := fun _ => false
  ratio := fun _ _ => []

/-- A whole run on an input, from options as they have been given: what is written, if the run
comes to its end. -/
def indent (env : Env) (fuel : ℕ) (input : List UInt8) : Except Halt (List UInt8) := do
  let env := { env with opt := env.opt.settled }
  let ((), s) ← main env fuel (.initial env input)
  return s.core.output

end BsdAdditions.Indent
