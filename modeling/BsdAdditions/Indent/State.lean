import Mathlib.Data.Rat.Defs
import BsdAdditions.Common.Relates

/-! The options of `indent`, its parser state and its buffers, and the primitives that move bytes
between them. -/
namespace BsdAdditions.Indent
open Common Common.Prog

/-- The codes of tokens and of what the parser keeps on its stack; `eof` is code 0. -/
inductive Code where
  | eof | newline | lparen | rparen | unaryOp | binaryOp | postop | question | casestmt | colon
  | semicolon | lbrace | rbrace | ident | comma | comment | swstmt | preesc | formFeed | decl
  | spParen | spNparen | ifstmt | whilestmt | forstmt | stmt | stmtl | elselit | dolit | dohead
  | ifhead | elsehead | period | strpfx | storage | funcname | typeDef | struct
  deriving DecidableEq

/-- A text of the source as the bytes it is made of. -/
def bytes (s : String) : List UInt8 := s.toList.map fun c => c.toNat.toUInt8

def byte (c : Char) : UInt8 := c.toNat.toUInt8

/-- The conversion of a `float` to an `int`. -/
def truncate (q : ℚ) : ℤ := q.num.tdiv q.den

structure Options where
  blanklinesAroundConditionalCompilation : Bool
  blanklinesAfterDeclarationsAtProctop : Bool
  blanklinesAfterDeclarations : Bool
  blanklinesAfterProcs : Bool
  blanklinesBeforeBlockcomments : Bool
  leaveComma : Bool
  btype2 : Bool
  billShannon : Bool
  commentDelimiterOnBlankline : Bool
  declComInd : ℕ
  cuddleElse : Bool
  continuationIndent : ℕ
  caseIndent : ℚ
  comInd : ℕ
  declIndent : ℕ
  ljustDecl : Bool
  unindentDisplace : ℕ
  extraExpressionIndent : Bool
  elseIf : Bool
  functionBraceSplit : Bool
  formatCol1Comments : Bool
  formatBlockComments : Bool
  indentParameters : Bool
  indSize : ℕ
  blockCommentMaxCol : ℕ
  /-- Negative as long as it has not been given. -/
  localDeclIndent : ℤ
  lineupToParensAlways : Bool
  lineupToParens : Bool
  pointerAsBinop : Bool
  procCallsSpace : Bool
  procnamesStartLine : Bool
  spaceAfterCast : Bool
  starCommentCont : Bool
  swallowOptionalBlanklines : Bool
  autoTypedefs : Bool
  tabsize : ℕ
  maxCol : ℕ
  useTabs : Bool
  verbose : Bool

/-- What `set_defaults` sets. -/
def Options.default : Options where
  blanklinesAroundConditionalCompilation := false
  blanklinesAfterDeclarationsAtProctop := false
  blanklinesAfterDeclarations := false
  blanklinesAfterProcs := false
  blanklinesBeforeBlockcomments := false
  leaveComma := true
  btype2 := true
  billShannon := false
  commentDelimiterOnBlankline := true
  declComInd := 0
  cuddleElse := true
  continuationIndent := 0
  caseIndent := 0
  comInd := 33
  declIndent := 16
  ljustDecl := false
  unindentDisplace := 0
  extraExpressionIndent := false
  elseIf := true
  functionBraceSplit := true
  formatCol1Comments := true
  formatBlockComments := true
  indentParameters := true
  indSize := 8
  blockCommentMaxCol := 0
  localDeclIndent := -1
  lineupToParensAlways := false
  lineupToParens := true
  pointerAsBinop := false
  procCallsSpace := false
  procnamesStartLine := true
  spaceAfterCast := false
  starCommentCont := true
  swallowOptionalBlanklines := false
  autoTypedefs := false
  tabsize := 8
  maxCol := 78
  useTabs := true
  verbose := false

/-- What `main` makes of the options once all have been read. -/
def Options.settled (o : Options) : Options :=
  let o := { o with comInd := if o.comInd ≤ 1 then 2 else o.comInd }
  let o := { o with
    blockCommentMaxCol := if o.blockCommentMaxCol = 0 then o.maxCol else o.blockCommentMaxCol
    localDeclIndent := if o.localDeclIndent < 0 then o.declIndent else o.localDeclIndent }
  { o with
    declComInd :=
      if o.declComInd = 0 then
        if o.ljustDecl then if o.comInd ≤ 10 then 2 else o.comInd - 8 else o.comInd
      else o.declComInd
    continuationIndent := if o.continuationIndent = 0 then o.indSize else o.continuationIndent }

/-- What a run is given besides its input. -/
structure Env where
  opt : Options
  /-- The type names of the options `-T` and `-U`. -/
  typenames : List (List UInt8)
  /-- Whether the output is the standard one, where messages go too. -/
  toStdout : Bool
  /-- What a fresh block of memory holds. -/
  junk : ℕ → ℕ → UInt8
  /-- Whether a block that grows gets a new address. -/
  moves : ℕ → Bool
  /-- How `printf` writes a ratio with the format of the last line of `-v`. -/
  ratio : ℕ → ℕ → List UInt8

/-- One level of the parser's stacks `p_stack`, `il` and `cstk`. -/
structure Frame where
  code : Code
  il : ℤ
  cstk : ℚ
  deriving DecidableEq

structure ParserState where
  lastToken : Code
  /-- The levels from `tos` down. -/
  stack : List Frame
  boxCom : Bool
  commentDelta : ℤ
  nCommentDelta : ℤ
  castMask : BitVec 32
  notCastMask : BitVec 32
  blockInit : Bool
  blockInitLevel : ℤ
  lastNl : Bool
  inOrSt : Bool
  blLine : Bool
  col1 : Bool
  comCol : ℤ
  comLines : ℕ
  decNest : ℕ
  declOnLine : Bool
  iLFollow : ℤ
  inDecl : Bool
  inStmt : Bool
  indLevel : ℤ
  indStmt : Bool
  lastUD : Bool
  outComs : ℕ
  outLines : ℕ
  pLFollow : ℕ
  parenLevel : ℕ
  /-- Twenty columns, each a `short`. -/
  parenIndents : List ℤ
  pcase : Bool
  searchBrace : Bool
  useFf : Bool
  wantBlank : Bool
  keyword : ℕ
  dumpedDeclIndent : Bool
  inParameterDeclaration : Bool
  /-- A hundred bytes. -/
  procname : List UInt8
  justSawDecl : ℤ
  deriving DecidableEq

def ParserState.tos (ps : ParserState) : ℕ := ps.stack.length - 1

/-- The code on top of the parser's stack. -/
def ParserState.top? (ps : ParserState) : Option Code := ps.stack.head?.map Frame.code

/-- Whether the name of a procedure is held. -/
def ParserState.hasProcname (ps : ParserState) : Bool := ps.procname.headD 0 ≠ 0

/-- Memory in front of a text that is being built, the text, and the memory behind it. -/
structure Buf where
  front : List UInt8
  text : List UInt8
  tail : List UInt8

/-- The byte before the end of the text. -/
def Buf.last? (b : Buf) : Option UInt8 := (b.front ++ b.text).getLast?

def Buf.put? (b : Buf) (c : UInt8) : Option Buf :=
  match b.tail with
  | [] => none
  | _ :: tail => some { b with text := b.text ++ [c], tail }

/-- Writes a terminator behind the text. -/
def Buf.close? (b : Buf) : Option Buf :=
  match b.tail with
  | [] => none
  | _ :: tail => some { b with tail := 0 :: tail }

/-- The end of the text is moved back to where it keeps `n` bytes. -/
def Buf.cut (b : Buf) (n : ℕ) : Buf :=
  { b with text := b.text.take n, tail := b.text.drop n ++ b.tail }

/-- What is found from the start of the text up to a terminator, wherever that is. -/
def Buf.string? (b : Buf) : Option (List UInt8) :=
  if 0 ∈ b.text ++ b.tail then some ((b.text ++ b.tail).takeWhile (· ≠ 0)) else none

/-- A buffer that is read: what has been taken, what is left, and the memory behind it. -/
structure Source where
  before : List UInt8
  rest : List UInt8
  after : List UInt8

structure Indenter where
  ps : ParserState
  transientState : ParserState
  lab : Buf
  code : Buf
  com : Buf
  token : List UInt8
  src : Source
  /-- The input buffer while tokens are taken out of `save_com`. -/
  saved : Option Source
  /-- `sc_buf`; the text runs from `save_com` to `sc_end`. -/
  sc : Buf
  /-- Whether `sc_end` is set. -/
  saving : Bool
  /-- What the input file still holds. -/
  input : List UInt8
  output : List UInt8
  /-- The messages that do not go to the output. -/
  log : List UInt8
  /-- The number of blocks allocated. -/
  fresh : ℕ
  foundErr : Bool
  nRealBlanklines : ℕ
  prefixBlanklineRequested : ℕ
  postfixBlanklineRequested : ℕ
  breakComma : Bool
  caseInd : ℚ
  codeLines : ℕ
  hadEof : Bool
  lineNo : ℤ
  inhibitFormatting : Bool
  suppressBlanklines : ℕ
  commentOpen : Bool
  parenTarget : ℤ
  notFirstLine : Bool
  decInd : ℤ
  /-- Twenty levels. -/
  diStack : List ℤ
  forceNl : Bool
  hdType : Code
  scase : Bool
  spSw : Bool
  squest : ℕ
  tabsToVar : Bool
  lastElse : Bool

/-- What has a fixed size: the columns of the open parentheses, the indentations of declarations,
the buffer for what is read ahead, and the masks with a bit for each open parenthesis. -/
inductive Table where
  | parenIndents
  | diStack
  | scBuf
  | castMask
  deriving DecidableEq

/-- How a run stops before its end; `divide` is a division by zero, `range` an index or a length that
does not fit its table. -/
inductive Halt where
  | fault
  | divide
  | fuel
  | range (table : Table)
  | exit (message : String)
  deriving DecidableEq

abbrev Ind (α : Type) := StateT Indenter (Except Halt) α

def fault {α : Type} : Ind α := throw .fault

def outOfFuel {α : Type} : Ind α := throw .fuel

def orFault {α : Type} : Option α → Ind α
  | some a => pure a
  | none => fault

/-- A quotient, which there is not for a divisor of zero. -/
def orDivide {α : Type} : Option α → Ind α
  | some a => pure a
  | none => throw .divide

/-- What every division by `n` asks for. -/
def divisor (n : ℕ) : Ind Unit := if n = 0 then throw .divide else pure ()

/-- An access to the table, which `c` says is in range. -/
def within (table : Table) (c : Prop) [Decidable c] : Ind Unit :=
  if c then pure () else throw (.range table)

def orRange {α : Type} (table : Table) : Option α → Ind α
  | some a => pure a
  | none => throw (.range table)

def onlyIf (c : Prop) [Decidable c] (m : Ind Unit) : Ind Unit := if c then m else pure ()

/-- A loop with its condition evaluated before each round. -/
def repeatWhile (cond : Ind Bool) (body : Ind Unit) : ℕ → Ind Unit
  | 0 => outOfFuel
  | fuel + 1 => do
    if ← cond then
      body
      repeatWhile cond body fuel

def modifyPs (f : ParserState → ParserState) : Ind Unit := modify fun s => { s with ps := f s.ps }

/-- A fresh block of memory. -/
def allocate (env : Env) (n : ℕ) : Ind (List UInt8) := do
  let s ← get
  set { s with fresh := s.fresh + 1 }
  return (List.range n).map (env.junk s.fresh)

/-! ### The three output buffers -/

/-- The macros `CHECK_SIZE_CODE` and its like: room for so many bytes and a few more. -/
def checkSize (env : Env) (b : Buf) (desiredSize : ℤ) : Ind Buf := do
  if (b.tail.length : ℤ) ≤ desiredSize + 5 then
    return { b with tail := b.tail ++ (← allocate env (394 + desiredSize).toNat) }
  else return b

def putCode (c : UInt8) : Ind Unit := do
  let s ← get
  set { s with code := ← orFault (s.code.put? c) }

def putsCode (cs : List UInt8) : Ind Unit := cs.forM putCode

def checkSizeCode (env : Env) (n : ℤ) : Ind Unit := do
  let code ← checkSize env (← get).code n
  modify fun s => { s with code }

def closeCode : Ind Unit := do
  let s ← get
  set { s with code := ← orFault s.code.close? }

def putLab (c : UInt8) : Ind Unit := do
  let s ← get
  set { s with lab := ← orFault (s.lab.put? c) }

def checkSizeLab (env : Env) (n : ℤ) : Ind Unit := do
  let lab ← checkSize env (← get).lab n
  modify fun s => { s with lab }

def closeLab : Ind Unit := do
  let s ← get
  set { s with lab := ← orFault s.lab.close? }

def putCom (c : UInt8) : Ind Unit := do
  let s ← get
  set { s with com := ← orFault (s.com.put? c) }

def putToken (c : UInt8) : Ind Unit := modify fun s => { s with token := s.token ++ [c] }

/-! ### Output -/

def putc (c : UInt8) : Ind Unit := modify fun s => { s with output := s.output ++ [c] }

def puts (cs : List UInt8) : Ind Unit := modify fun s => { s with output := s.output ++ cs }

/-- `printf`, to the standard output. -/
def say (env : Env) (text : List UInt8) : Ind Unit :=
  if env.toStdout then puts text else modify fun s => { s with log := s.log ++ text }

/-- `diag2`, `diag3` and `diag4`; the text has its arguments in place. -/
def diag (env : Env) (error : Bool) (msg : String) : Ind Unit := do
  onlyIf (error = true) (modify fun s => { s with foundErr := true })
  let text := (if error then "Error" else "Warning") ++ "@" ++ toString (← get).lineNo ++ ": " ++ msg
  if env.toStdout then puts (bytes ("/**INDENT** " ++ text ++ " */\n"))
  else modify fun s => { s with log := s.log ++ bytes (text ++ "\n") }

end BsdAdditions.Indent
