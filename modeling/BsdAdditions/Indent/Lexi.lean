import BsdAdditions.Indent.Io

/-! The token scanner. -/
namespace BsdAdditions.Indent
open Common Common.Prog

def isDigit (c : UInt8) : Bool := byte '0' ≤ c && c ≤ byte '9'

def isAlpha (c : UInt8) : Bool :=
  byte 'a' ≤ c && c ≤ byte 'z' || byte 'A' ≤ c && c ≤ byte 'Z'

def isAlnum (c : UInt8) : Bool := isAlpha c || isDigit c

/-- The reserved words with their codes. -/
def specials : List (String × ℕ) :=
  [("_Bool", 4), ("_Complex", 4), ("_Imaginary", 4), ("auto", 10), ("bool", 4), ("break", 9),
    ("case", 8), ("char", 4), ("complex", 4), ("const", 4), ("continue", 12), ("default", 8),
    ("do", 6), ("double", 4), ("else", 6), ("enum", 3), ("extern", 10), ("float", 4), ("for", 5),
    ("global", 4), ("goto", 9), ("if", 5), ("imaginary", 4), ("inline", 12), ("int", 4),
    ("long", 4), ("offsetof", 1), ("register", 10), ("restrict", 12), ("return", 9), ("short", 4),
    ("signed", 4), ("sizeof", 2), ("static", 10), ("struct", 3), ("switch", 7), ("typedef", 11),
    ("union", 3), ("unsigned", 4), ("void", 4), ("volatile", 4), ("while", 5)]

/-- The code of a reserved word. -/
def rwcode? (token : List UInt8) : Option ℕ :=
  (specials.find? fun p => bytes p.1 = token).map Prod.snd

/-- The kinds of the states: floating, integer or unknown. -/
def tableKinds : String := "uuiifuufiuuiiuiiiiiuiuuuuu"

/-- The transitions of the automaton for numeric constants on a byte, from the states `A` to `Z`,
as `init_constant_tt` leaves them. The row of the kinds is that of byte 0. -/
def tableRow (c : UInt8) : Option String :=
  match Char.ofNat c.toNat with
  | '\x00' => some tableKinds
  | '0' => some "CEIDEHHHIJQ  U  Q  VUVVZZZ"
  | '1' => some "DEIDEHHHIJQ  U  Q  VUVVZZZ"
  | '2' | '3' | '4' | '5' | '6' | '7' => some "DEIDEHHHIJ   U     VUVVZZZ"
  | '8' | '9' => some "DEJDEHHHJJ   U     VUVVZZZ"
  | 'a' | 'c' | 'd' | 'A' | 'C' | 'D' => some "             U     VUVV   "
  | 'b' | 'B' => some "  K          U     VUVV   "
  | 'e' | 'E' => some "  FFF   FF   U     VUVV   "
  | 'f' | 'F' => some "    f  f     U     VUVV  f"
  | 'u' | 'U' => some "  MM    M  i  iiM   M     "
  | 'x' | 'X' => some "  N                       "
  | 'p' | 'P' => some "                    FFX   "
  | 'L' => some "  LLf  fL  PR   Li  L    f"
  | 'l' => some "  OOf  fO   S P O i O    f"
  | '+' | '-' => some "     G                 Y  "
  | '.' => some "B EE    EE   T      W     "
  | _ => none

/-- The entry for a state. -/
def entry (row : String) (state : Char) : Char := row.toList.getD (state.toNat - 'A'.toNat) ' '

def isFinal (state : Char) : Bool := state = 'f' || state = 'i' || state = 'u'

/-! ### Moving through the input -/

/-- `buf_ptr[k]`, which may be behind the end of the buffer. -/
def peekAt (k : ℕ) : Ind UInt8 := do
  let s ← get
  orFault (s.src.rest ++ s.src.after)[k]?

def peek : Ind UInt8 := peekAt 0

/-- `buf_ptr++`. -/
def advance : Ind Unit := do
  let s ← get
  match s.src.rest with
  | [] => fault
  | c :: rest => set { s with src := { s.src with before := s.src.before ++ [c], rest } }

variable (env : Env) (fuel : ℕ)

/-- The next line, if this one is used up. -/
def refill : Ind Unit := do
  onlyIf ((← get).src.rest = []) (fillBuffer env fuel)

def next : Ind Unit := do
  advance
  refill env fuel

/-- Moves a byte from the input to the token. -/
def takeToken : Ind Unit := do
  putToken (← peek)
  next env fuel

def skipBlanks : Ind Unit := repeatWhile (do return isBlank (← peek)) (next env fuel) fuel

/-! ### Words and numbers -/

/-- The automaton from a state on; returns the kind of the constant. -/
def scanNumber : ℕ → Char → Ind Char
  | 0, _ => outOfFuel
  | n + 1, state =>
    if isFinal state then pure state
    else do
      match tableRow (← peek) with
      | none => pure (entry tableKinds state)
      | some row =>
        if entry row state = ' ' then pure (entry tableKinds state)
        else
          takeToken env fuel
          scanNumber n (entry row state)

def isNameByte (c : UInt8) : Bool := isAlnum c || c = byte '_' || c = byte '$'

/-- After an escaped newline one more byte is taken whatever it is. -/
def scanName : ℕ → Ind Unit
  | 0 => outOfFuel
  | n + 1 => do
    let c ← peek
    if isNameByte c then
      takeToken env fuel
      scanName n
    else if c = byte '\\' then
      if (← peekAt 1) = 10 then
        advance
        advance
        refill env fuel
        takeToken env fuel
        scanName n

/-- The state that `lexi` was given: the global one or a copy of it. -/
def state (transient : Bool) : Ind ParserState := do
  let s ← get
  return if transient then s.transientState else s.ps

def modifyState (transient : Bool) (f : ParserState → ParserState) : Ind Unit := modify fun s =>
  if transient then { s with transientState := f s.transientState } else { s with ps := f s.ps }

/-- `1 << n`, for one of the twenty levels of parentheses. -/
def bit (n : ℕ) : BitVec 32 := 1#32 <<< n

/-- `strncpy` of a name of a procedure. -/
def setProcname (token : List UInt8) (ps : ParserState) : ParserState :=
  let name := (token.takeWhile (· ≠ 0)).take 99
  { ps with procname := name ++ List.replicate (99 - name.length) 0 ++ ps.procname.drop 99 }

/-- Whether a closing parenthesis is followed at once by a semicolon or a comma. -/
def declaresOnly (rest after : List UInt8) : Bool :=
  (List.range rest.length).any fun i =>
    (rest ++ after)[i]? = some (byte ')') &&
      ((rest ++ after)[i + 1]? = some (byte ';') || (rest ++ after)[i + 1]? = some (byte ','))

/-- Whether the identifier starts the definition of a procedure, and if it does not, whether it
looks like the name of a type. -/
def lexIdent (transient : Bool) : Ind Code := do
  let ps ← state transient
  let c ← peek
  let isDecl ←
    if c = byte '(' ∧ ps.tos ≤ 1 ∧ ps.indLevel = 0 ∧ ps.inParameterDeclaration = false ∧
        ps.blockInit = false then do
      let s ← get
      if declaresOnly s.src.rest s.src.after then pure (some false)
      else
        modifyState transient (setProcname s.token)
        onlyIf (ps.inDecl = true) (modifyState transient fun ps => { ps with inParameterDeclaration := true })
        pure none
    else if ps.pLFollow = 0 ∧ ps.blockInit = false ∧ ps.inStmt = false ∧
        (ps.lastToken = .semicolon ∨ ps.lastToken = .lbrace ∨ ps.lastToken = .rbrace) then do
      if isAlpha c then pure (some true)
      else if c = byte '*' then pure (some ((← peekAt 1) ≠ byte '='))
      else pure (some false)
    else pure (some false)
  match isDecl with
  | none => return .funcname
  | some true =>
    modifyState transient fun ps => { ps with keyword := 4, lastUD := true }
    return .decl
  | some false =>
    onlyIf (ps.lastToken = .decl) (modifyState transient fun ps => { ps with lastUD := true })
    return .ident

/-- A type name or a word of a declaration; `rw` is the code of a reserved word. -/
def lexTypename (transient : Bool) (rw : Option ℕ) : Ind Code := do
  let ps ← state transient
  onlyIf (ps.pLFollow ≠ 0) do
    within .castMask (ps.pLFollow < 20)
    modifyState transient fun ps =>
      { ps with castMask := ps.castMask ||| (bit ps.pLFollow &&& ~~~ps.notCastMask) }
  if ps.lastToken = .period ∨ ps.lastToken = .unaryOp then
    modifyState transient fun ps => { ps with keyword := 0 }
    lexIdent transient
  else if rw = some 3 then return .struct
  else if ps.pLFollow ≠ 0 then lexIdent transient
  else return .decl

/-- A name that ends in `_t`, with no further underscore in the end. -/
def hasTypeSuffix (token : List UInt8) : Bool :=
  (token.reverse.takeWhile (· ≠ byte '_')).reverse = bytes "t" && byte '_' ∈ token

/-- What kind of word has been scanned. -/
def lexWordKind (transient : Bool) : Ind Code := do
  modifyState transient fun ps => { ps with keyword := 0 }
  let ps ← state transient
  if ps.lastToken = .struct ∧ ps.pLFollow = 0 then
    modifyState transient fun ps => { ps with lastUD := true }
    return .decl
  else
    modifyState transient fun ps => { ps with lastUD := ps.lastToken = .struct }
    let token := (← get).token
    match rwcode? token with
    | none =>
      if env.opt.autoTypedefs && hasTypeSuffix token || token ∈ env.typenames then
        modifyState transient fun ps => { ps with keyword := 4, lastUD := true }
        lexTypename transient none
      else lexIdent transient
    | some rw =>
      modifyState transient fun ps => { ps with keyword := rw, lastUD := true }
      match rw with
      | 7 => return .swstmt
      | 8 => return .casestmt
      | 3 | 4 => lexTypename transient (some rw)
      | 5 => return .spParen
      | 6 => return .spNparen
      | 10 => return .storage
      | 11 => return .typeDef
      | _ => return .ident

def lexWord (transient : Bool) : Ind Code := do
  let c ← peek
  (if isDigit c || c = byte '.' then do
    let _ ← scanNumber env fuel fuel 'A'
  else scanName env fuel fuel)
  let c ← peek
  if (← get).token = bytes "L" ∧ (c = 34 ∨ c = 39) then return .strpfx
  else
    skipBlanks env fuel
    lexWordKind env transient

/-! ### Everything else -/

/-- A string or character, up to its delimiter. -/
def scanLiteral (qchar : UInt8) : ℕ → Ind Unit
  | 0 => outOfFuel
  | n + 1 => do
    let c ← peek
    if c = 10 then diag env true "Unterminated literal"
    else
      takeToken env fuel
      if c = byte '\\' then
        onlyIf ((← peek) = 10) (modify fun s => { s with lineNo := s.lineNo + 1 })
        takeToken env fuel
        scanLiteral qchar n
      else onlyIf (c ≠ qchar) (scanLiteral qchar n)

/-- The byte moved without a look at the end of the buffer. -/
def takeLast : Ind Unit := do
  putToken (← peek)
  advance

/-- Looks in a declaration for a parenthesis behind letters and white space, from offset `tp` of
the input buffer on. Lines that come in meanwhile replace the one that is being looked at; a block
that has to grow leaves `tp` dangling. -/
def lookAhead : ℕ → ℕ → Ind UInt8
  | 0, _ => outOfFuel
  | n + 1, tp => do
    let s ← get
    let block := s.src.before ++ s.src.rest ++ s.src.after
    let c ← orFault block[tp]?
    if isAlpha c || isSpace c then
      onlyIf (tp + 1 ≥ s.src.before.length + s.src.rest.length) do
        fillBuffer env fuel
        let src := (← get).src
        onlyIf (s.saved.isSome = true ∨
          (src.before ++ src.rest ++ src.after).length ≠ block.length) fault
      lookAhead n (tp + 1)
    else return c

def lexStar (transient : Bool) : Ind Code := do
  if (← state transient).lastUD = false then
    onlyIf ((← peek) = byte '=') takeLast
    return .binaryOp
  else
    repeatWhile (do let c ← peek; return c = byte '*' || isSpace c) (do
      let c ← peek
      onlyIf (c = byte '*') (putToken c)
      next env fuel) fuel
    let s ← get
    onlyIf (s.ps.inDecl = true) do
      onlyIf ((← lookAhead env fuel fuel s.src.before.length) = byte '(')
        (modifyPs fun ps => { ps with procname := ps.procname.set 0 32 })
    return .unaryOp

/-- `+` and `-`, doubled, with `=`, or with `>`. Returns the code and whether a following operator
is unary. -/
def lexSign (transient : Bool) (c : UInt8) : Ind (Code × Bool) := do
  let ps ← state transient
  let code := if ps.lastUD then .unaryOp else .binaryOp
  let c' ← peek
  if c' = c then
    takeLast
    if ps.lastToken = .ident ∨ ps.lastToken = .rparen then
      return (if ps.lastUD then .unaryOp else .postop, false)
    else return (code, true)
  else if c' = byte '=' then
    takeLast
    return (code, true)
  else if c' = byte '>' then
    takeLast
    if env.opt.pointerAsBinop then return (code, true)
    else
      modifyState transient fun ps => { ps with wantBlank := false }
      return (.unaryOp, false)
  else return (code, true)

/-- `||`, `&&` and the like, and a comment. -/
def lexDefault (transient : Bool) (c : UInt8) : Ind (Code × Bool) := do
  let unary := (← state transient).lastUD
  if c = byte '/' ∧ (← peek) = byte '*' then
    putToken (byte '*')
    next env fuel
    return (.comment, unary)
  else
    repeatWhile (do
      let c ← peek
      return (← get).token.getLast? = some c || c = byte '=') (takeToken env fuel) fuel
    return (if unary then .unaryOp else .binaryOp, true)

/-- The switch on the first byte of a token that is no word. Returns the code and whether a
following operator is unary. -/
def lexSwitch (transient : Bool) (c : UInt8) : Ind (Code × Bool) := do
  let unary := (← state transient).lastUD
  if c = 10 then
    modifyState transient fun ps => { ps with lastNl := true }
    return (if (← get).hadEof then .eof else .newline, unary)
  else if c = 34 ∨ c = 39 then
    scanLiteral env fuel c fuel
    return (.ident, false)
  else if c = byte '(' ∨ c = byte '[' then return (.lparen, true)
  else if c = byte ')' ∨ c = byte ']' then return (.rparen, false)
  else if c = byte '#' then return (.preesc, unary)
  else if c = byte '?' then return (.question, true)
  else if c = byte ':' then return (.colon, true)
  else if c = byte ';' then return (.semicolon, true)
  else if c = 123 then return (.lbrace, true)
  else if c = 125 then return (.rbrace, true)
  else if c = 12 then
    modifyState transient fun ps => { ps with lastNl := true }
    return (.formFeed, unary)
  else if c = byte ',' then return (.comma, true)
  else if c = byte '.' then return (.period, false)
  else if c = byte '-' ∨ c = byte '+' then lexSign env transient c
  else if c = byte '=' then
    modifyState transient fun ps => { ps with blockInit := ps.blockInit || ps.inOrSt }
    onlyIf ((← peek) = byte '=') takeLast
    return (.binaryOp, true)
  else if c = byte '>' ∨ c = byte '<' ∨ c = byte '!' then
    let c' ← peek
    onlyIf (c' = byte '>' ∨ c' = byte '<' ∨ c' = byte '=') (takeToken env fuel)
    onlyIf ((← peek) = byte '=') takeLast
    return (if unary then .unaryOp else .binaryOp, true)
  else if c = byte '*' then return (← lexStar env fuel transient, true)
  else lexDefault env fuel transient c

def lexOther (transient : Bool) : Ind Code := do
  let c ← peek
  putToken c
  next env fuel
  let (code, unaryDelim) ← lexSwitch env fuel transient c
  refill env fuel
  modifyState transient fun ps => { ps with lastUD := unaryDelim }
  return code

def lexi (transient : Bool) : Ind Code := do
  modify fun s => { s with token := [] }
  modifyState transient fun ps => { ps with col1 := ps.lastNl, lastNl := false }
  repeatWhile (do return isBlank (← peek)) (do
    modifyState transient fun ps => { ps with col1 := false }
    next env fuel) fuel
  let c ← peek
  let isWord ←
    if isNameByte c then pure true
    else if c = byte '.' then do pure (isDigit (← peekAt 1))
    else pure false
  if isWord then lexWord env fuel transient else lexOther env fuel transient

end BsdAdditions.Indent
