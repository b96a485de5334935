import BsdAdditions.Indent.State

/-! The statement parser. -/
namespace BsdAdditions.Indent
open Common Common.Prog

/-- What the parser reads and writes, besides the options and whether there is code on the line. -/
structure Parser where
  stack : List Frame
  iLFollow : ℤ
  indLevel : ℤ
  searchBrace : Bool
  breakComma : Bool
  caseInd : ℚ

namespace Parser

/-- Where the statements around an `if` start. -/
def opensStatement (f : Frame) : Bool := f.code = .stmt || f.code = .stmtl || f.code = .lbrace

/-- One reduction: `none` when there is nothing left to reduce. Looking below the bottom of the
stack is a fault. -/
def reduceOnce (p : Parser) : Except Halt (Option Parser) :=
  match p.stack with
  | [] => throw .fault
  | ⟨.stmt, _, _⟩ :: below =>
    match below with
    | [] => throw .fault
    | f :: rest =>
      match f.code with
      | .stmt | .stmtl => pure (some { p with stack := { f with code := .stmtl } :: rest })
      | .dolit => pure (some { p with stack := { f with code := .dohead } :: rest, iLFollow := f.il })
      | .ifstmt =>
        match rest.find? opensStatement with
        | none => throw .fault
        | some g => pure (some { p with stack := { f with code := .ifhead } :: rest, iLFollow := g.il })
      | .swstmt =>
        pure (some { p with stack := { f with code := .stmt } :: rest, iLFollow := f.il, caseInd := f.cstk })
      | .decl | .elsehead | .forstmt | .whilestmt =>
        pure (some { p with stack := { f with code := .stmt } :: rest, iLFollow := f.il })
      | _ => pure none
  | ⟨.whilestmt, _, _⟩ :: below =>
    match below with
    | [] => throw .fault
    | f :: rest => if f.code = .dohead then pure (some { p with stack := rest }) else pure none
  | _ => pure none

/-- Each reduction takes something off the stack. -/
def reduceFor : ℕ → Parser → Except Halt Parser
  | 0, p => pure p
  | n + 1, p => do
    match ← reduceOnce p with
    | none => pure p
    | some q => reduceFor n q

def reduce (p : Parser) : Except Halt Parser := reduceFor (p.stack.length + 1) p

/-- An `if` without an `else` is done once something else follows. -/
def endIfsFor : ℕ → Parser → Except Halt Parser
  | 0, p => pure p
  | n + 1, p =>
    match p.stack with
    | f :: rest =>
      if f.code = .ifhead then do
        endIfsFor n (← reduce { p with stack := { f with code := .stmt } :: rest })
      else pure p
    | [] => throw .fault

def endIfs (p : Parser) : Except Halt Parser := endIfsFor (p.stack.length + 1) p

def push (p : Parser) (code : Code) (il : ℤ) : Parser := { p with stack := ⟨code, il, 0⟩ :: p.stack }

/-- A head whose body is one level in: `if`, `do` and `for`. -/
def pushHead (opt : Options) (tk : Code) (p : Parser) : Parser :=
  { p.push tk p.iLFollow with
    indLevel := p.iLFollow, iLFollow := p.iLFollow + 1, searchBrace := opt.btype2 }

def shiftDecl (opt : Options) (top : Frame) (p : Parser) : Parser :=
  let p := { p with searchBrace := opt.btype2 }
  if top.code ≠ .decl then
    let q := { p.push .decl p.iLFollow with breakComma := true }
    if opt.ljustDecl then
      let depth : ℤ := (p.stack.dropLast.filter (·.code = .decl)).length
      { q with indLevel := depth, iLFollow := depth }
    else q
  else p

/-- `else if` counts as `if`. -/
def shiftIf (opt : Options) (top : Frame) (p : Parser) : Parser :=
  if top.code = .elsehead ∧ opt.elseIf then
    pushHead opt .ifstmt { p with stack := p.stack.tail, iLFollow := top.il }
  else pushHead opt .ifstmt p

def shiftLbrace (opt : Options) (codeEmpty : Bool) (top : Frame) (p : Parser) : Parser :=
  let p := { p with breakComma := false }
  let p :=
    if top.code = .stmt ∨ top.code = .decl ∨ top.code = .stmtl then
      { p with iLFollow := p.iLFollow + 1 }
    else if codeEmpty then
      { p with indLevel := p.indLevel - if top.code = .swstmt ∧ opt.caseIndent ≥ 1 then 2 else 1 }
    else p
  (p.push .lbrace p.indLevel).push .stmt p.iLFollow

def shiftWhile (opt : Options) (top : Frame) (p : Parser) : Parser :=
  if top.code = .dohead then
    { p with indLevel := top.il, iLFollow := top.il }.push .whilestmt top.il
  else
    { p.push .whilestmt p.iLFollow with iLFollow := p.iLFollow + 1, searchBrace := opt.btype2 }

def shiftSwitch (opt : Options) (p : Parser) : Parser :=
  { p with
    stack := ⟨.swstmt, p.iLFollow, p.caseInd⟩ :: p.stack
    caseInd := p.iLFollow + opt.caseIndent
    iLFollow := truncate (p.iLFollow + (opt.caseIndent + 1))
    searchBrace := opt.btype2 }

def shiftElse (opt : Options) (top : Frame) (p : Parser) : Parser :=
  { p with
    indLevel := top.il, iLFollow := top.il + 1, searchBrace := opt.btype2 || opt.elseIf
    stack := { top with code := .elsehead } :: p.stack.tail }

/-- What the token does to the stack, with the message if it does not fit there; `none` for a code
that is no token of the parser. -/
def shift (opt : Options) (codeEmpty : Bool) (tk : Code) (top : Frame) (p : Parser) :
    Option (Parser × Option String) :=
  match tk with
  | .decl => some (shiftDecl opt top p, none)
  | .ifstmt => some (shiftIf opt top p, none)
  | .dolit | .forstmt => some (pushHead opt tk p, none)
  | .lbrace => some (shiftLbrace opt codeEmpty top p, none)
  | .whilestmt => some (shiftWhile opt top p, none)
  | .elselit =>
    if top.code ≠ .ifhead then some (p, some "Unmatched 'else'") else some (shiftElse opt top p, none)
  | .rbrace =>
    match p.stack.tail with
    | ⟨.lbrace, il, c⟩ :: rest =>
      some ({ p with indLevel := il, iLFollow := il, stack := ⟨.stmt, il, c⟩ :: rest }, none)
    | _ => some (p, some "Statement nesting error")
  | .swstmt => some (shiftSwitch opt p, none)
  | .semicolon => some ({ p.push .stmt p.indLevel with breakComma := false }, none)
  | _ => none

/-- The size of the parser's stacks. -/
def stacksize : ℕ := 256

def parse (opt : Options) (codeEmpty : Bool) (tk : Code) (p : Parser) :
    Except Halt (Parser × Option String) := do
  let p ← if tk = .elselit then pure p else endIfs p
  match p.stack with
  | [] => throw .fault
  | top :: _ =>
    match shift opt codeEmpty tk top p with
    | none => pure (p, some "Unknown code to parser")
    | some (q, msg) =>
      if q.stack.length ≥ stacksize then throw (.exit "Parser stack overflow")
      else pure (← reduce q, msg)

end Parser

def Indenter.parser (s : Indenter) : Parser where
  stack := s.ps.stack
  iLFollow := s.ps.iLFollow
  indLevel := s.ps.indLevel
  searchBrace := s.ps.searchBrace
  breakComma := s.breakComma
  caseInd := s.caseInd

def Indenter.setParser (s : Indenter) (p : Parser) : Indenter :=
  { s with
    breakComma := p.breakComma, caseInd := p.caseInd
    ps := { s.ps with
      stack := p.stack, iLFollow := p.iLFollow, indLevel := p.indLevel, searchBrace := p.searchBrace } }

def parse (env : Env) (tk : Code) : Ind Unit := do
  let s ← get
  let (p, msg) ← (Parser.parse env.opt (s.code.text = []) tk s.parser : Except Halt _)
  set (s.setParser p)
  match msg with
  | some msg => diag env true msg
  | none => pure ()

end BsdAdditions.Indent
