import Mathlib.Algebra.Order.Ring.Int
import BsdAdditions.Indent.Lexi

/-! The options: their table, and how it is applied to the arguments and to the profiles. -/
namespace BsdAdditions.Indent

/-! ### The table -/

inductive Special where
  | ign
  | cli
  | stdin
  | key
  | keyFile
  | version
  deriving DecidableEq

/-- What an option does to the variable it goes with. -/
inductive Kind where
  | special (what : Special)
  | bool (default on : Bool) (set : Bool → Options → Options)
  | int (default : ℤ) (set : ℤ → Options → Options)

structure Pro where
  name : List UInt8
  kind : Kind

def Pro.flag (name : String) (default on : Bool) (set : Bool → Options → Options) : Pro :=
  ⟨bytes name, .bool default on set⟩

def Pro.number (name : String) (default : ℤ) (set : ℤ → Options → Options) : Pro :=
  ⟨bytes name, .int default set⟩

def Pro.other (name : String) (what : Special) : Pro := ⟨bytes name, .special what⟩

def pro : List Pro :=
  [.other "T" .key,
   .other "U" .keyFile,
   .other "-version" .version,
   .other "P" .ign,
   .flag "bacc" false true fun b o => { o with blanklinesAroundConditionalCompilation := b },
   .flag "badp" false true fun b o => { o with blanklinesAfterDeclarationsAtProctop := b },
   .flag "bad" false true fun b o => { o with blanklinesAfterDeclarations := b },
   .flag "bap" false true fun b o => { o with blanklinesAfterProcs := b },
   .flag "bbb" false true fun b o => { o with blanklinesBeforeBlockcomments := b },
   .flag "bc" true false fun b o => { o with leaveComma := b },
   .flag "bl" true false fun b o => { o with btype2 := b },
   .flag "br" true true fun b o => { o with btype2 := b },
   .flag "bs" false true fun b o => { o with billShannon := b },
   .flag "cdb" true true fun b o => { o with commentDelimiterOnBlankline := b },
   .number "cd" 0 fun n o => { o with declComInd := n.toNat },
   .flag "ce" true true fun b o => { o with cuddleElse := b },
   .number "ci" 0 fun n o => { o with continuationIndent := n.toNat },
   .other "cli" .cli,
   .flag "cs" false true fun b o => { o with spaceAfterCast := b },
   .number "c" 33 fun n o => { o with comInd := n.toNat },
   .number "di" 16 fun n o => { o with declIndent := n.toNat },
   .flag "dj" false true fun b o => { o with ljustDecl := b },
   .number "d" 0 fun n o => { o with unindentDisplace := n.toNat },
   .flag "eei" false true fun b o => { o with extraExpressionIndent := b },
   .flag "ei" true true fun b o => { o with elseIf := b },
   .flag "fbs" true true fun b o => { o with functionBraceSplit := b },
   .flag "fc1" true true fun b o => { o with formatCol1Comments := b },
   .flag "fcb" true true fun b o => { o with formatBlockComments := b },
   .flag "ip" true true fun b o => { o with indentParameters := b },
   .number "i" 8 fun n o => { o with indSize := n.toNat },
   .number "lc" 0 fun n o => { o with blockCommentMaxCol := n.toNat },
   .number "ldi" (-1) fun n o => { o with localDeclIndent := n },
   .flag "lpl" false true fun b o => { o with lineupToParensAlways := b },
   .flag "lp" true true fun b o => { o with lineupToParens := b },
   .number "l" 78 fun n o => { o with maxCol := n.toNat },
   .flag "nbacc" false false fun b o => { o with blanklinesAroundConditionalCompilation := b },
   .flag "nbadp" false false fun b o => { o with blanklinesAfterDeclarationsAtProctop := b },
   .flag "nbad" false false fun b o => { o with blanklinesAfterDeclarations := b },
   .flag "nbap" false false fun b o => { o with blanklinesAfterProcs := b },
   .flag "nbbb" false false fun b o => { o with blanklinesBeforeBlockcomments := b },
   .flag "nbc" true true fun b o => { o with leaveComma := b },
   .flag "nbs" false false fun b o => { o with billShannon := b },
   .flag "ncdb" true false fun b o => { o with commentDelimiterOnBlankline := b },
   .flag "nce" true false fun b o => { o with cuddleElse := b },
   .flag "ncs" false false fun b o => { o with spaceAfterCast := b },
   .flag "ndj" false false fun b o => { o with ljustDecl := b },
   .flag "neei" false false fun b o => { o with extraExpressionIndent := b },
   .flag "nei" true false fun b o => { o with elseIf := b },
   .flag "nfbs" true false fun b o => { o with functionBraceSplit := b },
   .flag "nfc1" true false fun b o => { o with formatCol1Comments := b },
   .flag "nfcb" true false fun b o => { o with formatBlockComments := b },
   .flag "nip" true false fun b o => { o with indentParameters := b },
   .flag "nlpl" false false fun b o => { o with lineupToParensAlways := b },
   .flag "nlp" true false fun b o => { o with lineupToParens := b },
   .flag "npcs" false false fun b o => { o with procCallsSpace := b },
   .other "npro" .ign,
   .flag "npsl" true false fun b o => { o with procnamesStartLine := b },
   .flag "nps" false false fun b o => { o with pointerAsBinop := b },
   .flag "nsc" true false fun b o => { o with starCommentCont := b },
   .flag "nsob" false false fun b o => { o with swallowOptionalBlanklines := b },
   .flag "nut" true false fun b o => { o with useTabs := b },
   .flag "nv" false false fun b o => { o with verbose := b },
   .flag "pcs" false true fun b o => { o with procCallsSpace := b },
   .flag "psl" true true fun b o => { o with procnamesStartLine := b },
   .flag "ps" false true fun b o => { o with pointerAsBinop := b },
   .flag "sc" true true fun b o => { o with starCommentCont := b },
   .flag "sob" false true fun b o => { o with swallowOptionalBlanklines := b },
   .other "st" .stdin,
   .flag "ta" false true fun b o => { o with autoTypedefs := b },
   .number "ts" 8 fun n o => { o with tabsize := n.toNat },
   .flag "ut" true true fun b o => { o with useTabs := b },
   .flag "v" false true fun b o => { o with verbose := b }]

def Kind.setDefault : Kind → Options → Options
  | .special _, o => o
  | .bool default _ set, o => set default o
  | .int default set, o => set default o

def setDefaults (o : Options) : Options :=
  pro.foldl (fun o p => p.kind.setDefault o) { o with caseIndent := 0 }

/-- The table has a default for every variable. -/
theorem setDefaults_eq (o : Options) : setDefaults o = .default := rfl

/-! ### The type names -/

/-- The search from the front of the names. -/
def insertTypename (key : List UInt8) : List (List UInt8) → List (List UInt8)
  | [] => [key]
  | name :: names =>
    if name < key then name :: insertTypename key names
    else if key = name then name :: names
    else key :: name :: names

def addTypename (key : List UInt8) (names : List (List UInt8)) : List (List UInt8) :=
  match names.getLast? with
  | none => [key]
  | some last =>
    if key < last then insertTypename key names
    else if key = last then names
    else names ++ [key]

/-! ### One option -/

/-- What the options ask of the C library and of the file system. -/
structure Library where
  atof : List UInt8 → ℚ
  /-- The contents of the file with that name, if it can be read. -/
  read : List UInt8 → Option (List UInt8)
  home : List UInt8

inductive Stream where
  | std
  | file (name : List UInt8)
  deriving DecidableEq

structure Settings where
  opt : Options
  typenames : List (List UInt8)
  input : Option Stream
  output : Option Stream

/-- How the program ends while it reads its options; `undefined` is an `atoi` whose value is no `int`,
and a word too long for the buffer of `scan_profile`. -/
inductive Refusal where
  | unknownParameter (arg : List UInt8)
  | requiresParameter (name : List UInt8)
  | cannotOpen (name : List UInt8)
  | sameFile
  | version
  | undefined
  deriving DecidableEq

/-- What `s2` has behind `s1`. -/
def eqin (s1 s2 : List UInt8) : Option (List UInt8) :=
  if s1.isPrefixOf s2 then some (s2.drop s1.length) else none

/-- The first entry that the argument starts with, and its parameter. -/
def findPro (arg : List UInt8) : Option (Pro × List UInt8) :=
  pro.findSome? fun p => (eqin p.name arg).map fun param => (p, param)

/-- The value of the digits at the start. -/
def atoi (text : List UInt8) : Except Refusal ℕ :=
  let n := (text.takeWhile isDigit).foldl (fun n c => 10 * n + (c - byte '0').toNat) 0
  if n < 2 ^ 31 then pure n else throw .undefined

/-- A line of a file of type names, up to its first blank. -/
def typenameOf (line : List UInt8) : List UInt8 :=
  line.takeWhile fun c => !(c = 32 || c = 9 || c = 10 || c = 13 || c = 0)

/-- The lines of a file, as `fgets` reads them into a buffer of `BUFSIZ` bytes; `room` is what is left of
it. -/
def fgetsLines : List UInt8 → ℕ → List UInt8 → List (List UInt8)
  | [], _, line => if line = [] then [] else [line]
  | c :: cs, room, line =>
    if c = 10 ∨ room = 1 then (line ++ [c]) :: fgetsLines cs 1023 []
    else fgetsLines cs (room - 1) (line ++ [c])

def addTypedefsFromFile (lib : Library) (name : List UInt8) (st : Settings) : Except Refusal Settings :=
  match lib.read name with
  | none => throw (.cannotOpen name)
  | some text =>
    pure { st with
      typenames := (fgetsLines text 1023 []).foldl (fun names line => addTypename (typenameOf line) names)
        st.typenames }

def setSpecial (lib : Library) (what : Special) (name param : List UInt8) (st : Settings) :
    Except Refusal Settings :=
  match what with
  | .ign => pure st
  | .cli =>
    if param = [] then throw (.requiresParameter name)
    else pure { st with opt := { st.opt with caseIndent := lib.atof param } }
  | .stdin => pure { st with input := st.input <|> some .std, output := st.output <|> some .std }
  | .key =>
    if param = [] then throw (.requiresParameter name)
    else pure { st with typenames := addTypename param st.typenames }
  | .keyFile =>
    if param = [] then throw (.requiresParameter name) else addTypedefsFromFile lib param st
  | .version => throw .version

/-- The first byte of the argument is skipped, whatever it is. -/
def setOption (lib : Library) (arg : List UInt8) (st : Settings) : Except Refusal Settings :=
  match findPro (arg.drop 1) with
  | none => throw (.unknownParameter arg)
  | some (p, param) =>
    match p.kind with
    | .special what => setSpecial lib what p.name param st
    | .bool _ on set => pure { st with opt := set on st.opt }
    | .int _ set => do
      if param.head?.any isDigit then
        let n ← atoi param
        return { st with opt := set n st.opt }
      else throw (.requiresParameter p.name)

/-- The table is in an order in which every name is found. -/
theorem findPro_name : ∀ p ∈ pro, (findPro p.name).map (fun r => (r.1.name, r.2)) = some (p.name, []) := by
  decide +kernel

/-! ### Profiles and arguments -/

/-- The size of the buffer of `scan_profile`. -/
def BUFSIZ : ℕ := 1024

/-- `*p++ = c`, where the buffer has room for it. -/
def putByte (buf : List UInt8) (c : UInt8) : Option (List UInt8) :=
  if buf.length < BUFSIZ then some (buf ++ [c]) else none

/-- The next word of a profile and the text behind it; `comment` is where the text of a comment starts.
There is no word where the buffer is too small. -/
def scanWord : List UInt8 → List UInt8 → ℕ → Option (List UInt8 × List UInt8)
  | [], buf, _ => some (buf, [])
  | c :: cs, buf, comment =>
    if c = byte '*' ∧ comment = 0 ∧ buf.getLast? = some (byte '/') then
      (putByte buf c).bind fun buf' => scanWord cs buf' buf.length
    else if c = byte '/' ∧ comment ≠ 0 ∧ buf.getLast? = some (byte '*') then
      scanWord cs (buf.take (comment - 1)) 0
    else if isSpace c then
      if buf ≠ [] ∧ comment = 0 then some (buf, cs) else scanWord cs buf comment
    else (putByte buf c).bind fun buf' => scanWord cs buf' comment

/-- The next word is ended by a zero byte. What `set_option` finds behind the first byte of a word is a C
string. The text gets shorter with every word. -/
def scanProfile (lib : Library) : ℕ → List UInt8 → Settings → Except Refusal Settings
  | 0, _, st => pure st
  | n + 1, text, st => do
    match scanWord text [] 0 with
    | none => throw .undefined
    | some (word, rest) =>
      if word = [] then return st
      else if (putByte word 0).isNone then throw .undefined
      else scanProfile lib n rest (← setOption lib (word.take 1 ++ (word.drop 1).takeWhile (· ≠ 0)) st)

def readProfile (lib : Library) (st : Settings) (name : List UInt8) : Except Refusal Settings :=
  match lib.read name with
  | none => pure st
  | some text => scanProfile lib (text.length + 1) text st

/-- The profile that `-P` names, or the one of the user, and then the one of the directory. -/
def setProfile (lib : Library) (name : Option (List UInt8)) (st : Settings) : Except Refusal Settings :=
  [match name with
    | none => lib.home ++ bytes "/.indent.pro"
    | some arg => arg.drop 2,
   bytes ".indent.pro"].foldlM (readProfile lib) st

/-- The name under which the input is compared with the output. -/
def Stream.name : Stream → List UInt8
  | .std => bytes "Standard Input"
  | .file name => name

/-- An argument without a dash is the input or the output. -/
def setFile (lib : Library) (arg : List UInt8) (st : Settings) : Except Refusal Settings :=
  match st.input, st.output with
  | none, _ =>
    if (lib.read arg).isSome then pure { st with input := some (.file arg) } else throw (.cannotOpen arg)
  | some input, none =>
    if input.name = arg then throw .sameFile else pure { st with output := some (.file arg) }
  | some _, some _ => throw (.unknownParameter arg)

def setArg (lib : Library) (st : Settings) (arg : List UInt8) : Except Refusal Settings :=
  if arg.head? = some (byte '-') then setOption lib arg st else setFile lib arg st

/-- The profile is the last one that is named. -/
def profileName (args : List (List UInt8)) : Option (List UInt8) :=
  args.reverse.find? fun arg => (bytes "-P").isPrefixOf arg && decide (2 < arg.length)

def Settings.initial : Settings := ⟨.default, [], none, none⟩

def readArgs (lib : Library) (args : List (List UInt8)) : Except Refusal Settings := do
  let st ←
    if args.any (· = bytes "-npro") then pure Settings.initial
    else setProfile lib (profileName args) .initial
  args.foldlM (setArg lib) st

/-- What the run is given: messages go to the output if that is the standard one. -/
def Settings.env (st : Settings) (env : Env) : Env :=
  { env with
    opt := st.opt
    typenames := st.typenames
    toStdout := st.output = some .std ∨ (st.output = none ∧ st.input ∈ [none, some .std]) }

end BsdAdditions.Indent
