import Mathlib.Data.Nat.Digits.Defs
import BsdAdditions.Ee.Format

/-! The settings of the editor: the menu and the commands that change them, and the file that
keeps them from one session to the next. -/
namespace BsdAdditions.Ee

structure Settings where
  caseSen : Bool
  expandTabs : Bool
  infoWindow : Bool
  observMargins : Bool
  autoFormat : Bool
  printCommand : List UInt8
  rightMargin : ℤ
  nohighlight : Bool
  eightbit : Bool
  emacsKeysMode : Bool
  eeChinese : Bool
  deriving DecidableEq

def literal (s : String) : List UInt8 := s.toList.map fun c => UInt8.ofNat c.toNat

/-- The values that the program starts with. -/
def Settings.default : Settings where
  caseSen := false
  expandTabs := true
  infoWindow := true
  observMargins := true
  autoFormat := false
  printCommand := literal "lpr"
  rightMargin := 0
  nohighlight := false
  eightbit := true
  emacsKeysMode := false
  eeChinese := false

/-! ### Names -/

def isDigit (b : UInt8) : Bool := 48 ≤ b && b ≤ 57

/-- What every locale says of upper case: letters that have it keep it, and digits are apart. -/
structure Locale where
  toupper : UInt8 → UInt8
  toupper_upper : ∀ b, 65 ≤ b → b ≤ 90 → toupper b = b
  toupper_digit : ∀ b, isDigit b → toupper b = b
  isDigit_of_toupper : ∀ b, isDigit (toupper b) → isDigit b

/-- Strings are equal as far as the first word of the shorter one goes. -/
def compare (loc : Locale) (sensitive : Bool) : List UInt8 → List UInt8 → Bool
  | a :: as, b :: bs =>
    if if sensitive then a = b else loc.toupper a = loc.toupper b then
      if as.head? = none ∨ bs.head? = none ∨ as.head? = some 32 ∨ bs.head? = some 32 then true
      else compare loc sensitive as bs
    else false
  | _, _ => false

def uniqueTest (loc : Locale) (string : List UInt8) (list : List (List UInt8)) : ℕ :=
  list.countP (compare loc false string)

inductive InitString where
  | case
  | nocase
  | expand
  | noexpand
  | info
  | noinfo
  | margins
  | nomargins
  | autoformat
  | noautoformat
  | echo
  | printcommand
  | rightmargin
  | highlight
  | nohighlight
  | eightbit
  | noeightbit
  | emacs
  | noemacs
  | chinese
  | nochinese
  deriving DecidableEq

def InitString.text : InitString → List UInt8
  | .case => literal "CASE"
  | .nocase => literal "NOCASE"
  | .expand => literal "EXPAND"
  | .noexpand => literal "NOEXPAND"
  | .info => literal "INFO"
  | .noinfo => literal "NOINFO"
  | .margins => literal "MARGINS"
  | .nomargins => literal "NOMARGINS"
  | .autoformat => literal "AUTOFORMAT"
  | .noautoformat => literal "NOAUTOFORMAT"
  | .echo => literal "ECHO"
  | .printcommand => literal "PRINTCOMMAND"
  | .rightmargin => literal "RIGHTMARGIN"
  | .highlight => literal "HIGHLIGHT"
  | .nohighlight => literal "NOHIGHLIGHT"
  | .eightbit => literal "EIGHTBIT"
  | .noeightbit => literal "NOEIGHTBIT"
  | .emacs => literal "EMACS"
  | .noemacs => literal "NOEMACS"
  | .chinese => literal "16BIT"
  | .nochinese => literal "NO16BIT"

/-- The order of the list is also the order in which `ee_init` compares. -/
def initStrings : List InitString :=
  [.case, .nocase, .expand, .noexpand, .info, .noinfo, .margins, .nomargins, .autoformat,
    .noautoformat, .echo, .printcommand, .rightmargin, .highlight, .nohighlight, .eightbit,
    .noeightbit, .emacs, .noemacs, .chinese, .nochinese]

def commands : List (List UInt8) :=
  [literal "HELP", literal "WRITE", literal "READ", literal "LINE", literal "FILE",
    literal "REDRAW", literal "RESEQUENCE", literal "AUTHOR", literal "VERSION",
    InitString.case.text, InitString.nocase.text, InitString.expand.text, InitString.noexpand.text,
    literal "EXIT", literal "QUIT", literal "<", literal ">", literal "!", literal "0", literal "1",
    literal "2", literal "3", literal "4", literal "5", literal "6", literal "7", literal "8",
    literal "9", literal "CHARACTER", InitString.chinese.text, InitString.nochinese.text]

/-! ### Numbers -/

/-- Blanks and a sign may stand before the digits. -/
def atoi (string : List UInt8) : ℤ :=
  match string.dropWhile fun b => b = 32 || (9 ≤ b && b ≤ 13) with
  | 45 :: rest => -digits rest
  | 43 :: rest => digits rest
  | rest => digits rest

/-- `%d`. -/
def decimal (n : ℤ) : List UInt8 :=
  let shown := ((Nat.digits 10 n.natAbs).reverse.map fun d => UInt8.ofNat (48 + d))
  if n = 0 then [48] else if n < 0 then 45 :: shown else shown

/-! ### Changing a setting -/

/-- What is chosen in the settings menu, the answer to its question for the right margin, and what
is typed at the command prompt. -/
inductive Change where
  | menu (item : ℕ)
  | margin (answer : List UInt8)
  | command (cmdStr : List UInt8)

def modesOp (s : Settings) : ℕ → Settings
  | 1 => { s with expandTabs := !s.expandTabs }
  | 2 => { s with caseSen := !s.caseSen }
  | 3 => { s with observMargins := !s.observMargins }
  | 4 => { s with autoFormat := !s.autoFormat, observMargins := !s.autoFormat || s.observMargins }
  | 5 => { s with eightbit := !s.eightbit, eeChinese := !s.eightbit && s.eeChinese }
  | 6 => { s with infoWindow := !s.infoWindow }
  | 7 => { s with emacsKeysMode := !s.emacsKeysMode }
  | 9 => { s with eeChinese := !s.eeChinese, eightbit := !s.eeChinese || s.eightbit }
  | _ => s

def setMargin (n : ℤ) (s : Settings) : Settings := if 0 < n then { s with rightMargin := n } else s

/-- A command behind `<` or `>`. -/
def behindPipe (cmdStr : List UInt8) : List UInt8 :=
  if cmdStr.head?.any isBlank then nextWord cmdStr else cmdStr

/-- What a command does to the settings. Some names are looked for before those that are about a
setting, and a number before the two that are about 16 bit characters. -/
def command (loc : Locale) : ℕ → Bool → Bool → List UInt8 → Settings → Settings
  | 0, _, _, _, s => s
  | depth + 1, inPipe, outPipe, cmdStr, s =>
    let is := compare loc false cmdStr
    if is (literal "HELP") || is (literal "WRITE") || is (literal "READ") || is (literal "LINE") ||
      is (literal "FILE") then s
    else if cmdStr.head?.any isDigit then s
    else if is (literal "CHARACTER") || is (literal "REDRAW") || is (literal "RESEQUENCE") ||
      is (literal "AUTHOR") || is (literal "VERSION") then s
    else if is InitString.case.text then { s with caseSen := true }
    else if is InitString.nocase.text then { s with caseSen := false }
    else if is InitString.expand.text then { s with expandTabs := true }
    else if is InitString.noexpand.text then { s with expandTabs := false }
    else if is (literal "EXIT") then s
    else if is InitString.chinese.text then { s with eeChinese := true }
    else if is InitString.nochinese.text then { s with eeChinese := false }
    else if is (literal "QUIT") then s
    else if cmdStr.head? = some 60 ∧ inPipe = false then
      command loc depth true outPipe (behindPipe cmdStr.tail) s
    else if cmdStr.head? = some 62 ∧ outPipe = false then
      command loc depth inPipe true (behindPipe cmdStr.tail) s
    else s

/-- Behind both signs there is no third command. -/
def commandPrompt (loc : Locale) (cmdStr : List UInt8) (s : Settings) : Settings :=
  if uniqueTest loc cmdStr commands ≠ 1 then s else command loc 3 false false cmdStr s

def Change.apply (loc : Locale) (s : Settings) : Change → Settings
  | .menu item => modesOp s item
  | .margin answer => setMargin (atoi answer) s
  | .command cmdStr => commandPrompt loc cmdStr s

/-! ### The file -/

/-- `fgets`: a line with its newline, or as much of it as there is room for. -/
def fgets (size : ℕ) (file : List UInt8) : List UInt8 × List UInt8 :=
  let n := min ((file.takeWhile (· ≠ 10)).length + 1) (size - 1)
  (file.take n, file.drop n)

/-- One line of the file; what is echoed changes no setting. -/
def InitString.apply (line : List UInt8) (s : Settings) : InitString → Settings
  | .case => { s with caseSen := true }
  | .nocase => { s with caseSen := false }
  | .expand => { s with expandTabs := true }
  | .noexpand => { s with expandTabs := false }
  | .info => { s with infoWindow := true }
  | .noinfo => { s with infoWindow := false }
  | .margins => { s with observMargins := true }
  | .nomargins => { s with observMargins := false }
  | .autoformat => { s with autoFormat := true, observMargins := true }
  | .noautoformat => { s with autoFormat := false }
  | .echo => s
  | .printcommand => { s with printCommand := nextWord line }
  | .rightmargin =>
    if (nextWord line).head?.any isDigit then setMargin (atoi (nextWord line)) s else s
  | .highlight => { s with nohighlight := false }
  | .nohighlight => { s with nohighlight := true }
  | .eightbit => { s with eightbit := true }
  | .noeightbit => { s with eightbit := false, eeChinese := false }
  | .emacs => { s with emacsKeysMode := true }
  | .noemacs => { s with emacsKeysMode := false }
  | .chinese => { s with eeChinese := true, eightbit := true }
  | .nochinese => { s with eeChinese := false }

def initLine (loc : Locale) (s : Settings) (line : List UInt8) : Settings :=
  if uniqueTest loc line (initStrings.map InitString.text) ≠ 1 then s
  else
    match initStrings.find? fun i => compare loc false line i.text with
    | some i => i.apply line s
    | none => s

/-- The lines of one file. The search for the newline runs off a line that has none. -/
def readInit (loc : Locale) : ℕ → List UInt8 → Settings → Option Settings
  | 0, _, s => some s
  | fuel + 1, file, s =>
    if file = [] then some s
    else
      let (string, rest) := fgets 512 file
      if 10 ∈ string then
        readInit loc fuel rest (initLine loc s (cString (string.takeWhile (· ≠ 10))))
      else none

/-- Reads the files that exist, each in at most as many rounds as it has bytes. -/
def eeInit (loc : Locale) (lang : Option (List UInt8)) (files : List (List UInt8))
    (s : Settings) : Option Settings := do
  let s ← files.foldlM (fun s file => readInit loc file.length file s) s
  if lang = some (literal "zh_TW.big5") then pure { s with eeChinese := true, eightbit := true }
  else pure s

/-- Lines that set nothing are kept. -/
def keepsLine (loc : Locale) (string : List UInt8) : Bool :=
  if uniqueTest loc string (initStrings.map InitString.text) = 1 then
    compare loc false string InitString.echo.text
  else true

/-- The last byte of each line, its newline, is overwritten; a line that starts with a NUL has
none. -/
def copyOld (loc : Locale) : ℕ → List UInt8 → Option (List UInt8)
  | 0, _ => some []
  | fuel + 1, file =>
    if file = [] then some []
    else do
      let (buffer, rest) := fgets 512 file
      let string := (cString buffer).dropLast
      if cString buffer = [] then none
      else
        let kept := if keepsLine loc string then string ++ [10] else []
        pure (kept ++ (← copyOld loc fuel rest))

def Settings.dump (s : Settings) : List (List UInt8) :=
  [(if s.caseSen then InitString.case else .nocase).text,
    (if s.expandTabs then InitString.expand else .noexpand).text,
    (if s.infoWindow then InitString.info else .noinfo).text,
    (if s.observMargins then InitString.margins else .nomargins).text,
    (if s.autoFormat then InitString.autoformat else .noautoformat).text,
    InitString.printcommand.text ++ 32 :: s.printCommand,
    InitString.rightmargin.text ++ 32 :: decimal s.rightMargin,
    (if s.nohighlight then InitString.nohighlight else .highlight).text,
    (if s.eightbit then InitString.eightbit else .noeightbit).text,
    (if s.emacsKeysMode then InitString.emacs else .noemacs).text,
    (if s.eeChinese then InitString.chinese else .nochinese).text]

/-- The new file, given the old one if there is one. -/
def dumpEeConf (loc : Locale) (old : Option (List UInt8)) (s : Settings) :
    Option (List UInt8) := do
  let kept ← old.elim (some []) fun file => copyOld loc file.length file
  pure (kept ++ s.dump.flatMap (· ++ [10]))

end BsdAdditions.Ee
