import BsdAdditions.Curse.InfoOut

/-! The parameter language of terminfo: its programs, how they are written, and what they mean. -/
namespace BsdAdditions.Curse

/-- A command other than a conditional. -/
inductive Cmd where
  | lit (b : UInt8) (h : b ≠ 0 ∧ b ≠ 37)
  | percent
  | param (i : Fin 9)
  | const (n : ℕ) (h : n < 2 ^ 31)
  | char (c : UInt8) (h : c ≠ 0)
  | inc
  | binary (op : Binary)
  | unary (op : Unary)
  | setVar (x : Fin 26)
  | getVar (x : Fin 26)
  | print (f : Format) (h : f ≠ .d3)
  | putc

/-- A command or a conditional: conditions with the parts for when they hold, and the part for
when none of them does. -/
inductive Item where
  | cmd (c : Cmd)
  | cond (branch : List Cmd × List Cmd) (elifs : List (List Cmd × List Cmd)) (els : Option (List Cmd))

/-! ### Text -/

def Binary.letter : Binary → UInt8
  | add => 43
  | sub => 45
  | mul => 42
  | div => 47
  | mod => 109
  | and => 38
  | or => 124
  | xor => 94
  | eq => 61
  | gt => 62
  | lt => 60

def Unary.letter : Unary → UInt8
  | not => 33
  | compl => 126

def Format.text : Format → List UInt8
  | d => [100]
  | d2 => [50, 100]
  | d3 => [51, 100]
  | d02 => [48, 50, 100]
  | d03 => [48, 51, 100]

/-- What stands behind the percent sign of a command. -/
def Cmd.body : Cmd → List UInt8
  | lit _ _ => []
  | percent => [37]
  | param i => [112, UInt8.ofNat (49 + i)]
  | const n _ => 123 :: (Ee.decimal n ++ [125])
  | char c _ => [39, c, 39]
  | inc => [105]
  | binary op => [op.letter]
  | unary op => [op.letter]
  | setVar x => [80, UInt8.ofNat (97 + x)]
  | getVar x => [103, UInt8.ofNat (97 + x)]
  | print f _ => f.text
  | putc => [99]

def Cmd.text : Cmd → List UInt8
  | lit b _ => [b]
  | c => 37 :: c.body

def textOf (cs : List Cmd) : List UInt8 := cs.flatMap Cmd.text

/-- The further conditions, the last part and the end mark. -/
def elseText (els : Option (List Cmd)) : List (List Cmd × List Cmd) → List UInt8
  | [] => (els.elim [] fun cs => 37 :: 101 :: textOf cs) ++ [37, 59]
  | (c, b) :: bs => 37 :: 101 :: (textOf c ++ 37 :: 116 :: (textOf b ++ elseText els bs))

def Item.text : Item → List UInt8
  | cmd c => c.text
  | cond (c, b) elifs els => 37 :: 63 :: (textOf c ++ 37 :: 116 :: (textOf b ++ elseText els elifs))

def programText (items : List Item) : List UInt8 := items.flatMap Item.text

/-! ### Meaning -/

/-- Puts a value on a stack of at most `limit` values. -/
def pushWithin (limit : ℕ) (v : Int32) (stack : List Int32) : Option (List Int32) :=
  if stack.length < limit then some (v :: stack) else none

/-- A command takes the value pushed last for its last operand. -/
def Cmd.eval (limit : ℕ) (t : Tty) : Cmd → List Int32 → Option (Tty × List Int32)
  | lit b _, stack => some (t.put [b], stack)
  | percent, stack => some (t.put [37], stack)
  | param i, stack => (pushWithin limit t.p[i.val + 1] stack).map (t, ·)
  | const n _, stack => (pushWithin limit (Int32.ofNat n) stack).map (t, ·)
  | char c _, stack => (pushWithin limit (Int32.ofNat c.toNat) stack).map (t, ·)
  | inc, stack => some (t.inc, stack)
  | binary op, y :: x :: stack => (op.apply x y).map fun v => (t, v :: stack)
  | unary op, x :: stack => some (t, op.apply x :: stack)
  | setVar x, v :: stack => some ({ t with vars := t.vars.set x.val v }, stack)
  | getVar x, stack => (pushWithin limit t.vars[x.val] stack).map (t, ·)
  | print f _, v :: stack => some (t.put (f.print v), stack)
  | putc, v :: stack => some (t.put [byteOf v], stack)
  | _, _ => none

def evalAll (limit : ℕ) : List Cmd → Tty → List Int32 → Option (Tty × List Int32)
  | [], t, stack => some (t, stack)
  | c :: cs, t, stack => (c.eval limit t stack).bind fun r => evalAll limit cs r.1 r.2

/-- The part behind the first condition that holds is carried out, or the last part. -/
def evalBranches (limit : ℕ) (els : Option (List Cmd)) :
    List (List Cmd × List Cmd) → Tty → List Int32 → Option (Tty × List Int32)
  | [], t, stack => evalAll limit (els.getD []) t stack
  | (c, b) :: bs, t, stack =>
    match evalAll limit c t stack with
    | some (t', v :: stack') =>
      if v ≠ 0 then evalAll limit b t' stack' else evalBranches limit els bs t' stack'
    | _ => none

def Item.eval (limit : ℕ) (t : Tty) (stack : List Int32) : Item → Option (Tty × List Int32)
  | cmd c => c.eval limit t stack
  | cond branch elifs els => evalBranches limit els (branch :: elifs) t stack

def evalProgram (limit : ℕ) : List Item → Tty → List Int32 → Option (Tty × List Int32)
  | [], t, stack => some (t, stack)
  | i :: items, t, stack => (i.eval limit t stack).bind fun r => evalProgram limit items r.1 r.2

end BsdAdditions.Curse
