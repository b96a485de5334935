import BsdAdditions.Common.Prog
import BsdAdditions.Curse.Terminfo
import BsdAdditions.Ee.Config

/-! The terminfo interpreter of `new_curse.c`: `Operation` and `Info_Out`. -/
namespace BsdAdditions.Curse
open Common

/-! ### Operators -/

/-- `%d` and its forms with a width. -/
inductive Format where
  | d | d2 | d3 | d02 | d03
  deriving DecidableEq

/-- `printf` of a number, filled up to a width on the left with blanks or with zeros. -/
def printf (zeros : Bool) (width : ℕ) (n : ℤ) : List UInt8 :=
  let shown := Ee.decimal n.natAbs
  let sign := if n < 0 then [45] else []
  let fill := width - (sign ++ shown).length
  if zeros then sign ++ List.replicate fill 48 ++ shown else List.replicate fill 32 ++ sign ++ shown

def Format.print : Format → Int32 → List UInt8
  | d, n => printf false 0 n.toInt
  | d2, n => printf false 2 n.toInt
  -- `%3d` is printed with `%0d`
  | d3, n => printf true 0 n.toInt
  | d02, n => printf true 2 n.toInt
  | d03, n => printf true 3 n.toInt

inductive Binary where
  | add | sub | mul | div | mod | and | or | xor | eq | gt | lt
  deriving DecidableEq

/-- `x op y`. Division by zero has no result. -/
def Binary.apply : Binary → Int32 → Int32 → Option Int32
  | add, x, y => some (x + y)
  | sub, x, y => some (x - y)
  | mul, x, y => some (x * y)
  | div, x, y => if y = 0 then none else some (x / y)
  | mod, x, y => if y = 0 then none else some (x % y)
  | and, x, y => some (x &&& y)
  | or, x, y => some (x ||| y)
  | xor, x, y => some (x ^^^ y)
  | eq, x, y => some (if x = y then 1 else 0)
  | gt, x, y => some (if x > y then 1 else 0)
  | lt, x, y => some (if x < y then 1 else 0)

inductive Unary where
  | not | compl
  deriving DecidableEq

def Unary.apply : Unary → Int32 → Int32
  | not, x => if x = 0 then 1 else 0
  | compl, x => ~~~x

/-- What `Operation` can find at `Otemp`; the letter behind `p`, `P` and `g` as it stands there. -/
inductive Operator where
  | print (f : Format)
  | binary (op : Binary)
  | putc
  | inc
  | percent
  | unary (op : Unary)
  | p (letter : UInt8)
  | P (letter : UInt8)
  | g (letter : UInt8)
  | push (v : Int32)
  deriving DecidableEq

/-- The operator at `Otemp` with the text behind it. There may be none, and then `Otemp` stays where
it is. The result is `none` where the text is left behind its NUL. -/
def scan : List UInt8 → Option (Option Operator × List UInt8)
  | 100 :: rest => some (some (.print .d), rest)                    -- d
  | 50 :: 100 :: rest => some (some (.print .d2), rest)             -- 2d
  | 51 :: 100 :: rest => some (some (.print .d3), rest)             -- 3d
  | 48 :: 50 :: 100 :: rest => some (some (.print .d02), rest)      -- 02d
  | 48 :: 51 :: 100 :: rest => some (some (.print .d03), rest)      -- 03d
  | 43 :: rest => some (some (.binary .add), rest)                  -- +
  | 45 :: rest => some (some (.binary .sub), rest)                  -- -
  | 42 :: rest => some (some (.binary .mul), rest)                  -- *
  | 47 :: rest => some (some (.binary .div), rest)                  -- /
  | 109 :: rest => some (some (.binary .mod), rest)                 -- m
  | 38 :: rest => some (some (.binary .and), rest)                  -- &
  | 124 :: rest => some (some (.binary .or), rest)                  -- |
  | 94 :: rest => some (some (.binary .xor), rest)                  -- ^
  | 61 :: rest => some (some (.binary .eq), rest)                   -- =
  | 62 :: rest => some (some (.binary .gt), rest)                   -- >
  | 60 :: rest => some (some (.binary .lt), rest)                   -- <
  | 99 :: rest => some (some .putc, rest)                           -- c
  | 105 :: rest => some (some .inc, rest)                           -- i
  | 37 :: rest => some (some .percent, rest)                        -- %
  | 33 :: rest => some (some (.unary .not), rest)                   -- !
  | 126 :: rest => some (some (.unary .compl), rest)                -- ~
  | 112 :: letter :: rest => some (some (.p letter), rest)          -- p
  | 80 :: letter :: rest => some (some (.P letter), rest)           -- P
  | 103 :: letter :: rest => some (some (.g letter), rest)          -- g
  | 39 :: c :: _ :: rest => some (some (.push (Int32.ofInt (charValue c))), rest)
  | 123 :: rest =>                                                  -- brace
    match rest.dropWhile (· ≠ 125) with
    | _ :: rest' => some (some (.push (Int32.ofInt (Ee.atoi rest))), rest')
    | [] => none
  | [112] | [80] | [103] | [39] | [39, _] => none
  | rest => some (none, rest)

/-! ### Running an operator -/

/-- The parameters, the variables and what has been written. -/
structure Tty where
  p : Vector Int32 10
  vars : Vector Int32 27
  out : List UInt8

def Tty.put (t : Tty) (bytes : List UInt8) : Tty := { t with out := t.out ++ bytes }

/-- `putchar`. -/
def byteOf (v : Int32) : UInt8 := UInt8.ofNat (v.toInt % 256).toNat

/-- The index that a letter stands for, counted from `base`. -/
def indexOf (base letter : UInt8) : Option ℕ :=
  if base ≤ letter ∧ letter < 128 then some (letter.toNat - base.toNat) else none

/-- A stack of 128 cells, the top first. -/
def pushOn (v : Int32) (stack : List Int32) : Option (List Int32) :=
  if stack.length < 128 then some (v :: stack) else none

/-- The first two parameters are counted up. -/
def Tty.inc (t : Tty) : Tty := { t with p := (t.p.set 1 (t.p[1] + 1)).set 2 (t.p[2] + 1) }

/-- The operator as `Operation` carries it out. -/
def Operator.exec (t : Tty) : Operator → List Int32 → Option (Tty × List Int32)
  | print f, v :: stack => some (t.put (f.print v), stack)
  | binary op, x :: y :: stack => do
    let v ← op.apply x y
    some (t, v :: stack)
  | putc, v :: stack => some (t.put [byteOf v], stack)
  | inc, stack => some (t.inc, stack)
  | percent, stack => some (t.put [37], stack)
  | unary op, v :: stack => some (t, op.apply v :: stack)
  | p letter, stack => do
    let v ← t.p[← indexOf 48 letter]?
    some (t, ← pushOn v stack)
  | P letter, stack => do
    let v ← t.vars[← indexOf 97 letter]?
    some (t, ← pushOn v stack)
  | g letter, v :: stack => do
    let vars ← store t.vars (← indexOf 97 letter) v
    some ({ t with vars }, stack)
  | push v, stack => do some (t, ← pushOn v stack)
  | _, _ => none

/-- `Operation`, on either of the stacks. -/
def operation (t : Tty) (text : List UInt8) (stack : List Int32) : Option (Tty × List UInt8 × List Int32) := do
  let (op, rest) ← scan text
  match op with
  | none => some (t, rest, stack)
  | some op =>
    let (t', stack') ← op.exec t stack
    some (t', rest, stack')

/-! ### The interpreter -/

/-- The text from the first mark on: a percent sign with one of the given characters behind it. -/
def skipTo (marks : List UInt8) : List UInt8 → List UInt8
  | [] => []
  | [_] => []
  | a :: b :: rest => if a = 37 ∧ b ∈ marks then a :: b :: rest else skipTo marks (b :: rest)

/-- The terminal line: how many characters make up a delay, and which one is sent. -/
structure Line where
  padding : ℤ → ℕ
  padChar : UInt8

structure Machine where
  tty : Tty
  rest : List UInt8
  stack : List Int32
  condStack : List Int32
  eval : Bool

/-- The condition has been found false: on to the next one, to the else part or behind the end. -/
def Machine.otherwise (m : Machine) : Machine :=
  match skipTo [101, 59] m.rest with                                -- e ;
  | 37 :: 101 :: rest =>
    match skipTo [116, 59] rest with                                -- t ;
    | [] => { m with rest := [], eval := false }
    | _ :: 59 :: _ => { m with rest := rest, eval := false }
    | _ => { m with rest := rest }
  | 37 :: 59 :: rest => { m with rest := rest, eval := false }
  | _ => { m with rest := [], eval := false }

/-- The condition is at its end. -/
def Machine.test (m : Machine) : Option Machine :=
  match m.condStack with
  | v :: _ =>
    if v ≠ 0 then
      -- behind the mark of the then part
      match m.rest with
      | _ :: _ :: rest => some { m with rest := rest, eval := false }
      | _ => none
    else some m.otherwise
  | [] => some m.otherwise

/-- One round of the loop that evaluates a condition. -/
def Machine.evalStep (m : Machine) : Option Machine :=
  match m.rest with
  | [] => m.test
  | c :: rest =>
    if c = 37 ∧ rest.head? = some 116 then m.test
    else do
      let (tty, rest, condStack) ← operation m.tty rest m.condStack
      some { m with tty, rest, condStack }

/-- At a mark that ends a part which has been carried out. -/
def Machine.endPart (m : Machine) (rest : List UInt8) : Machine :=
  if rest.head? ≠ some 59 then { m with rest := (skipTo [59] rest).drop 2 }
  else { m with rest := rest.drop 1 }

/-- `$<..>`. -/
def Machine.delay (line : Line) (m : Machine) (rest : List UInt8) : Option Machine :=
  match rest.dropWhile (· ≠ 62) with
  | _ :: rest' =>
    some { m with
      tty := m.tty.put (List.replicate (line.padding (Ee.atoi rest)) line.padChar)
      rest := rest' }
  | [] => none

/-- One round of the main loop, at a character that is not the NUL. -/
def Machine.mainStep (line : Line) (m : Machine) (c : UInt8) (rest : List UInt8) : Option Machine :=
  if c = 37 then
    match rest with
    | 63 :: rest => some { m with rest := rest, eval := true }      -- ?
    | 116 :: rest => some (m.endPart rest)                          -- t
    | 101 :: rest => some (m.endPart rest)                          -- e
    | 59 :: rest => some (m.endPart rest)                           -- ;
    | rest => do
      let (tty, rest, stack) ← operation m.tty rest m.stack
      some { m with tty, rest, stack }
  else if c = 36 ∧ rest.head? = some 60 then m.delay line (rest.drop 1)
  else some { m with tty := m.tty.put [c], rest := rest }

/-- One round of whichever loop is running; `none` inside is the end of the text. -/
def Machine.step (line : Line) (m : Machine) : Option (Option Machine) :=
  if m.eval then m.evalStep.map some
  else
    match m.rest with
    | [] => some none
    | c :: rest => (m.mainStep line c rest).map some

def Machine.run (line : Line) : ℕ → Machine → Except Stop Machine
  | 0, _ => .error .fuel
  | fuel + 1, m =>
    match m.step line with
    | none => .error .fault
    | some none => .ok m
    | some (some m') => m'.run line fuel

/-- The array `p`, filled from the end of the list. -/
def loadParams (pList : List Int32) : Option (Vector Int32 10) :=
  if h : (0 :: pList.reverse).length ≤ 10 then
    some ⟨((0 :: pList.reverse) ++ List.replicate (10 - (0 :: pList.reverse).length) 0).toArray, by simp at h ⊢; omega⟩
  else none

/-- The machine as `Info_Out` sets it up. -/
def Machine.start (string : List UInt8) (p : Vector Int32 10) (vars : Vector Int32 27) : Machine where
  tty := { p, vars, out := [] }
  rest := string
  stack := []
  condStack := []
  eval := false

/-- `Info_Out`. The text is what stands before the NUL. -/
def infoOut (line : Line) (fuel : ℕ) (string : List UInt8) (pList : List Int32) (vars : Vector Int32 27) :
    Except Stop Machine :=
  match loadParams pList with
  | none => .error .fault
  | some p => (Machine.start string p vars).run line fuel

end BsdAdditions.Curse
