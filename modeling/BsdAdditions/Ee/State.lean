import Mathlib.Data.Int.Notation
import Mathlib.Logic.Function.Basic
import BsdAdditions.Common.Prog

/-! The data of `ee`: the doubly linked list of lines on the heap, the two copies of the cursor,
the buffers for deleted text, and the flags and screen coordinates that editing depends on. What
is only drawn on the screen is left out. -/
namespace BsdAdditions.Ee
open Common Common.Prog

/-- A pointer into an allocated block. -/
structure Ptr where
  block : ℕ
  off : ℕ
  deriving DecidableEq

/-- A `struct text`. The block that `line` points to is kept with it; a reallocation gives it a
new address. -/
structure Node where
  line : ℕ
  bytes : List UInt8
  lineNumber : ℤ
  lineLength : ℕ
  maxLength : ℕ
  next : Option ℕ
  prev : Option ℕ

/-- The machine and the locale: what lies in memory that nobody has written, by block and offset,
and the character functions of the C library. -/
structure Host where
  junk : ℕ → ℕ → UInt8
  isprint : UInt8 → Bool
  toupper : UInt8 → UInt8
  toupper_zero : toupper 0 = 0

/-- The buffer that files are read into. Of its 513 bytes a read reaches only the first 512. -/
structure InString where
  bytes : List UInt8
  last : bytes.getD 512 0 = 0

structure Editor where
  host : Host
  heap : ℕ → Option Node
  fresh : ℕ
  firstLine : ℕ
  currLine : ℕ
  tmpLine : ℕ
  point : Ptr
  position : ℕ
  absoluteLin : ℤ
  scrPos : ℤ
  scrVert : ℤ
  scrHorz : ℤ
  horizOffset : ℤ
  lastLine : ℤ
  lastCol : ℤ
  cols : ℤ
  rightMargin : ℤ
  observMargins : Bool
  autoFormat : Bool
  formatted : Bool
  expandTabs : Bool
  eightbit : Bool
  eeChinese : Bool
  caseSen : Bool
  textChanges : Bool
  inChar : ℤ
  dChar : List UInt8
  dWord : Option (List UInt8)
  dWrdLen : ℕ
  dLine : Option (List UInt8)
  dltLineLength : ℕ
  srchStr : Option (List UInt8)
  uSrchStr : Option (List UInt8)
  recvFile : Bool
  inputFile : Bool
  inString : InString

abbrev Ed := Prog Editor

/-! ### Memory -/

def Host.malloc (h : Host) (block size : ℕ) : List UInt8 := (List.range size).map (h.junk block)

/-- The old bytes as far as they fit, then whatever the new block holds. -/
def Host.realloc (h : Host) (block : ℕ) (bytes : List UInt8) (size : ℕ) : List UInt8 :=
  bytes.take size ++ (h.malloc block size).drop bytes.length

/-- The pointer stored in `line`. -/
def Node.start (n : Node) : Ptr := ⟨n.line, 0⟩

def Ptr.add (p : Ptr) (k : ℕ) : Ptr := { p with off := p.off + k }

/-- Stepping back. Below its block a pointer has no meaning. -/
def Ptr.sub? (p : Ptr) (k : ℕ) : Option Ptr :=
  if k ≤ p.off then some { p with off := p.off - k } else none

def Node.read (n : Node) (p : Ptr) : Option UInt8 :=
  if p.block = n.line then n.bytes[p.off]? else none

/-- `*p` where nothing keeps `p` from running off the block. -/
def Node.peek (n : Node) (h : Host) (p : Ptr) : UInt8 :=
  n.bytes[p.off]?.getD (h.junk n.line p.off)

def Node.write (n : Node) (p : Ptr) (b : UInt8) : Option Node :=
  if p.block = n.line ∧ p.off < n.bytes.length then some { n with bytes := n.bytes.set p.off b }
  else none

/-- `while (temp != p) { *temp = *(temp - 1); temp--; }`, with `temp` starting `k` behind `p`. -/
def Node.shiftUp (n : Node) (p : Ptr) : ℕ → Option Node
  | 0 => some n
  | k + 1 => do (← n.write (p.add (k + 1)) (← n.read (p.add k))).shiftUp p k

/-- `*dst++ = *src++`, `k` times, within one line. -/
def Node.copyDown (n : Node) (dst src : Ptr) : ℕ → Option Node
  | 0 => some n
  | k + 1 => do (← n.write dst (← n.read src)).copyDown (dst.add 1) (src.add 1) k

/-- `*dst++ = *src++`, once for each of the source's bytes. -/
def Node.copyFrom (n : Node) (dst : Ptr) : List UInt8 → Option Node
  | [] => some n
  | b :: bs => do (← n.write dst b).copyFrom (dst.add 1) bs

/-- The `k` bytes from `p` on. -/
def Node.readMany (n : Node) (p : Ptr) : ℕ → Option (List UInt8)
  | 0 => some []
  | k + 1 => do
    let b ← n.read p
    let bs ← n.readMany (p.add 1) k
    some (b :: bs)

def node (i : ℕ) : Ed Node := do orFault ((← get).heap i)

def curr : Ed Node := do node (← get).currLine

def Editor.setNode (s : Editor) (i : ℕ) (n : Node) : Editor :=
  { s with heap := Function.update s.heap i (some n) }

@[simp] theorem Editor.setNode_heap (s : Editor) (i : ℕ) (n : Node) :
    (s.setNode i n).heap = Function.update s.heap i (some n) := rfl

@[simp] theorem Editor.setNode_fresh (s : Editor) (i : ℕ) (n : Node) :
    (s.setNode i n).fresh = s.fresh := rfl

@[simp] theorem Editor.setNode_currLine (s : Editor) (i : ℕ) (n : Node) :
    (s.setNode i n).currLine = s.currLine := rfl

def setNode (i : ℕ) (n : Node) : Ed Unit := modify (·.setNode i n)

def setCurr (n : Node) : Ed Unit := do setNode (← get).currLine n

/-- A new node, and for its line a block of the given size. -/
def allocLine (size : ℕ) (n : Node) : Ed ℕ := do
  let s ← get
  set { s with fresh := s.fresh + 2 }
  setNode s.fresh { n with line := s.fresh + 1, bytes := s.host.malloc (s.fresh + 1) size }
  pure s.fresh

/-- `*p`, for a pointer into the current line. -/
def deref (p : Ptr) : Ed UInt8 := do orFault ((← curr).read p)

/-- `*point`. -/
def atPoint : Ed UInt8 := do deref (← get).point

def setPoint (p : Ptr) : Ed Unit := modify fun s => { s with point := p }

/-- Moves both copies of the cursor forward. -/
def advance (k : ℕ) : Ed Unit :=
  modify fun s => { s with point := s.point.add k, position := s.position + k }

/-- Moves both copies of the cursor back. -/
def retreat (k : ℕ) : Ed Unit := do
  let s ← get
  let p ← orFault (s.point.sub? k)
  set { s with point := p, position := s.position - k }

def resizLine (factor : ℤ) (rline rpos : ℕ) : Ed Ptr := do
  let n ← node rline
  let s ← get
  let maxLength := (n.maxLength + factor).toNat
  setNode rline
    { n with line := s.fresh, bytes := s.host.realloc s.fresh n.bytes maxLength, maxLength }
  modify fun s => { s with fresh := s.fresh + 1 }
  pure ⟨s.fresh, rpos - 1⟩

/-- The bytes of the line, without the terminator. -/
def Node.content (n : Node) : List UInt8 := n.bytes.take (n.lineLength - 1)

/-- The lines from a node on, following the forward links. -/
def linesFrom (heap : ℕ → Option Node) : ℕ → Option ℕ → List (List UInt8)
  | 0, _ => []
  | _ + 1, none => []
  | fuel + 1, some i =>
    match heap i with
    | none => []
    | some n => n.content :: linesFrom heap fuel n.next

/-- The text of the buffer. No node has an address from `fresh` on, so the walk is long enough. -/
def Editor.text (s : Editor) : List (List UInt8) := linesFrom s.heap (s.fresh + 1) (some s.firstLine)

end BsdAdditions.Ee
