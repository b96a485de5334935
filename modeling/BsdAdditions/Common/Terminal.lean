import Mathlib.Data.Nat.Notation
import Mathlib.Data.Int.Notation
import Mathlib.Logic.Function.Basic
import Mathlib.Tactic.SplitIfs

/-! A terminal with an addressable cursor: what it shows, and what the orders that are sent to it do.
An order has no result where terminals differ in what they make of it. -/
namespace BsdAdditions.Common

/-- A character on the screen, highlighted or not. -/
structure Glyph where
  char : UInt8
  standout : Bool
  deriving DecidableEq

def Glyph.blank : Glyph := ⟨32, false⟩

inductive Order where
  | char (c : UInt8)
  | moveTo (row col : ℤ)
  | clearToEol
  | clearScreen
  | region (top bottom : ℤ)
  | insertLine
  | deleteLine
  | scrollBack
  | insertChar
  | deleteChar
  | insertMode (on : Bool)
  | standout (on : Bool)
  deriving DecidableEq

/-- What is fixed about a terminal: its size, whether a character in the last column wraps the cursor
around, and whether the highlighting survives a movement of the cursor. -/
structure TerminalKind where
  lines : ℕ
  cols : ℕ
  wraps : Bool
  keepsStandout : Bool

/-- The cursor is not known after a character in the last column or a movement out of the screen. -/
structure Terminal where
  glyph : ℕ → ℕ → Glyph
  cursor : Option (ℕ × ℕ)
  standout : Bool
  inserting : Bool
  top : ℕ
  bottom : ℕ

section Gaps
variable {α : Type}

/-- A place is opened at `lo`, and what stood at `hi` is lost. -/
def openAt (f : ℕ → α) (lo hi : ℕ) (v : α) (i : ℕ) : α :=
  if lo ≤ i ∧ i ≤ hi then if i = lo then v else f (i - 1) else f i

/-- The place at `lo` is closed, and one is opened at `hi`. -/
def closeAt (f : ℕ → α) (lo hi : ℕ) (v : α) (i : ℕ) : α :=
  if lo ≤ i ∧ i ≤ hi then if i = hi then v else f (i + 1) else f i

/-- Without a part that scrolls, a line is taken out of the middle of the screen by an opening further down. -/
theorem openAt_closeAt (f : ℕ → α) {lo mid hi : ℕ} (hlo : lo ≤ mid) (hmid : mid ≤ hi) (v : α) :
    openAt (closeAt f lo hi v) mid hi v = closeAt f lo mid v := by
  funext i
  unfold openAt closeAt
  split_ifs <;> first | rfl | omega | (congr 1; omega)

theorem openAt_closeAt_below (f : ℕ → α) {lo mid hi : ℕ} (hlo : lo ≤ mid) (hmid : mid ≤ hi) (v : α) :
    openAt (closeAt f mid hi v) lo hi v = openAt f lo mid v := by
  funext i
  unfold openAt closeAt
  split_ifs <;> first | rfl | omega | (congr 1; omega)

end Gaps

/-- A byte that puts a character on the screen. -/
def Graphic (c : UInt8) : Prop := 32 ≤ c ∧ c ≠ 127

instance (c : UInt8) : Decidable (Graphic c) := inferInstanceAs (Decidable (_ ∧ _))

namespace Terminal

/-- One row is changed. -/
def setRow (t : Terminal) (y : ℕ) (row : ℕ → Glyph) : Terminal := { t with glyph := Function.update t.glyph y row }

variable (k : TerminalKind)

/-- A character at this place. In insert mode the rest of the row moves. -/
def printed (t : Terminal) (y x : ℕ) (c : UInt8) : Terminal :=
  { t.setRow y (if t.inserting then openAt (t.glyph y) x (k.cols - 1) ⟨c, t.standout⟩
      else Function.update (t.glyph y) x ⟨c, t.standout⟩) with
    cursor := if x + 1 < k.cols then some (y, x + 1) else none }

/-- The character in the last column of the line that scrolls is not one whose effect is known, if
it wraps the cursor around. -/
def print (t : Terminal) (c : UInt8) : Option Terminal :=
  t.cursor.bind fun p =>
    if p.2 + 1 = k.cols ∧ k.wraps = true ∧ p.1 = t.bottom then none else some (t.printed k p.1 p.2 c)

/-- At the bottom a newline scrolls; the column it leaves the cursor in is known for the first one. -/
def newline (t : Terminal) : Option Terminal :=
  t.cursor.bind fun p =>
    if p.2 = 0 ∧ p.1 = t.bottom ∧ t.top ≤ p.1 ∧ t.standout = false then
      some { t with glyph := closeAt t.glyph t.top t.bottom fun _ => .blank }
    else none

/-- Lines are inserted and deleted in the first column, within the part of the screen that scrolls. -/
def atLine (t : Terminal) (f : ℕ → Terminal) : Option Terminal :=
  t.cursor.bind fun p =>
    if p.2 = 0 ∧ t.top ≤ p.1 ∧ p.1 ≤ t.bottom ∧ t.standout = false then some (f p.1) else none

def exec (t : Terminal) : Order → Option Terminal
  | .char c => if Graphic c then t.print k c else if c = 10 then t.newline else none
  | .moveTo row col =>
    some { t with
      cursor := if 0 ≤ row ∧ row < k.lines ∧ 0 ≤ col ∧ col < k.cols then some (row.toNat, col.toNat) else none
      standout := t.standout && k.keepsStandout }
  | .clearToEol => t.cursor.bind fun p =>
    if t.standout then none
    else some (t.setRow p.1 fun x => if p.2 ≤ x then .blank else t.glyph p.1 x)
  | .clearScreen =>
    if t.standout then none else some { t with glyph := fun _ _ => .blank, cursor := some (0, 0) }
  | .region top bottom =>
    if 0 ≤ top ∧ top < bottom ∧ bottom < k.lines then
      some { t with top := top.toNat, bottom := bottom.toNat, cursor := none }
    else none
  | .insertLine => t.atLine fun y => { t with glyph := openAt t.glyph y t.bottom fun _ => .blank }
  | .deleteLine => t.atLine fun y => { t with glyph := closeAt t.glyph y t.bottom fun _ => .blank }
  | .scrollBack => t.atLine fun y =>
    if y = t.top then { t with glyph := openAt t.glyph y t.bottom fun _ => .blank }
    else { t with cursor := none }
  | .insertChar => t.cursor.bind fun p =>
    some (t.setRow p.1 (openAt (t.glyph p.1) p.2 (k.cols - 1) .blank))
  | .deleteChar => t.cursor.bind fun p =>
    some (t.setRow p.1 (closeAt (t.glyph p.1) p.2 (k.cols - 1) .blank))
  | .insertMode on => some { t with inserting := on }
  | .standout on => some { t with standout := on }

def run (t : Terminal) (orders : List Order) : Option Terminal := orders.foldlM (exec k) t

@[simp] theorem run_nil (t : Terminal) : t.run k [] = some t := rfl

theorem run_append (t : Terminal) (orders more : List Order) :
    t.run k (orders ++ more) = (t.run k orders).bind fun u => u.run k more := by
  simp [run, List.foldlM_append]

theorem run_singleton (t : Terminal) (o : Order) : t.run k [o] = t.exec k o := by
  simp [run]

/-- One more order. -/
theorem run_concat {t u : Terminal} {orders : List Order} (h : t.run k orders = some u) (o : Order) :
    t.run k (orders ++ [o]) = u.exec k o := by
  rw [run_append, h, Option.bind_some, run_singleton]

end Terminal

end BsdAdditions.Common
