import BsdAdditions.Common.Triples
import BsdAdditions.Ee.Screen
import BsdAdditions.Ee.TypingSound

/-! What has no loop of its own ends: in a window with room, following the cursor takes at most
three looks at its column, from any state. -/
namespace BsdAdditions.Ee
open Common Common.Prog Std.Do

set_option mvcgen.warning false

/-- The window has room, in the form in which it is kept by every update elsewhere. -/
def Spacious (s : Editor) : Prop := 8 ≤ s.cols ∧ s.lastCol = s.cols - 1

/-- In a window with room the program does not run out of fuel, and the window stays as it is. -/
abbrev Ends {α : Type} (m : Ed α) : Prop := Upholds Spacious (· ≠ Stop.fuel) m

variable {α : Type} {s : Editor}

/-- A program that ends returns, and does then what it is known to do if it returns. -/
theorem Ends.returns {m : Ed α} (h : Ends m) (hs : Roomy s) {post : α → Editor → Prop}
    (hwp : Prog.wp m post s) : Returns m (fun a t => Roomy t ∧ post a t) s := by
  have hend := upholds_iff.mp h s ⟨hs.wide, hs.last⟩
  cases hm : m s with
  | ok p =>
    rw [hm] at hend
    exact ⟨p.1, p.2, hm, ⟨hend.1, hend.2⟩, wp_ok hwp hm⟩
  | error e =>
    rw [hm] at hend
    cases e with
    | fault => exact absurd hm (wp_ne_fault hwp)
    | fuel => exact absurd rfl hend

/-! ### The screen -/

variable (fuel : ℕ)

@[local spec] theorem ends_fault : Ends (fault : Ed α) := upholds_throw nofun

@[local spec] theorem ends_orFault (o : Option α) : Ends (orFault o : Ed α) := by
  cases o with
  | none => exact ends_fault
  | some a => exact upholds_pure a

@[local spec] theorem ends_node (i : ℕ) : Ends (node i) := by
  mvcgen [node]

@[local spec] theorem ends_curr : Ends curr := by
  mvcgen [curr]

theorem ends_midscreenWith {scan : Ptr → Ed Unit} (hscan : ∀ p, Ends (scan p)) (line : ℤ) (p : Ptr) :
    Ends (midscreenWith scan line p) := by
  mvcgen [midscreenWith, hscan]

/-- From this state the program ends in a window with room, or with a fault. -/
def EndsFrom (m : Ed α) (s : Editor) : Prop :=
  match m s with
  | .ok (_, t) => Spacious t
  | .error e => e ≠ Stop.fuel

theorem ends_of_endsFrom {m : Ed α} (h : ∀ s, Spacious s → EndsFrom m s) : Ends m := by
  apply upholds_iff.mpr
  intro s hs
  have hm := h s hs
  unfold EndsFrom at hm
  cases hms : m s with
  | ok p =>
    rw [hms] at hm
    exact hm
  | error e =>
    rw [hms] at hm
    exact hm

theorem endsFrom_bind {β : Type} {m : Ed α} {f : α → Ed β}
    (h : ∀ a t, m s = .ok (a, t) → EndsFrom (f a) t) (hm : m s ≠ .error .fuel) : EndsFrom (m >>= f) s := by
  unfold EndsFrom
  cases hms : m s with
  | ok p =>
    rw [bind_of_ok hms]
    exact h p.1 p.2 hms
  | error e =>
    have hbind : (m >>= f) s = .error e := by simp [bind, StateT.bind, hms, Except.bind]
    rw [hbind]
    intro he
    exact hm (he ▸ hms)

theorem endsFrom_midscreenWith {scan : Ptr → Ed Unit} {p : Ptr} (line : ℤ)
    (hscan : ∀ vert, EndsFrom (scan p) { s with scrVert := vert, scrHorz := 0 }) :
    EndsFrom (midscreenWith scan line p) s := by
  have hup : midscreenWith scan line p s =
      (orFault (countUp s.heap (min line s.lastLine).toNat s.currLine) >>= fun i => do
        set { s with scrVert := (i : ℤ), scrHorz := 0 }
        scan p : Ed Unit) s := rfl
  unfold EndsFrom
  rw [hup]
  cases countUp s.heap (min line s.lastLine).toNat s.currLine with
  | none => exact nofun
  | some i => exact hscan i

/-- The look at a column ends if the one after it does, with an offset that shows the column. -/
theorem endsFrom_scanline {p : Ptr} (hs : Spacious s)
    (hagain : ∀ n vert offset, s.heap s.currLine = some n →
      (n.column s.eightbit p.off - s.horizOffset > s.lastCol ∨ n.column s.eightbit p.off < s.horizOffset) →
      offset ≤ n.column s.eightbit p.off → n.column s.eightbit p.off - offset ≤ s.lastCol →
      EndsFrom (scanline fuel s.point) { s with scrVert := vert, scrHorz := 0, horizOffset := offset }) :
    EndsFrom (scanline (fuel + 1) p) s := by
  obtain ⟨hwide, hlast⟩ := hs
  have hcurr : curr s = orFault (s.heap s.currLine) s := rfl
  rw [scanline]
  cases hn : s.heap s.currLine with
  | none =>
    rw [hn] at hcurr
    refine endsFrom_bind (fun n t h => ?_) ?_
    · rw [hcurr] at h
      cases h
    · intro hfuel
      rw [hcurr] at hfuel
      cases hfuel
  | some n =>
    rw [hn] at hcurr
    have hcol := n.column_nonneg s.eightbit p.off
    have hlt := Int.tmod_lt_of_pos (n.column s.eightbit p.off) (show (0 : ℤ) < 8 by decide)
    have hnonneg := Int.tmod_nonneg 8 hcol
    have hset : ∀ offset, EndsFrom (midscreenWith (scanline fuel) s.scrVert s.point)
        { s with scrHorz := n.column s.eightbit p.off, horizOffset := offset } →
        EndsFrom (do
          set { s with scrHorz := n.column s.eightbit p.off, horizOffset := offset }
          midscreenWith (scanline fuel) s.scrVert s.point)
          { s with scrHorz := n.column s.eightbit p.off } := fun _ h => h
    unfold EndsFrom
    rw [bind_of_ok hcurr]
    by_cases hbad : p.block ≠ n.line ∨ n.bytes.length < p.off
    · rw [onlyIf, if_pos hbad]
      intro hfuel
      cases hfuel
    · rw [onlyIf, if_neg hbad, bind_of_ok rfl, bind_of_ok rfl, bind_of_ok rfl]
      change EndsFrom (if n.column s.eightbit p.off - s.horizOffset > s.lastCol then _
        else if n.column s.eightbit p.off < s.horizOffset then _ else _) _
      split
      next hright =>
        apply hset (n.column s.eightbit p.off - (n.column s.eightbit p.off).tmod 8 - (s.cols - 8))
        apply endsFrom_midscreenWith
        intro vert
        exact hagain n vert (n.column s.eightbit p.off - (n.column s.eightbit p.off).tmod 8 - (s.cols - 8)) hn
          (Or.inl hright) (by omega) (by omega)
      next =>
        split
        next hleft =>
          apply hset (max 0 (n.column s.eightbit p.off - (n.column s.eightbit p.off).tmod 8))
          apply endsFrom_midscreenWith
          intro vert
          exact hagain n vert (max 0 (n.column s.eightbit p.off - (n.column s.eightbit p.off).tmod 8)) hn
            (Or.inr hleft) (by omega) (by omega)
        next => exact ⟨hwide, hlast⟩

/-- A look at the cursor's own column is followed by at most one more. -/
theorem endsFrom_scanline_point (hs : Spacious s) : EndsFrom (scanline (fuel + 2) s.point) s := by
  apply endsFrom_scanline _ hs
  intro n vert offset hn _ hle hge
  have hs' : Spacious { s with scrVert := vert, scrHorz := 0, horizOffset := offset } := hs
  apply endsFrom_scanline _ hs'
  intro n' _ _ hn' hhidden _ _
  obtain rfl : n = n' := Option.some.inj (hn.symm.trans hn')
  dsimp only at hhidden
  omega

@[local spec] theorem ends_scanline (p : Ptr) : Ends (scanline (fuel + 3) p) := by
  apply ends_of_endsFrom
  intro s hs
  apply endsFrom_scanline _ hs
  intro n vert offset _ _ _ _
  have hs' : Spacious { s with scrVert := vert, scrHorz := 0, horizOffset := offset } := hs
  exact endsFrom_scanline_point _ hs'

@[local spec] theorem ends_midscreen (line : ℤ) (p : Ptr) : Ends (midscreen (fuel + 3) line p) :=
  ends_midscreenWith (ends_scanline fuel) line p

/-! ### Steps -/

@[local spec] theorem ends_deref (p : Ptr) : Ends (deref p) := by
  mvcgen [deref]

@[local spec] theorem ends_retreat (k : ℕ) : Ends (retreat k) := by
  mvcgen [retreat]

@[local spec] theorem ends_resetOffset : Ends (resetOffset (fuel + 3)) := by
  mvcgen [resetOffset, onlyIf]

@[local spec] theorem ends_nextline : Ends nextline := by
  mvcgen [nextline]

@[local spec] theorem ends_prevline : Ends prevline := by
  mvcgen [prevline]

@[local spec] theorem ends_wideBefore : Ends wideBefore := by
  mvcgen [wideBefore]

@[local spec] theorem ends_wideAt : Ends wideAt := by
  mvcgen [wideAt]

@[local spec] theorem ends_left (disp : Bool) : Ends (left (fuel + 3) disp) := by
  mvcgen [left, onlyIf, syncScrPos]

@[local spec] theorem ends_right (disp : Bool) : Ends (right (fuel + 3) disp) := by
  mvcgen [right, onlyIf, syncScrPos, advance]

/-! ### Changes -/

@[local spec] theorem ends_resizLine (factor : ℤ) (rline rpos : ℕ) : Ends (resizLine factor rline rpos) := by
  mvcgen [resizLine, setNode]

@[local spec] theorem ends_setCurr (n : Node) : Ends (setCurr n) := by
  mvcgen [setCurr, setNode]

@[local spec] theorem ends_allocLine (size : ℕ) (n : Node) : Ends (allocLine size n) := by
  mvcgen [allocLine, setNode]

@[local spec] theorem ends_appendBytes (nod : ℕ) (bytes : List UInt8) (extra : Ptr) (tempPos : ℕ) :
    Ends (appendBytes nod bytes extra tempPos) := by
  induction bytes generalizing extra tempPos with
  | nil => exact upholds_pure extra
  | cons b bytes ih => mvcgen [appendBytes, setNode, ih]

@[local spec] theorem ends_setPrev (i : Option ℕ) (p : ℕ) : Ends (setPrev i p) := by
  mvcgen [setPrev, setNode]

@[local spec] theorem ends_linkNew : Ends linkNew := by
  mvcgen [linkNew, setNode]

@[local spec] theorem ends_moveTail (nod : ℕ) : Ends (moveTail nod) := by
  mvcgen [moveTail]

@[local spec] theorem ends_insertLine (disp : Bool) : Ends (insertLine (fuel + 3) disp) := by
  mvcgen [insertLine, markChanged, setNode, onlyIf]

@[local spec] theorem ends_saveChar (bytes : List UInt8) : Ends (saveChar bytes) := by
  mvcgen [saveChar, onlyIf]

@[local spec] theorem ends_columnBack (width : ℕ) : Ends (columnBack (fuel + 3) width) := by
  mvcgen [columnBack, syncScrPos]

@[local spec] theorem ends_deleteInLine : Ends (deleteInLine (fuel + 3)) := by
  mvcgen [deleteInLine, markChanged, onlyIf]

@[local spec] theorem ends_joinBehind : Ends joinBehind := by
  mvcgen [joinBehind, setPoint, syncScrPos]

@[local spec] theorem ends_joinLines (disp : Bool) : Ends (joinLines (fuel + 3) disp) := by
  rw [joinLines_eq]
  mvcgen [markChanged]

@[local spec] theorem ends_offStart : Ends offStart := by
  mvcgen [offStart]

@[local spec] theorem ends_delete (disp : Bool) : Ends (delete (fuel + 3) disp) := by
  mvcgen [delete, deleteBack, onlyIf]

@[local spec] theorem ends_beforeEnd : Ends beforeEnd := by
  mvcgen [beforeEnd]

theorem ends_delChar : Ends (delChar (fuel + 3)) := by
  mvcgen [delChar, onlyIf, advance]

theorem ends_delWord : Ends delWord := by
  mvcgen [delWord]

theorem ends_undelWord : Ends undelWord := by
  mvcgen [undelWord, onlyIf, setPoint]

theorem ends_delLine : Ends (delLine (fuel + 3)) := by
  mvcgen [delLine, onlyIf, markChanged]

theorem ends_undelLine : Ends (undelLine (fuel + 3)) := by
  mvcgen [undelLine, onlyIf, setPoint]

@[local spec] theorem ends_putByte (b : UInt8) : Ends (putByte b) := by
  mvcgen [putByte, onlyIf, setPoint]

theorem ends_typeByte (character : ℤ) : Ends (typeByte character) := by
  mvcgen [typeByte, markChanged, syncScrPos, advance]

theorem ends_scrollRight : Ends (scrollRight (fuel + 3)) := by
  mvcgen [scrollRight, onlyIf]

end BsdAdditions.Ee
