import BsdAdditions.Update.Display

/-! The buffers of a line: what they show, and what the changes of them show. -/
namespace BsdAdditions.Curse.Screen
open Common

/-- The end of a line, or a space that is not highlighted. -/
def Cell.Blank (c : Cell) : Prop := (c.char = 0 ∨ c.char = 32) ∧ c.attr = 0

/-- What the terminal shows of a character; nothing, behind the end of a line. -/
def Cell.glyph (on : Bool) (c : Cell) : Glyph :=
  if c.char = 0 then .blank else ⟨c.char, decide (c.attr ≠ 0) && on⟩

theorem Cell.Blank.glyph_eq {c : Cell} (h : c.Blank) (on : Bool) : c.glyph on = .blank := by
  unfold glyph
  rcases h.1 with hc | hc
  · rw [if_pos hc]
  · rw [if_neg (by rw [hc]; decide), hc, h.2]
    rfl

theorem Cell.glyph_of_ne {c : Cell} (h : c.char ≠ 0) (on : Bool) :
    c.glyph on = ⟨c.char, decide (c.attr ≠ 0) && on⟩ := if_neg h

/-- The character at a place. -/
def cellAt (cells : List Cell) (x : ℕ) : Cell := cells[x]?.getD ⟨0, 0⟩

/-- What a line shows: its characters up to the first end. -/
def shown (on : Bool) (cells : List Cell) (x : ℕ) : Glyph :=
  (cellAt (cells.takeWhile fun c => c.char ≠ 0) x).glyph on

variable {cells : List Cell} {on : Bool} {x : ℕ}

theorem getElem?_eq_cellAt (h : x < cells.length) : cells[x]? = some (cellAt cells x) := by
  rw [cellAt, List.getElem?_eq_getElem h, Option.getD_some]

theorem cellAt_of_le (h : cells.length ≤ x) : cellAt cells x = ⟨0, 0⟩ := by
  rw [cellAt, List.getElem?_eq_none h, Option.getD_none]

theorem cellAt_set {j : ℕ} (hj : j < cells.length) (c : Cell) (x : ℕ) :
    cellAt (cells.set j c) x = if x = j then c else cellAt cells x := by
  rw [cellAt, List.getElem?_set]
  by_cases hx : j = x
  · subst hx
    rw [if_pos rfl, if_pos hj, if_pos rfl, Option.getD_some]
  · rw [if_neg hx, if_neg (Ne.symm hx), cellAt]

theorem cellAt_drop (cells : List Cell) (n x : ℕ) : cellAt (cells.drop n) x = cellAt cells (n + x) := by
  rw [cellAt, List.getElem?_drop, cellAt]

theorem cellAt_append (a b : List Cell) (x : ℕ) :
    cellAt (a ++ b) x = if x < a.length then cellAt a x else cellAt b (x - a.length) := by
  rw [cellAt, List.getElem?_append]
  split <;> rfl

theorem cellAt_take {n : ℕ} (h : x < n) : cellAt (cells.take n) x = cellAt cells x := by
  rw [cellAt, List.getElem?_take, if_pos h, cellAt]

theorem cellAt_mem (h : x < cells.length) : cellAt cells x ∈ cells :=
  List.mem_of_getElem? (getElem?_eq_cellAt h)

/-- Up to the first end the characters are shown. -/
theorem shown_of_forall (h : ∀ z ≤ x, (cellAt cells z).char ≠ 0) :
    shown on cells x = (cellAt cells x).glyph on := by
  rw [shown]
  induction cells generalizing x with
  | nil => rfl
  | cons c cells ih =>
    have hc : c.char ≠ 0 := h 0 (Nat.zero_le x)
    rw [List.takeWhile_cons_of_pos (by simpa using hc)]
    cases x with
    | zero => rfl
    | succ x => exact ih fun z hz => h (z + 1) (by omega)

/-- Behind the first end nothing is shown. -/
theorem shown_of_end {z : ℕ} (hz : z ≤ x) (h : (cellAt cells z).char = 0) : shown on cells x = .blank := by
  rw [shown]
  induction cells generalizing x z with
  | nil => rfl
  | cons c cells ih =>
    by_cases hc : c.char = 0
    · rw [List.takeWhile_cons_of_neg (by simpa using hc)]
      rfl
    · rw [List.takeWhile_cons_of_pos (by simpa using hc)]
      cases z with
      | zero => exact absurd h hc
      | succ z =>
        cases x with
        | zero => omega
        | succ x => exact ih (x := x) (z := z) (by omega) h

/-- Nothing but blanks stands behind the end of a line. -/
def Tidy (cells : List Cell) : Prop := ∀ z x, z ≤ x → (cellAt cells z).char = 0 → (cellAt cells x).Blank

theorem Tidy.shown_eq (h : Tidy cells) (on : Bool) (x : ℕ) : shown on cells x = (cellAt cells x).glyph on := by
  by_cases hend : ∃ z ≤ x, (cellAt cells z).char = 0
  · obtain ⟨z, hz, hzero⟩ := hend
    rw [shown_of_end hz hzero, (h z x hz hzero).glyph_eq]
  · refine shown_of_forall fun z hz hzero => hend ⟨z, hz, hzero⟩

/-- The buffers of a line of `curscr`: they have the terminating NUL behind the last column. -/
structure Fitted (cols : ℕ) (cells : List Cell) : Prop where
  length : cells.length = cols + 1
  last : cellAt cells cols = ⟨0, 0⟩
  graphic : ∀ x, (cellAt cells x).char = 0 ∨ Graphic (cellAt cells x).char

/-! ### The rest of a line cleared -/

variable {cols : ℕ}

theorem cellAt_blankFrom (h : Fitted cols cells) {column : ℕ} (hcol : column ≤ cols) (x : ℕ) :
    cellAt (blankFrom cells column cols) x =
      if x < column then cellAt cells x else if column < x ∧ x < cols then ⟨32, 0⟩ else ⟨0, 0⟩ := by
  have hlen := h.length
  have hover : ∀ x, cellAt (overwrite cells column (List.replicate (cols - column) ⟨32, 0⟩)) x =
      if x < column then cellAt cells x else if x < cols then ⟨32, 0⟩ else cellAt cells x := by
    intro x
    have htake : (cells.take column).length = column := by
      rw [List.length_take]
      omega
    rw [overwrite, cellAt_append, htake, cellAt_append, List.length_replicate, cellAt_drop]
    split_ifs with h1 h2 h3 h4
    · exact cellAt_take h1
    · rw [cellAt, List.getElem?_replicate_of_lt h2]
      rfl
    · omega
    · omega
    · rw [show column + (cols - column) + (x - column - (cols - column)) = x by omega]
  have hmodify : ∀ (l : List Cell) (x : ℕ), column < l.length →
      cellAt (l.modify column fun c => { c with char := 0 }) x =
        if x = column then { cellAt l x with char := 0 } else cellAt l x := by
    intro l x hl
    rw [cellAt, List.getElem?_modify]
    by_cases hx : column = x
    · subst hx
      simp [cellAt, List.getElem?_eq_getElem hl]
    · simp [cellAt, hx, Ne.symm hx]
  have hlength : (overwrite cells column (List.replicate (cols - column) (⟨32, 0⟩ : Cell))).length = cols + 1 := by
    rw [length_overwrite (by rw [List.length_replicate]; omega), hlen]
  rw [blankFrom, hmodify _ _ (by omega), hover]
  split_ifs with h1 h2 h3 h4 h5 h6 h7 <;> first | rfl | omega | skip
  · obtain rfl : x = cols := by omega
    rw [h.last]
  · rcases Nat.eq_or_lt_of_le (show cols ≤ x by omega) with rfl | hlt
    · exact h.last
    · exact cellAt_of_le (by omega)

theorem Fitted.blankFrom (h : Fitted cols cells) {column : ℕ} (hcol : column ≤ cols) :
    Fitted cols (blankFrom cells column cols) := by
  constructor
  · rw [Screen.blankFrom, List.length_modify, length_overwrite, h.length]
    rw [List.length_replicate, h.length]
    omega
  · rw [cellAt_blankFrom h hcol, if_neg (by omega), if_neg (by omega)]
  · intro x
    rw [cellAt_blankFrom h hcol]
    split_ifs
    · exact h.graphic x
    · exact .inr (by decide)
    · exact .inl rfl

theorem tidy_blankFrom (h : Fitted cols cells) {column : ℕ} (hcol : column ≤ cols) (htidy : Tidy cells ∨ column = 0) :
    Tidy (blankFrom cells column cols) := by
  intro z x hzx
  rw [cellAt_blankFrom h hcol, cellAt_blankFrom h hcol]
  intro hz
  by_cases hx : x < column
  · rw [if_pos hx]
    rw [if_pos (by omega)] at hz
    rcases htidy with htidy | rfl
    · exact htidy z x hzx hz
    · omega
  · rw [if_neg hx]
    split_ifs
    · exact ⟨.inr rfl, rfl⟩
    · exact ⟨.inl rfl, rfl⟩

/-- The glyphs of a line that has been cleared from a column on. -/
theorem glyph_blankFrom (h : Fitted cols cells) {column : ℕ} (hcol : column ≤ cols) (on : Bool) (x : ℕ) :
    (cellAt (blankFrom cells column cols) x).glyph on = if column ≤ x then .blank else (cellAt cells x).glyph on := by
  rw [cellAt_blankFrom h hcol]
  split_ifs <;> first | rfl | omega

/-! ### A character written -/

theorem Fitted.set (h : Fitted cols cells) {j : ℕ} (hj : j < cols) {c : Cell} (hc : c.char = 0 ∨ Graphic c.char) :
    Fitted cols (cells.set j c) := by
  have hlen := h.length
  refine ⟨by rw [List.length_set, hlen], ?_, fun x => ?_⟩
  · rw [cellAt_set (by omega), if_neg (by omega), h.last]
  · rw [cellAt_set (by omega)]
    split
    · exact hc
    · exact h.graphic x

/-- A character may be written where the line has not ended before. -/
theorem Tidy.set (h : Tidy cells) {j : ℕ} (hj : j < cells.length) {c : Cell} (hc : c.char ≠ 0)
    (hbefore : ∀ z < j, (cellAt cells z).char ≠ 0) : Tidy (cells.set j c) := by
  intro z x hzx hz
  rw [cellAt_set hj] at hz ⊢
  by_cases hzj : z = j
  · rw [if_pos hzj] at hz
    exact absurd hz hc
  · rw [if_neg hzj] at hz
    by_cases hxj : x = j
    · exact absurd hz (hbefore z (by omega))
    · rw [if_neg hxj]
      exact h z x hzx hz

/-! ### A character deleted -/

/-- The characters up to the end move by one place, the rest stays. -/
theorem exists_shiftDown {n : ℕ} {l : List Cell} (hlen : l.length = n + 1) (hlast : cellAt l n = ⟨0, 0⟩) :
    ∃ l', shiftDown n l = some l' ∧ l'.length = l.length ∧
      (∀ x, (∃ z ≤ x, (cellAt l z).char = 0) → cellAt l' x = cellAt l x) ∧
      ∀ x, (∀ z ≤ x, (cellAt l z).char ≠ 0) → cellAt l' x = cellAt l (x + 1) := by
  induction n generalizing l with
  | zero =>
    obtain ⟨c, rfl⟩ := List.length_eq_one_iff.mp hlen
    refine ⟨[c], rfl, rfl, fun _ _ => rfl, fun x hx => absurd ?_ (hx 0 (Nat.zero_le x))⟩
    exact congrArg Cell.char hlast
  | succ n ih =>
    obtain ⟨c, rest, rfl⟩ := List.exists_cons_of_length_eq_add_one hlen
    rw [shiftDown]
    by_cases hc : c.char = 0
    · exact ⟨c :: rest, if_pos hc, rfl, fun _ _ => rfl, fun x hx => absurd hc (hx 0 (Nat.zero_le x))⟩
    · obtain ⟨d, tail, rfl⟩ := List.exists_cons_of_length_eq_add_one (Nat.succ.inj hlen)
      obtain ⟨l', hl', hlen', hstay, hmove⟩ := ih (Nat.succ.inj hlen) hlast
      refine ⟨d :: l', ?_, by rw [List.length_cons, hlen']; rfl, fun x hx => ?_, fun x hx => ?_⟩
      · rw [if_neg hc, hl']
        rfl
      · obtain ⟨z, hz, hzero⟩ := hx
        cases z with
        | zero => exact absurd hzero hc
        | succ z =>
          cases x with
          | zero => omega
          | succ x => exact hstay x ⟨z, by omega, hzero⟩
      · cases x with
        | zero => rfl
        | succ x => exact hmove x fun z hz => hx (z + 1) (by omega)

/-- A tidy line from which a character has been deleted. -/
theorem exists_delete (h : Fitted cols cells) (htidy : Tidy cells) {offset : ℕ} (hoff : offset ≤ cols) :
    ∃ l', shiftDown (cols - offset) (cells.drop offset) = some l' ∧ Fitted cols (cells.take offset ++ l') ∧
      Tidy (cells.take offset ++ l') ∧ (∀ x < offset, cellAt (cells.take offset ++ l') x = cellAt cells x) ∧
      ∀ on, ∀ x < cols, (cellAt (cells.take offset ++ l') x).glyph on =
        closeAt (fun x => (cellAt cells x).glyph on) offset (cols - 1) .blank x := by
  have hlen := h.length
  obtain ⟨l', hl', hlen', hstay, hmove⟩ := exists_shiftDown (n := cols - offset) (l := cells.drop offset)
    (by rw [List.length_drop]; omega) (by rw [cellAt_drop, show offset + (cols - offset) = cols by omega, h.last])
  have htake : (cells.take offset).length = offset := by
    rw [List.length_take]
    omega
  have hbefore : ∀ x < offset, cellAt (cells.take offset ++ l') x = cellAt cells x := by
    intro x hx
    rw [cellAt_append, htake, if_pos hx, cellAt_take hx]
  -- behind the offset a place holds the next character, or a blank that stays
  have hbehind : ∀ x, offset ≤ x → (cellAt (cells.take offset ++ l') x = cellAt cells (x + 1) ∧
      ∀ z, offset ≤ z → z ≤ x → (cellAt cells z).char ≠ 0) ∨
      (cellAt (cells.take offset ++ l') x = cellAt cells x ∧ (cellAt cells x).Blank ∧ (cellAt cells (x + 1)).Blank) := by
    intro x hx
    rw [cellAt_append, htake, if_neg (by omega)]
    by_cases hend : ∃ z ≤ x - offset, (cellAt (cells.drop offset) z).char = 0
    · right
      rw [hstay _ hend, cellAt_drop, show offset + (x - offset) = x by omega]
      obtain ⟨z, hz, hzero⟩ := hend
      rw [cellAt_drop] at hzero
      exact ⟨rfl, htidy _ x (by omega) hzero, htidy _ (x + 1) (by omega) hzero⟩
    · left
      have hne : ∀ z ≤ x - offset, (cellAt (cells.drop offset) z).char ≠ 0 := fun z hz hzero => hend ⟨z, hz, hzero⟩
      rw [hmove _ hne, cellAt_drop, show offset + (x - offset + 1) = x + 1 by omega]
      refine ⟨rfl, fun z hoz hzx => ?_⟩
      have := hne (z - offset) (by omega)
      rwa [cellAt_drop, show offset + (z - offset) = z by omega] at this
  refine ⟨l', hl', ⟨?_, ?_, fun x => ?_⟩, fun z x hzx hz => ?_, hbefore, fun on x hx => ?_⟩
  · rw [List.length_append, htake, hlen', List.length_drop]
    omega
  · rcases hbehind cols hoff with ⟨-, hne⟩ | ⟨heq, -⟩
    · exact absurd (congrArg Cell.char h.last) (hne cols hoff (Nat.le_refl cols))
    · rw [heq, h.last]
  · by_cases hx : x < offset
    · rw [hbefore x hx]
      exact h.graphic x
    · rcases hbehind x (by omega) with ⟨heq, -⟩ | ⟨heq, -⟩
      · rw [heq]
        exact h.graphic (x + 1)
      · rw [heq]
        exact h.graphic x
  · -- an end of the new line is an end of the old one, not behind the next place
    have hend : ∃ z' ≤ z + 1, (cellAt cells z').char = 0 ∧ (offset ≤ z ∨ z' = z) := by
      by_cases hzo : z < offset
      · rw [hbefore z hzo] at hz
        exact ⟨z, Nat.le_succ z, hz, .inr rfl⟩
      · rcases hbehind z (by omega) with ⟨heq, -⟩ | ⟨heq, -⟩
        · rw [heq] at hz
          exact ⟨z + 1, Nat.le_refl _, hz, .inl (by omega)⟩
        · rw [heq] at hz
          exact ⟨z, Nat.le_succ z, hz, .inr rfl⟩
    obtain ⟨z', hz', hzero, hplace⟩ := hend
    by_cases hx : x < offset
    · rw [hbefore x hx]
      exact htidy z' x (by omega) hzero
    · rcases hbehind x (by omega) with ⟨heq, -⟩ | ⟨heq, hblank, -⟩
      · rw [heq]
        exact htidy z' (x + 1) (by omega) hzero
      · rw [heq]
        exact hblank
  · unfold closeAt
    by_cases hxo : x < offset
    · rw [hbefore x hxo, if_neg (by omega)]
    · rw [if_pos (by omega)]
      rcases hbehind x (by omega) with ⟨heq, -⟩ | ⟨heq, hblank, hnext⟩
      · rw [heq]
        split
        · rename_i hlast
          rw [show x + 1 = cols by omega, h.last]
          rfl
        · rfl
      · rw [heq, hblank.glyph_eq]
        split
        · rfl
        · exact (hnext.glyph_eq on).symm

/-! ### A character inserted -/

theorem exists_lastToMove (g : Setup) (h : Fitted g.cols cells) : ∃ one, lastToMove g cells = some one ∧
    (∀ x < one, (cellAt cells x).char ≠ 0 ∧ x + 2 < g.cols) ∧ ((cellAt cells one).char = 0 ∨ g.cols ≤ one + 2) ∧
      one ≤ g.cols := by
  have hlen := h.length
  have hgo : ∀ x ≤ g.cols, (cells[x]?.map fun c => decide (c.char ≠ 0 ∧ x + 2 < g.cols)) =
      some (decide ((cellAt cells x).char ≠ 0 ∧ x + 2 < g.cols)) := by
    intro x hx
    rw [getElem?_eq_cellAt (by omega)]
    rfl
  obtain ⟨one, hone, -, hle, htrue, hfalse⟩ := exists_advance
    (fun i => cells[i]?.map fun c => decide (c.char ≠ 0 ∧ i + 2 < g.cols)) (cells.length + 1) (i := 0) (n := g.cols)
    (Nat.zero_le _) (by omega)
    (fun x _ hx => by rw [hgo x hx]; rfl) (by rw [hgo _ (Nat.le_refl _)]; simp)
  refine ⟨one, hone, fun x hx => ?_, ?_, hle⟩
  · have hx' := htrue x (Nat.zero_le x) hx
    rw [hgo x (by omega)] at hx'
    exact of_decide_eq_true (Option.some.inj hx')
  · rw [hgo one hle] at hfalse
    have hnot := of_decide_eq_false (Option.some.inj hfalse)
    by_cases hzero : (cellAt cells one).char = 0
    · exact .inl hzero
    · exact .inr (by
        by_contra hlt
        exact hnot ⟨hzero, by omega⟩)

theorem cellAt_insert {one offset : ℕ} (hone : one + 1 < cells.length) (hoff : offset ≤ one + 1) (c : Cell) (x : ℕ) :
    cellAt ((overwrite cells (offset + 1) ((cells.drop offset).take (one + 1 - offset))).set offset c) x =
      if x = offset then c else if offset < x ∧ x ≤ one + 1 then cellAt cells (x - 1) else cellAt cells x := by
  have hmoved : ((cells.drop offset).take (one + 1 - offset)).length = one + 1 - offset := by
    rw [List.length_take, List.length_drop]
    omega
  have htake : (cells.take (offset + 1)).length = offset + 1 := by
    rw [List.length_take]
    omega
  rw [cellAt_set (by rw [length_overwrite (by rw [hmoved]; omega)]; omega)]
  split
  · rfl
  · rename_i hx
    rw [overwrite, cellAt_append, htake, cellAt_append, hmoved, cellAt_drop]
    split_ifs with h1 h2 h3 h4 h5
    · omega
    · exact cellAt_take h1
    · rw [cellAt_take h3, cellAt_drop, show offset + (x - (offset + 1)) = x - 1 by omega]
    · omega
    · omega
    · rw [show offset + 1 + (one + 1 - offset) + (x - (offset + 1) - (one + 1 - offset)) = x by omega]

/-- A tidy line into which a character has been inserted, before its end and not in the last column. -/
theorem insert_spec (h : Fitted cols cells) (htidy : Tidy cells) {one offset : ℕ} {c : Cell} (hc : c.char ≠ 0)
    (hgraphic : Graphic c.char) (hoff : offset + 1 < cols) (hbefore : ∀ z < offset, (cellAt cells z).char ≠ 0)
    (hlt : ∀ x < one, (cellAt cells x).char ≠ 0 ∧ x + 2 < cols)
    (hstop : (cellAt cells one).char = 0 ∨ cols ≤ one + 2) :
    one + 1 < cells.length ∧ offset ≤ one ∧
    ∀ new, new = (overwrite cells (offset + 1) ((cells.drop offset).take (one + 1 - offset))).set offset c →
      Fitted cols new ∧ Tidy new ∧ (∀ x < offset, cellAt new x = cellAt cells x) ∧ cellAt new offset = c ∧
      ∀ on, ∀ x < cols, (cellAt new x).glyph on =
        openAt (fun x => (cellAt cells x).glyph on) offset (cols - 1) (c.glyph on) x := by
  have hlen := h.length
  have hone : one + 2 ≤ cols := by
    by_contra hgt
    have := (hlt (one - 1) (by omega)).2
    omega
  have hle : offset ≤ one := by
    by_contra hgt
    rcases hstop with hzero | hcols
    · exact hbefore one (by omega) hzero
    · omega
  refine ⟨by omega, hle, fun new hnew => ?_⟩
  have hcell : ∀ x, cellAt new x =
      if x = offset then c else if offset < x ∧ x ≤ one + 1 then cellAt cells (x - 1) else cellAt cells x := by
    intro x
    rw [hnew, cellAt_insert (by omega) (by omega)]
  -- what stays behind the moved part is blank, or behind the last column
  have hrest : ∀ x, one + 1 < x → (cellAt cells x).Blank ∧ (x < cols → (cellAt cells (x - 1)).Blank) := by
    intro x hx
    rcases hstop with hzero | hcols
    · exact ⟨htidy one x (by omega) hzero, fun _ => htidy one (x - 1) (by omega) hzero⟩
    · refine ⟨?_, fun hx' => by omega⟩
      rcases Nat.eq_or_lt_of_le (show cols ≤ x by omega) with rfl | hgt
      · rw [h.last]
        exact ⟨.inl rfl, rfl⟩
      · rw [cellAt_of_le (by omega)]
        exact ⟨.inl rfl, rfl⟩
  refine ⟨⟨?_, ?_, fun x => ?_⟩, fun z x hzx hz => ?_, fun x hx => ?_, ?_, fun on x hx => ?_⟩
  · rw [hnew, List.length_set, length_overwrite, hlen]
    rw [List.length_take, List.length_drop]
    omega
  · rw [hcell, if_neg (by omega), if_neg (by omega), h.last]
  · rw [hcell]
    split_ifs
    · exact .inr hgraphic
    · exact h.graphic (x - 1)
    · exact h.graphic x
  · rw [hcell] at hz ⊢
    -- an end of the new line comes from one of the old line, at most one place before it
    have hend : ∃ z' ≤ z, (z' + 1 = z ∨ one + 1 < z) ∧ offset < z ∧ (cellAt cells z').char = 0 := by
      split_ifs at hz with h1 h2
      · exact absurd hz hc
      · exact ⟨z - 1, by omega, .inl (by omega), h2.1, hz⟩
      · have hoz : offset < z := by
          by_contra hle'
          exact hbefore z (by omega) hz
        exact ⟨z, Nat.le_refl z, .inr (by omega), hoz, hz⟩
    obtain ⟨z', hzz, hplace, hoz, hzero⟩ := hend
    rw [if_neg (by omega)]
    split
    · exact htidy z' (x - 1) (by omega) hzero
    · exact htidy z' x (by omega) hzero
  · rw [hcell, if_neg (by omega), if_neg (by omega)]
  · rw [hcell, if_pos rfl]
  · rw [hcell]
    unfold openAt
    split_ifs <;> first | rfl | omega | skip
    · rw [(hrest x (by omega)).1.glyph_eq]
      exact (((hrest x (by omega)).2 hx).glyph_eq on).symm

end BsdAdditions.Curse.Screen
