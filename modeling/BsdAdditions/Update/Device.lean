import BsdAdditions.Common.Returns
import BsdAdditions.Update.Display

/-! What the orders of the screen update make the terminal show, whatever the lines of `curscr`
say. -/
namespace BsdAdditions.Curse.Screen
open Common Common.Prog

/-- Whether the terminal can highlight at all. -/
def Setup.highlights (g : Setup) : Bool := g.sa || g.so

/-- The terminal is the one that the capabilities describe, and they suffice: what can be switched on
can be switched off, and a line can be cleared without wrapping the cursor around. -/
structure Describes (g : Setup) (k : TerminalKind) : Prop where
  lines : k.lines = g.lines
  cols : k.cols = g.cols
  keeps : g.ms = true → k.keepsStandout = true
  off : g.highlights = true → g.me = true ∨ g.sa = true ∨ g.se = true
  noGlitch : g.xs = false
  erases : g.ce = true ∨ k.wraps = false
  ends : g.ic = false → g.im = true → g.ei = true

/-- The terminal shows this picture. Its cursor is in the row and column if they are on the screen. -/
structure Showing (g : Setup) (pic : ℕ → ℕ → Glyph) (ins : Bool) (top bottom : ℕ) (col row : ℤ) (light : Bool)
    (t : Terminal) : Prop where
  glyph : ∀ y < g.lines, ∀ x < g.cols, t.glyph y x = pic y x
  cursor : 0 ≤ col → col < g.cols → 0 ≤ row → row < g.lines → t.cursor = some (row.toNat, col.toNat)
  standout : t.standout = (light && g.highlights)
  inserting : t.inserting = ins
  top : t.top = top
  bottom : t.bottom = bottom

/-- The orders sent so far have made the terminal, which was `t₀`, show this picture. -/
def Sent (g : Setup) (k : TerminalKind) (t₀ : Terminal) (pic : ℕ → ℕ → Glyph) (ins : Bool) (top bottom : ℕ)
    (s : Display) : Prop :=
  ∃ t, t₀.run k s.out = some t ∧ Showing g pic ins top bottom s.currX s.currY s.stand t

variable {g : Setup} {k : TerminalKind} {t₀ t : Terminal} {pic pic' : ℕ → ℕ → Glyph} {ins ins' : Bool}
  {top bottom top' bottom' : ℕ} {s s' : Display} {row col : ℤ} {light : Bool}

theorem returns_emit (o : Order) (post : Unit → Display → Prop) (s : Display) :
    Returns (emit o) post s ↔ post () { s with out := s.out ++ [o] } := returns_modify _ _ _

theorem returns_stringOut {cap : Bool} {o : Order} {post : Unit → Display → Prop}
    (hon : cap = true → post () { s with out := s.out ++ [o] }) (hoff : cap = false → post () s) :
    Returns (stringOut cap o) post s :=
  returns_onlyIf (fun h => (returns_emit _ _ _).mpr (hon h)) fun h => hoff (Bool.eq_false_iff.mpr h)

/-- The same picture, described in another way. -/
theorem Showing.pic_congr (h : Showing g pic ins top bottom col row light t)
    (hpic : ∀ y < g.lines, ∀ x < g.cols, pic y x = pic' y x) : Showing g pic' ins top bottom col row light t :=
  { h with glyph := fun y hy x hx => (h.glyph y hy x hx).trans (hpic y hy x hx) }

theorem Sent.pic_congr (h : Sent g k t₀ pic ins top bottom s)
    (hpic : ∀ y < g.lines, ∀ x < g.cols, pic y x = pic' y x) : Sent g k t₀ pic' ins top bottom s := by
  obtain ⟨t, hrun, hshow⟩ := h
  exact ⟨t, hrun, hshow.pic_congr hpic⟩

/-- More orders have been sent, and they do what the new state says. -/
theorem Sent.more (h : Sent g k t₀ pic ins top bottom s) {orders : List Order} (hout : s'.out = s.out ++ orders)
    (hdo : ∀ t, Showing g pic ins top bottom s.currX s.currY s.stand t → ∃ t', t.run k orders = some t' ∧
      Showing g pic' ins' top' bottom' s'.currX s'.currY s'.stand t') :
    Sent g k t₀ pic' ins' top' bottom' s' := by
  obtain ⟨t, hrun, hshow⟩ := h
  obtain ⟨t', hrun', hshow'⟩ := hdo t hshow
  refine ⟨t', ?_, hshow'⟩
  rw [hout, Terminal.run_append, hrun]
  exact hrun'

/-- One order more. -/
theorem Sent.one (h : Sent g k t₀ pic ins top bottom s) {o : Order} (hout : s'.out = s.out ++ [o])
    (hdo : ∀ t, Showing g pic ins top bottom s.currX s.currY s.stand t → ∃ t', t.exec k o = some t' ∧
      Showing g pic' ins' top' bottom' s'.currX s'.currY s'.stand t') :
    Sent g k t₀ pic' ins' top' bottom' s' :=
  h.more hout fun t ht => by
    rw [Terminal.run_singleton]
    exact hdo t ht

/-- A change of the state that the terminal does not see. -/
theorem Sent.congr (h : Sent g k t₀ pic ins top bottom s) (hout : s'.out = s.out) (hx : s'.currX = s.currX)
    (hy : s'.currY = s.currY) (hstand : s'.stand = s.stand) : Sent g k t₀ pic ins top bottom s' := by
  obtain ⟨t, hrun, hshow⟩ := h
  refine ⟨t, by rw [hout]; exact hrun, ?_⟩
  rw [hx, hy, hstand]
  exact hshow

/-! ### Highlighting and the cursor -/

/-- What `attribute_on` sends. -/
def Setup.onOrders (g : Setup) : List Order := if g.highlights then [.standout true] else []

def Setup.offOrders (g : Setup) : List Order := if g.me || g.sa || g.se then [.standout false] else []

theorem attributeOn_eq (g : Setup) (s : Display) :
    attributeOn g s = .ok ((), { s with out := s.out ++ g.onOrders }) := by
  unfold attributeOn stringOut onlyIf Setup.onOrders Setup.highlights
  cases g.sa with
  | true => rfl
  | false =>
    cases g.so with
    | true => rfl
    | false =>
      show Except.ok ((), s) = Except.ok ((), { s with out := s.out ++ [] })
      rw [List.append_nil]

theorem attributeOff_eq (g : Setup) (s : Display) :
    attributeOff g s = .ok ((), { s with out := s.out ++ g.offOrders }) := by
  unfold attributeOff stringOut onlyIf Setup.offOrders
  cases g.me with
  | true => rfl
  | false =>
    cases g.sa with
    | true => rfl
    | false =>
      cases g.se with
      | true => rfl
      | false =>
        show Except.ok ((), s) = Except.ok ((), { s with out := s.out ++ [] })
        rw [List.append_nil]

theorem run_onOrders (hplain : g.highlights = false → t.standout = false) :
    t.run k g.onOrders = some { t with standout := g.highlights } := by
  unfold Setup.onOrders
  cases hcan : g.highlights with
  | true => rfl
  | false =>
    show t.run k [] = _
    rw [Terminal.run_nil, ← hplain hcan]

theorem run_offOrders (hg : Describes g k) (hplain : g.highlights = false → t.standout = false) :
    t.run k g.offOrders = some { t with standout := false } := by
  unfold Setup.offOrders
  split
  · rfl
  · rename_i hoff
    have hcan : g.highlights = false := by
      refine Bool.eq_false_iff.mpr fun hcan => hoff ?_
      rcases hg.off hcan with hon | hon | hon <;> simp [hon]
    rw [← hplain hcan]
    rfl

theorem Showing.plain (h : Showing g pic ins top bottom col row light t) :
    g.highlights = false → t.standout = false := by
  intro hplain
  rw [h.standout, hplain, Bool.and_false]

/-- What `Position` sends when the cursor is elsewhere. -/
def Setup.moveOrders (g : Setup) (light : Bool) (row col : ℤ) : List Order :=
  .moveTo row col :: if light = true ∧ g.ms = false then g.onOrders else []

theorem position_eq (g : Setup) (row col : ℤ) (s : Display) :
    position g row col s = .ok ((), { s with
      out := s.out ++ if row ≠ s.currY ∨ col ≠ s.currX then g.moveOrders s.stand row col else []
      currX := col
      currY := row }) := by
  unfold position
  rw [bind_of_ok rfl]
  by_cases hat : row ≠ s.currY ∨ col ≠ s.currX
  · rw [onlyIf, if_pos hat, if_pos hat, bind_of_ok rfl, Setup.moveOrders]
    by_cases hon : s.stand = true ∧ g.ms = false
    · rw [onlyIf, if_pos hon, if_pos hon, bind_of_ok (attributeOn_eq _ _), List.append_assoc, List.singleton_append]
      rfl
    · rw [onlyIf, if_neg hon, if_neg hon]
      rfl
  · obtain ⟨hrow, hcol⟩ := not_or.mp hat
    rw [onlyIf, if_neg hat, if_neg hat, not_not.mp hrow, not_not.mp hcol, List.append_nil]
    rfl

theorem Showing.run_moveOrders (h : Showing g pic ins top bottom col row light t) (hg : Describes g k)
    (row' col' : ℤ) : ∃ t', t.run k (g.moveOrders light row' col') = some t' ∧
      Showing g pic ins top bottom col' row' light t' := by
  let t₁ : Terminal := { t with
    cursor := if 0 ≤ row' ∧ row' < k.lines ∧ 0 ≤ col' ∧ col' < k.cols then some (row'.toNat, col'.toNat) else none
    standout := t.standout && k.keepsStandout }
  have hexec : t.exec k (.moveTo row' col') = some t₁ := rfl
  have hcursor : 0 ≤ col' → col' < g.cols → 0 ≤ row' → row' < g.lines →
      t₁.cursor = some (row'.toNat, col'.toNat) := by
    intro hx hx' hy hy'
    rw [← hg.cols] at hx'
    rw [← hg.lines] at hy'
    exact if_pos ⟨hy, hy', hx, hx'⟩
  have hplain : g.highlights = false → t₁.standout = false := by
    intro hplain
    show (t.standout && _) = false
    rw [h.plain hplain, Bool.false_and]
  rw [Setup.moveOrders, ← List.singleton_append, Terminal.run_append, Terminal.run_singleton, hexec, Option.bind_some]
  split
  · rename_i hon
    refine ⟨_, run_onOrders hplain, h.glyph, hcursor, ?_, h.inserting, h.top, h.bottom⟩
    rw [hon.1, Bool.true_and]
  · rename_i hoff
    refine ⟨t₁, rfl, h.glyph, hcursor, ?_, h.inserting, h.top, h.bottom⟩
    show (t.standout && _) = _
    rw [h.standout]
    cases light with
    | false => rfl
    | true =>
      have hms : g.ms = true := eq_true_of_ne_false fun hms => hoff ⟨rfl, hms⟩
      rw [hg.keeps hms, Bool.and_true]

theorem Sent.returns_position (h : Sent g k t₀ pic ins top bottom s) (hg : Describes g k) (row col : ℤ) :
    Returns (position g row col) (fun _ s' => (∃ out, s' = { s with out := out, currX := col, currY := row }) ∧
      Sent g k t₀ pic ins top bottom s') s := by
  refine ⟨(), _, position_eq g row col s, ⟨_, rfl⟩, h.more rfl fun t ht => ?_⟩
  split
  · exact ht.run_moveOrders hg row col
  · rename_i hat
    obtain ⟨hrow, hcol⟩ := not_or.mp hat
    refine ⟨t, rfl, ?_⟩
    rw [not_not.mp hrow, not_not.mp hcol]
    exact ht

/-- The highlighting ends, at a place that the cursor is moved to first. -/
theorem Sent.returns_endStand (h : Sent g k t₀ pic ins top bottom s) (hg : Describes g k) (row col : ℤ) :
    Returns (endStand g row col) (fun _ s' => (∃ out x y,
        s' = { s with out := out, currX := x, currY := y, stand := false } ∧
        (s.currX = col → s.currY = row → x = col ∧ y = row)) ∧
      Sent g k t₀ pic ins top bottom s') s := by
  rw [endStand, returns_bind, returns_get]
  refine returns_onlyIf (fun hon => ?_) fun hoff => ?_
  · rw [returns_bind, returns_modify, returns_bind]
    refine ⟨(), _, position_eq g row col _, (), _, attributeOff_eq g _, ⟨_, col, row, rfl, fun _ _ => ⟨rfl, rfl⟩⟩, ?_⟩
    refine h.more (List.append_assoc _ _ _) fun t ht => ?_
    -- nothing is switched on again on the way, since the mode has been left before
    have hmove : ∃ t', t.run k (if row ≠ s.currY ∨ col ≠ s.currX then g.moveOrders false row col else []) = some t' ∧
        Showing g pic ins top bottom col row s.stand { t' with standout := s.stand && g.highlights } ∧
        (g.highlights = false → t'.standout = false) := by
      split
      · refine ⟨_, rfl, ⟨ht.glyph, ?_, rfl, ht.inserting, ht.top, ht.bottom⟩, fun hplain => ?_⟩
        · intro hx hx' hy hy'
          rw [← hg.cols] at hx'
          rw [← hg.lines] at hy'
          exact if_pos ⟨hy, hy', hx, hx'⟩
        · show (t.standout && _) = false
          rw [ht.plain hplain, Bool.false_and]
      · rename_i hat
        obtain ⟨hrow, hcol⟩ := not_or.mp hat
        rw [not_not.mp hrow, not_not.mp hcol]
        exact ⟨t, rfl, ⟨ht.glyph, ht.cursor, rfl, ht.inserting, ht.top, ht.bottom⟩, ht.plain⟩
    obtain ⟨t', hrun, hshow, hplain⟩ := hmove
    refine ⟨{ t' with standout := false }, ?_, hshow.glyph, hshow.cursor, rfl, hshow.inserting, hshow.top, hshow.bottom⟩
    rw [Terminal.run_append, hrun, Option.bind_some]
    exact run_offOrders hg hplain
  · have hstand : s.stand = false := Bool.eq_false_iff.mpr hoff
    refine ⟨⟨s.out, s.currX, s.currY, ?_, fun hx hy => ⟨hx, hy⟩⟩, h⟩
    rw [← hstand]

/-! ### Characters -/

/-- What `Char_out` sends before the character. -/
def Setup.markOrders (g : Setup) (light : Bool) (attr : UInt8) : List Order :=
  if attr ≠ 0 ∧ light = false then g.onOrders
  else if light = true ∧ attr = 0 then g.offOrders
  else []

theorem mark_eq (g : Setup) (attr : UInt8) (s : Display) :
    mark g attr s =
      .ok ((), { s with out := s.out ++ g.markOrders s.stand attr, stand := decide (attr ≠ 0) }) := by
  rw [mark, bind_of_ok rfl, Setup.markOrders]
  by_cases hon : attr ≠ 0 ∧ s.stand = false
  · rw [if_pos hon, if_pos hon, bind_of_ok rfl, attributeOn_eq, decide_eq_true hon.1]
  · rw [if_neg hon, if_neg hon]
    by_cases hoff : s.stand = true ∧ attr = 0
    · rw [onlyIf, if_pos hoff, if_pos hoff, bind_of_ok rfl, attributeOff_eq, decide_eq_false (not_not.mpr hoff.2)]
    · rw [onlyIf, if_neg hoff, if_neg hoff, List.append_nil]
      have hstand : decide (attr ≠ 0) = s.stand := by
        cases hs : s.stand with
        | false => exact decide_eq_false fun hne => hon ⟨hne, hs⟩
        | true => exact decide_eq_true fun hz => hoff ⟨hs, hz⟩
      rw [hstand]
      rfl

theorem Showing.run_markOrders (h : Showing g pic ins top bottom col row light t) (hg : Describes g k) (attr : UInt8) :
    ∃ t', t.run k (g.markOrders light attr) = some t' ∧
      Showing g pic ins top bottom col row (decide (attr ≠ 0)) t' := by
  unfold Setup.markOrders
  split
  · rename_i hon
    refine ⟨_, run_onOrders h.plain, h.glyph, h.cursor, ?_, h.inserting, h.top, h.bottom⟩
    rw [decide_eq_true hon.1, Bool.true_and]
  · rename_i hon
    split
    · rename_i hoff
      refine ⟨_, run_offOrders hg h.plain, h.glyph, h.cursor, ?_, h.inserting, h.top, h.bottom⟩
      rw [decide_eq_false (not_not.mpr hoff.2), Bool.false_and]
    · rename_i hoff
      refine ⟨t, rfl, { h with standout := ?_ }⟩
      rw [h.standout]
      cases light with
      | false => rw [decide_eq_false (show ¬ attr ≠ 0 from fun hne => hon ⟨hne, rfl⟩)]
      | true => rw [decide_eq_true (show attr ≠ 0 from fun hz => hoff ⟨rfl, hz⟩)]

/-- One row of a picture. -/
def setRow (pic : ℕ → ℕ → Glyph) (y : ℕ) (f : ℕ → Glyph) : ℕ → ℕ → Glyph := Function.update pic y f

theorem Showing.glyph_setRow (h : Showing g pic ins top bottom col row light t) {y : ℕ} (hy : y < g.lines)
    {f f' : ℕ → Glyph} (hf : ∀ x < g.cols, f x = f' x) :
    ∀ y' < g.lines, ∀ x < g.cols, (t.setRow y f).glyph y' x = setRow pic y f' y' x := by
  intro y' hy' x hx
  by_cases hyy : y' = y
  · subst hyy
    simp [Terminal.setRow, setRow, hf x hx]
  · simp [Terminal.setRow, setRow, hyy, h.glyph y' hy' x hx]

variable {y x : ℕ}

/-- A character that is printed, where that does not scroll. -/
theorem Showing.exec_char (h : Showing g pic ins top bottom x y light t) (hg : Describes g k) (hy : y < g.lines)
    (hx : x < g.cols) {c : UInt8} (hc : Graphic c) (hedge : x + 1 = g.cols → k.wraps = true → y ≠ bottom) :
    ∃ t', t.exec k (.char c) = some t' ∧
      Showing g (setRow pic y (if ins then openAt (pic y) x (g.cols - 1) ⟨c, light && g.highlights⟩
        else Function.update (pic y) x ⟨c, light && g.highlights⟩)) ins top bottom ((x : ℤ) + 1) y light t' := by
  have hcursor : t.cursor = some (y, x) := h.cursor (by omega) (by omega) (by omega) (by omega)
  refine ⟨t.printed k y x c, ?_, ?_, ?_, h.standout, h.inserting, h.top, h.bottom⟩
  · show (if Graphic c then t.print k c else _) = _
    rw [if_pos hc, Terminal.print, hcursor, Option.bind_some, if_neg]
    rintro ⟨hcol, hwraps, hbottom⟩
    exact hedge (hcol.trans hg.cols) hwraps (hbottom.trans h.bottom)
  · refine h.glyph_setRow hy fun x' hx' => ?_
    have hrow : ∀ x' < g.cols, t.glyph y x' = pic y x' := h.glyph y hy
    rw [h.inserting, h.standout, hg.cols]
    split
    · unfold openAt
      rw [hrow x' hx', hrow (x' - 1) (by omega)]
    · by_cases hxx : x' = x
      · rw [hxx, Function.update_self, Function.update_self]
      · rw [Function.update_of_ne hxx, Function.update_of_ne hxx, hrow x' hx']
  · intro _ hcol _ _
    refine (if_pos (show x + 1 < k.cols by rw [hg.cols]; omega)).trans ?_
    rw [Int.toNat_natCast, show ((x : ℤ) + 1).toNat = x + 1 by omega]

/-- The rest of a row is cleared. -/
theorem Showing.exec_clearToEol (h : Showing g pic ins top bottom x y light t) (hy : y < g.lines)
    (hx : x < g.cols) (hlight : light = false) : ∃ t', t.exec k .clearToEol = some t' ∧
      Showing g (setRow pic y fun x' => if x ≤ x' then .blank else pic y x') ins top bottom x y light t' := by
  have hcursor : t.cursor = some (y, x) := h.cursor (by omega) (by omega) (by omega) (by omega)
  have hstandout : t.standout = false := by rw [h.standout, hlight, Bool.false_and]
  refine ⟨t.setRow y fun x' => if x ≤ x' then .blank else t.glyph y x', ?_, ?_, h.cursor, h.standout, h.inserting,
    h.top, h.bottom⟩
  · show t.cursor.bind _ = _
    rw [hcursor, Option.bind_some, if_neg (by simp [hstandout])]
  · exact h.glyph_setRow hy fun x' hx' => by rw [h.glyph y hy x' hx']

theorem setRow_congr {f f' : ℕ → Glyph} (hf : ∀ x < g.cols, f x = f' x) :
    ∀ y' < g.lines, ∀ x < g.cols, setRow pic y f y' x = setRow pic y f' y' x := by
  intro y' _ x hx
  by_cases hyy : y' = y
  · subst hyy
    rw [setRow, setRow, Function.update_self, Function.update_self, hf x hx]
  · rw [setRow, setRow, Function.update_of_ne hyy, Function.update_of_ne hyy]

theorem times_emit (o : Order) (n : ℕ) (s : Display) :
    Prog.times (emit o) n s = .ok ((), { s with out := s.out ++ List.replicate n o }) := by
  induction n generalizing s with
  | zero => rw [List.replicate_zero, List.append_nil]; rfl
  | succ n ih =>
    rw [Prog.times, bind_of_ok rfl, ih, List.replicate_succ]
    simp only [List.append_assoc, List.singleton_append]

/-- A terminal that does not wrap the cursor around can be cleared by spaces. -/
theorem Showing.run_spaces (h : Showing g pic false top bottom x y false t) (hg : Describes g k)
    (hwraps : k.wraps = false) (hy : y < g.lines) {n : ℕ} (hn : x + n = g.cols) :
    ∃ t', t.run k (List.replicate n (.char 32)) = some t' ∧
      Showing g (setRow pic y fun x' => if x ≤ x' then .blank else pic y x') false top bottom g.cols y false t' := by
  induction n generalizing x pic t with
  | zero =>
    obtain rfl : x = g.cols := by omega
    refine ⟨t, rfl, h.pic_congr fun y' hy' x' hx' => ?_⟩
    by_cases hyy : y' = y
    · subst hyy
      rw [setRow, Function.update_self, if_neg (by omega)]
    · rw [setRow, Function.update_of_ne hyy]
  | succ n ih =>
    obtain ⟨t₁, hexec, h₁⟩ := h.exec_char hg hy (by omega) (c := 32) (by decide) fun _ hon => by
      rw [hwraps] at hon
      cases hon
    obtain ⟨t₂, hrun, h₂⟩ := ih (x := x + 1) (by exact_mod_cast h₁) (by omega)
    refine ⟨t₂, ?_, h₂.pic_congr fun y' hy' x' hx' => ?_⟩
    · rw [List.replicate_succ, ← List.singleton_append, Terminal.run_append, Terminal.run_singleton, hexec]
      exact hrun
    · by_cases hyy : y' = y
      · subst hyy
        simp only [setRow, Function.update_self, if_false]
        by_cases hxx : x' = x
        · subst hxx
          rw [if_neg (by omega), if_pos (Nat.le_refl _), Function.update_self]
          rfl
        · rw [Function.update_of_ne hxx]
          split_ifs <;> first | rfl | omega
      · simp only [setRow, Function.update_of_ne hyy]

/-- A place is opened or closed in a row. -/
theorem Showing.exec_insertChar (h : Showing g pic ins top bottom x y light t) (hg : Describes g k)
    (hy : y < g.lines) (hx : x < g.cols) : ∃ t', t.exec k .insertChar = some t' ∧
      Showing g (setRow pic y (openAt (pic y) x (g.cols - 1) .blank)) ins top bottom x y light t' := by
  have hcursor : t.cursor = some (y, x) := h.cursor (by omega) (by omega) (by omega) (by omega)
  refine ⟨t.setRow y (openAt (t.glyph y) x (k.cols - 1) .blank), ?_, ?_, h.cursor, h.standout, h.inserting,
    h.top, h.bottom⟩
  · show t.cursor.bind _ = _
    rw [hcursor, Option.bind_some]
  · refine h.glyph_setRow hy fun x' hx' => ?_
    unfold openAt
    rw [hg.cols, h.glyph y hy x' hx', h.glyph y hy (x' - 1) (by omega)]

theorem Showing.exec_deleteChar (h : Showing g pic ins top bottom x y light t) (hg : Describes g k)
    (hy : y < g.lines) (hx : x < g.cols) : ∃ t', t.exec k .deleteChar = some t' ∧
      Showing g (setRow pic y (closeAt (pic y) x (g.cols - 1) .blank)) ins top bottom x y light t' := by
  have hcursor : t.cursor = some (y, x) := h.cursor (by omega) (by omega) (by omega) (by omega)
  refine ⟨t.setRow y (closeAt (t.glyph y) x (k.cols - 1) .blank), ?_, ?_, h.cursor, h.standout, h.inserting,
    h.top, h.bottom⟩
  · show t.cursor.bind _ = _
    rw [hcursor, Option.bind_some]
  · refine h.glyph_setRow hy fun x' hx' => ?_
    unfold closeAt
    rw [hg.cols, h.glyph y hy x' hx']
    split_ifs with hin hlast
    · rfl
    · exact h.glyph y hy (x' + 1) (by omega)
    · rfl

/-! ### Lines -/

theorem openAt_congr {f f' : ℕ → ℕ → Glyph} {lo hi : ℕ} {v : ℕ → Glyph} (hy : y < g.lines)
    (hf : ∀ y < g.lines, ∀ x < g.cols, f y x = f' y x) (hx : x < g.cols) :
    openAt f lo hi v y x = openAt f' lo hi v y x := by
  unfold openAt
  split_ifs with hin hlo
  · rfl
  · exact hf (y - 1) (by omega) x hx
  · exact hf y hy x hx

theorem closeAt_congr {f f' : ℕ → ℕ → Glyph} {lo hi : ℕ} {v : ℕ → Glyph} (hy : y < g.lines) (hhi : hi < g.lines)
    (hf : ∀ y < g.lines, ∀ x < g.cols, f y x = f' y x) (hx : x < g.cols) :
    closeAt f lo hi v y x = closeAt f' lo hi v y x := by
  unfold closeAt
  split_ifs with hin hlast
  · rfl
  · exact hf (y + 1) (by omega) x hx
  · exact hf y hy x hx

theorem Showing.exec_region (h : Showing g pic ins top bottom col row light t) (hg : Describes g k)
    {top' bottom' : ℕ} (hlt : top' < bottom') (hbottom : bottom' < g.lines) :
    ∃ t', t.exec k (.region top' bottom') = some t' ∧ Showing g pic ins top' bottom' (-1) (-1) light t' := by
  have hin : (0 : ℤ) ≤ top' ∧ (top' : ℤ) < bottom' ∧ (bottom' : ℤ) < k.lines := by
    rw [hg.lines]
    omega
  refine ⟨{ t with top := top', bottom := bottom', cursor := none }, if_pos hin, h.glyph, ?_, h.standout, h.inserting,
    rfl, rfl⟩
  intro hneg
  omega

/-- At the start of a line that scrolls, without highlighting. -/
theorem Showing.atLine (h : Showing g pic ins top bottom 0 y false t) (hcols : 0 < g.cols) (hy : y < g.lines)
    (htop : top ≤ y) (hbottom : y ≤ bottom) (f : ℕ → Terminal) : t.atLine f = some (f y) := by
  have hcursor : t.cursor = some (y, 0) := h.cursor (by omega) (by omega) (by omega) (by omega)
  rw [Terminal.atLine, hcursor, Option.bind_some, if_pos]
  exact ⟨rfl, h.top ▸ htop, h.bottom ▸ hbottom, h.standout⟩

theorem Showing.exec_insertLine (h : Showing g pic ins top bottom 0 y false t) (hcols : 0 < g.cols)
    (hy : y < g.lines) (htop : top ≤ y) (hbottom : y ≤ bottom) : ∃ t', t.exec k .insertLine = some t' ∧
      Showing g (openAt pic y bottom fun _ => .blank) ins top bottom 0 y false t' := by
  refine ⟨{ t with glyph := openAt t.glyph y t.bottom fun _ => .blank }, ?_, ?_, h.cursor, h.standout, h.inserting,
    h.top, h.bottom⟩
  · exact h.atLine hcols hy htop hbottom fun y => { t with glyph := openAt t.glyph y t.bottom fun _ => .blank }
  · intro y' hy' x' hx'
    rw [h.bottom]
    exact openAt_congr hy' h.glyph hx'

theorem Showing.exec_deleteLine (h : Showing g pic ins top bottom 0 y false t) (hcols : 0 < g.cols)
    (hlines : bottom < g.lines) (htop : top ≤ y) (hbottom : y ≤ bottom) : ∃ t', t.exec k .deleteLine = some t' ∧
      Showing g (closeAt pic y bottom fun _ => .blank) ins top bottom 0 y false t' := by
  refine ⟨{ t with glyph := closeAt t.glyph y t.bottom fun _ => .blank }, ?_, ?_, h.cursor, h.standout, h.inserting,
    h.top, h.bottom⟩
  · exact h.atLine hcols (by omega) htop hbottom fun y => { t with glyph := closeAt t.glyph y t.bottom fun _ => .blank }
  · intro y' hy' x' hx'
    rw [h.bottom]
    exact closeAt_congr hy' hlines h.glyph hx'

/-- A newline in the last line that scrolls deletes the first one. -/
theorem Showing.exec_newline (h : Showing g pic ins top bottom 0 bottom false t) (hcols : 0 < g.cols)
    (hlines : bottom < g.lines) (htop : top ≤ bottom) : ∃ t', t.exec k (.char 10) = some t' ∧
      Showing g (closeAt pic top bottom fun _ => .blank) ins top bottom 0 bottom false t' := by
  have hcursor : t.cursor = some (bottom, 0) := h.cursor (by omega) (by omega) (by omega) (by omega)
  refine ⟨{ t with glyph := closeAt t.glyph t.top t.bottom fun _ => .blank }, ?_, ?_, h.cursor, h.standout, h.inserting,
    h.top, h.bottom⟩
  · show (if Graphic 10 then t.print k 10 else if (10 : UInt8) = 10 then t.newline else none) = _
    rw [if_neg (by decide), if_pos rfl, Terminal.newline, hcursor, Option.bind_some, if_pos]
    exact ⟨rfl, h.bottom.symm, h.top ▸ htop, h.standout⟩
  · intro y' hy' x' hx'
    rw [h.top, h.bottom]
    exact closeAt_congr hy' hlines h.glyph hx'

/-- In the first line that scrolls, scrolling back inserts a line. -/
theorem Showing.exec_scrollBack (h : Showing g pic ins top bottom 0 top false t) (hcols : 0 < g.cols)
    (hlines : bottom < g.lines) (htop : top ≤ bottom) : ∃ t', t.exec k .scrollBack = some t' ∧
      Showing g (openAt pic top bottom fun _ => .blank) ins top bottom 0 top false t' := by
  refine ⟨{ t with glyph := openAt t.glyph top t.bottom fun _ => .blank }, ?_, ?_, h.cursor, h.standout, h.inserting,
    h.top, h.bottom⟩
  · refine (h.atLine hcols (by omega) (Nat.le_refl top) htop fun y =>
      if y = t.top then { t with glyph := openAt t.glyph y t.bottom fun _ => .blank }
      else { t with cursor := none }).trans ?_
    rw [if_pos h.top.symm]
  · intro y' hy' x' hx'
    rw [h.bottom]
    exact openAt_congr hy' h.glyph hx'

end BsdAdditions.Curse.Screen
