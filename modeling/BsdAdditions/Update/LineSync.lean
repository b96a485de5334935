import BsdAdditions.Update.Cells
import BsdAdditions.Update.Device

/-! Each change of a line of `curscr` goes with a change of what the terminal shows. -/
namespace BsdAdditions.Curse.Screen
open Common Common.Prog

/-- What the lines show. -/
def picture (on : Bool) (lines : List Line) (y x : ℕ) : Glyph :=
  shown on ((lines[y]?).elim [] Line.cells) x

/-- A line of `curscr`. One that has been cleared for its reuse may have old characters behind its end. -/
structure LineOk (g : Setup) (l : Line) : Prop where
  fitted : Fitted g.cols l.cells
  tidy : Tidy l.cells ∨ (cellAt l.cells 0).char = 0

/-- The terminal shows what `curscr` says. -/
structure Synced (g : Setup) (k : TerminalKind) (t₀ : Terminal) (ins : Bool) (s : Display) : Prop where
  rows : s.curscr.length = g.lines
  ok : ∀ l ∈ s.curscr, LineOk g l
  sent : Sent g k t₀ (picture g.highlights s.curscr) ins 0 (g.lines - 1) s

/-- What the work on the lines of the screen leaves alone. -/
def Display.rest (s : Display) : Display :=
  { s with
    curscr := []
    virtualScr := s.virtualScr.map fun l => { l with changed := false }
    currX := 0
    currY := 0
    stand := false
    out := [] }

/-- Only this line has been worked on. -/
structure OnlyLine (y : ℕ) (s s' : Display) : Prop where
  length : s'.curscr.length = s.curscr.length
  others : ∀ y', y' ≠ y → s'.curscr[y']? = s.curscr[y']?
  rest : s'.rest = s.rest

/-- The terminal shows what `curscr` says, and this line of it has these characters. -/
structure AtRow (g : Setup) (k : TerminalKind) (t₀ : Terminal) (ins : Bool) (y : ℕ) (cells : List Cell) (s : Display) :
    Prop where
  synced : Synced g k t₀ ins s
  line : ∃ l, s.curscr[y]? = some l ∧ l.cells = cells
  tidy : Tidy cells

variable {g : Setup} {k : TerminalKind} {t₀ : Terminal} {ins : Bool} {y : ℕ} {cells : List Cell} {s s' s'' : Display}

theorem OnlyLine.refl (y : ℕ) (s : Display) : OnlyLine y s s := ⟨rfl, fun _ _ => rfl, rfl⟩

theorem OnlyLine.trans (h : OnlyLine y s s') (h' : OnlyLine y s' s'') : OnlyLine y s s'' :=
  ⟨h'.length.trans h.length, fun y' hy' => (h'.others y' hy').trans (h.others y' hy'), h'.rest.trans h.rest⟩

theorem AtRow.lt (h : AtRow g k t₀ ins y cells s) : y < g.lines := by
  obtain ⟨l, hl, -⟩ := h.line
  rw [← h.synced.rows]
  exact (List.getElem?_eq_some_iff.mp hl).1

theorem AtRow.fitted (h : AtRow g k t₀ ins y cells s) : Fitted g.cols cells := by
  obtain ⟨l, hl, rfl⟩ := h.line
  exact (h.synced.ok l (List.mem_of_getElem? hl)).fitted

/-! ### Reading -/

theorem returns_curLine {l : Line} (h : s.curscr[y]? = some l) (post : Line → Display → Prop) :
    Returns (curLine y) post s ↔ post l s := by
  rw [curLine, returns_bind, returns_get, h]
  exact returns_orFault_some _ _ _

theorem returns_virtLine {l : Line} (h : s.virtualScr[y]? = some l) (post : Line → Display → Prop) :
    Returns (virtLine y) post s ↔ post l s := by
  rw [virtLine, returns_bind, returns_get, h]
  exact returns_orFault_some _ _ _

theorem returns_virtCell {l : Line} {x : ℕ} (h : s.virtualScr[y]? = some l) (hx : x < l.cells.length)
    (post : Cell → Display → Prop) : Returns (virtCell y x) post s ↔ post (cellAt l.cells x) s := by
  rw [virtCell, returns_bind, returns_virtLine h, getElem?_eq_cellAt hx]
  exact returns_orFault_some _ _ _

theorem returns_curCell {l : Line} {x : ℕ} (h : s.curscr[y]? = some l) (hx : x < l.cells.length)
    (post : Cell → Display → Prop) : Returns (curCell y x) post s ↔ post (cellAt l.cells x) s := by
  rw [curCell, returns_bind, returns_curLine h, getElem?_eq_cellAt hx]
  exact returns_orFault_some _ _ _

theorem AtRow.returns_curCell (h : AtRow g k t₀ ins y cells s) {x : ℕ} (hx : x ≤ g.cols)
    (post : Cell → Display → Prop) : Returns (curCell y x) post s ↔ post (cellAt cells x) s := by
  have hlen := h.fitted.length
  obtain ⟨l, hl, rfl⟩ := h.line
  exact Screen.returns_curCell hl (by omega) post

theorem returns_inBounds {c : Prop} [Decidable c] (h : c) (post : Unit → Display → Prop) :
    Returns (inBounds c) post s ↔ post () s := by
  rw [inBounds, if_pos h]
  exact returns_pure _ _ _

/-! ### A line of the picture -/

theorem picture_set {lines : List Line} (hy : y < lines.length) (on : Bool) (l : Line) :
    picture on (lines.set y l) = setRow (picture on lines) y (shown on l.cells) := by
  funext y' x
  by_cases hyy : y' = y
  · subst hyy
    rw [picture, setRow, Function.update_self, List.getElem?_set_self hy]
    rfl
  · rw [setRow, Function.update_of_ne hyy, picture, picture, List.getElem?_set_ne (Ne.symm hyy)]

theorem picture_row {l : Line} {lines : List Line} (hl : lines[y]? = some l) (on : Bool) :
    picture on lines y = shown on l.cells := by
  funext x
  rw [picture, hl]
  rfl

/-- A line has been replaced, and the terminal shows the new one. -/
theorem Synced.set (h : Synced g k t₀ ins s) (hy : y < g.lines) {l : Line} (hl : LineOk g l)
    (hcur : s'.curscr = s.curscr.set y l) {ins' : Bool} {f : ℕ → Glyph}
    (hsent : Sent g k t₀ (setRow (picture g.highlights s.curscr) y f) ins' 0 (g.lines - 1) s')
    (hf : ∀ x < g.cols, f x = shown g.highlights l.cells x) : Synced g k t₀ ins' s' := by
  have hrows := h.rows
  refine ⟨by rw [hcur, List.length_set, hrows], fun l' hl' => ?_, ?_⟩
  · rw [hcur] at hl'
    rcases List.mem_or_eq_of_mem_set hl' with hmem | rfl
    · exact h.ok l' hmem
    · exact hl
  · rw [hcur, picture_set (by omega)]
    exact hsent.pic_congr (setRow_congr hf)

/-- The same for the line that is worked on. -/
theorem AtRow.set (h : AtRow g k t₀ ins y cells s) {l : Line} (hfit : Fitted g.cols l.cells) (htidy : Tidy l.cells)
    {ins' : Bool} {f : ℕ → Glyph}
    (hsent : Sent g k t₀ (setRow (picture g.highlights s.curscr) y f) ins' 0 (g.lines - 1) s')
    (hcur : s'.curscr = s.curscr.set y l) (hrest : s'.rest = s.rest)
    (hf : ∀ x < g.cols, f x = (cellAt l.cells x).glyph g.highlights) :
    AtRow g k t₀ ins' y l.cells s' ∧ OnlyLine y s s' := by
  have hy : y < s.curscr.length := by
    rw [h.synced.rows]
    exact h.lt
  refine ⟨⟨?_, ⟨l, ?_, rfl⟩, htidy⟩, ?_, fun y' hy' => ?_, hrest⟩
  · exact h.synced.set h.lt ⟨hfit, .inl htidy⟩ hcur hsent fun x hx => by rw [hf x hx, htidy.shown_eq]
  · rw [hcur, List.getElem?_set_self hy]
  · rw [hcur, List.length_set]
  · rw [hcur, List.getElem?_set_ne (Ne.symm hy')]

/-- What is sent without a change of the picture, and a change of the line that does not show. -/
theorem AtRow.stay (h : AtRow g k t₀ ins y cells s) {ins' : Bool}
    (hsent : Sent g k t₀ (picture g.highlights s.curscr) ins' 0 (g.lines - 1) s')
    (hcur : s'.curscr = s.curscr) (hrest : s'.rest = s.rest) :
    AtRow g k t₀ ins' y cells s' ∧ OnlyLine y s s' := by
  refine ⟨⟨⟨by rw [hcur]; exact h.synced.rows, by rw [hcur]; exact h.synced.ok, by rw [hcur]; exact hsent⟩, ?_, h.tidy⟩,
    ?_, fun y' _ => ?_, hrest⟩
  · rw [hcur]
    exact h.line
  · rw [hcur]
  · rw [hcur]

/-- The picture of the line, by its characters. -/
theorem AtRow.picture_eq (h : AtRow g k t₀ ins y cells s) (on : Bool) (x : ℕ) :
    picture on s.curscr y x = (cellAt cells x).glyph on := by
  obtain ⟨l, hl, rfl⟩ := h.line
  rw [picture_row hl, h.tidy.shown_eq]

theorem AtRow.returns_position (h : AtRow g k t₀ ins y cells s) (hg : Describes g k) (row col : ℤ) :
    Returns (position g row col) (fun _ s' => AtRow g k t₀ ins y cells s' ∧ OnlyLine y s s' ∧
      s'.currX = col ∧ s'.currY = row) s := by
  refine (h.synced.sent.returns_position hg row col).mono fun _ s' hpost => ?_
  obtain ⟨⟨out, rfl⟩, hsent⟩ := hpost
  obtain ⟨hrow, honly⟩ := h.stay hsent rfl rfl
  exact ⟨hrow, honly, rfl, rfl⟩

theorem AtRow.returns_endStand (h : AtRow g k t₀ ins y cells s) (hg : Describes g k) (row col : ℤ) :
    Returns (endStand g row col) (fun _ s' => AtRow g k t₀ ins y cells s' ∧ OnlyLine y s s' ∧ s'.stand = false ∧
      (s.currX = col → s.currY = row → s'.currX = col ∧ s'.currY = row)) s := by
  refine (h.synced.sent.returns_endStand hg row col).mono fun _ s' hpost => ?_
  obtain ⟨⟨out, x, z, rfl, hplace⟩, hsent⟩ := hpost
  obtain ⟨hrow, honly⟩ := h.stay hsent rfl rfl
  exact ⟨hrow, honly, rfl, hplace⟩

/-! ### Characters written -/

/-- The place that is never written, since the screen would scroll. -/
def Setup.Corner (g : Setup) (y x : ℕ) : Prop := y + 1 = g.lines ∧ x + 1 = g.cols

instance (g : Setup) (y x : ℕ) : Decidable (g.Corner y x) := inferInstanceAs (Decidable (_ ∧ _))

/-- What `Char_out` does, without the glitch. -/
theorem charOut_eq (hxs : g.xs = false) {l : Line} (hl : s.curscr[y]? = some l) {x : ℕ} (hx : x < l.cells.length)
    (c : Cell) {edge : Prop} [Decidable edge] (hedge : edge ↔ (g.lines : ℤ) - 1 ≤ s.currY ∧ (g.cols : ℤ) - 1 ≤ s.currX) :
    charOut g y c x s = .ok ((), { s with
      curscr := if edge then s.curscr else s.curscr.set y { l with cells := l.cells.set x c }
      out := s.out ++ g.markOrders s.stand c.attr ++ if edge then [] else [.char c.char]
      stand := decide (c.attr ≠ 0)
      currX := s.currX + 1 }) := by
  rw [charOut, bind_of_ok (mark_eq g c.attr s), bind_of_ok rfl, onlyIf, if_neg (by simp [hxs]), bind_of_ok rfl,
    bind_of_ok rfl]
  by_cases he : edge
  · rw [onlyIf, if_neg (not_not.mpr (hedge.mp he)), if_pos he, if_pos he, List.append_nil]
    rfl
  · have hwrite : writeCur y x c { s with
          out := s.out ++ g.markOrders s.stand c.attr ++ [.char c.char], stand := decide (c.attr ≠ 0) } =
        .ok ((), { s with
          curscr := s.curscr.set y { l with cells := l.cells.set x c }
          out := s.out ++ g.markOrders s.stand c.attr ++ [.char c.char]
          stand := decide (c.attr ≠ 0) }) := by
      have hline : curLine y { s with
          out := s.out ++ g.markOrders s.stand c.attr ++ [.char c.char], stand := decide (c.attr ≠ 0) } =
          .ok (l, { s with
            out := s.out ++ g.markOrders s.stand c.attr ++ [.char c.char], stand := decide (c.attr ≠ 0) }) := by
        rw [curLine, bind_of_ok rfl, hl]
        rfl
      rw [writeCur, bind_of_ok hline, inBounds, if_pos hx, bind_of_ok rfl]
      rfl
    rw [onlyIf, if_pos (fun hin => he (hedge.mpr hin)), if_neg he, if_neg he]
    have hput : (do emit (.char c.char); writeCur y x c : Disp Unit)
        { s with out := s.out ++ g.markOrders s.stand c.attr, stand := decide (c.attr ≠ 0) } = _ := hwrite
    rw [bind_of_ok hput]
    rfl

/-- The character in the last place of the screen is not written. -/
theorem AtRow.returns_charOut (h : AtRow g k t₀ false y cells s) (hg : Describes g k) {x : ℕ} (hx : x < g.cols)
    (hcx : s.currX = x) (hcy : s.currY = y) {c : Cell} (hc : c.char ≠ 0) (hgraphic : Graphic c.char)
    (hbefore : ∀ z < x, (cellAt cells z).char ≠ 0) :
    Returns (charOut g y c x) (fun _ s' =>
      AtRow g k t₀ false y (if g.Corner y x then cells else cells.set x c) s' ∧ OnlyLine y s s' ∧
        s'.currX = (x : ℤ) + 1 ∧ s'.currY = y) s := by
  have hy := h.lt
  have hlen := h.fitted.length
  obtain ⟨l, hl, rfl⟩ := h.line
  have hedge : g.Corner y x ↔ (g.lines : ℤ) - 1 ≤ s.currY ∧ (g.cols : ℤ) - 1 ≤ s.currX := by
    rw [hcx, hcy, Setup.Corner]
    omega
  refine ⟨(), _, charOut_eq hg.noGlitch hl (by omega) c hedge, ?_⟩
  by_cases hcorner : g.Corner y x
  · simp only [if_pos hcorner, List.append_nil]
    have hsent : Sent g k t₀ (picture g.highlights s.curscr) false 0 (g.lines - 1) { s with
        out := s.out ++ g.markOrders s.stand c.attr, stand := decide (c.attr ≠ 0), currX := s.currX + 1 } := by
      refine h.synced.sent.more rfl fun t ht => ?_
      obtain ⟨t', hrun, ht'⟩ := ht.run_markOrders hg c.attr
      -- the column is not on the screen any more
      refine ⟨t', hrun, { ht' with cursor := fun _ hlt => ?_ }⟩
      have := hcorner.2
      simp only [hcx] at hlt
      omega
    obtain ⟨hrow, honly⟩ := h.stay hsent rfl rfl
    exact ⟨hrow, honly, by rw [hcx], hcy⟩
  · simp only [if_neg hcorner]
    have hsent : Sent g k t₀ (setRow (picture g.highlights s.curscr) y
        (Function.update (picture g.highlights s.curscr y) x ⟨c.char, decide (c.attr ≠ 0) && g.highlights⟩))
        false 0 (g.lines - 1) { s with
          curscr := s.curscr.set y { l with cells := l.cells.set x c }
          out := s.out ++ g.markOrders s.stand c.attr ++ [.char c.char]
          stand := decide (c.attr ≠ 0)
          currX := s.currX + 1 } := by
      refine h.synced.sent.more (List.append_assoc _ _ _) fun t ht => ?_
      obtain ⟨t₁, hrun, ht₁⟩ := ht.run_markOrders hg c.attr
      rw [hcx, hcy] at ht₁
      obtain ⟨t₂, hexec, ht₂⟩ := ht₁.exec_char hg hy hx hgraphic fun hcol _ hbottom => hcorner ⟨by omega, hcol⟩
      refine ⟨t₂, ?_, ?_⟩
      · rw [Terminal.run_append, hrun, Option.bind_some, Terminal.run_singleton, hexec]
      · simp only [hcx, hcy]
        exact ht₂
    obtain ⟨hrow, honly⟩ := h.set (h.fitted.set hx (.inr hgraphic)) (h.tidy.set (by omega) hc hbefore) hsent rfl rfl
      fun x' hx' => by
        rw [cellAt_set (by omega)]
        by_cases hxx : x' = x
        · rw [hxx, Function.update_self, if_pos rfl, Cell.glyph_of_ne hc]
        · rw [Function.update_of_ne hxx, if_neg hxx, h.picture_eq]
    exact ⟨hrow, honly, by rw [hcx], hcy⟩

/-! ### The rest of a line cleared -/

/-- The line as it is shown, from a column on blank. -/
theorem shown_blankFrom {l : Line} (h : LineOk g l) {column : ℕ} (hcol : column ≤ g.cols)
    (htidy : Tidy l.cells ∨ column = 0) (on : Bool) (x : ℕ) :
    (cellAt (blankFrom l.cells column g.cols) x).glyph on = if column ≤ x then .blank else shown on l.cells x := by
  rw [glyph_blankFrom h.fitted hcol]
  split
  · rfl
  · rename_i hx
    rcases htidy with htidy | rfl
    · exact (htidy.shown_eq on x).symm
    · omega

/-- What is sent to clear a line makes the terminal do so. -/
theorem Sent.returns_clear {pic : ℕ → ℕ → Glyph} {top bottom column : ℕ}
    (h : Sent g k t₀ pic false top bottom s) (hg : Describes g k) (hy : y < g.lines) (hcol : column < g.cols)
    (hcx : s.currX = column) (hcy : s.currY = y) :
    Returns (do
      endStand g y column
      if g.ce then emit .clearToEol
      else do
        Prog.times (emit (.char 32)) (g.cols - column)
        modify fun s => { s with currX := g.cols } : Disp Unit) (fun _ s' =>
      (∃ out x z, s' = { s with out := out, currX := x, currY := z, stand := false }) ∧
      Sent g k t₀ (setRow pic y fun x => if column ≤ x then .blank else pic y x) false top bottom s') s := by
  rw [returns_bind]
  refine (h.returns_endStand hg y column).mono fun _ s₁ hpost => ?_
  obtain ⟨⟨out, x, z, rfl, hplace⟩, h₁⟩ := hpost
  obtain ⟨rfl, rfl⟩ := hplace hcx hcy
  refine returns_ite (fun _ => ?_) fun hce => ?_
  · rw [returns_emit]
    exact ⟨⟨_, _, _, rfl⟩, h₁.one rfl fun t ht => ht.exec_clearToEol hy hcol rfl⟩
  · rw [returns_bind]
    refine ⟨(), _, times_emit _ _ _, (returns_modify _ _ _).mpr ⟨⟨_, _, _, rfl⟩, ?_⟩⟩
    exact h₁.more rfl fun t ht => ht.run_spaces hg (hg.erases.resolve_left hce) hy (by omega)

/-- `CLEAR_TO_EOL` at the place of the cursor. -/
theorem Synced.returns_clearToEol (h : Synced g k t₀ false s) (hg : Describes g k) {l : Line}
    (hl : s.curscr[y]? = some l) {column : ℕ} (hcol : column ≤ g.cols) (htidy : Tidy l.cells ∨ column = 0)
    (hcx : s.currX = column) (hcy : s.currY = y) :
    Returns (clearToEol g y column) (fun _ s' =>
      AtRow g k t₀ false y (blankFrom l.cells column g.cols) s' ∧ OnlyLine y s s') s := by
  have hok := h.ok l (List.mem_of_getElem? hl)
  have hlen := hok.fitted.length
  have hrows := h.rows
  have hy : y < g.lines := by
    rw [← hrows]
    exact (List.getElem?_eq_some_iff.mp hl).1
  have hmin : min y (s.curscr.length - 1) = y := by omega
  let l' : Line := { l with cells := blankFrom l.cells column g.cols, lastChar := column }
  -- whatever is sent, the line is the new one afterwards
  have hdone : ∀ s' : Display, s'.curscr = s.curscr.set y l' → s'.rest = s.rest →
      Sent g k t₀ (setRow (picture g.highlights s.curscr) y fun x =>
        if column ≤ x then .blank else picture g.highlights s.curscr y x) false 0 (g.lines - 1) s' →
      AtRow g k t₀ false y (blankFrom l.cells column g.cols) s' ∧ OnlyLine y s s' := by
    intro s' hcur hrest hsent
    have hfit : Fitted g.cols l'.cells := hok.fitted.blankFrom hcol
    have htidy' : Tidy l'.cells := tidy_blankFrom hok.fitted hcol htidy
    refine ⟨⟨h.set hy ⟨hfit, .inl htidy'⟩ hcur hsent fun x _ => ?_, ⟨l', ?_, rfl⟩, htidy'⟩, ?_, fun y' hy' => ?_, hrest⟩
    · rw [htidy'.shown_eq, shown_blankFrom hok hcol htidy, picture_row hl]
    · rw [hcur, List.getElem?_set_self (by omega)]
    · rw [hcur, List.length_set]
    · rw [hcur, List.getElem?_set_ne (Ne.symm hy')]
  rw [clearToEol, returns_bind, returns_get, hmin, returns_bind, returns_curLine hl, returns_bind,
    returns_inBounds (by omega), returns_bind, setCur, returns_modify]
  refine returns_onlyIf (fun hlt => ?_) fun hge => ?_
  · have hsent : Sent g k t₀ (picture g.highlights s.curscr) false 0 (g.lines - 1)
        { s with curscr := s.curscr.set y l' } := h.sent.congr rfl rfl rfl rfl
    refine (hsent.returns_clear hg hy hlt hcx hcy).mono fun _ s' hpost => ?_
    obtain ⟨⟨out, x, z, rfl⟩, hsent'⟩ := hpost
    exact hdone _ rfl rfl hsent'
  · refine hdone _ rfl rfl ((h.sent.congr rfl rfl rfl rfl).pic_congr fun y' hy' x hx => ?_)
    by_cases hyy : y' = y
    · subst hyy
      rw [setRow, Function.update_self, if_neg (by omega)]
    · rw [setRow, Function.update_of_ne hyy]

/-! ### Characters deleted and inserted -/

theorem AtRow.returns_charDel (h : AtRow g k t₀ false y cells s) (hg : Describes g k) (hdc : g.dc = true)
    {offset : ℕ} (hoff : offset < g.cols) (hcx : s.currX = offset) (hcy : s.currY = y) :
    Returns (charDel g y offset) (fun _ s' => ∃ cells', AtRow g k t₀ false y cells' s' ∧
      (∀ x < offset, cellAt cells' x = cellAt cells x) ∧ OnlyLine y s s' ∧ s'.currX = offset ∧ s'.currY = y) s := by
  obtain ⟨l', hl', hfit, htidy, hsame, hglyph⟩ := exists_delete h.fitted h.tidy (show offset ≤ g.cols by omega)
  obtain ⟨l, hl, rfl⟩ := h.line
  rw [charDel, returns_bind, returns_curLine hl, returns_bind, hl', returns_orFault_some, returns_bind, setCur,
    returns_modify]
  refine returns_stringOut (fun _ => ?_) fun hno => by rw [hdc] at hno; cases hno
  have hsent : Sent g k t₀ (setRow (picture g.highlights s.curscr) y
      (closeAt (picture g.highlights s.curscr y) offset (g.cols - 1) .blank)) false 0 (g.lines - 1) { s with
        curscr := s.curscr.set y { l with cells := l.cells.take offset ++ l' }
        out := s.out ++ [.deleteChar] } := by
    refine h.synced.sent.one rfl fun t ht => ?_
    rw [hcx, hcy] at ht
    obtain ⟨t', hexec, ht'⟩ := ht.exec_deleteChar hg h.lt hoff
    refine ⟨t', hexec, ?_⟩
    rw [hcx, hcy]
    exact ht'
  obtain ⟨hrow, honly⟩ := h.set hfit htidy hsent rfl rfl fun x hx => by
    rw [hglyph g.highlights x hx]
    unfold closeAt
    split_ifs
    · rfl
    · exact h.picture_eq _ _
    · exact h.picture_eq _ _
  exact ⟨_, hrow, hsame, honly, hcx, hcy⟩

/-- `Char_ins` in front of the end of the line: behind a place that has been opened, or in insert mode. -/
theorem AtRow.returns_insertCell (h : AtRow g k t₀ ins y cells s) (hg : Describes g k) (hins : ins = !g.ic)
    {x : ℕ} (hx : x + 1 < g.cols) (hcx : s.currX = x) (hcy : s.currY = y) {c : Cell} (hc : c.char ≠ 0)
    (hgraphic : Graphic c.char) (hbefore : ∀ z < x, (cellAt cells z).char ≠ 0) :
    Returns (insertCell g y ins c x) (fun _ s' => ∃ cells', AtRow g k t₀ ins y cells' s' ∧
      (∀ z < x, cellAt cells' z = cellAt cells z) ∧ cellAt cells' x = c ∧ OnlyLine y s s' ∧
      s'.currX = (x : ℤ) + 1 ∧ s'.currY = y) s := by
  have hlen := h.fitted.length
  have hlt := h.lt
  obtain ⟨l, hl, rfl⟩ := h.line
  obtain ⟨one, hone, hmoved, hstop, -⟩ := exists_lastToMove g h.fitted
  obtain ⟨hroom, -, hspec⟩ := insert_spec h.fitted h.tidy hc hgraphic hx hbefore hmoved hstop
  obtain ⟨hfit, htidy, hsame, hat, hglyph⟩ := hspec _ rfl
  let new := (overwrite l.cells (x + 1) ((l.cells.drop x).take (one + 1 - x))).set x c
  have hnewlen : new.length = g.cols + 1 := hfit.length
  have hcorner : ¬ g.Corner y x := fun hcorner => by
    have := hcorner.2
    omega
  have hedge : g.Corner y x ↔ (g.lines : ℤ) - 1 ≤ s.currY ∧ (g.cols : ℤ) - 1 ≤ s.currX := by
    rw [hcx, hcy, Setup.Corner]
    omega
  -- the place is opened before the character is sent, or by it
  let opened := s.out ++ if ins = false then [.insertChar] else []
  have hopen : Returns (onlyIf (ins = false) (stringOut g.ic .insertChar)) (fun _ s' => s' = { s with out := opened }) s := by
    cases hi : ins with
    | false =>
      have hic : g.ic = true := by simpa [hi] using hins.symm
      rw [onlyIf, if_pos rfl, stringOut, hic, onlyIf, if_pos rfl, returns_emit]
      simp only [opened, hi, if_true]
    | true =>
      rw [onlyIf, if_neg (by simp), returns_pure]
      simp [opened, hi]
  rw [insertCell, returns_bind]
  refine hopen.mono fun _ s₁ hs₁ => ?_
  subst hs₁
  rw [charIns, returns_bind, returns_curLine (s := { s with out := opened }) hl, returns_bind, hone,
    returns_orFault_some, returns_bind, returns_inBounds (by omega), returns_bind, setCur, returns_modify]
  have hline : (s.curscr.set y { l with cells := new })[y]? = some { l with cells := new } :=
    List.getElem?_set_self (List.getElem?_eq_some_iff.mp hl).1
  refine ⟨(), _, charOut_eq hg.noGlitch (s := { s with out := opened, curscr := s.curscr.set y { l with cells := new } })
    hline (by simp only; omega) c hedge, ?_⟩
  simp only [if_neg hcorner]
  have hset : new.set x c = new := List.set_set _
  have hsent : Sent g k t₀ (setRow (picture g.highlights s.curscr) y (openAt (picture g.highlights s.curscr y) x
      (g.cols - 1) (c.glyph g.highlights))) ins 0 (g.lines - 1) { s with
        curscr := (s.curscr.set y { l with cells := new }).set y { l with cells := new.set x c }
        out := opened ++ g.markOrders s.stand c.attr ++ [.char c.char]
        stand := decide (c.attr ≠ 0)
        currX := s.currX + 1 } := by
    have hout : opened ++ g.markOrders s.stand c.attr ++ [.char c.char] =
        s.out ++ ((if ins = false then [.insertChar] else []) ++ (g.markOrders s.stand c.attr ++ [.char c.char])) := by
      simp only [opened, List.append_assoc]
    refine h.synced.sent.more hout fun t ht => ?_
    rw [hcx, hcy] at ht ⊢
    rw [Terminal.run_append]
    cases hi : ins with
    | false =>
      rw [hi] at ht
      obtain ⟨t₁, hexec₁, ht₁⟩ := ht.exec_insertChar hg hlt (by omega)
      obtain ⟨t₂, hrun₂, ht₂⟩ := ht₁.run_markOrders hg c.attr
      obtain ⟨t₃, hexec₃, ht₃⟩ := ht₂.exec_char hg hlt (by omega) hgraphic fun hcol => by omega
      refine ⟨t₃, ?_, ht₃.pic_congr ?_⟩
      · rw [if_pos rfl, Terminal.run_singleton, hexec₁, Option.bind_some, Terminal.run_append, hrun₂, Option.bind_some,
          Terminal.run_singleton, hexec₃]
      · intro y' _ x' _
        by_cases hyy : y' = y
        · subst hyy
          simp only [setRow, Function.update_self, Bool.false_eq_true, if_false]
          by_cases hxx : x' = x
          · subst hxx
            rw [Function.update_self, openAt, if_pos (by omega), if_pos rfl, Cell.glyph_of_ne hc]
          · rw [Function.update_of_ne hxx, openAt, openAt, if_neg hxx, if_neg hxx]
        · simp only [setRow, Function.update_of_ne hyy]
    | true =>
      rw [hi] at ht
      obtain ⟨t₂, hrun₂, ht₂⟩ := ht.run_markOrders hg c.attr
      obtain ⟨t₃, hexec₃, ht₃⟩ := ht₂.exec_char hg hlt (by omega) hgraphic fun hcol => by omega
      refine ⟨t₃, ?_, ht₃.pic_congr fun y' _ x' _ => ?_⟩
      · rw [if_neg (by simp), Terminal.run_nil, Option.bind_some, Terminal.run_append, hrun₂, Option.bind_some,
          Terminal.run_singleton, hexec₃]
      · rw [if_pos rfl, Cell.glyph_of_ne hc]
  obtain ⟨hrow, honly⟩ := h.set (l := { l with cells := new }) hfit htidy hsent (by simp only [hset, List.set_set]) rfl
    fun x' hx' => by
      rw [hglyph g.highlights x' hx']
      unfold openAt
      split_ifs
      · rfl
      · exact h.picture_eq _ _
      · exact h.picture_eq _ _
  exact ⟨new, hrow, hsame, hat, honly, by rw [hcx], hcy⟩

end BsdAdditions.Curse.Screen
