import BsdAdditions.Update.LineSync

/-! A line is brought to what the virtual screen has there, on terminals that insert and delete
characters and on those that do not. -/
namespace BsdAdditions.Curse.Screen
open Common Common.Prog

/-- The virtual screen has these characters in this line. -/
def Wants (y : ℕ) (new : List Cell) (s : Display) : Prop := ∃ l, s.virtualScr[y]? = some l ∧ l.cells = new

/-- The buffers of a line of the virtual screen. -/
structure Printable (g : Setup) (new : List Cell) : Prop where
  length : new.length = g.cols + 1
  last : (cellAt new g.cols).char = 0
  graphic : ∀ x, (cellAt new x).char = 0 ∨ Graphic (cellAt new x).char

/-- The characters up to a place are the ones that are wanted, but for the one that is never written. -/
def AgreesTo (g : Setup) (y : ℕ) (new cells : List Cell) (j : ℕ) : Prop :=
  ∀ x < j, (cellAt new x).char ≠ 0 ∧ (¬ g.Corner y x → cellAt cells x = cellAt new x)

variable {g : Setup} {k : TerminalKind} {t₀ : Terminal} {ins : Bool} {y j : ℕ} {cells new : List Cell} {s s' : Display}

theorem Printable.lt (h : Printable g new) {x : ℕ} (hx : (cellAt new x).char ≠ 0) : x < g.cols := by
  have hlen := h.length
  by_contra hge
  rcases Nat.eq_or_lt_of_le (show g.cols ≤ x by omega) with rfl | hgt
  · exact hx h.last
  · exact hx (congrArg Cell.char (cellAt_of_le (by omega)))

theorem Printable.graphic_of_ne (h : Printable g new) {x : ℕ} (hx : (cellAt new x).char ≠ 0) :
    Graphic (cellAt new x).char := (h.graphic x).resolve_left hx

theorem Wants.congr {y' : ℕ} (hw : Wants y' new s) (h : s'.rest.virtualScr = s.rest.virtualScr) : Wants y' new s' := by
  obtain ⟨l, hl, rfl⟩ := hw
  have hget : (s'.rest.virtualScr)[y']? = some { l with changed := false } := by
    rw [h, Display.rest, List.getElem?_map, hl]
    rfl
  rw [Display.rest, List.getElem?_map] at hget
  obtain ⟨l', hl', heq⟩ := Option.map_eq_some_iff.mp hget
  exact ⟨l', hl', (Line.mk.inj heq).1⟩

theorem OnlyLine.wants (h : OnlyLine y s s') {y' : ℕ} (hw : Wants y' new s) : Wants y' new s' :=
  hw.congr (congrArg Display.virtualScr h.rest)

theorem Wants.returns_virtCell (h : Wants y new s) {x : ℕ} (hx : x < new.length) (post : Cell → Display → Prop) :
    Returns (virtCell y x) post s ↔ post (cellAt new x) s := by
  obtain ⟨l, hl, rfl⟩ := h
  exact Screen.returns_virtCell hl hx post

/-- Before a place that is not behind the last one, the line has not ended. -/
theorem AgreesTo.ne_zero (h : AgreesTo g y new cells j) (hj : j < g.cols) {z : ℕ} (hz : z < j) :
    (cellAt cells z).char ≠ 0 := by
  obtain ⟨hne, heq⟩ := h z hz
  rw [heq fun hcorner => by have := hcorner.2; omega]
  exact hne

theorem AgreesTo.mono (h : AgreesTo g y new cells j) {cells' : List Cell}
    (hsame : ∀ x < j, cellAt cells' x = cellAt cells x) : AgreesTo g y new cells' j :=
  fun x hx => ⟨(h x hx).1, fun hcorner => (hsame x hx).trans ((h x hx).2 hcorner)⟩

theorem AgreesTo.succ (h : AgreesTo g y new cells j) (hne : (cellAt new j).char ≠ 0)
    (hj : ¬ g.Corner y j → cellAt cells j = cellAt new j) : AgreesTo g y new cells (j + 1) := by
  intro x hx
  rcases Nat.lt_succ_iff_lt_or_eq.mp hx with hlt | rfl
  · exact h x hlt
  · exact ⟨hne, hj⟩

/-! ### Characters deleted -/

theorem AtRow.returns_setLastChar (h : AtRow g k t₀ ins y cells s) (hj : j ≤ g.cols) :
    Returns (setLastChar g y j) (fun _ s' => AtRow g k t₀ ins y cells s' ∧ OnlyLine y s s') s := by
  have hfit := h.fitted
  have hlen := hfit.length
  obtain ⟨l, hl, rfl⟩ := h.line
  have hgo : ∀ x ≤ g.cols, (l.cells[x]?.map fun c => decide (c.char ≠ 0 ∧ x < g.cols)) =
      some (decide ((cellAt l.cells x).char ≠ 0 ∧ x < g.cols)) := by
    intro x hx
    rw [getElem?_eq_cellAt (by omega)]
    rfl
  obtain ⟨last, hlast, -⟩ := exists_advance
    (fun i => l.cells[i]?.map fun c => decide (c.char ≠ 0 ∧ i < g.cols)) (l.cells.length + 1) (i := j) (n := g.cols)
    hj (by omega)
    (fun x _ hx => by rw [hgo x hx]; rfl) (by rw [hgo _ (Nat.le_refl _)]; simp)
  rw [setLastChar, returns_bind, returns_curLine hl, returns_bind, lineEnd, hlast, returns_orFault_some, setCur,
    returns_modify]
  refine h.set (l := { l with lastChar := last }) (f := picture g.highlights s.curscr y) hfit h.tidy ?_ rfl rfl
    fun x _ => h.picture_eq _ x
  rw [setRow, Function.update_eq_self]
  exact h.synced.sent.congr rfl rfl rfl rfl

/-- The loop over the characters that two lines have in common ends. -/
theorem exists_common {old : List Cell} (hold : old.length = g.cols + 1) (hnew : new.length = g.cols + 1)
    (endOld endNew : ℕ) (hend : ∃ n, (endOld + n = g.cols ∧ (cellAt old g.cols).char = 0 ∧ endNew ≤ endOld ∨
      endNew + n = g.cols ∧ (cellAt new g.cols).char = 0 ∧ endOld ≤ endNew)) :
    ∃ m, common old new endOld endNew = some m ∧ endOld + m ≤ g.cols ∧ endNew + m ≤ g.cols := by
  obtain ⟨n, hn⟩ := hend
  have hin : endOld + n ≤ g.cols ∧ endNew + n ≤ g.cols := by omega
  have hgo : ∀ i ≤ n, ((goesOn old new (endOld + i) (endNew + i)).map (· && decide (i < 10))) =
      some (decide (cellAt old (endOld + i) = cellAt new (endNew + i) ∧ (cellAt old (endOld + i)).char ≠ 0 ∧
        (cellAt new (endNew + i)).char ≠ 0) && decide (i < 10)) := by
    intro i hi
    rw [goesOn, getElem?_eq_cellAt (by omega), Option.bind_some, getElem?_eq_cellAt (by omega)]
    rfl
  have hfalse : decide (cellAt old (endOld + n) = cellAt new (endNew + n) ∧ (cellAt old (endOld + n)).char ≠ 0 ∧
      (cellAt new (endNew + n)).char ≠ 0) = false := by
    refine decide_eq_false ?_
    rintro ⟨-, ho, hv⟩
    rcases hn with ⟨hat, hz, -⟩ | ⟨hat, hz, -⟩
    · rw [hat] at ho
      exact ho hz
    · rw [hat] at hv
      exact hv hz
  obtain ⟨m, hm, -, hle, -⟩ := exists_advance
    (fun i => (goesOn old new (endOld + i) (endNew + i)).map (· && decide (i < 10))) (old.length + 1) (i := 0) (n := n)
    (Nat.zero_le n) (by omega)
    (fun i _ hi => by rw [hgo i hi]; rfl) (by rw [hgo n (Nat.le_refl n), hfalse]; rfl)
  exact ⟨m, hm, by omega, by omega⟩

/-- The characters behind the place of the cursor go one after the other. -/
theorem AtRow.returns_charDels (h : AtRow g k t₀ false y cells s) (hg : Describes g k) (hdc : g.dc = true)
    (hj : j < g.cols) (hcx : s.currX = j) (hcy : s.currY = y) (n : ℕ) :
    Returns (Prog.times (charDel g y j) n) (fun _ s' => ∃ cells', AtRow g k t₀ false y cells' s' ∧
      (∀ x < j, cellAt cells' x = cellAt cells x) ∧ OnlyLine y s s') s := by
  induction n generalizing cells s with
  | zero => exact (returns_pure _ _ _).mpr ⟨cells, h, fun _ _ => rfl, .refl y s⟩
  | succ n ih =>
    rw [Prog.times, returns_bind]
    refine (h.returns_charDel hg hdc hj hcx hcy).mono fun _ s₁ hpost => ?_
    obtain ⟨cells₁, h₁, hsame₁, honly₁, hx₁, hy₁⟩ := hpost
    refine (ih h₁ hx₁ hy₁).mono fun _ s₂ hpost => ?_
    obtain ⟨cells₂, h₂, hsame₂, honly₂⟩ := hpost
    exact ⟨cells₂, h₂, fun x hx => (hsame₂ x hx).trans (hsame₁ x hx), honly₁.trans honly₂⟩

/-- The line is still in step with the terminal, and unchanged before the offset. -/
theorem AtRow.returns_checkDelete (h : AtRow g k t₀ false y cells s) (hg : Describes g k) (hdc : g.dc = true)
    (hw : Wants y new s) (hnew : Printable g new) (hj : j < g.cols) :
    Returns (checkDelete g y j) (fun _ s' => ∃ cells', AtRow g k t₀ false y cells' s' ∧
      (∀ x < j, cellAt cells' x = cellAt cells x) ∧ OnlyLine y s s') s := by
  have hlen := h.fitted.length
  have hvlen := hnew.length
  have hlast := congrArg Cell.char h.fitted.last
  obtain ⟨v, hv, rfl⟩ := hw
  obtain ⟨l, hl, rfl⟩ := h.line
  have hgo : ∀ i ≤ g.cols, (v.cells[j]?.bind fun n => l.cells[i]?.bind fun o => v.cells[i]?.map fun m =>
      decide (n ≠ o ∧ o.char ≠ 0 ∧ m.char ≠ 0)) = some (decide (cellAt v.cells j ≠ cellAt l.cells i ∧
        (cellAt l.cells i).char ≠ 0 ∧ (cellAt v.cells i).char ≠ 0)) := by
    intro i hi
    rw [getElem?_eq_cellAt (by omega), Option.bind_some, getElem?_eq_cellAt (by omega), Option.bind_some,
      getElem?_eq_cellAt (by omega)]
    rfl
  obtain ⟨endOld, hend, hle, hcols, -⟩ := exists_advance
    (fun i => v.cells[j]?.bind fun n => l.cells[i]?.bind fun o => v.cells[i]?.map fun m =>
      decide (n ≠ o ∧ o.char ≠ 0 ∧ m.char ≠ 0)) (l.cells.length + 1) (i := j) (n := g.cols)
    (by omega) (by omega) (fun i _ hi => by rw [hgo i hi]; rfl)
    (by rw [hgo _ (Nat.le_refl _), decide_eq_false]; exact fun hne => hne.2.1 hlast)
  have hdone : ∃ cells', AtRow g k t₀ false y cells' s ∧ (∀ x < j, cellAt cells' x = cellAt l.cells x) ∧ OnlyLine y s s :=
    ⟨l.cells, h, fun _ _ => rfl, .refl y s⟩
  rw [checkDelete, returns_bind, returns_virtLine hv, returns_bind, returns_curLine hl, returns_bind, hend,
    returns_orFault_some, returns_bind, getElem?_eq_cellAt (by omega), returns_orFault_some]
  refine returns_ite (fun _ => (returns_pure _ _ _).mpr hdone) fun _ => ?_
  obtain ⟨m, hm, -, hjm⟩ := exists_common hlen hvlen endOld j ⟨g.cols - endOld, .inl ⟨by omega, hlast, hle⟩⟩
  rw [returns_bind, hm, returns_orFault_some, returns_bind, getElem?_eq_cellAt (by omega), returns_orFault_some]
  refine returns_ite (fun _ => ?_) fun _ => (returns_pure _ _ _).mpr hdone
  -- what the new line has no place for is cleared first
  rw [returns_bind]
  have hclear : Returns (onlyIf ((cellAt v.cells (j + m)).char = 0) do
      position g y (j + m : ℕ)
      clearToEol g y (j + m)) (fun _ s' => ∃ cells', AtRow g k t₀ false y cells' s' ∧
        (∀ x < j, cellAt cells' x = cellAt l.cells x) ∧ OnlyLine y s s') s := by
    refine returns_onlyIf (fun _ => ?_) fun _ => hdone
    rw [returns_bind]
    refine (h.returns_position hg y (j + m : ℕ)).mono fun _ s₁ hpost => ?_
    obtain ⟨h₁, honly₁, hx₁, hy₁⟩ := hpost
    obtain ⟨l₁, hl₁, hcells₁⟩ := h₁.line
    refine (h₁.synced.returns_clearToEol hg hl₁ hjm (.inl (hcells₁ ▸ h₁.tidy)) hx₁ hy₁).mono fun _ s₂ hpost => ?_
    refine ⟨_, hpost.1, fun x hx => ?_, honly₁.trans hpost.2⟩
    rw [cellAt_blankFrom (hcells₁ ▸ h₁.fitted) hjm, if_pos (by omega), hcells₁]
  refine hclear.mono fun _ s₁ hpost => ?_
  obtain ⟨cells₁, h₁, hsame₁, honly₁⟩ := hpost
  rw [returns_bind]
  refine (h₁.returns_position hg y j).mono fun _ s₂ hpost => ?_
  obtain ⟨h₂, honly₂, hx₂, hy₂⟩ := hpost
  rw [returns_bind]
  refine (h₂.returns_charDels hg hdc hj hx₂ hy₂ (endOld - j)).mono fun _ s₃ hpost => ?_
  obtain ⟨cells₃, h₃, hsame₃, honly₃⟩ := hpost
  rw [returns_bind]
  refine (h₃.returns_setLastChar (by omega)).mono fun _ s₄ hpost => (returns_pure _ _ _).mpr ?_
  exact ⟨cells₃, hpost.1, fun x hx => (hsame₃ x hx).trans (hsame₁ x hx),
    ((honly₁.trans honly₂).trans honly₃).trans hpost.2⟩

/-! ### Characters inserted -/

/-- Insert mode is an order like any other. -/
theorem AtRow.insertMode (h : AtRow g k t₀ ins y cells s) (on : Bool) :
    AtRow g k t₀ on y cells { s with out := s.out ++ [.insertMode on] } ∧
      OnlyLine y s { s with out := s.out ++ [.insertMode on] } := by
  refine h.stay (h.synced.sent.one rfl fun t ht => ?_) rfl rfl
  exact ⟨{ t with inserting := on }, rfl, ht.glyph, ht.cursor, ht.standout, rfl, ht.top, ht.bottom⟩

theorem AtRow.returns_insertCells (h : AtRow g k t₀ ins y cells s) (hg : Describes g k) (hins : ins = !g.ic)
    (hw : Wants y new s) (hnew : Printable g new) {n x : ℕ} (hn : x + n < g.cols)
    (hne : ∀ z, x ≤ z → z < x + n → (cellAt new z).char ≠ 0) (hbefore : ∀ z < x, (cellAt cells z).char ≠ 0)
    (hcx : s.currX = x) (hcy : s.currY = y) :
    Returns (insertCells g y ins n x) (fun _ s' => ∃ cells', AtRow g k t₀ ins y cells' s' ∧
      (∀ z < x, cellAt cells' z = cellAt cells z) ∧ OnlyLine y s s') s := by
  induction n generalizing x cells s with
  | zero => exact (returns_pure _ _ _).mpr ⟨cells, h, fun _ _ => rfl, .refl y s⟩
  | succ n ih =>
    have hvlen := hnew.length
    have hx : (cellAt new x).char ≠ 0 := hne x (Nat.le_refl x) (by omega)
    rw [insertCells, returns_bind, hw.returns_virtCell (by omega), returns_bind]
    refine (h.returns_insertCell hg hins (by omega) hcx hcy hx (hnew.graphic_of_ne hx) hbefore).mono fun _ s₁ hpost => ?_
    obtain ⟨cells₁, h₁, hsame₁, hat₁, honly₁, hx₁, hy₁⟩ := hpost
    have hbefore₁ : ∀ z < x + 1, (cellAt cells₁ z).char ≠ 0 := by
      intro z hz
      rcases Nat.lt_succ_iff_lt_or_eq.mp hz with hlt | rfl
      · rw [hsame₁ z hlt]
        exact hbefore z hlt
      · rw [hat₁]
        exact hx
    refine (ih h₁ (honly₁.wants hw) (by omega) (fun z hz hz' => hne z (by omega) (by omega)) hbefore₁
      (by rw [hx₁]; rfl) hy₁).mono fun _ s₂ hpost => ?_
    obtain ⟨cells₂, h₂, hsame₂, honly₂⟩ := hpost
    exact ⟨cells₂, h₂, fun z hz => (hsame₂ z (by omega)).trans (hsame₁ z hz), honly₁.trans honly₂⟩

/-- What is sent around the insertion switches insert mode on and off again, where it is needed. -/
theorem AtRow.returns_insertion (h : AtRow g k t₀ false y cells s) (hg : Describes g k)
    (hcan : g.ic = true ∨ g.im = true) (hw : Wants y new s) (hnew : Printable g new) {n : ℕ} (hn : j + n < g.cols)
    (hne : ∀ z, j ≤ z → z < j + n → (cellAt new z).char ≠ 0) (hbefore : ∀ z < j, (cellAt cells z).char ≠ 0)
    (hcx : s.currX = j) (hcy : s.currY = y) :
    Returns (do
      onlyIf ((!g.ic) = true) (stringOut g.im (.insertMode true))
      insertCells g y (!g.ic) n j
      onlyIf ((!g.ic) = true) (stringOut g.ei (.insertMode false)) : Disp Unit) (fun _ s' =>
      ∃ cells', AtRow g k t₀ false y cells' s' ∧ (∀ z < j, cellAt cells' z = cellAt cells z) ∧ OnlyLine y s s') s := by
  cases hic : g.ic with
  | true =>
    have hins : false = !g.ic := by rw [hic]; rfl
    rw [returns_bind, onlyIf, if_neg (by simp), returns_pure, returns_bind]
    refine (h.returns_insertCells hg hins hw hnew hn hne hbefore hcx hcy).mono fun _ s₁ hpost => ?_
    rw [onlyIf, if_neg (by simp), returns_pure]
    exact hpost
  | false =>
    have him : g.im = true := hcan.resolve_left (by simp [hic])
    have hei : g.ei = true := hg.ends hic him
    have hins : true = !g.ic := by rw [hic]; rfl
    obtain ⟨h₁, honly₁⟩ := h.insertMode true
    rw [returns_bind, onlyIf, if_pos (by decide), stringOut, him, onlyIf, if_pos rfl, returns_emit, returns_bind]
    refine (h₁.returns_insertCells hg hins (honly₁.wants hw) hnew hn hne hbefore hcx hcy).mono fun _ s₂ hpost => ?_
    obtain ⟨cells₂, h₂, hsame₂, honly₂⟩ := hpost
    rw [onlyIf, if_pos (by decide), stringOut, hei, onlyIf, if_pos rfl, returns_emit]
    obtain ⟨h₃, honly₃⟩ := h₂.insertMode false
    exact ⟨cells₂, h₃, hsame₂, (honly₁.trans honly₂).trans honly₃⟩

theorem AtRow.returns_checkInsert (h : AtRow g k t₀ false y cells s) (hg : Describes g k)
    (hcan : g.ic = true ∨ g.im = true) (hw : Wants y new s) (hnew : Printable g new) (hj : j < g.cols)
    (hbefore : ∀ z < j, (cellAt cells z).char ≠ 0) :
    Returns (checkInsert g y j) (fun _ s' => ∃ cells', AtRow g k t₀ false y cells' s' ∧
      (∀ x < j, cellAt cells' x = cellAt cells x) ∧ OnlyLine y s s') s := by
  have hlen := h.fitted.length
  have hvlen := hnew.length
  have hdone : ∃ cells', AtRow g k t₀ false y cells' s ∧ (∀ x < j, cellAt cells' x = cellAt cells x) ∧ OnlyLine y s s :=
    ⟨cells, h, fun _ _ => rfl, .refl y s⟩
  obtain ⟨v, hv, rfl⟩ := hw
  obtain ⟨l, hl, rfl⟩ := h.line
  have hgo : ∀ i ≤ g.cols, (v.cells[i]?.bind fun n => l.cells[j]?.bind fun o => l.cells[i]?.map fun p =>
      decide (n ≠ o ∧ n.char ≠ 0 ∧ p.char ≠ 0)) = some (decide (cellAt v.cells i ≠ cellAt l.cells j ∧
        (cellAt v.cells i).char ≠ 0 ∧ (cellAt l.cells i).char ≠ 0)) := by
    intro i hi
    rw [getElem?_eq_cellAt (by omega), Option.bind_some, getElem?_eq_cellAt (by omega), Option.bind_some,
      getElem?_eq_cellAt (by omega)]
    rfl
  obtain ⟨endNew, hend, hle, hcols, htrue, -⟩ := exists_advance
    (fun i => v.cells[i]?.bind fun n => l.cells[j]?.bind fun o => l.cells[i]?.map fun p =>
      decide (n ≠ o ∧ n.char ≠ 0 ∧ p.char ≠ 0)) (l.cells.length + 1) (i := j) (n := g.cols)
    (by omega) (by omega) (fun i _ hi => by rw [hgo i hi]; rfl)
    (by rw [hgo _ (Nat.le_refl _), decide_eq_false]; exact fun hne => hne.2.1 hnew.last)
  have hne : ∀ z, j ≤ z → z < endNew → (cellAt v.cells z).char ≠ 0 := by
    intro z hz hz'
    have := htrue z hz hz'
    rw [hgo z (by omega)] at this
    exact (of_decide_eq_true (Option.some.inj this)).2.1
  rw [checkInsert, returns_bind, returns_virtLine hv, returns_bind, returns_curLine hl, returns_bind, hend,
    returns_orFault_some, returns_bind, getElem?_eq_cellAt (by omega), returns_orFault_some]
  refine returns_ite (fun _ => (returns_pure _ _ _).mpr hdone) fun hchar => ?_
  have hlt : endNew < g.cols := hnew.lt hchar
  obtain ⟨m, hm, -, hem⟩ := exists_common hlen hvlen j endNew ⟨g.cols - endNew, .inr ⟨by omega, hnew.last, hle⟩⟩
  have hgoes : ∀ i ≤ g.cols, goesOn l.cells v.cells i i = some (decide (cellAt l.cells i = cellAt v.cells i ∧
      (cellAt l.cells i).char ≠ 0 ∧ (cellAt v.cells i).char ≠ 0)) := by
    intro i hi
    rw [goesOn, getElem?_eq_cellAt (by omega), Option.bind_some, getElem?_eq_cellAt (by omega)]
    rfl
  obtain ⟨oldOff, hoff, -⟩ := exists_advance
    (fun i => goesOn l.cells v.cells i i) (l.cells.length + 1) (i := endNew) (n := g.cols)
    (by omega) (by omega) (fun i _ hi => by rw [hgoes i hi]; rfl)
    (by rw [hgoes _ (Nat.le_refl _), decide_eq_false]; exact fun hne => hne.2.2 hnew.last)
  rw [returns_bind, hm, returns_orFault_some, returns_bind, hoff, returns_orFault_some, returns_bind,
    getElem?_eq_cellAt (x := endNew + m) (by omega), returns_orFault_some]
  refine returns_ite (fun _ => ?_) fun _ => (returns_pure _ _ _).mpr hdone
  rw [returns_bind]
  refine (h.returns_position hg y j).mono fun _ s₁ hpost => ?_
  obtain ⟨h₁, honly₁, hx₁, hy₁⟩ := hpost
  have hinsertion := h₁.returns_insertion hg hcan (honly₁.wants ⟨v, hv, rfl⟩) hnew (n := endNew - j) (by omega)
    (fun z hz hz' => hne z hz (by omega)) hbefore hx₁ hy₁
  simp only [returns_bind] at hinsertion ⊢
  refine hinsertion.mono fun _ s₂ hpost => hpost.mono fun _ s₃ hpost => hpost.mono fun _ s₄ hpost => ?_
  obtain ⟨cells₄, h₄, hsame₄, honly₄⟩ := hpost
  refine (h₄.returns_setLastChar (by omega)).mono fun _ s₅ hpost => (returns_pure _ _ _).mpr ?_
  exact ⟨cells₄, hpost.1, hsame₄, (honly₁.trans honly₄).trans hpost.2⟩

/-! ### The rounds over a line -/

/-- A place that differs is written; a space behind the end of the line need not be sent. -/
theorem AtRow.returns_mendCell (h : AtRow g k t₀ false y cells s) (hg : Describes g k) (hj : j < g.cols) {v : Cell}
    (hv : v.char ≠ 0) (hgraphic : Graphic v.char) (hbefore : ∀ z < j, (cellAt cells z).char ≠ 0) (changed : Bool) :
    Returns (mendCell g y j v changed) (fun _ s' => ∃ cells', AtRow g k t₀ false y cells' s' ∧
      (∀ x < j, cellAt cells' x = cellAt cells x) ∧ (¬ g.Corner y j → cellAt cells' j = v) ∧ OnlyLine y s s') s := by
  have hfit := h.fitted
  have hlen := hfit.length
  have hset : ∀ x < j, cellAt (cells.set j v) x = cellAt cells x := by
    intro x hx
    rw [cellAt_set (by omega), if_neg (by omega)]
  have hat : cellAt (cells.set j v) j = v := by rw [cellAt_set (by omega), if_pos rfl]
  rw [mendCell, returns_bind, h.returns_curCell (by omega)]
  refine returns_onlyIf (fun _ => returns_ite (fun hspace => ?_) fun _ => ?_) fun hsame => ?_
  · obtain ⟨hchar, hzero, hattr⟩ := hspace
    have hcell : ({ cellAt cells j with char := 32 } : Cell) = v := by
      cases v with
      | mk char attr =>
        simp only at hchar hattr
        rw [hchar, hattr]
    have hblank : (cellAt cells j).Blank := h.tidy j j (Nat.le_refl j) hzero
    rw [hcell]
    obtain ⟨l, hl, rfl⟩ := h.line
    rw [writeCur, returns_bind, returns_curLine hl, returns_bind, returns_inBounds (by omega), setCur, returns_modify]
    have hsent : Sent g k t₀ (setRow (picture g.highlights s.curscr) y (picture g.highlights s.curscr y)) false 0
        (g.lines - 1) { s with curscr := s.curscr.set y { l with cells := l.cells.set j v } } := by
      rw [setRow, Function.update_eq_self]
      exact h.synced.sent.congr rfl rfl rfl rfl
    obtain ⟨hrow, honly⟩ := h.set (l := { l with cells := l.cells.set j v }) (hfit.set hj (.inr hgraphic))
      (h.tidy.set (by omega) hv hbefore) hsent rfl rfl fun x _ => by
        rw [h.picture_eq, cellAt_set (by omega)]
        by_cases hx : x = j
        · have hvblank : v.Blank := ⟨.inr hchar, hattr.trans hblank.2⟩
          rw [if_pos hx, hx, hblank.glyph_eq, hvblank.glyph_eq]
        · rw [if_neg hx]
    exact ⟨_, hrow, hset, fun _ => hat, honly⟩
  · rw [returns_bind]
    refine (h.returns_position hg y j).mono fun _ s₁ hpost => ?_
    obtain ⟨h₁, honly₁, hx₁, hy₁⟩ := hpost
    refine (h₁.returns_charOut hg hj hx₁ hy₁ hv hgraphic hbefore).mono fun _ s₂ hpost => ?_
    obtain ⟨h₂, honly₂, -⟩ := hpost
    by_cases hcorner : g.Corner y j
    · rw [if_pos hcorner] at h₂
      exact ⟨cells, h₂, fun _ _ => rfl, fun hnot => absurd hcorner hnot, honly₁.trans honly₂⟩
    · rw [if_neg hcorner] at h₂
      exact ⟨_, h₂, hset, fun _ => hat, honly₁.trans honly₂⟩
  · refine ⟨cells, h, fun _ _ => rfl, fun _ => ?_, .refl y s⟩
    by_contra hne
    exact hsame ⟨.inr hne, hj⟩

theorem AtRow.clearChanged (h : AtRow g k t₀ ins y cells s) :
    AtRow g k t₀ ins y cells { s with virtualScr := s.virtualScr.modify y fun l => { l with changed := false } } ∧
      OnlyLine y s { s with virtualScr := s.virtualScr.modify y fun l => { l with changed := false } } := by
  refine h.stay (h.synced.sent.congr rfl rfl rfl rfl) rfl ?_
  unfold Display.rest
  congr 1
  apply List.ext_getElem?
  intro y'
  rw [List.getElem?_map, List.getElem?_map, List.getElem?_modify]
  cases s.virtualScr[y']? with
  | none => rfl
  | some l =>
    by_cases hy : y = y'
    · simp [hy]
    · simp [hy]

theorem AtRow.returns_mend (h : AtRow g k t₀ false y cells s) (hg : Describes g k) (hdc : g.dc = true)
    (hcan : g.ic = true ∨ g.im = true) (hw : Wants y new s) (hnew : Printable g new)
    (hne : (cellAt new j).char ≠ 0) (hagree : AgreesTo g y new cells j) (firstTime : Bool) :
    Returns (mend g y j (cellAt new j) firstTime) (fun _ s' => ∃ cells', AtRow g k t₀ false y cells' s' ∧
      AgreesTo g y new cells' (j + 1) ∧ OnlyLine y s s') s := by
  have hj : j < g.cols := hnew.lt hne
  -- each of the steps is followed by this, with the line as it is by then
  have hinsert : ∀ cells₁ s₁, AtRow g k t₀ false y cells₁ s₁ → AgreesTo g y new cells₁ j → OnlyLine y s s₁ →
      Returns (checkInsert g y j) (fun _ s' => ∃ cells', AtRow g k t₀ false y cells' s' ∧
        AgreesTo g y new cells' j ∧ OnlyLine y s s') s₁ := by
    intro cells₁ s₁ h₁ hagree₁ honly₁
    refine (h₁.returns_checkInsert hg hcan (honly₁.wants hw) hnew hj fun z hz => hagree₁.ne_zero hj hz).mono
      fun _ s₂ hpost => ?_
    obtain ⟨cells₂, h₂, hsame₂, honly₂⟩ := hpost
    exact ⟨cells₂, h₂, hagree₁.mono hsame₂, honly₁.trans honly₂⟩
  obtain ⟨v, hv, -⟩ := id hw
  obtain ⟨l, hl, -⟩ := h.line
  rw [mend, returns_bind, returns_virtLine hv, returns_bind]
  have hstart : Returns (onlyIf (firstTime = true ∧ v.changed = true) do
      let curr ← curLine y
      onlyIf (curr.lastChar ≤ v.lastChar) do
        let _ ← checkInsert g y j) (fun _ s' => ∃ cells', AtRow g k t₀ false y cells' s' ∧
          AgreesTo g y new cells' j ∧ OnlyLine y s s') s := by
    refine returns_onlyIf (fun _ => ?_) fun _ => ⟨cells, h, hagree, .refl y s⟩
    rw [returns_bind, returns_curLine hl]
    refine returns_onlyIf (fun _ => ?_) fun _ => ⟨cells, h, hagree, .refl y s⟩
    rw [returns_bind]
    exact (hinsert cells s h hagree (.refl y s)).mono fun _ s' hpost => (returns_pure _ _ _).mpr hpost
  refine hstart.mono fun _ s₁ hpost => ?_
  obtain ⟨cells₁, h₁, hagree₁, honly₁⟩ := hpost
  rw [returns_bind]
  refine (h₁.returns_checkDelete hg hdc (honly₁.wants hw) hnew hj).mono fun deleted s₂ hpost => ?_
  obtain ⟨cells₂, h₂, hsame₂, honly₂⟩ := hpost
  obtain ⟨h₃, honly₃⟩ := h₂.clearChanged
  have hagree₃ := hagree₁.mono hsame₂
  have honly := (honly₁.trans honly₂).trans honly₃
  rw [returns_bind, Screen.clearChanged, returns_modify, returns_bind]
  have hchanged : Returns (checkInsertUnless g deleted y j) (fun _ s' => ∃ cells',
      AtRow g k t₀ false y cells' s' ∧ AgreesTo g y new cells' j ∧ OnlyLine y s s') _ :=
    returns_ite (fun _ => (returns_pure _ _ _).mpr ⟨cells₂, h₃, hagree₃, honly⟩)
      fun _ => hinsert cells₂ _ h₃ hagree₃ honly
  refine hchanged.mono fun changed s₄ hpost => ?_
  obtain ⟨cells₄, h₄, hagree₄, honly₄⟩ := hpost
  refine (h₄.returns_mendCell hg hj hne (hnew.graphic_of_ne hne) (fun z hz => hagree₄.ne_zero hj hz) changed).mono
    fun _ s₅ hpost => ?_
  obtain ⟨cells₅, h₅, hsame₅, hat₅, honly₅⟩ := hpost
  exact ⟨cells₅, h₅, (hagree₄.mono hsame₅).succ hne hat₅, honly₄.trans honly₅⟩

/-- The search for the next difference ends, at the latest with the new line. -/
theorem exists_skip {old : List Cell} (hold : old.length = g.cols + 1) (hnew : Printable g new) (hj : j ≤ g.cols)
    (go : ℕ → Option Bool) (p : ℕ → Bool) (hgo : ∀ i ≤ g.cols, go i = some (p i))
    (hp : ∀ i, p i = true → cellAt old i = cellAt new i ∧ (cellAt new i).char ≠ 0) :
    ∃ j', advance go (old.length + 1) j = some j' ∧ j ≤ j' ∧ j' ≤ g.cols ∧
      (∀ x, j ≤ x → x < j' → cellAt old x = cellAt new x ∧ (cellAt new x).char ≠ 0) ∧ p j' = false := by
  obtain ⟨j', hadv, hle, hcols, htrue, hfalse⟩ := exists_advance go (old.length + 1) (i := j) (n := g.cols)
    hj (by omega) (fun i _ hi => by rw [hgo i hi]; rfl) (by
      rw [hgo _ (Nat.le_refl _), Option.some.injEq, Bool.eq_false_iff]
      exact fun htrue => (hp _ htrue).2 hnew.last)
  refine ⟨j', hadv, hle, hcols, fun x hx hx' => hp x ?_, ?_⟩
  · have := htrue x hx hx'
    rw [hgo x (by omega)] at this
    exact Option.some.inj this
  · rw [hgo j' hcols] at hfalse
    exact Option.some.inj hfalse

theorem AgreesTo.skip (h : AgreesTo g y new cells j) {j' : ℕ}
    (hskip : ∀ x, j ≤ x → x < j' → cellAt cells x = cellAt new x ∧ (cellAt new x).char ≠ 0) :
    AgreesTo g y new cells j' := by
  intro x hx
  by_cases hlt : x < j
  · exact h x hlt
  · obtain ⟨heq, hne⟩ := hskip x (by omega) hx
    exact ⟨hne, fun _ => heq⟩

theorem AtRow.returns_skipSame (h : AtRow g k t₀ false y cells s) (hg : Describes g k) (hw : Wants y new s)
    (hnew : Printable g new) (hj : j ≤ g.cols) (hagree : AgreesTo g y new cells j) :
    Returns (skipSame g y j) (fun j' s' => s' = s ∧ j ≤ j' ∧ j' ≤ g.cols ∧ AgreesTo g y new cells j') s := by
  have hlen := h.fitted.length
  have hvlen := hnew.length
  obtain ⟨v, hv, rfl⟩ := hw
  obtain ⟨l, hl, rfl⟩ := h.line
  obtain ⟨j', hadv, hle, hcols, hskip, -⟩ := exists_skip hlen hnew hj
    (fun i => v.cells[i]?.bind fun n => l.cells[i]?.map fun o => decide (n = o ∧ n.char ≠ 0))
    (fun i => decide (cellAt v.cells i = cellAt l.cells i ∧ (cellAt v.cells i).char ≠ 0))
    (fun i hi => by rw [getElem?_eq_cellAt (by omega), Option.bind_some, getElem?_eq_cellAt (by omega)]; rfl)
    (fun i hi => by
      have hsame := of_decide_eq_true hi
      exact ⟨hsame.1.symm, hsame.2⟩)
  rw [skipSame, returns_bind, returns_virtLine hv, returns_bind, returns_curLine hl, returns_bind, returns_get,
    if_neg (by simp [hg.noGlitch]), hadv, returns_orFault_some]
  exact ⟨rfl, hle, hcols, hagree.skip hskip⟩

/-- What the rounds over a line reach: its end in the virtual screen, with all that is before it agreed on. -/
structure Reached (g : Setup) (k : TerminalKind) (t₀ : Terminal) (y : ℕ) (new : List Cell) (s : Display) (j : ℕ)
    (s' : Display) : Prop where
  row : ∃ cells, AtRow g k t₀ false y cells s' ∧ AgreesTo g y new cells j
  ended : (cellAt new j).char = 0
  inside : j ≤ g.cols
  only : OnlyLine y s s'

theorem AtRow.returns_editLoop (h : AtRow g k t₀ false y cells s) (hg : Describes g k) (hdc : g.dc = true)
    (hcan : g.ic = true ∨ g.im = true) (hw : Wants y new s) (hnew : Printable g new) (hagree : AgreesTo g y new cells j)
    (hj : j ≤ g.cols) {fuel : ℕ} (hfuel : g.cols < fuel + j) (firstTime : Bool) :
    Returns (editLoop g y fuel j firstTime) (Reached g k t₀ y new s) s := by
  -- each round goes on by at least one place
  induction fuel generalizing j firstTime cells s with
  | zero => omega
  | succ fuel ih =>
    have hvlen := hnew.length
    rw [editLoop, returns_bind, hw.returns_virtCell (by omega)]
    refine returns_ite (fun hgoes => ?_) fun hstop => (returns_pure _ _ _).mpr ?_
    · rw [returns_bind]
      refine (h.returns_skipSame hg hw hnew hj hagree).mono fun j' s₁ hpost => ?_
      obtain ⟨rfl, hle, hcols, hagree'⟩ := hpost
      rw [returns_bind, hw.returns_virtCell (by omega), returns_bind, h.returns_curCell hcols, returns_bind, onlyIf,
        if_neg (by simp [hg.noGlitch]), returns_pure]
      refine returns_ite (fun hne => ?_) fun hend => ?_
      · rw [returns_bind]
        refine (h.returns_mend hg hdc hcan hw hnew hne hagree' firstTime).mono fun _ s₂ hpost => ?_
        obtain ⟨cells₂, h₂, hagree₂, honly₂⟩ := hpost
        have hlt := hnew.lt hne
        have hw₂ := honly₂.wants hw
        rw [returns_bind, hw₂.returns_virtCell (by omega), returns_bind]
        have hstand : Returns (onlyIf ((cellAt new (j' + 1)).attr = 0) (endStand g y (j' + 1)))
            (fun _ s' => AtRow g k t₀ false y cells₂ s' ∧ OnlyLine y s₁ s') s₂ := by
          refine returns_onlyIf (fun _ => ?_) fun _ => ⟨h₂, honly₂⟩
          refine (h₂.returns_endStand hg y _).mono fun _ s₃ hpost => ⟨hpost.1, honly₂.trans hpost.2.1⟩
        refine hstand.mono fun _ s₃ hpost => ?_
        obtain ⟨h₃, honly₃⟩ := hpost
        refine (ih h₃ (honly₃.wants hw) hagree₂ (by omega) (by omega) false).mono fun j'' s₄ hpost => ?_
        exact { hpost with only := honly₃.trans hpost.only }
      · have hlt : j < j' := by
          rcases Nat.eq_or_lt_of_le hle with rfl | hlt
          · exact absurd hgoes.1 hend
          · exact hlt
        rw [returns_bind]
        have hstand : Returns (onlyIf ((cellAt new j').attr = 0) (endStand g y j'))
            (fun _ s' => AtRow g k t₀ false y cells s' ∧ OnlyLine y s₁ s') s₁ := by
          refine returns_onlyIf (fun _ => ?_) fun _ => ⟨h, .refl y s₁⟩
          refine (h.returns_endStand hg y _).mono fun _ s₃ hpost => ⟨hpost.1, hpost.2.1⟩
        refine hstand.mono fun _ s₃ hpost => ?_
        obtain ⟨h₃, honly₃⟩ := hpost
        refine (ih h₃ (honly₃.wants hw) hagree' hcols (by omega) firstTime).mono fun j'' s₄ hpost => ?_
        exact { hpost with only := honly₃.trans hpost.only }
    · refine ⟨⟨cells, h, hagree⟩, ?_, hj, .refl y s⟩
      by_contra hne
      exact hstop ⟨hne, hnew.lt hne⟩

/-! ### A line written again -/

theorem AtRow.returns_putCells (h : AtRow g k t₀ false y cells s) (hg : Describes g k) (hw : Wants y new s)
    (hnew : Printable g new) (hagree : AgreesTo g y new cells j) (hj : j ≤ g.cols) (hcx : s.currX = j)
    (hcy : s.currY = y) {fuel : ℕ} (hfuel : g.cols < fuel + j) :
    Returns (putCells g y (virtCell y) fuel j) (Reached g k t₀ y new s) s := by
  induction fuel generalizing j cells s with
  | zero => omega
  | succ fuel ih =>
    have hvlen := hnew.length
    rw [putCells, returns_bind, hw.returns_virtCell (by omega)]
    refine returns_ite (fun hgoes => ?_) fun hstop => (returns_pure _ _ _).mpr ?_
    · obtain ⟨hne, hlt⟩ := hgoes
      have hlen := h.fitted.length
      rw [returns_bind]
      refine (h.returns_charOut hg hlt hcx hcy hne (hnew.graphic_of_ne hne) fun z hz => hagree.ne_zero hlt hz).mono
        fun _ s₁ hpost => ?_
      obtain ⟨h₁, honly₁, hx₁, hy₁⟩ := hpost
      have hagree₁ : AgreesTo g y new (if g.Corner y j then cells else cells.set j (cellAt new j)) (j + 1) := by
        by_cases hcorner : g.Corner y j
        · rw [if_pos hcorner]
          exact hagree.succ hne fun hnot => absurd hcorner hnot
        · rw [if_neg hcorner]
          refine (hagree.mono fun x hx => ?_).succ hne fun _ => ?_
          · rw [cellAt_set (by omega), if_neg (by omega)]
          · rw [cellAt_set (by omega), if_pos rfl]
      refine (ih h₁ (honly₁.wants hw) hagree₁ (by omega) (by rw [hx₁]; rfl) hy₁ (by omega)).mono fun j' s₂ hpost => ?_
      exact { hpost with only := honly₁.trans hpost.only }
    · refine ⟨⟨cells, h, hagree⟩, ?_, hj, .refl y s⟩
      by_contra hne
      exact hstop ⟨hne, hnew.lt hne⟩

/-- At the end of the new line the rounds are over. -/
theorem Wants.returns_rewriteLoop_end (hw : Wants y new s) (hj : j < new.length) (hend : (cellAt new j).char = 0)
    (fuel : ℕ) (post : ℕ → Display → Prop) : Returns (rewriteLoop g y (fuel + 1) j) post s ↔ post j s := by
  rw [rewriteLoop, returns_bind, hw.returns_virtCell hj, if_neg fun hgoes => hgoes.2 hend]
  exact returns_pure _ _ _

theorem Synced.returns_rewriteLoop (h : Synced g k t₀ false s) (hg : Describes g k) (hchinese : g.chinese = false)
    {l : Line} (hl : s.curscr[y]? = some l) (hw : Wants y new s) (hnew : Printable g new)
    (hne : (cellAt new 0).char ≠ 0) :
    Returns (rewriteLoop g y (g.cols + 1) 0) (Reached g k t₀ y new s) s := by
  have hcols : 0 < g.cols := hnew.lt hne
  have hok := h.ok l (List.mem_of_getElem? hl)
  have hlen := hok.fitted.length
  have hvlen := hnew.length
  obtain ⟨v, hv, rfl⟩ := id hw
  obtain ⟨j, hadv, -, hle, hskip, hdiff⟩ := exists_skip hlen hnew (Nat.zero_le _)
    (fun i => v.cells[i]?.bind fun n => l.cells[i]?.map fun o => decide (o = n ∧ i < g.cols ∧ n.char ≠ 0))
    (fun i => decide (cellAt l.cells i = cellAt v.cells i ∧ i < g.cols ∧ (cellAt v.cells i).char ≠ 0))
    (fun i hi => by rw [getElem?_eq_cellAt (by omega), Option.bind_some, getElem?_eq_cellAt (by omega)]; rfl)
    (fun i hi => by
      have hsame := of_decide_eq_true hi
      exact ⟨hsame.1, hsame.2.2⟩)
  have hagree : AgreesTo g y v.cells l.cells j := fun x hx =>
    ⟨(hskip x (Nat.zero_le x) hx).2, fun _ => (hskip x (Nat.zero_le x) hx).1⟩
  -- a line that has not been tidied up differs in its first place
  have htidy : Tidy l.cells ∨ j = 0 := by
    refine hok.tidy.imp_right fun hzero => ?_
    by_contra hj
    obtain ⟨heq, hchar⟩ := hskip 0 (Nat.le_refl 0) (by omega)
    rw [heq] at hzero
    exact hchar hzero
  obtain ⟨rounds, hrounds⟩ : ∃ rounds, g.cols + 1 = rounds + 1 + 1 := ⟨g.cols - 1, by omega⟩
  rw [hrounds, rewriteLoop, returns_bind, hw.returns_virtCell (by omega), if_pos ⟨hcols, hne⟩, returns_bind,
    returns_virtLine hv, returns_bind, returns_curLine hl, returns_bind, hadv, returns_orFault_some, returns_bind,
    backToLead, if_neg (by simp [hchinese]), returns_pure, returns_bind, hw.returns_virtCell (by omega)]
  refine returns_ite (fun hgoes => ?_) fun hstop => ?_
  · rw [returns_bind]
    refine (h.sent.returns_position hg y j).mono fun _ s₁ hpost => ?_
    obtain ⟨⟨out, rfl⟩, hsent₁⟩ := hpost
    have h₁ : Synced g k t₀ false { s with out := out, currX := j, currY := y } := ⟨h.rows, h.ok, hsent₁⟩
    rw [returns_bind]
    refine (h₁.returns_clearToEol hg hl hle htidy rfl rfl).mono fun _ s₂ hpost => ?_
    obtain ⟨h₂, honly₂⟩ := hpost
    rw [returns_bind]
    refine (h₂.returns_position hg y j).mono fun _ s₃ hpost => ?_
    obtain ⟨h₃, honly₃, hx₃, hy₃⟩ := hpost
    have hsame : ∀ x < j, cellAt (blankFrom l.cells j g.cols) x = cellAt l.cells x := fun x hx => by
      rw [cellAt_blankFrom hok.fitted hle, if_pos hx]
    have honly : OnlyLine y s s₃ := ⟨(honly₂.trans honly₃).length, (honly₂.trans honly₃).others, (honly₂.trans honly₃).rest⟩
    rw [returns_bind]
    refine (h₃.returns_putCells hg (honly.wants hw) hnew (hagree.mono hsame) hle hx₃ hy₃ (by omega)).mono
      fun j' s₄ hpost => ?_
    have hreached : Reached g k t₀ y v.cells s j' s₄ := { hpost with only := honly.trans hpost.only }
    have hinside := hpost.inside
    exact ((hreached.only.wants hw).returns_rewriteLoop_end (by omega) hpost.ended rounds _).mpr hreached
  · have hend : (cellAt v.cells j).char = 0 := by
      by_contra hne
      exact hstop ⟨hnew.lt hne, hne⟩
    have hj : j ≠ 0 := by
      rintro rfl
      exact hne hend
    refine (hw.returns_rewriteLoop_end (by omega) hend rounds _).mpr ?_
    exact ⟨⟨l.cells, ⟨h, ⟨l, hl, rfl⟩, htidy.resolve_right hj⟩, hagree⟩, hend, hle, .refl y s⟩

/-! ### The whole line -/

/-- The line shows what the virtual screen has, but for the place that is never written. -/
def ShowsLine (g : Setup) (y : ℕ) (new : List Cell) (s : Display) : Prop :=
  ∀ x < g.cols, ¬ g.Corner y x → picture g.highlights s.curscr y x = shown g.highlights new x

theorem AtRow.showsLine (h : AtRow g k t₀ ins y cells s) (hagree : AgreesTo g y new cells j)
    (hend : (cellAt new j).char = 0) (hzero : (cellAt cells j).char = 0) : ShowsLine g y new s := by
  intro x hx hcorner
  rw [h.picture_eq]
  by_cases hlt : x < j
  · rw [(hagree x hlt).2 hcorner, shown_of_forall fun z hz => (hagree z (by omega)).1]
  · rw [(h.tidy j x (by omega) hzero).glyph_eq, shown_of_end (show j ≤ x by omega) hend]

theorem AtRow.returns_dropRest (h : AtRow g k t₀ false y cells s) (hg : Describes g k) (hw : Wants y new s)
    (hnew : Printable g new) (hagree : AgreesTo g y new cells j) (hend : (cellAt new j).char = 0) (hj : j ≤ g.cols) :
    Returns (dropRest g y j) (fun _ s' => ∃ cells', AtRow g k t₀ false y cells' s' ∧ ShowsLine g y new s' ∧
      OnlyLine y s s') s := by
  have hvlen := hnew.length
  rw [dropRest, returns_bind, hw.returns_virtCell (by omega), returns_bind, h.returns_curCell hj]
  refine returns_onlyIf (fun _ => ?_) fun hkeep => ?_
  · rw [returns_bind]
    refine (h.returns_position hg y j).mono fun _ s₁ hpost => ?_
    obtain ⟨h₁, honly₁, hx₁, hy₁⟩ := hpost
    obtain ⟨l₁, hl₁, rfl⟩ := h₁.line
    refine (h₁.synced.returns_clearToEol hg hl₁ hj (.inl h₁.tidy) hx₁ hy₁).mono fun _ s₂ hpost => ?_
    obtain ⟨h₂, honly₂⟩ := hpost
    refine ⟨_, h₂, h₂.showsLine (hagree.mono fun x hx => ?_) hend ?_, honly₁.trans honly₂⟩
    · rw [cellAt_blankFrom h₁.fitted hj, if_pos hx]
    · rw [cellAt_blankFrom h₁.fitted hj, if_neg (by omega), if_neg (by omega)]
  · refine ⟨cells, h, h.showsLine hagree hend ?_, .refl y s⟩
    by_contra hne
    exact hkeep ⟨hend, hne⟩

/-- A line that is wanted blank is left alone if it is taken to be. -/
theorem Synced.returns_dropRest_blank {l : Line} (hl : s.curscr[y]? = some l) (hpos : 0 < l.cells.length)
    (hzero : (cellAt l.cells 0).char = 0) (hw : Wants y new s) (hvpos : 0 < new.length)
    (post : Unit → Display → Prop) : Returns (dropRest g y 0) post s ↔ post () s := by
  rw [dropRest, returns_bind, hw.returns_virtCell hvpos, returns_bind, returns_curCell hl hpos, onlyIf,
    if_neg fun hdrop => hdrop.2 hzero]
  exact returns_pure _ _ _

theorem Synced.returns_lineRounds (h : Synced g k t₀ false s) (hg : Describes g k) (hchinese : g.chinese = false)
    {l : Line} (hl : s.curscr[y]? = some l) (hw : Wants y new s) (hnew : Printable g new) :
    Returns (lineRounds g y) (fun j s' => Reached g k t₀ y new s j s' ∨
      j = 0 ∧ s' = s ∧ (cellAt new 0).char = 0 ∧ (cellAt l.cells 0).char = 0) s := by
  have hok := h.ok l (List.mem_of_getElem? hl)
  have hlen := hok.fitted.length
  have hvlen := hnew.length
  have hstart : AgreesTo g y new l.cells 0 := fun x hx => absurd hx (Nat.not_lt_zero x)
  rw [lineRounds, returns_bind, returns_curCell hl (by omega)]
  refine returns_ite (fun hedit => ?_) fun _ => ?_
  · obtain ⟨hcan, hdc, hfirst, -⟩ := hedit
    have hrow : AtRow g k t₀ false y l.cells s := ⟨h, ⟨l, hl, rfl⟩, hok.tidy.resolve_right hfirst⟩
    exact (hrow.returns_editLoop hg hdc hcan hw hnew hstart (Nat.zero_le _) (by omega) true).mono
      fun _ _ hreached => .inl hreached
  · by_cases hne : (cellAt new 0).char = 0
    · rw [hw.returns_rewriteLoop_end (by omega) hne]
      refine hok.tidy.imp (fun htidy => ?_) fun hzero => ⟨rfl, rfl, hne, hzero⟩
      exact ⟨⟨l.cells, ⟨h, ⟨l, hl, rfl⟩, htidy⟩, hstart⟩, hne, Nat.zero_le _, .refl y s⟩
    · exact (h.returns_rewriteLoop hg hchinese hl hw hnew hne).mono fun _ _ hreached => .inl hreached

/-- What the update of a line reaches. -/
structure Updated (g : Setup) (k : TerminalKind) (t₀ : Terminal) (y : ℕ) (new : List Cell) (s s' : Display) : Prop where
  synced : Synced g k t₀ false s'
  shows : ShowsLine g y new s'
  only : OnlyLine y s s'
  plain : s'.stand = false

theorem Synced.returns_updateLine (h : Synced g k t₀ false s) (hg : Describes g k) (hchinese : g.chinese = false)
    (hy : y < g.lines) (hw : Wants y new s) (hnew : Printable g new) :
    Returns (updateLine g y) (fun _ s' => Updated g k t₀ y new s s') s := by
  have hvlen := hnew.length
  have hrows := h.rows
  have hl : s.curscr[y]? = some (s.curscr.get ⟨y, by omega⟩) := List.getElem?_eq_getElem _
  have hlen := (h.ok _ (List.mem_of_getElem? hl)).fitted.length
  rw [updateLine, returns_bind]
  refine (h.returns_lineRounds hg hchinese hl hw hnew).mono fun j s₁ hpost => ?_
  rw [returns_bind]
  rcases hpost with hreached | ⟨rfl, rfl, hnone, hzero⟩
  · obtain ⟨cells₁, h₁, hagree₁⟩ := hreached.row
    refine (h₁.returns_dropRest hg (hreached.only.wants hw) hnew hagree₁ hreached.ended hreached.inside).mono
      fun _ s₂ hpost => ?_
    obtain ⟨cells₂, h₂, hshows, honly₂⟩ := hpost
    refine (h₂.synced.sent.returns_endStand hg y j).mono fun _ s₃ hpost => ?_
    obtain ⟨⟨out, x, z, rfl, -⟩, hsent⟩ := hpost
    have honly := hreached.only.trans honly₂
    exact ⟨⟨h₂.synced.rows, h₂.synced.ok, hsent⟩, hshows, ⟨honly.length, honly.others, honly.rest⟩, rfl⟩
  · rw [Synced.returns_dropRest_blank hl (by omega) hzero hw (by omega)]
    refine (h.sent.returns_endStand hg y (0 : ℕ)).mono fun _ s₂ hpost => ?_
    obtain ⟨⟨out, x, z, rfl, -⟩, hsent⟩ := hpost
    refine ⟨⟨h.rows, h.ok, hsent⟩, fun x _ _ => ?_, ⟨rfl, fun _ _ => rfl, rfl⟩, rfl⟩
    rw [picture_row hl, shown_of_end (Nat.zero_le x) hzero, shown_of_end (Nat.zero_le x) hnone]

/-! ### All lines -/

theorem OnlyLine.showsLine (h : OnlyLine y s s') {y' : ℕ} (hne : y' ≠ y) (hshows : ShowsLine g y' new s) :
    ShowsLine g y' new s' := by
  intro x hx hcorner
  rw [← hshows x hx hcorner, picture, picture, h.others y' hne]

/-- What the virtual screen has. -/
structure WantsAll (g : Setup) (new : ℕ → List Cell) (s : Display) : Prop where
  wants : ∀ y < g.lines, Wants y (new y) s
  printable : ∀ y < g.lines, Printable g (new y)

theorem WantsAll.congr {new : ℕ → List Cell} (h : WantsAll g new s) (hrest : s'.rest.virtualScr = s.rest.virtualScr) :
    WantsAll g new s' := ⟨fun y hy => (h.wants y hy).congr hrest, h.printable⟩

/-- Each line is brought up to date, and stays so while the ones below it are. -/
theorem Synced.returns_updateLines {new : ℕ → List Cell} (h : Synced g k t₀ false s) (hg : Describes g k)
    (hchinese : g.chinese = false) (hw : WantsAll g new s) {n : ℕ} (hn : y + n = g.lines)
    (hdone : ∀ y' < y, ShowsLine g y' (new y') s) :
    Returns (updateLines g n y) (fun _ s' => Synced g k t₀ false s' ∧ (∀ y' < g.lines, ShowsLine g y' (new y') s') ∧
      s'.rest = s.rest) s := by
  induction n generalizing y s with
  | zero =>
    refine (returns_pure _ _ _).mpr ⟨h, fun y' hy' => hdone y' (by omega), rfl⟩
  | succ n ih =>
    rw [updateLines, returns_bind]
    refine (h.returns_updateLine hg hchinese (by omega) (hw.wants y (by omega)) (hw.printable y (by omega))).mono
      fun _ s₁ hpost => ?_
    have hdone₁ : ∀ y' < y + 1, ShowsLine g y' (new y') s₁ := by
      intro y' hy'
      rcases Nat.lt_succ_iff_lt_or_eq.mp hy' with hlt | rfl
      · exact hpost.only.showsLine (by omega) (hdone y' hlt)
      · exact hpost.shows
    refine (ih hpost.synced (hw.congr (congrArg Display.virtualScr hpost.only.rest)) (by omega) hdone₁).mono fun _ s₂ hpost₂ => ?_
    exact ⟨hpost₂.1, hpost₂.2.1, hpost₂.2.2.trans hpost.only.rest⟩

/-- Whatever lines there were, the terminal shows the virtual screen afterwards, but for the place that
is never written, and `curscr` agrees with it again. -/
theorem update_shows_virtual_screen (new : ℕ → List Cell) (hg : Describes g k) (hchinese : g.chinese = false)
    (h : Synced g k t₀ false s) (hw : WantsAll g new s) :
    ∃ s' t, updateLines g g.lines 0 s = .ok ((), s') ∧ t₀.run k s'.out = some t ∧ Synced g k t₀ false s' ∧
      ∀ y < g.lines, ∀ x < g.cols, ¬ g.Corner y x → t.glyph y x = shown g.highlights (new y) x := by
  obtain ⟨_, s', hrun, hsynced, hshows, -⟩ := h.returns_updateLines hg hchinese hw (Nat.zero_add _)
    fun y' hy' => absurd hy' (Nat.not_lt_zero y')
  obtain ⟨t, ht, hshow⟩ := hsynced.sent
  refine ⟨s', t, hrun, ht, hsynced, fun y hy x hx hcorner => ?_⟩
  rw [hshow.glyph y hy x hx, hshows y hy x hx hcorner]

/-- A terminal with one line that can only move its cursor. -/
def dumbSetup : Setup where
  lines := 1
  cols := 2
  cl := false
  ce := false
  cs := false
  al := false
  dl := false
  sr := false
  ic := false
  im := false
  ei := false
  dc := false
  sa := false
  so := false
  me := false
  se := false
  ms := false
  xs := false
  chinese := false

/-- A letter is to be shown on the blank screen. -/
def letterDisplay : Display where
  curscr := [⟨[⟨0, 0⟩, ⟨0, 0⟩, ⟨0, 0⟩], 0, false⟩]
  virtualScr := [⟨[⟨97, 0⟩, ⟨0, 0⟩, ⟨0, 0⟩], 1, true⟩]
  lx := 0
  ly := 0
  scrollUp := 0
  scrollDown := 0
  currX := -1
  currY := -1
  stand := false
  repaintScreen := false
  virtualLines := [false]
  out := []

/-- The cursor is anywhere. -/
def blankTerminal : Terminal where
  glyph := fun _ _ => .blank
  cursor := none
  standout := false
  inserting := false
  top := 0
  bottom := 0

theorem letter_is_shown : ∃ s' t, updateLines dumbSetup 1 0 letterDisplay = .ok ((), s') ∧
    blankTerminal.run ⟨1, 2, false, false⟩ s'.out = some t ∧ t.glyph 0 0 = ⟨97, false⟩ := by
  have hdescribes : Describes dumbSetup ⟨1, 2, false, false⟩ :=
    ⟨rfl, rfl, by decide, by decide, rfl, .inr rfl, by decide⟩
  have hgraphic : ∀ c : UInt8, c = 0 ∨ Graphic c → ∀ x,
      (cellAt [⟨c, 0⟩, ⟨0, 0⟩, ⟨0, 0⟩] x).char = 0 ∨ Graphic (cellAt [⟨c, 0⟩, ⟨0, 0⟩, ⟨0, 0⟩] x).char := by
    intro c hc x
    rcases x with _ | _ | _ | x
    · exact hc
    · exact .inl rfl
    · exact .inl rfl
    · exact .inl rfl
  have hsynced : Synced dumbSetup ⟨1, 2, false, false⟩ blankTerminal false letterDisplay := by
    refine ⟨rfl, fun l hl => ?_, blankTerminal, rfl, fun y hy x hx => ?_, fun hcol => ?_, rfl, rfl, rfl, rfl⟩
    · obtain rfl := List.mem_singleton.mp hl
      exact ⟨⟨rfl, rfl, hgraphic 0 (.inl rfl)⟩, .inr rfl⟩
    · obtain rfl : y = 0 := Nat.lt_one_iff.mp hy
      exact (shown_of_end (Nat.zero_le x) rfl).symm
    · exact absurd hcol (by decide)
  have hwants : WantsAll dumbSetup (fun _ => [⟨97, 0⟩, ⟨0, 0⟩, ⟨0, 0⟩]) letterDisplay := by
    refine ⟨fun y hy => ?_, fun _ _ => ⟨rfl, rfl, hgraphic 97 (.inr (by decide))⟩⟩
    obtain rfl : y = 0 := Nat.lt_one_iff.mp hy
    exact ⟨_, rfl, rfl⟩
  obtain ⟨s', t, hrun, ht, -, hshows⟩ := update_shows_virtual_screen _ hdescribes rfl hsynced hwants
  exact ⟨s', t, hrun, ht, hshows 0 (by decide) 0 (by decide) (by decide)⟩

end BsdAdditions.Curse.Screen
