import BsdAdditions.Ee.Invariant

/-! Cursor movement keeps the state consistent and changes nothing but the cursor. -/
namespace BsdAdditions.Ee
open Common Common.Prog

variable {t : Prop}

/-! ### Looking at the current line -/

@[simp] theorem wp_node {i : ℕ} {post : Node → Editor → Prop} {s : Editor} {n : Node}
    (hn : s.heap i = some n) : wp (node i) post s ↔ post n s := by
  simp [node, hn]

theorem wp_curr {post : Node → Editor → Prop} {s : Editor} {n : Node}
    (hn : s.heap s.currLine = some n) : wp curr post s ↔ post n s := by
  simp [curr, hn]

theorem wp_deref {post : UInt8 → Editor → Prop} {s : Editor} {n : Node} {p : Ptr}
    (hn : s.heap s.currLine = some n) (hb : p.block = n.line) (hp : p.off < n.bytes.length) :
    wp (deref p) post s ↔ post n.bytes[p.off] s := by
  simp [deref, wp_curr hn, Node.read, hb, hp]

/-! ### The screen -/

/-- A place in the current line's block, from which the lines above can be counted. -/
structure Scannable (s : Editor) (pos : Ptr) (n : Node) : Prop where
  curr : s.heap s.currLine = some n
  block : pos.block = n.line
  off : pos.off ≤ n.bytes.length
  up : ∀ k, ∃ c, countUp s.heap k s.currLine = some c

theorem Scannable.scroll {s s' : Editor} {pos : Ptr} {n : Node} (h : Scannable s pos n)
    (hs : Scrolls s s') : Scannable s' pos n := by
  obtain ⟨_, _, _, rfl⟩ := hs
  exact ⟨h.curr, h.block, h.off, h.up⟩

theorem midscreenWith_scrolls {scan : Ptr → Ed Unit} {s : Editor} {pnt : Ptr} {n : Node}
    {q : Editor → Prop} (h : Scannable s pnt n)
    (hscan : ∀ s', Scrolls s s' → wp (scan pnt) (fun _ s'' => Scrolls s' s'' ∧ q s'') s')
    (line : ℤ) : wp (midscreenWith scan line pnt) (fun _ s' => Scrolls s s' ∧ q s') s := by
  obtain ⟨c, hc⟩ := h.up (min line s.lastLine).toNat
  simp only [midscreenWith, wp_bind, wp_get, hc, wp_orFault_some, wp_set]
  have hs : Scrolls s { s with scrVert := c, scrHorz := 0 } := ⟨_, _, _, rfl⟩
  exact wp_mono (hscan _ hs) fun _ _ h' => ⟨hs.trans h'.1, h'.2⟩

/-- The column behind the first `k` bytes of the line. -/
def Node.column (n : Node) (eightbit : Bool) (k : ℕ) : ℤ :=
  (n.bytes.take k).foldl (scanByte eightbit) 0

/-- Scrolling aside, `scanline` finds the column of the cursor. -/
theorem scanline_scrolls (fuel : ℕ) {s : Editor} {n : Node} (h : Scannable s s.point n) :
    wp (scanline fuel s.point)
      (fun _ s' => Scrolls s s' ∧ s'.scrHorz = n.column s.eightbit s.point.off) s := by
  induction fuel generalizing s with
  | zero => trivial
  | succ fuel ih =>
    simp only [scanline, wp_bind, wp_curr h.curr]
    refine wp_onlyIf (fun hbad => ?_) fun _ => ?_
    · have := h.off
      rcases hbad with hbad | hbad
      · exact absurd h.block hbad
      · omega
    have hagain : ∀ s' line, Scrolls s s' → wp (midscreenWith (scanline fuel) line s'.point)
        (fun _ s'' => Scrolls s s'' ∧ s''.scrHorz = n.column s.eightbit s.point.off) s' := by
      intro s' line hs
      have h' := h.scroll hs
      rw [hs.point]
      refine wp_mono (midscreenWith_scrolls
        (q := fun s'' => s''.scrHorz = n.column s.eightbit s.point.off) h' (fun s'' hs' => ?_) _)
        fun _ _ h'' => ⟨hs.trans h''.1, h''.2⟩
      have hss := hs.trans hs'
      have hcol := ih (s := s'') (hss.point ▸ h'.scroll hs')
      rwa [hss.point, hss.eightbit] at hcol
    simp only [wp_modify, wp_get]
    refine wp_ite (fun _ => ?_) fun _ => wp_ite (fun _ => ?_) fun _ => ?_
    · simp only [wp_bind, wp_set]
      exact hagain _ _ ⟨_, _, _, rfl⟩
    · simp only [wp_bind, wp_set]
      exact hagain _ _ ⟨_, _, _, rfl⟩
    · exact ⟨⟨_, _, _, rfl⟩, rfl⟩

section Inv
variable {s : Editor} {ids : List ℕ} {n : Node} {post : Unit → Editor → Prop}

theorem Inv.scannable (h : Inv t s ids n) : Scannable s s.point n where
  curr := h.curr
  block := h.block
  off := Nat.le_of_lt h.off_lt
  up k := h.lines.countUp_isSome k h.mem

theorem Inv.wp_scanline (h : Inv t s ids n) (fuel : ℕ) {p : Ptr} (hp : s.point = p)
    (hpost : ∀ s', Scrolls s s' → s'.scrHorz = n.column s.eightbit p.off → post () s') :
    wp (scanline fuel p) post s := by
  subst hp
  exact wp_mono (scanline_scrolls fuel h.scannable) fun _ s' h' => hpost s' h'.1 h'.2

theorem Inv.wp_midscreen (h : Inv t s ids n) (fuel : ℕ) (line : ℤ) {p : Ptr} (hp : s.point = p)
    (hpost : ∀ s', Scrolls s s' → post () s') : wp (midscreen fuel line p) post s := by
  subst hp
  refine wp_mono (midscreenWith_scrolls (q := fun _ => True) h.scannable (fun s' hs => ?_) line)
    fun _ s' h' => hpost s' h'.1
  exact (h.scroll hs).wp_scanline fuel hs.point fun _ hs' _ => ⟨hs', trivial⟩

theorem Inv.wp_resetOffset (h : Inv t s ids n) (fuel : ℕ) (hpost : ∀ s', Scrolls s s' → post () s') :
    wp (resetOffset fuel) post s := by
  simp only [resetOffset, wp_bind, wp_get]
  refine wp_onlyIf (fun _ => ?_) fun _ => hpost s (.refl s)
  rw [wp_bind, wp_set]
  have hs : Scrolls s { s with horizOffset := 0 } := ⟨_, _, _, rfl⟩
  exact (h.scroll hs).wp_midscreen fuel _ rfl fun s' h' => hpost s' (hs.trans h')

end Inv

/-! ### Single steps -/

theorem wp_wideBefore {post : Bool → Editor → Prop} {s : Editor} (h : s.eeChinese = false) :
    wp wideBefore post s ↔ post false s := by
  simp [wideBefore, h]

theorem wp_wideAt {post : Bool → Editor → Prop} {s : Editor} (h : s.eeChinese = false) :
    wp wideAt post s ↔ post false s := by
  simp [wideAt, h]

theorem wp_retreat {post : Unit → Editor → Prop} {s : Editor} {k : ℕ} (hk : k ≤ s.point.off) :
    wp (retreat k) post s ↔
      post () { s with point := ⟨s.point.block, s.point.off - k⟩, position := s.position - k } := by
  simp [retreat, Ptr.sub?, hk]

theorem wp_nextline {post : Unit → Editor → Prop} {s : Editor} {n m : Node} {i : ℕ}
    (hn : s.heap s.currLine = some n) (hi : n.next = some i) (hm : s.heap i = some m) :
    wp nextline post s ↔ post () { s with
      currLine := i, absoluteLin := s.absoluteLin + 1, point := m.start, position := 1,
      scrVert := if s.scrVert = s.lastLine then s.scrVert else s.scrVert + 1 } := by
  simp [nextline, wp_curr hn, hi, wp_node hm]

theorem wp_prevline {post : Unit → Editor → Prop} {s : Editor} {n m : Node} {i : ℕ}
    (hn : s.heap s.currLine = some n) (hi : n.prev = some i) (hm : s.heap i = some m) :
    wp prevline post s ↔ post () { s with
      currLine := i, absoluteLin := s.absoluteLin - 1,
      point := m.start.add (m.lineLength - 1), position := 1 + (m.lineLength - 1),
      scrVert := if s.scrVert = 0 then s.scrVert else s.scrVert - 1 } := by
  simp [prevline, wp_curr hn, hi, wp_node hm]

/-- At the left edge, as far as both the line and the screen are concerned. -/
def AtStart (s : Editor) : Prop := s.position = 1 ∧ s.scrPos ≤ 0

section Inv
variable {s : Editor} {ids : List ℕ} {n : Node}

/-- The column found for a cursor at the start of a line is the left edge. -/
theorem Inv.wp_rescan (h : Inv t s ids n) (fuel : ℕ) {p : Ptr} (hp : s.point = p)
    {post : Unit → Editor → Prop}
    (hpost : ∀ s', Inv t s' ids n → Moves s s' → s'.currLine = s.currLine →
      s'.position = s.position → s'.tmpLine = s.tmpLine → (s'.position = 1 → AtStart s') →
      post () s') :
    wp (do scanline fuel p; syncScrPos) post s := by
  rw [wp_bind]
  refine h.wp_scanline fuel hp fun s' hs hcol => ?_
  obtain ⟨_, _, _, rfl⟩ := hs
  refine hpost _ (h.stay rfl rfl rfl rfl) rfl rfl rfl rfl fun hpos => ⟨hpos, ?_⟩
  have hoff : p.off = 0 := by
    rw [← hp, h.point]
    exact Nat.sub_eq_zero_of_le (Nat.le_of_eq hpos)
  rw [hoff] at hcol
  exact Int.le_of_eq hcol

/-- From the start of a line `left` goes to the end of the line before. Without the display it
leaves `point` one byte too far. -/
theorem Inv.wp_left_start (h : Inv t s ids n) (fuel : ℕ) (disp : Bool) (hstart : s.point = n.start)
    {p : ℕ} {m : Node} (hp : n.prev = some p) (hm : s.heap p = some m)
    {post : Unit → Editor → Prop}
    (hpost : ∀ s', Moves s s' → s'.currLine = p → s'.position = m.lineLength →
      s'.tmpLine = s.tmpLine → (disp = true → Inv t s' ids m ∧ (s'.position = 1 → AtStart s')) →
      post () s') :
    wp (left fuel disp) post s := by
  have hmem := h.lines.prev_mem h.mem h.curr hp
  have hok := h.lines.ok p hmem m hm
  have hend : 1 + (m.lineLength - 1) = m.lineLength := by
    have := hok.pos
    omega
  rw [left, wp_bind, wp_get, wp_bind, wp_curr h.curr, if_neg (not_not_intro hstart), hp]
  refine wp_ite (fun hdisp => ?_) fun hdisp => ?_
  · rw [wp_bind, wp_node hm, wp_set]
    exact hpost _ rfl rfl rfl rfl fun h' => absurd (hdisp.symm.trans h') Bool.false_ne_true
  · rw [wp_bind, wp_prevline h.curr hp hm, wp_bind, wp_get]
    have h1 : Inv t { s with
        currLine := p, absoluteLin := s.absoluteLin - 1, point := m.start.add (m.lineLength - 1),
        position := 1 + (m.lineLength - 1),
        scrVert := if s.scrVert = 0 then s.scrVert else s.scrVert - 1 } ids m := by
      refine h.move rfl hmem hm (Nat.le_add_right 1 _) (Nat.le_of_eq hend) ?_
      simp [Node.start, Ptr.add]
    refine h1.wp_rescan fuel rfl fun s' h' hs' hc hpos htmp hat => ?_
    exact hpost s' hs' hc (hpos.trans hend) htmp fun _ => ⟨h', hat⟩

/-- A step left that ends at the start of a line has found column 0 there. -/
theorem left_spec (fuel : ℕ) (h : Inv t s ids n) :
    wp (left fuel true) (fun _ s' => Consistent t s' ∧ Moves s s' ∧
      (s' = s ∨ (s'.position = 1 → AtStart s'))) s := by
  have hpos := h.pos
  have hle := h.le
  by_cases hne : s.point = n.start
  · cases hp : n.prev with
    | none =>
      rw [left, wp_bind, wp_get, wp_bind, wp_curr h.curr, if_neg (not_not_intro hne), hp]
      exact ⟨⟨ids, n, h⟩, rfl, .inl rfl⟩
    | some p =>
      obtain ⟨m, hm, -⟩ := h.lines.exists_node (h.lines.prev_mem h.mem h.curr hp)
      refine h.wp_left_start fuel true hne hp hm fun s' hs' _ _ _ hinv => ?_
      exact ⟨⟨ids, m, (hinv rfl).1⟩, hs', .inr (hinv rfl).2⟩
  · have hoff : s.point.off = s.position - 1 := by rw [h.point]
    have hne' : s.position ≠ 1 := mt h.point_eq_start_iff.mpr hne
    rw [left, wp_bind, wp_get, wp_bind, wp_curr h.curr, if_pos hne, wp_bind,
      wp_wideBefore h.narrow, wp_bind, onlyIf, if_neg Bool.false_ne_true, wp_pure, wp_bind,
      wp_retreat (by omega), wp_bind, wp_get]
    have h1 : Inv t { s with point := ⟨s.point.block, s.point.off - 1⟩,
                             position := s.position - 1 } ids n := by
      refine h.move rfl h.mem h.curr ?_ ?_ ?_
      · show 1 ≤ s.position - 1
        omega
      · show s.position - 1 ≤ n.lineLength
        omega
      · rw [h.point]
    refine h1.wp_rescan fuel rfl fun s' h' hs' _ _ _ hat => ?_
    exact ⟨⟨ids, n, h'⟩, hs', .inr hat⟩

theorem keeps_left (fuel : ℕ) : Keeps (Consistent t) Moves (left fuel true) := by
  rintro s ⟨ids, n, h⟩
  exact wp_mono (left_spec fuel h) fun _ _ h' => ⟨h'.1, h'.2.1⟩

theorem Inv.advance (h : Inv t s ids n) (hlt : s.position < n.lineLength) :
    Inv t { s with point := s.point.add 1, position := s.position + 1 } ids n := by
  have hpos := h.pos
  refine h.move rfl h.mem h.curr (Nat.le_add_left 1 _) hlt ?_
  rw [h.point, Ptr.add, Ptr.mk.injEq]
  exact ⟨rfl, show s.position - 1 + 1 = s.position + 1 - 1 by omega⟩

/-- A step right from the end of a line goes to the start of the next, if there is one. -/
theorem right_spec (fuel : ℕ) (h : Inv t s ids n) :
    wp (right fuel true) (fun _ s' => Consistent t s' ∧ Moves s s' ∧
      (n.lineLength ≤ s.position → n.next = none ∧ s' = s ∨ AtStart s')) s := by
  simp only [right, wp_bind, wp_get, wp_curr h.curr]
  refine wp_ite (fun hlt => ?_) fun hge => ?_
  · simp only [wp_bind, wp_wideAt h.narrow, onlyIf, Bool.false_eq_true, if_false, wp_pure,
      Ee.advance, wp_modify, wp_get]
    have h1 := h.advance hlt
    refine h1.wp_scanline fuel rfl fun s' hs _ => ?_
    obtain ⟨_, _, _, rfl⟩ := hs
    exact ⟨⟨ids, n, h1.stay rfl rfl rfl rfl⟩, rfl, fun hge => absurd hlt (by omega)⟩
  · cases hi : n.next with
    | none => exact ⟨⟨ids, n, h⟩, rfl, fun _ => .inl ⟨rfl, rfl⟩⟩
    | some i =>
      have hmem := h.lines.next_mem h.mem h.curr hi
      obtain ⟨m, hm, -⟩ := h.lines.exists_node hmem
      simp only [Bool.true_eq_false, if_false, wp_bind, wp_nextline h.curr hi hm, wp_modify]
      have h1 : Inv t { s with
          currLine := i, absoluteLin := s.absoluteLin + 1, point := m.start, position := 1,
          scrPos := 0, scrHorz := 0,
          scrVert := if s.scrVert = s.lastLine then s.scrVert else s.scrVert + 1 } ids m :=
        h.enter rfl hmem hm rfl rfl
      refine h1.wp_resetOffset fuel fun s' hs => ?_
      obtain ⟨_, _, _, rfl⟩ := hs
      exact ⟨⟨ids, m, h1.stay rfl rfl rfl rfl⟩, rfl, fun _ => .inr ⟨rfl, Int.le_refl 0⟩⟩

theorem keeps_right (fuel : ℕ) : Keeps (Consistent t) Moves (right fuel true) := by
  rintro s ⟨ids, n, h⟩
  exact wp_mono (right_spec fuel h) fun _ _ h' => ⟨h'.1, h'.2.1⟩

end Inv

/-! ### From line to line -/

/-- A movement that stays at the left edge when it starts there. -/
def Glides (s s' : Editor) : Prop :=
  Moves s s' ∧ s'.tmpLine = s.tmpLine ∧ (AtStart s → AtStart s')

instance : IsPreorder Editor Glides where
  refl _ := ⟨rfl, rfl, id⟩
  trans _ _ _ h h' := ⟨h.1.trans h'.1, h'.2.1.trans h.2.1, h'.2.2 ∘ h.2.2⟩

section FindPos
variable {s : Editor} {ids : List ℕ} {n : Node}

/-- The cursor has moved and nothing else, the column that `up` and `down` aim at included. -/
def Steers (s s' : Editor) : Prop := Moves s s' ∧ s'.tmpLine = s.tmpLine ∧ s'.scrPos = s.scrPos

theorem Steers.trans {s s' s'' : Editor} (h : Steers s s') (h' : Steers s' s'') : Steers s s'' :=
  ⟨h.1.trans h'.1, h'.2.1.trans h.2.1, h'.2.2.trans h.2.2⟩

theorem findStep_spec (h : Inv t s ids n) (hlt : s.position < n.lineLength) :
    wp findStep (fun _ s' => Inv t s' ids n ∧ Steers s s') s := by
  have hmove : ∀ c, Inv t
      { s with scrHorz := c, point := s.point.add 1, position := s.position + 1 } ids n :=
    fun c => (h.advance hlt).stay rfl rfl rfl rfl
  simp only [findStep, wp_bind, wp_get, wp_deref h.curr h.block h.off_lt]
  refine wp_ite (fun _ => ?_) fun _ => wp_ite (fun _ => ?_) fun _ => ?_
  · exact ⟨hmove _, rfl, rfl, rfl⟩
  · exact ⟨hmove _, rfl, rfl, rfl⟩
  · simp only [wp_bind, wp_wideAt h.narrow, Bool.false_eq_true, if_false]
    exact ⟨hmove _, rfl, rfl, rfl⟩

theorem findPos_spec (fuel : ℕ) (h : Inv t { s with position := 1 } ids n) :
    wp (findPos fuel) (fun _ s' => Inv t s' ids n ∧ Steers s s' ∧ (s.scrPos ≤ 0 → AtStart s')) s := by
  simp only [findPos, wp_bind, wp_modify]
  -- with the aim at the left edge the loop is not entered
  refine wp_mono (wp_repeatWhile (I := fun s1 => Inv t s1 ids n ∧ Steers s s1 ∧
      (s.scrPos ≤ 0 → s1.position = 1 ∧ s1.scrHorz = 0))
    (Q := fun s1 => Inv t s1 ids n ∧ Steers s s1 ∧ (s.scrPos ≤ 0 → s1.position = 1))
    (fun s1 hinv => ?_) fuel ?_) fun _ s1 hpost => ?_
  · obtain ⟨h1, hs1, hat⟩ := hinv
    have hscr : s1.scrPos = s.scrPos := hs1.2.2
    simp only [wp_bind, wp_get, wp_curr h1.curr, wp_pure, Bool.and_eq_true, decide_eq_true_eq]
    split
    · rename_i hgo
      refine wp_mono (findStep_spec h1 hgo.2) fun _ s2 h2 => ⟨h2.1, hs1.trans h2.2, fun hle => ?_⟩
      have := (hat hle).2
      omega
    · exact ⟨h1, hs1, fun hle => (hat hle).1⟩
  · exact ⟨h.stay rfl rfl rfl rfl, ⟨rfl, rfl, rfl⟩, fun _ => ⟨rfl, rfl⟩⟩
  · obtain ⟨h1, hs1, hat⟩ := hpost
    have hmid : ∀ offset line, wp (midscreen fuel line s1.point)
        (fun _ s' => Inv t s' ids n ∧ Steers s s' ∧ (s.scrPos ≤ 0 → AtStart s'))
        { s1 with horizOffset := offset } := by
      intro offset line
      refine (h1.scroll ⟨_, _, _, rfl⟩ : Inv t { s1 with horizOffset := offset } ids n).wp_midscreen
        fuel line rfl fun s' hs => ?_
      obtain ⟨_, _, _, rfl⟩ := hs
      exact ⟨h1.stay rfl rfl rfl rfl, hs1, fun hle => ⟨hat hle, (hs1.2.2 ▸ hle :)⟩⟩
    simp only [wp_get]
    refine wp_ite (fun _ => ?_) fun _ => wp_ite (fun _ => ?_) fun _ => ?_
    · rw [wp_bind, wp_set]
      exact hmid _ _
    · rw [wp_bind, wp_set]
      exact hmid _ _
    · exact ⟨h1, hs1, fun hle => ⟨hat hle, (hs1.2.2 ▸ hle :)⟩⟩

/-- The end of `up` and of `down`: the cursor is at the start of the line they enter. -/
theorem Inv.wp_enter (h : Inv t s ids n) (fuel : ℕ) {s1 : Editor} {m : Node} (hm : Moves s s1)
    (htmp : s1.tmpLine = s.tmpLine) (hscr : s1.scrPos = s.scrPos) (hmem : s1.currLine ∈ ids)
    (hcurr : s.heap s1.currLine = some m) (hpt : s1.point = m.start) :
    wp (findPos fuel) (fun _ s' => Consistent t s' ∧ Glides s s') s1 := by
  have h1 : Inv t { s1 with position := 1 } ids m := h.enter hm hmem hcurr rfl hpt
  refine wp_mono (findPos_spec fuel h1) fun _ s' ⟨h', hs', hat⟩ => ⟨⟨ids, m, h'⟩, ?_⟩
  refine ⟨hm.trans hs'.1, hs'.2.1.trans htmp, fun hstart => hat ?_⟩
  rw [hscr]
  exact hstart.2

theorem keeps_up (fuel : ℕ) : Keeps (Consistent t) Glides (up fuel) := by
  rintro s ⟨ids, n, h⟩
  simp only [up, wp_bind, wp_curr h.curr]
  refine wp_onlyIf (fun hne => ?_) fun _ => ⟨⟨ids, n, h⟩, refl s⟩
  obtain ⟨p, hp⟩ := Option.ne_none_iff_exists'.mp hne
  have hmem := h.lines.prev_mem h.mem h.curr hp
  obtain ⟨m, hm, -⟩ := h.lines.exists_node hmem
  simp only [wp_bind, wp_prevline h.curr hp hm, setPoint, wp_modify]
  refine (wp_curr hm).mpr ?_
  exact h.wp_enter fuel rfl rfl rfl hmem hm rfl

theorem keeps_down (fuel : ℕ) : Keeps (Consistent t) Glides (down fuel) := by
  rintro s ⟨ids, n, h⟩
  simp only [down, wp_bind, wp_curr h.curr]
  refine wp_onlyIf (fun hne => ?_) fun _ => ⟨⟨ids, n, h⟩, refl s⟩
  obtain ⟨i, hi⟩ := Option.ne_none_iff_exists'.mp hne
  have hmem := h.lines.next_mem h.mem h.curr hi
  obtain ⟨m, hm, -⟩ := h.lines.exists_node hmem
  simp only [wp_bind, wp_nextline h.curr hi hm]
  exact h.wp_enter fuel rfl rfl rfl hmem hm rfl

end FindPos

/-! ### Words and lines -/

section Looks
variable {R : Editor → Editor → Prop} [Std.Refl R]

/-- Looking at the current line changes nothing. -/
theorem keeps_curr : Keeps (Consistent t) R curr := by
  rintro s ⟨ids, n, h⟩
  exact (wp_curr h.curr).mpr ⟨⟨ids, n, h⟩, refl s⟩

theorem keeps_atPoint : Keeps (Consistent t) R atPoint := by
  rintro s ⟨ids, n, h⟩
  simp only [atPoint, wp_bind, wp_get, wp_deref h.curr h.block h.off_lt]
  exact ⟨⟨ids, n, h⟩, refl s⟩

theorem keeps_beforeEnd [IsTrans Editor R] : Keeps (Consistent t) R beforeEnd :=
  Keeps.get.bind fun _ => keeps_curr.bind fun _ => Keeps.pure _

theorem keeps_offStart [IsTrans Editor R] : Keeps (Consistent t) R offStart :=
  Keeps.get.bind fun _ => keeps_curr.bind fun _ => Keeps.pure _

theorem keeps_atBlank [IsTrans Editor R] : Keeps (Consistent t) R atBlank :=
  keeps_atPoint.bind fun _ => Keeps.pure _

theorem keeps_insideOn [IsTrans Editor R] (blank : Bool) :
    Keeps (Consistent t) R (insideOn blank) :=
  Keeps.get.bind fun _ => Keeps.ite (keeps_atBlank.bind fun _ => Keeps.pure _) (Keeps.pure _)

end Looks

theorem keeps_prevWord (fuel : ℕ) : Keeps (Consistent t) Moves (prevWord fuel) := by
  rintro s ⟨ids, n, h⟩
  have hpos := h.pos
  rw [prevWord, wp_bind, wp_get]
  refine wp_ite (fun hne => ?_) fun _ => keeps_left fuel s ⟨ids, n, h⟩
  have hoff : s.point.off = s.position - 1 := by rw [h.point]
  have hlt := h.off_lt
  rw [wp_bind, Ptr.sub?, if_pos (by omega), wp_orFault_some, wp_bind,
    wp_deref (p := ⟨s.point.block, s.point.off - 1⟩) h.curr h.block (by simp only; omega)]
  have hback : ∀ blank, Keeps (Consistent t) Moves
      (repeatWhile fuel (insideOn blank) (left fuel true)) :=
    fun blank => Keeps.repeatWhile (keeps_insideOn blank) (keeps_left fuel) fuel
  refine Keeps.after ((hback false).onlyIf s ⟨ids, n, h⟩) fun _ => ?_
  exact (hback true).bind fun _ => (hback false).bind fun _ =>
    (keeps_insideOn true).bind fun _ => (keeps_right fuel).onlyIf

theorem keeps_advWord (fuel : ℕ) : Keeps (Consistent t) Moves (advWord fuel) := by
  refine (Keeps.repeatWhile ?_ (keeps_right fuel) fuel).bind fun _ =>
    Keeps.repeatWhile ?_ (keeps_right fuel) fuel
  · exact keeps_beforeEnd.bind fun _ =>
      Keeps.ite (keeps_atBlank.bind fun _ => Keeps.pure _) (Keeps.pure _)
  · exact keeps_beforeEnd.bind fun _ => Keeps.ite keeps_atBlank (Keeps.pure _)

theorem keeps_toEnd (fuel : ℕ) :
    Keeps (Consistent t) Moves (repeatWhile fuel beforeEnd (right fuel true)) :=
  Keeps.repeatWhile keeps_beforeEnd (keeps_right fuel) fuel

theorem keeps_eol (fuel : ℕ) : Keeps (Consistent t) Moves (eol fuel) :=
  keeps_beforeEnd.bind fun _ => Keeps.ite (keeps_toEnd fuel)
    (keeps_curr.bind fun _ => Keeps.onlyIf ((keeps_right fuel).bind fun _ => keeps_toEnd fuel))

theorem keeps_scrPos_zero : Keeps (Consistent t) Moves (modify fun s => { s with scrPos := 0 }) := by
  rintro s ⟨ids, n, h⟩
  exact ⟨⟨ids, n, h.stay rfl rfl rfl rfl⟩, rfl⟩

theorem Glides.moves {s s' : Editor} (h : Glides s s') : Moves s s' := h.1

theorem keeps_bol (fuel : ℕ) : Keeps (Consistent t) Moves (bol fuel) :=
  keeps_offStart.bind fun _ => Keeps.ite
    (Keeps.repeatWhile keeps_offStart (keeps_left fuel) fuel)
    (keeps_curr.bind fun _ => Keeps.onlyIf
      (keeps_scrPos_zero.bind fun _ => (keeps_up fuel).weaken fun _ _ => Glides.moves))

/-- At the left edge, or in the last line, from where there is no way down. -/
def Settled (s : Editor) : Prop :=
  AtStart s ∨ ∃ n, s.heap s.currLine = some n ∧ n.next = none

theorem advLine_spec (fuel : ℕ) {s : Editor} {ids : List ℕ} {n : Node} (h : Inv t s ids n) :
    wp (advLine fuel) (fun _ s' => Consistent t s' ∧ Moves s s' ∧ Settled s') s := by
  simp only [advLine, offStart, wp_bind, wp_get, wp_curr h.curr, wp_pure, decide_eq_true_eq]
  refine wp_ite (fun _ => ?_) fun hstart => ?_
  · rw [wp_bind]
    refine wp_mono (wp_repeatWhile (I := fun s1 => Consistent t s1 ∧ Moves s s1)
      (Q := fun s1 => ∃ ids n, Inv t s1 ids n ∧ n.lineLength ≤ s1.position ∧ Moves s s1)
      (fun s1 hinv => ?_) fuel ⟨⟨ids, n, h⟩, rfl⟩) fun _ s1 hpost => ?_
    · obtain ⟨⟨ids, n, h1⟩, hs1⟩ := hinv
      simp only [beforeEnd, wp_bind, wp_get, wp_curr h1.curr, wp_pure, decide_eq_true_eq]
      split
      · exact wp_mono (right_spec fuel h1) fun _ s2 h2 => ⟨h2.1, hs1.trans h2.2.1⟩
      · exact ⟨ids, n, h1, by omega, hs1⟩
    · obtain ⟨ids, n, h1, hend, hs1⟩ := hpost
      refine wp_mono (right_spec fuel h1) fun _ s2 hpost => ?_
      obtain ⟨h2, hs2, hstop⟩ := hpost
      refine ⟨h2, hs1.trans hs2, ?_⟩
      rcases hstop hend with ⟨hlast, rfl⟩ | hat
      · exact .inr ⟨n, h1.curr, hlast⟩
      · exact .inl hat
  · have hat : AtStart s := by
      refine ⟨h.point_eq_start_iff.mp ?_, ?_⟩
      · exact Classical.not_not.mp fun hne => hstart (.inl hne)
      · exact Int.not_lt.mp fun hpos => hstart (.inr hpos)
    rw [wp_bind, wp_curr h.curr]
    refine wp_onlyIf (fun _ => ?_) fun hlast => ⟨⟨ids, n, h⟩, rfl, .inl hat⟩
    rw [wp_bind, wp_modify]
    refine wp_mono (keeps_down fuel _ ⟨ids, n, h.stay rfl rfl rfl rfl⟩) fun _ s' hpost => ?_
    obtain ⟨h', hs'⟩ := hpost
    exact ⟨h', hs'.1, .inl (hs'.2.2 ⟨hat.1, Int.le_refl 0⟩)⟩

theorem keeps_advLine (fuel : ℕ) : Keeps (Consistent t) Moves (advLine fuel) := by
  rintro s ⟨ids, n, h⟩
  exact wp_mono (advLine_spec fuel h) fun _ _ h' => ⟨h'.1, h'.2.1⟩

/-! ### Several lines at once -/

/-- `down` has nowhere to go from the last line. -/
theorem down_last (fuel : ℕ) {s : Editor} {n : Node} (hn : s.heap s.currLine = some n)
    (hlast : n.next = none) {post : Unit → Editor → Prop} (hpost : post () s) :
    wp (down fuel) post s := by
  rw [down, wp_bind, wp_curr hn]
  exact wp_onlyIf (fun hne => absurd hlast hne) fun _ => hpost

theorem keeps_peek {step : Ed Unit} (hstep : Keeps (Consistent t) Glides step)
    (there : Node → Option ℕ) (k : ℕ) : Keeps (Consistent t) Glides (peek there step k) := by
  induction k with
  | zero => exact Keeps.pure 0
  | succ k ih =>
    exact keeps_curr.bind fun _ =>
      Keeps.ite (hstep.bind fun _ => ih.bind fun _ => Keeps.pure _) (Keeps.pure _)

/-- A look at the lines around that has come back to the position. -/
def Looked (s s' : Editor) : Prop :=
  Moves s s' ∧ s'.tmpLine = s.currLine ∧ s'.position = s.position

theorem peek_atStart {step : Ed Unit} (hstep : Keeps (Consistent t) Glides step)
    (there : Node → Option ℕ) (k : ℕ) {s : Editor} (h : Consistent t s) (hat : AtStart s) :
    wp (peek there step k) (fun _ s' => Looked s s') { s with tmpLine := s.currLine } := by
  obtain ⟨ids, n, h⟩ := h
  have h1 : Inv t { s with tmpLine := s.currLine } ids n := h.stay rfl rfl rfl rfl
  refine wp_mono (keeps_peek hstep there k _ ⟨ids, n, h1⟩) fun i s2 ⟨_, hs2, htmp, hat2⟩ => ?_
  exact ⟨hs2, htmp, (hat2 hat).1.trans hat.1.symm⟩

theorem peek_last (there : Node → Option ℕ) (step : Ed Unit) (k : ℕ) {s : Editor} {n : Node}
    (hn : s.heap s.currLine = some n) (hlast : there n = none) :
    wp (peek there step k) (fun _ s' => Looked s s') { s with tmpLine := s.currLine } := by
  cases k with
  | zero => exact ⟨rfl, rfl, rfl⟩
  | succ k =>
    rw [peek, wp_bind]
    refine (wp_curr (s := { s with tmpLine := s.currLine }) hn).mpr ?_
    rw [if_neg (not_not_intro hlast)]
    exact ⟨rfl, rfl, rfl⟩

/-- Looking around and coming back by the saved copies of the line and of `point`. -/
theorem Inv.wp_lookAround {s : Editor} {ids : List ℕ} {n : Node} (h : Inv t s ids n) (fuel : ℕ)
    {there : Node → Option ℕ} {step : Ed Unit}
    (hlook : wp (peek there step 5) (fun _ s' => Looked s s') { s with tmpLine := s.currLine })
    (sign : ℤ) :
    wp (lookAround fuel there step sign) (fun _ s' => Consistent t s' ∧ Moves s s') s := by
  rw [lookAround, wp_bind, wp_get, wp_bind, wp_set, wp_bind]
  refine wp_mono hlook fun i s2 ⟨hs2, htmp, hpos⟩ => ?_
  rw [wp_bind, wp_modify]
  have hs3 : Moves s { s2 with scrVert := s2.scrVert + sign * i, currLine := s2.tmpLine,
                               absoluteLin := s2.absoluteLin + sign * i, point := s.point } := hs2
  have h3 := h.move hs3 (htmp ▸ h.mem) (htmp ▸ h.curr) (hpos ▸ h.pos) (hpos ▸ h.le)
    (hpos ▸ h.point)
  refine h3.wp_scanline fuel rfl fun s' hs' _ => ⟨⟨ids, n, h3.scroll hs'⟩, ?_⟩
  exact hs3.trans (Moves.of_scrolls hs')

/-- Back to the start of the line, where `scrPos` is 0. -/
theorem toStart_spec (fuel : ℕ) {s : Editor} (h : Consistent t s) (hscr : s.scrPos = 0) :
    wp (repeatWhile fuel (do return 1 < (← get).position) (left fuel true))
      (fun _ s' => Consistent t s' ∧ Moves s s' ∧ AtStart s') s := by
  refine wp_repeatWhile (I := fun s1 => Consistent t s1 ∧ Moves s s1 ∧
    (s1.position = 1 → AtStart s1)) (fun s1 hinv => ?_) fuel
    ⟨h, rfl, fun hp => ⟨hp, Int.le_of_eq hscr⟩⟩
  obtain ⟨⟨ids, n, h1⟩, hs1, hat⟩ := hinv
  simp only [wp_bind, wp_get, wp_pure, decide_eq_true_eq]
  split
  · refine wp_mono (left_spec fuel h1) fun _ s2 hpost => ?_
    obtain ⟨h2, hs2, hat2⟩ := hpost
    refine ⟨h2, hs1.trans hs2, ?_⟩
    rcases hat2 with rfl | hat2
    · exact hat
    · exact hat2
  · have := h1.pos
    exact ⟨⟨ids, n, h1⟩, hs1, hat (by omega)⟩

theorem keeps_moveRel_up (fuel lines : ℕ) :
    Keeps (Consistent t) Moves (moveRel fuel .up lines) := by
  rintro s ⟨ids, n, h⟩
  have h0 : Consistent t { s with scrPos := 0 } := ⟨ids, n, h.stay rfl rfl rfl rfl⟩
  simp only [moveRel, wp_bind _ _ _ s, wp_modify]
  rw [wp_bind]
  refine wp_mono (toStart_spec fuel h0 rfl) fun _ s1 hpost => ?_
  obtain ⟨h1, hs1, hat1⟩ := hpost
  rw [wp_bind]
  refine wp_mono ((keeps_up fuel).times lines s1 h1) fun _ s2 hpost => ?_
  obtain ⟨⟨ids, n, h2⟩, hs2⟩ := hpost
  rw [wp_bind, wp_get]
  have hs : Moves s s2 := IsTrans.trans (r := Moves) s s1 s2 hs1 hs2.1
  refine wp_onlyIf (fun _ => ?_) fun _ => ⟨⟨ids, n, h2⟩, hs⟩
  have hlook := peek_atStart (keeps_up fuel) Node.prev 5 ⟨ids, n, h2⟩ (hs2.2.2 hat1)
  refine wp_mono (h2.wp_lookAround fuel hlook 1) fun _ s3 hpost => ?_
  exact ⟨hpost.1, hs.trans hpost.2⟩

theorem toNextLine_spec (fuel : ℕ) {s : Editor} {ids : List ℕ} {n : Node} (h : Inv t s ids n) :
    wp (toNextLine fuel) (fun _ s' => Consistent t s' ∧ Moves s s' ∧ Settled s') s := by
  rw [toNextLine, wp_bind, wp_get, wp_bind, wp_curr h.curr]
  refine wp_ite (fun hgo => ?_) fun _ => advLine_spec fuel h
  obtain ⟨i, hi⟩ := Option.ne_none_iff_exists'.mp hgo.2
  have hmem := h.lines.next_mem h.mem h.curr hi
  obtain ⟨m, hm, -⟩ := h.lines.exists_node hmem
  simp only [wp_bind, wp_nextline h.curr hi hm, wp_modify]
  have h1 : Inv t { s with
      currLine := i, absoluteLin := s.absoluteLin + 1, point := m.start, position := 1,
      scrPos := 0, scrHorz := 0,
      scrVert := if s.scrVert = s.lastLine then s.scrVert else s.scrVert + 1 } ids m :=
    h.enter rfl hmem hm rfl rfl
  refine h1.wp_resetOffset fuel fun s' hs => ⟨⟨ids, m, h1.scroll hs⟩, ?_⟩
  obtain ⟨_, _, _, rfl⟩ := hs
  exact ⟨rfl, .inl ⟨rfl, Int.le_refl 0⟩⟩

theorem down_settled (fuel : ℕ) {s : Editor} (h : Consistent t s) (hset : Settled s) :
    wp (down fuel) (fun _ s' => Consistent t s' ∧ Moves s s' ∧ Settled s') s := by
  rcases hset with hat | ⟨n, hn, hlast⟩
  · exact wp_mono (keeps_down fuel s h) fun _ s' ⟨h', hs'⟩ => ⟨h', hs'.1, .inl (hs'.2.2 hat)⟩
  · exact down_last fuel hn hlast ⟨h, rfl, .inr ⟨n, hn, hlast⟩⟩

theorem keeps_moveRel_down (fuel lines : ℕ) :
    Keeps (Consistent t) Moves (moveRel fuel .down lines) := by
  rintro s ⟨ids, n, h⟩
  simp only [moveRel]
  rw [wp_bind]
  refine wp_mono (toNextLine_spec fuel h) fun _ s1 ⟨h1, hs1, hset1⟩ => ?_
  rw [wp_bind]
  refine wp_mono (wp_times (I := fun s2 => Consistent t s2 ∧ Moves s s2 ∧ Settled s2)
    (fun s2 ⟨h2, hs2, hset2⟩ => ?_) (lines - 1) s1 ⟨h1, hs1, hset1⟩)
    fun _ s2 ⟨⟨ids, n, h2⟩, hs2, hset2⟩ => ?_
  · exact wp_mono (down_settled fuel h2 hset2) fun _ s3 h3 => ⟨h3.1, hs2.trans h3.2.1, h3.2.2⟩
  · rw [wp_bind, wp_get]
    refine wp_onlyIf (fun _ => ?_) fun _ => ⟨⟨ids, n, h2⟩, hs2⟩
    have hlook : wp (peek Node.next (down fuel) 5) (fun _ s' => Looked s2 s')
        { s2 with tmpLine := s2.currLine } := by
      rcases hset2 with hat | ⟨m, hm, hlast⟩
      · exact peek_atStart (keeps_down fuel) Node.next 5 ⟨ids, n, h2⟩ hat
      · exact peek_last Node.next (down fuel) 5 hm hlast
    exact wp_mono (h2.wp_lookAround fuel hlook (-1)) fun _ s3 ⟨h3, hs3⟩ => ⟨h3, hs2.trans hs3⟩

theorem keeps_moveRel (fuel : ℕ) (direction : Direction) (lines : ℕ) :
    Keeps (Consistent t) Moves (moveRel fuel direction lines) :=
  match direction with
  | .up => keeps_moveRel_up fuel lines
  | .down => keeps_moveRel_down fuel lines

section Jumps
variable {s : Editor} {ids : List ℕ} {n m : Node}

/-- The list of lines is closed under a link. -/
def Closed (s : Editor) (ids : List ℕ) (there : Node → Option ℕ) : Prop :=
  ∀ i ∈ ids, ∀ n, s.heap i = some n → ∀ j, there n = some j → j ∈ ids

theorem Inv.closed_next (h : Inv t s ids n) : Closed s ids Node.next :=
  fun _ hi _ hn _ hj => h.lines.next_mem hi hn hj

theorem Inv.closed_prev (h : Inv t s ids n) : Closed s ids Node.prev :=
  fun _ hi _ hn _ hj => h.lines.prev_mem hi hn hj

theorem Inv.wp_walkTo (h : Inv t s ids n) {there : Node → Option ℕ} (hcl : Closed s ids there)
    (more : Node → Bool) (fuel : ℕ) {line : ℕ} (hline : line ∈ ids) (i : ℕ)
    {post : ℕ × ℕ → Editor → Prop} (hpost : ∀ r, r.1 ∈ ids → post r s) :
    wp (walkTo there more fuel line i) post s := by
  induction fuel generalizing line i with
  | zero => trivial
  | succ fuel ih =>
    obtain ⟨m, hm, -⟩ := h.lines.exists_node hline
    rw [walkTo, wp_bind, wp_node hm]
    cases hj : there m with
    | none => exact hpost _ hline
    | some j =>
      exact wp_ite (fun _ => ih (hcl line hline m hm j hj) (i + 1)) fun _ => hpost _ hline

/-- The end of a jump, at the start of a line of the list. -/
theorem Inv.wp_land (h : Inv t s ids n) (fuel : ℕ) (line : ℤ) {s1 : Editor} (hs : Moves s s1)
    (hmem : s1.currLine ∈ ids) (hm : s.heap s1.currLine = some m) (hpos : s1.position = 1)
    (hpt : s1.point = m.start) :
    wp (do midscreen fuel line m.start; syncScrPos)
      (fun _ s' => Consistent t s' ∧ Moves s s') s1 := by
  have h1 := h.enter hs hmem hm hpos hpt
  rw [wp_bind]
  refine h1.wp_midscreen fuel line hpt fun s' hs' => ?_
  obtain ⟨_, _, _, rfl⟩ := hs'
  exact ⟨⟨ids, m, h1.stay rfl rfl rfl rfl⟩, hs⟩

theorem Inv.wp_jumpTo (h : Inv t s ids n) (fuel i : ℕ) {line : ℕ} (hline : line ∈ ids)
    (direction : Option Direction) :
    wp (jumpTo fuel line i direction) (fun _ s' => Consistent t s' ∧ Moves s s') s := by
  obtain ⟨m, hm, -⟩ := h.lines.exists_node hline
  rw [jumpTo, wp_bind, wp_get, wp_bind, wp_node hm, wp_bind, wp_set]
  exact h.wp_land fuel _ rfl hline hm rfl rfl

theorem keeps_gotoLine (fuel : ℕ) (cmdStr : List UInt8) :
    Keeps (Consistent t) Moves (gotoLine fuel cmdStr) := by
  rintro s ⟨ids, n, h⟩
  rw [gotoLine, wp_bind, wp_get, wp_bind]
  refine h.wp_walkTo h.closed_prev _ fuel h.mem 0 fun ⟨line, ups⟩ hline => ?_
  rw [wp_bind]
  refine h.wp_walkTo h.closed_next _ fuel hline ups fun ⟨line', i⟩ hline' => ?_
  dsimp only
  split
  · exact wp_ite (fun _ => keeps_moveRel fuel _ i s ⟨ids, n, h⟩) fun _ => h.wp_jumpTo fuel i hline' _
  · exact h.wp_jumpTo fuel i hline' _

theorem keeps_bottom (fuel : ℕ) : Keeps (Consistent t) Moves (bottom fuel) := by
  rintro s ⟨ids, n, h⟩
  rw [bottom, wp_bind, wp_get, wp_bind]
  refine h.wp_walkTo h.closed_next _ fuel h.mem 0 fun ⟨line, i⟩ hline => ?_
  obtain ⟨m, hm, -⟩ := h.lines.exists_node hline
  rw [wp_bind, wp_node hm, wp_bind, wp_set]
  exact h.wp_land fuel _ rfl hline hm rfl rfl

theorem keeps_top (fuel : ℕ) : Keeps (Consistent t) Moves (top fuel) := by
  rintro s ⟨ids, n, h⟩
  rw [top, wp_bind, wp_get, wp_bind]
  refine h.wp_walkTo h.closed_prev _ fuel h.mem 0 fun ⟨line, i⟩ hline => ?_
  obtain ⟨m, hm, -⟩ := h.lines.exists_node hline
  rw [wp_bind, wp_node hm, wp_bind, wp_set]
  exact h.wp_land fuel _ rfl hline hm rfl rfl

end Jumps

/-! ### Searching -/

theorem searchLine_some {h : Host} {fold : UInt8 → UInt8} {n : Node} {str : List UInt8} {k : ℕ}
    {p : Ptr} {iter : ℕ} {r : Ptr × ℕ} (hr : searchLine h fold n str k p iter = some r) :
    ∃ d < k, r = (p.add d, iter + d) := by
  induction k generalizing p iter with
  | zero => cases hr
  | succ k ih =>
    rw [searchLine] at hr
    split at hr
    · cases hr
      exact ⟨0, Nat.succ_pos k, rfl⟩
    · obtain ⟨d, hd, rfl⟩ := ih hr
      refine ⟨d + 1, Nat.succ_lt_succ hd, ?_⟩
      simp only [Ptr.add, Prod.mk.injEq, Ptr.mk.injEq, true_and]
      omega

/-- A find is a cursor in a line of the list. -/
structure Found.Inside (f : Found) (s : Editor) (ids : List ℕ) (m : Node) : Prop where
  mem : f.line ∈ ids
  node : s.heap f.line = some m
  pos : 1 ≤ f.iter
  le : f.iter ≤ m.lineLength
  place : f.place = ⟨m.line, f.iter - 1⟩

section Search
variable {s : Editor} {ids : List ℕ} {n : Node}

theorem Inv.wp_searchFrom (h : Inv t s ids n) (fold : UInt8 → UInt8) (str : List UInt8) (fuel : ℕ)
    {line : ℕ} {m : Node} (hline : line ∈ ids) (hm : s.heap line = some m) {p : Ptr} {iter : ℕ}
    (hiter : 1 ≤ iter) (hp : iter < m.lineLength → p = ⟨m.line, iter - 1⟩) (moved : ℕ)
    {post : Option Found → Editor → Prop}
    (hpost : ∀ r, (∀ f ∈ r, ∃ m, f.Inside s ids m) → post r s) :
    wp (searchFrom fold str fuel line p iter moved) post s := by
  induction fuel generalizing line m p iter moved with
  | zero => trivial
  | succ fuel ih =>
    rw [searchFrom, wp_bind, wp_node hm, wp_bind, wp_get]
    cases hr : searchLine s.host fold m str (m.lineLength - iter) p iter with
    | some r =>
      obtain ⟨d, hd, rfl⟩ := searchLine_some hr
      refine hpost _ ?_
      rintro f ⟨⟩
      refine ⟨m, hline, hm, by simp only; omega, by simp only; omega, ?_⟩
      rw [hp (by omega)]
      simp only [Ptr.add, Ptr.mk.injEq, true_and]
      omega
    | none =>
      cases hj : m.next with
      | none => exact hpost none (by simp)
      | some j =>
        have hjmem := h.lines.next_mem hline hm hj
        obtain ⟨m', hm', -⟩ := h.lines.exists_node hjmem
        simp only [wp_bind, wp_node hm']
        exact ih hjmem hm' (Nat.le_refl 1) (fun _ => rfl) (moved + 1)

theorem keeps_goRight (fuel iter : ℕ) : Keeps (Consistent t) Moves (goRight fuel iter) :=
  Keeps.repeatWhile (Keeps.get.bind fun _ => Keeps.pure _) (keeps_right fuel) fuel

theorem Inv.wp_goToFound (h : Inv t s ids n) (fuel : ℕ) {f : Found} {m : Node}
    (hf : f.Inside s ids m) :
    wp (goToFound fuel f) (fun _ s' => Consistent t s' ∧ Moves s s') s := by
  refine wp_ite (fun _ => keeps_goRight fuel f.iter s ⟨ids, n, h⟩) fun _ =>
    wp_ite (fun _ => ?_) fun _ => ?_
  · exact ((keeps_moveRel fuel _ _).bind fun _ => keeps_goRight fuel f.iter) s ⟨ids, n, h⟩
  · rw [wp_bind, wp_get, wp_bind, wp_set, wp_bind]
    have h1 : Inv t { s with absoluteLin := s.absoluteLin + f.linesMoved, currLine := f.line,
                             point := f.place, position := f.iter } ids m :=
      h.move rfl hf.mem hf.node hf.pos hf.le hf.place
    refine h1.wp_scanline fuel rfl fun s2 hs2 _ => ?_
    rw [syncScrPos, wp_bind, wp_modify]
    have h2 : Inv t { s2 with scrPos := s2.scrHorz } ids m :=
      (h1.scroll hs2).stay rfl rfl rfl rfl
    refine h2.wp_midscreen fuel _ hs2.point fun s3 hs3 => ⟨⟨ids, m, h2.scroll hs3⟩, ?_⟩
    obtain ⟨_, _, _, rfl⟩ := hs2
    obtain ⟨_, _, _, rfl⟩ := hs3
    rfl

theorem keeps_search (fuel : ℕ) : Keeps (Consistent t) Moves (search fuel) := by
  rintro s ⟨ids, n, h⟩
  have hpos := h.pos
  have hfind : wp (findString fuel) (fun r s' => s' = s ∧ ∀ f ∈ r, ∃ m, f.Inside s ids m) s := by
    rw [findString, wp_bind, wp_get, wp_bind, wp_curr h.curr]
    refine wp_ite (fun _ => ⟨rfl, by simp⟩) fun _ => ?_
    refine h.wp_searchFrom _ _ fuel h.mem h.curr (Nat.le_add_left 1 _) (fun hlt => ?_) 0
      fun r hr => ⟨rfl, hr⟩
    rw [if_pos (by omega), h.point, Ptr.add, Ptr.mk.injEq]
    exact ⟨rfl, by simp only; omega⟩
  rw [search, wp_bind]
  refine wp_mono hfind fun r s1 hpost => ?_
  obtain ⟨rfl, hr⟩ := hpost
  cases r with
  | none => exact ⟨⟨ids, n, h⟩, rfl⟩
  | some f =>
    obtain ⟨m, hf⟩ := hr f rfl
    exact Keeps.after (h.wp_goToFound fuel hf) fun _ => Keeps.pure true

end Search

end BsdAdditions.Ee
