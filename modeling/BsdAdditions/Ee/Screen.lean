import BsdAdditions.Common.Returns
import BsdAdditions.Ee.MoveSound

/-! The screen functions return: following the cursor takes at most one change of the horizontal
offset, provided that the window has room for a tab stop. -/
namespace BsdAdditions.Ee
open Common Common.Prog

variable {s : Editor} {n : Node} {p : Ptr}

theorem returns_node {i : ℕ} {post : Node → Editor → Prop} (hn : s.heap i = some n) :
    Returns (node i) post s ↔ post n s := by
  simp [node, hn]

theorem returns_curr {post : Node → Editor → Prop} (hn : s.heap s.currLine = some n) :
    Returns curr post s ↔ post n s := by
  rw [curr, returns_bind, returns_get, returns_node hn]

theorem returns_deref {post : UInt8 → Editor → Prop} (hn : s.heap s.currLine = some n)
    (hb : p.block = n.line) (hp : p.off < n.bytes.length) :
    Returns (deref p) post s ↔ post n.bytes[p.off] s := by
  simp [deref, returns_curr hn, Node.read, hb, hp]

theorem tabshift_pos (k : ℤ) : 0 < tabshift k := by
  have hlt := Int.tmod_lt_of_pos (k + 1) (show (0 : ℤ) < 8 by decide)
  unfold tabshift
  dsimp only
  split <;> omega

theorem scanByte_nonneg (eightbit : Bool) {k : ℤ} (hk : 0 ≤ k) (b : UInt8) :
    0 ≤ scanByte eightbit k b := by
  have htab := tabshift_pos k
  unfold scanByte
  split_ifs <;> omega

theorem foldl_scanByte_nonneg (eightbit : Bool) (bs : List UInt8) {k : ℤ} (hk : 0 ≤ k) :
    0 ≤ bs.foldl (scanByte eightbit) k := by
  induction bs generalizing k with
  | nil => exact hk
  | cons b bs ih => exact ih (scanByte_nonneg eightbit hk b)

theorem Node.column_nonneg (n : Node) (eightbit : Bool) (k : ℕ) : 0 ≤ n.column eightbit k :=
  foldl_scanByte_nonneg eightbit _ (Int.le_refl 0)

/-- The window is wide enough for the offset, which moves in steps of eight columns. -/
structure Roomy (s : Editor) : Prop where
  wide : 8 ≤ s.cols
  last : s.lastCol = s.cols - 1

theorem Roomy.scroll {s' : Editor} (h : Roomy s) (hs : Scrolls s s') : Roomy s' := by
  obtain ⟨_, _, _, rfl⟩ := hs
  exact ⟨h.wide, h.last⟩

/-- A column that the window shows needs no second look. -/
theorem Scannable.returns_shown (h : Scannable s p n) (fuel : ℕ)
    (hright : n.column s.eightbit p.off - s.horizOffset ≤ s.lastCol)
    (hleft : s.horizOffset ≤ n.column s.eightbit p.off) :
    Returns (scanline (fuel + 1) p) (fun _ s' => Scrolls s s') s := by
  rw [scanline, returns_bind, returns_curr h.curr, returns_bind]
  refine returns_onlyIf (fun hbad => ?_) fun _ => ?_
  · have hoff := h.off
    rcases hbad with hbad | hbad
    · exact absurd h.block hbad
    · omega
  rw [returns_bind, returns_modify, returns_bind, returns_get, if_neg, if_neg, returns_pure]
  · exact ⟨_, _, _, rfl⟩
  · exact Int.not_lt.mpr hleft
  · exact Int.not_lt.mpr hright

theorem returns_midscreenWith {scan : Ptr → Ed Unit} {post : Unit → Editor → Prop}
    (h : Scannable s p n) (line : ℤ)
    (hscan : ∀ c : ℕ, Returns (scan p) post { s with scrVert := c, scrHorz := 0 }) :
    Returns (midscreenWith scan line p) post s := by
  obtain ⟨c, hc⟩ := h.up (min line s.lastLine).toNat
  rw [midscreenWith, returns_bind, returns_get, returns_bind, hc, returns_orFault_some, returns_bind,
    returns_set]
  exact hscan c

theorem Scannable.returns_scanline (h : Scannable s s.point n) (hw : Roomy s) {fuel : ℕ}
    (hfuel : 2 ≤ fuel) : Returns (scanline fuel s.point) (fun _ s' => Scrolls s s') s := by
  obtain ⟨fuel, rfl⟩ := Nat.exists_eq_add_of_le' hfuel
  obtain ⟨hwide, hlast⟩ := hw
  have hcol := n.column_nonneg s.eightbit s.point.off
  have hlt := Int.tmod_lt_of_pos (n.column s.eightbit s.point.off) (show (0 : ℤ) < 8 by decide)
  have hnonneg := Int.tmod_nonneg 8 hcol
  -- after a change of the offset the column is shown
  have hagain : ∀ offset : ℤ, n.column s.eightbit s.point.off - offset ≤ s.lastCol →
      offset ≤ n.column s.eightbit s.point.off →
      Returns (midscreenWith (scanline (fuel + 1)) s.scrVert s.point) (fun _ s' => Scrolls s s')
        { s with scrHorz := n.column s.eightbit s.point.off, horizOffset := offset } := by
    intro offset hr hl
    have h1 : Scannable { s with scrHorz := n.column s.eightbit s.point.off, horizOffset := offset }
        s.point n := h.scroll ⟨_, _, _, rfl⟩
    refine returns_midscreenWith h1 _ fun c => ?_
    have hs : Scrolls s { s with scrVert := (c : ℤ), scrHorz := 0, horizOffset := offset } :=
      ⟨_, _, _, rfl⟩
    exact ((h.scroll hs).returns_shown fuel hr hl).mono fun _ _ h' => hs.trans h'
  rw [scanline, returns_bind, returns_curr h.curr, returns_bind]
  refine returns_onlyIf (fun hbad => ?_) fun _ => ?_
  · have hoff := h.off
    rcases hbad with hbad | hbad
    · exact absurd h.block hbad
    · omega
  rw [returns_bind, returns_modify, returns_bind, returns_get]
  change Returns (if n.column s.eightbit s.point.off - s.horizOffset > s.lastCol then _
    else if n.column s.eightbit s.point.off < s.horizOffset then _ else _) _ _
  refine returns_ite (fun _ => ?_) fun _ => returns_ite (fun _ => ?_) fun _ => ?_
  · rw [returns_bind, returns_set]
    apply hagain
    · change n.column s.eightbit s.point.off - (n.column s.eightbit s.point.off -
        (n.column s.eightbit s.point.off).tmod 8 - (s.cols - 8)) ≤ s.lastCol
      omega
    · change n.column s.eightbit s.point.off - (n.column s.eightbit s.point.off).tmod 8 -
        (s.cols - 8) ≤ n.column s.eightbit s.point.off
      omega
  · rw [returns_bind, returns_set]
    apply hagain
    · change n.column s.eightbit s.point.off - max 0 (n.column s.eightbit s.point.off -
        (n.column s.eightbit s.point.off).tmod 8) ≤ s.lastCol
      omega
    · change max 0 (n.column s.eightbit s.point.off - (n.column s.eightbit s.point.off).tmod 8) ≤
        n.column s.eightbit s.point.off
      omega
  · rw [returns_pure]
    exact ⟨_, _, _, rfl⟩

/-- The column of the cursor is found. -/
theorem Scannable.returns_column (h : Scannable s s.point n) (hw : Roomy s) {fuel : ℕ}
    (hfuel : 2 ≤ fuel) : Returns (scanline fuel s.point)
      (fun _ s' => Scrolls s s' ∧ s'.scrHorz = n.column s.eightbit s.point.off) s :=
  ((h.returns_scanline hw hfuel).and_wp (scanline_scrolls fuel h)).mono fun _ _ h' => h'.2

theorem Scannable.returns_midscreen_column (h : Scannable s s.point n) (hw : Roomy s) {fuel : ℕ}
    (hfuel : 2 ≤ fuel) (line : ℤ) : Returns (midscreen fuel line s.point)
      (fun _ s' => Scrolls s s' ∧ s'.scrHorz = n.column s.eightbit s.point.off) s := by
  refine returns_midscreenWith h line fun c => ?_
  have hs : Scrolls s { s with scrVert := (c : ℤ), scrHorz := 0 } := ⟨_, _, _, rfl⟩
  have h1 := h.scroll hs
  exact (h1.returns_column (hw.scroll hs) hfuel).mono fun _ _ ⟨h', hcol⟩ => ⟨hs.trans h', hcol⟩

theorem Scannable.returns_midscreen (h : Scannable s s.point n) (hw : Roomy s) {fuel : ℕ}
    (hfuel : 2 ≤ fuel) (line : ℤ) :
    Returns (midscreen fuel line s.point) (fun _ s' => Scrolls s s') s :=
  (h.returns_midscreen_column hw hfuel line).mono fun _ _ h' => h'.1

theorem Scannable.returns_resetOffset (h : Scannable s s.point n) (hw : Roomy s) {fuel : ℕ}
    (hfuel : 2 ≤ fuel) : Returns (resetOffset fuel) (fun _ s' => Scrolls s s') s := by
  rw [resetOffset, returns_bind, returns_get]
  refine returns_onlyIf (fun _ => ?_) fun _ => Scrolls.refl s
  rw [returns_bind, returns_set]
  have hs : Scrolls s { s with horizOffset := 0 } := ⟨_, _, _, rfl⟩
  have h1 := h.scroll hs
  exact (h1.returns_midscreen (hw.scroll hs) hfuel _).mono fun _ _ h' => hs.trans h'

end BsdAdditions.Ee
