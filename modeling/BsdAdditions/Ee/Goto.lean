import BsdAdditions.Ee.LineCount
import BsdAdditions.Ee.Motion
import BsdAdditions.Ee.Wide

/-! Moving by several lines at once, and to a line by its number. -/
namespace BsdAdditions.Ee
open Common Common.Prog

variable {t : Prop} {s s' : Editor} {z : Zipper} {n : Node} {fuel i : ℕ} {bs as : List (List UInt8)}
  {a l r : List UInt8} {lines : List (List UInt8)}

/-! ### Looking around -/

/-- Looking at the lines ahead moves along the left edge. -/
theorem AtLine.returns_peek {there : Node → Option ℕ} {step : Ed Unit}
    (hstep : ∀ s i, AtLine t s lines i → Returns step (fun _ s' => ∃ j, AtLine t s' lines j ∧ Steers s s') s)
    (h : AtLine t s lines i) (k : ℕ) :
    Returns (peek there step k) (fun _ s' => ∃ j, AtLine t s' lines j ∧ Steers s s') s := by
  induction k generalizing s i with
  | zero => exact (returns_pure _ _ _).mpr ⟨i, h, rfl, rfl, rfl⟩
  | succ k ih =>
    obtain ⟨xs, ys, n, hv⟩ := h.place.views
    rw [peek, returns_bind, returns_curr hv.curr]
    refine returns_ite (fun _ => ?_) fun _ => (returns_pure _ _ _).mpr ⟨i, h, rfl, rfl, rfl⟩
    rw [returns_bind]
    refine (hstep s i h).mono fun _ s1 hpost => ?_
    obtain ⟨j, h1, hs1⟩ := hpost
    rw [returns_bind]
    refine (ih h1).mono fun _ s2 hpost => ?_
    obtain ⟨j', h2, hs2⟩ := hpost
    exact (returns_pure _ _ _).mpr ⟨j', h2, hs1.trans hs2⟩

/-- Looking around comes back to the line. -/
theorem AtLine.returns_lookAround {there : Node → Option ℕ} {step : Ed Unit}
    (hstep : ∀ s i, AtLine t s lines i → Returns step (fun _ s' => ∃ j, AtLine t s' lines j ∧ Steers s s') s)
    (h : AtLine t s lines i) (hfuel : 2 ≤ fuel) (sign : ℤ) :
    Returns (lookAround fuel there step sign) (fun _ s' => AtLine t s' lines i ∧ Moves s s') s := by
  have h1 : AtLine t { s with tmpLine := s.currLine } lines i :=
    ⟨h.lt, h.place.of_core rfl ⟨h.place.roomy.wide, h.place.roomy.last⟩, h.edge⟩
  rw [lookAround, returns_bind, returns_get, returns_bind, returns_set, returns_bind]
  refine (h1.returns_peek hstep 5).mono fun k s2 hpost => ?_
  obtain ⟨j, h2, hm2, htmp, hscr⟩ := hpost
  rw [returns_bind, returns_modify]
  have hpos : s2.position = s.position := h2.place.position_eq.trans h.place.position_eq.symm
  have hm3 : Moves s { s2 with
      scrVert := s2.scrVert + sign * k, currLine := s2.tmpLine,
      absoluteLin := s2.absoluteLin + sign * k, point := s.point } := hm2
  have hcore : Editor.core { s2 with
      scrVert := s2.scrVert + sign * k, currLine := s2.tmpLine,
      absoluteLin := s2.absoluteLin + sign * k, point := s.point } = s.core := by
    simp only [Editor.core, Prod.mk.injEq]
    exact ⟨hm2.heap, hm2.fresh, hm2.firstLine, htmp, trivial, hpos, hm2.eeChinese⟩
  have h3 := h.place.of_core hcore (h.place.roomy.moves hm3)
  obtain ⟨xs, ys, n, hv⟩ := h3.views
  refine (hv.scannable.returns_scanline hv.roomy hfuel).mono fun _ s4 hs4 => ?_
  have h4 := h3.of_core (Rests.of_scrolls hs4).core (h3.roomy.scroll hs4)
  have hscr4 : s4.scrPos = s.scrPos := by
    obtain ⟨_, _, _, rfl⟩ := hs4
    exact hscr
  exact ⟨⟨h.lt, h4, hscr4 ▸ h.edge⟩, hm3.trans (Moves.of_scrolls hs4)⟩

/-! ### Several lines -/

theorem AtLine.returns_times_down (h : AtLine t s lines i) (hfuel : 2 ≤ fuel) {k : ℕ}
    (hk : i + k < lines.length) :
    Returns (times (down fuel) k) (fun _ s' => AtLine t s' lines (i + k) ∧ Moves s s') s := by
  have hstep : ∀ j s1, j < k → AtLine t s1 lines (i + j) ∧ Moves s s1 →
      Returns (down fuel) (fun _ s2 => AtLine t s2 lines (i + (j + 1)) ∧ Moves s s2) s1 := by
    intro j s1 hj ⟨h1, hm1⟩
    refine (h1.returns_down hfuel).mono fun _ s2 ⟨h2, hs2⟩ => ?_
    rw [Nat.min_eq_left (by omega)] at h2
    exact ⟨h2, hm1.trans hs2.1⟩
  exact returns_times hstep (Nat.zero_add k) ⟨h, rfl⟩

theorem AtLine.returns_times_up (h : AtLine t s lines i) (hfuel : 2 ≤ fuel) (k : ℕ) :
    Returns (times (up fuel) k) (fun _ s' => AtLine t s' lines (i - k) ∧ Moves s s') s := by
  have hstep : ∀ j s1, j < k → AtLine t s1 lines (i - j) ∧ Moves s s1 →
      Returns (up fuel) (fun _ s2 => AtLine t s2 lines (i - (j + 1)) ∧ Moves s s2) s1 := by
    intro j s1 _ ⟨h1, hm1⟩
    refine (h1.returns_up hfuel).mono fun _ s2 ⟨h2, hs2⟩ => ?_
    exact ⟨h2, hm1.trans hs2.1⟩
  exact returns_times hstep (Nat.zero_add k) ⟨h, rfl⟩

/-- `move_rel('d', lines)`, which goes down one line even if it is asked for none. -/
theorem At.returns_moveRel_down (h : At t s ⟨bs, l, r, a :: as⟩) (hfuel : 2 ≤ fuel) (hr : r.length < fuel)
    {k : ℕ} (hk : k - 1 < (a :: as).length) :
    Returns (moveRel fuel .down k) (fun _ s' =>
      AtLine t s' (bs ++ (l ++ r) :: a :: as) (bs.length + 1 + (k - 1)) ∧ Moves s s') s := by
  have hlines : bs ++ (l ++ r) :: a :: as = bs ++ [l ++ r] ++ a :: as := by simp
  rw [moveRel, returns_bind, hlines]
  refine (h.returns_toNextLine hfuel hr).mono fun _ s1 hpost => ?_
  obtain ⟨h1, hm1, hscr⟩ := hpost
  have hl1 := h1.atLine (Int.le_of_eq hscr)
  rw [List.length_append, List.length_singleton] at hl1
  rw [returns_bind]
  refine (hl1.returns_times_down hfuel (by simp at hk ⊢; omega)).mono fun _ s2 hpost => ?_
  obtain ⟨h2, hm2⟩ := hpost
  rw [returns_bind, returns_get]
  refine returns_onlyIf (fun _ => ?_) fun _ => ⟨h2, hm1.trans hm2⟩
  refine (h2.returns_lookAround (fun s3 j h3 => ?_) hfuel (-1)).mono fun _ s3 hpost => ?_
  · exact (h3.returns_down hfuel).mono fun _ s4 h4 => ⟨_, h4⟩
  · exact ⟨hpost.1, (hm1.trans hm2).trans hpost.2⟩

theorem At.returns_moveRel_up (h : At t s ⟨bs, l, r, as⟩) (hfuel : 2 ≤ fuel) (hl : l.length < fuel) (k : ℕ) :
    Returns (moveRel fuel .up k) (fun _ s' =>
      AtLine t s' (bs ++ (l ++ r) :: as) (bs.length - k) ∧ Moves s s') s := by
  rw [moveRel, returns_bind, returns_modify, returns_bind]
  refine ((h.with_scrPos 0).returns_toStart (fun _ _ _ h1 _ => h1.returns_one_lt_position) hfuel hl).mono
    fun _ s1 hpost => ?_
  obtain ⟨h1, hm1, hscr⟩ := hpost
  have hedge : s1.scrPos ≤ 0 := by
    rcases hscr with ⟨-, rfl⟩ | hscr
    · exact Int.le_refl 0
    · exact Int.le_of_eq hscr
  have hm1 : Moves s s1 := hm1
  rw [returns_bind]
  refine ((h1.atLine hedge).returns_times_up hfuel k).mono fun _ s2 hpost => ?_
  obtain ⟨h2, hm2⟩ := hpost
  rw [returns_bind, returns_get]
  refine returns_onlyIf (fun _ => ?_) fun _ => ⟨h2, hm1.trans hm2⟩
  refine (h2.returns_lookAround (fun s3 j h3 => ?_) hfuel 1).mono fun _ s3 hpost => ?_
  · exact (h3.returns_up hfuel).mono fun _ s4 h4 => ⟨_, h4⟩
  · exact ⟨hpost.1, (hm1.trans hm2).trans hpost.2⟩

/-! ### To a line by its number -/

/-- The lines are numbered from 1. -/
def Numbered (heap : ℕ → Option Node) (ids : List ℕ) : Prop :=
  ∀ (k : ℕ) i, ids[k]? = some i → ∃ n, heap i = some n ∧ n.lineNumber = k + 1

section Walks
variable {ids : List ℕ} {k line : ℕ} (h : Linked s ids) (hnum : Numbered s.heap ids)
include h hnum

/-- Going up while the number is too high. -/
theorem Linked.returns_walkTo_prev (hk : ids[k]? = some line) (number j : ℕ) (hfuel : k < fuel) :
    Returns (walkTo Node.prev (fun n => n.lineNumber > (number : ℤ)) fuel line j) (fun p s' =>
      s' = s ∧ ids[min k (number - 1)]? = some p.1 ∧ p.2 = j + (k - (number - 1))) s := by
  induction k generalizing line j fuel with
  | zero =>
    obtain ⟨fuel, rfl⟩ : ∃ f, fuel = f + 1 := ⟨fuel - 1, by omega⟩
    obtain ⟨n, hn, -⟩ := hnum 0 line hk
    have hprev : n.prev = none := h.chain.getElem?_prev hk hn
    rw [walkTo, returns_bind, returns_node hn, hprev, returns_pure]
    rw [Nat.zero_min, Nat.zero_sub]
    exact ⟨rfl, hk, rfl⟩
  | succ k ih =>
    obtain ⟨fuel, rfl⟩ : ∃ f, fuel = f + 1 := ⟨fuel - 1, by omega⟩
    obtain ⟨n, hn, hnumber⟩ := hnum (k + 1) line hk
    have hprev : n.prev = ids[k]? := h.chain.getElem?_prev hk hn
    have hlt : k < ids.length := Nat.lt_of_succ_lt (List.getElem?_eq_some_iff.mp hk).1
    rw [List.getElem?_eq_getElem hlt] at hprev
    rw [walkTo, returns_bind, returns_node hn, hprev]
    refine returns_ite (fun hmore => ?_) fun hless => ?_
    · rw [decide_eq_true_eq, hnumber] at hmore
      refine (ih (List.getElem?_eq_getElem hlt) (j + 1) (by omega)).mono fun p s' hpost => ?_
      obtain ⟨hs', hline, hsteps⟩ := hpost
      refine ⟨hs', ?_, by omega⟩
      rwa [show min (k + 1) (number - 1) = min k (number - 1) by omega]
    · rw [decide_eq_true_eq, hnumber] at hless
      rw [returns_pure, show min (k + 1) (number - 1) = k + 1 by omega]
      exact ⟨rfl, hk, by omega⟩

/-- Going down while the number is too low. -/
theorem Linked.returns_walkTo_next (hk : ids[k]? = some line) (number j : ℕ) (hfuel : ids.length ≤ k + fuel) :
    Returns (walkTo Node.next (fun n => n.lineNumber < (number : ℤ)) fuel line j) (fun p s' =>
      s' = s ∧ ids[max k (min (number - 1) (ids.length - 1))]? = some p.1 ∧
        p.2 = j + (min (number - 1) (ids.length - 1) - k)) s := by
  have hlt : k < ids.length := (List.getElem?_eq_some_iff.mp hk).1
  induction fuel generalizing k line j with
  | zero => omega
  | succ fuel ih =>
    obtain ⟨n, hn, hnumber⟩ := hnum k line hk
    have hnext : ids[k + 1]? = n.next := h.chain.getElem?_next hk hn
    rw [walkTo, returns_bind, returns_node hn, ← hnext]
    by_cases hlast : k + 1 < ids.length
    · rw [List.getElem?_eq_getElem hlast]
      refine returns_ite (fun hmore => ?_) fun hless => ?_
      · rw [decide_eq_true_eq, hnumber] at hmore
        refine (ih (List.getElem?_eq_getElem hlast) (j + 1) (by omega) hlast).mono
          fun p s' hpost => ?_
        obtain ⟨hs', hline, hsteps⟩ := hpost
        refine ⟨hs', ?_, by omega⟩
        rwa [show max k (min (number - 1) (ids.length - 1)) =
          max (k + 1) (min (number - 1) (ids.length - 1)) by omega]
      · rw [decide_eq_true_eq, hnumber] at hless
        rw [returns_pure, show max k (min (number - 1) (ids.length - 1)) = k by omega]
        exact ⟨rfl, hk, by omega⟩
    · rw [List.getElem?_eq_none (by omega), returns_pure,
        show max k (min (number - 1) (ids.length - 1)) = k by omega]
      exact ⟨rfl, hk, by omega⟩

end Walks

/-- The cursor at a byte of a line, both counted from 0. -/
def Zipper.place (lines : List (List UInt8)) (i j : ℕ) : Zipper :=
  ⟨lines.take i, (lines.getD i []).take j, (lines.getD i []).drop j, lines.drop (i + 1)⟩

theorem Zipper.place_zero (lines : List (List UInt8)) (i : ℕ) : Zipper.place lines i 0 = .start lines i := rfl

theorem Zipper.place_length (bs as : List (List UInt8)) (l r : List UInt8) :
    Zipper.place (bs ++ (l ++ r) :: as) bs.length l.length = ⟨bs, l, r, as⟩ := by
  simp [Zipper.place]

theorem Shows.eq_place {xs ys : List ℕ} (h : Shows t s ⟨bs, l, r, as⟩ xs ys n) :
    (⟨bs, l, r, as⟩ : Zipper) = .place s.text xs.length l.length := by
  have htext : s.text = bs ++ (l ++ r) :: as := h.text_eq
  have hlen : xs.length = bs.length := by
    have hmap := congrArg List.length h.before
    rwa [List.length_map] at hmap
  rw [htext, hlen, Zipper.place_length]

/-- A place in a line given by its address. -/
theorem Inv.at_place {ids : List ℕ} {k j line : ℕ} {m : Node} (h : Inv t s ids n) (hw : Roomy s)
    (hk : ids[k]? = some line) (hm : s.heap line = some m) (hs : Moves s s') (hc : s'.currLine = line)
    (hpt : s'.point = ⟨m.line, j⟩) (hpos : s'.position = j + 1) (hj : j + 1 ≤ m.lineLength) :
    At t s' (.place s.text k j) := by
  subst hc
  have h' : Inv t s' ids m := by
    refine h.move hs (List.mem_of_getElem? hk) hm ?_ (hpos ▸ hj) ?_
    · omega
    · rw [hpt, hpos, Nat.add_sub_cancel]
  obtain ⟨⟨bs, l, r, as⟩, xs, ys, rfl, hz⟩ := h'.exists_shows
  have hl : l.length = j := by
    have hlen : s'.position = l.length + 1 := hz.left
    omega
  have hlen : xs.length = k := by
    have hnd := h.lines.nodup
    have hlt := (List.getElem?_eq_some_iff.mp hk).1
    refine ((List.getElem?_inj hlt hnd).mp ?_).symm
    rw [hk]
    simp
  have htext : s'.text = s.text := by
    rw [Editor.text, Editor.text, hs.heap, hs.fresh, hs.firstLine]
  have hplace := hz.eq_place
  rw [hlen, hl, htext] at hplace
  rw [← hplace]
  exact ⟨⟨xs, ys, m, hz⟩, hw.moves hs⟩

theorem Inv.returns_jumpTo {ids : List ℕ} {k line : ℕ} (h : Inv t s ids n) (hw : Roomy s)
    (hk : ids[k]? = some line) (hfuel : 2 ≤ fuel) (i : ℕ) (direction : Option Direction) :
    Returns (jumpTo fuel line i direction) (fun _ s' => At t s' (.start s.text k) ∧ Moves s s') s := by
  obtain ⟨m, hm, hok⟩ := h.lines.exists_node (List.mem_of_getElem? hk)
  rw [jumpTo, returns_bind, returns_get, returns_bind, returns_node hm, returns_bind, returns_set, returns_bind]
  have h1 : At t { s with
      absoluteLin := if direction = some Direction.down then s.absoluteLin - i else s.absoluteLin + i,
      currLine := line, point := m.start, position := 1 } (.place s.text k 0) :=
    h.at_place hw hk hm rfl rfl rfl rfl hok.pos
  obtain ⟨xs, ys, m', hv⟩ := h1.views
  refine Returns.mono (hv.scannable.returns_midscreen hv.roomy hfuel _) fun _ s2 hs2 => ?_
  rw [syncScrPos, returns_modify]
  have h2 := h1.of_core (Rests.of_scrolls hs2).core (h1.roomy.scroll hs2)
  have hm2 := Moves.of_scrolls hs2
  exact ⟨h2.of_core rfl ⟨h2.roomy.wide, h2.roomy.last⟩, hm2⟩

/-- The number of the line that the cursor is in. -/
theorem At.fromTop_eq {lines : List (List UInt8)} {k : ℕ} (h : At t s (.start lines k)) (hk : k < lines.length) :
    s.fromTop = 1 + k := by
  obtain ⟨xs, ys, n, hs⟩ := h.shows
  have hlen : xs.length = k := by
    have hmap := congrArg List.length hs.before
    rw [List.length_map] at hmap
    rw [hmap, Zipper.start, List.length_take]
    omega
  have hget : (xs ++ s.currLine :: ys)[k]? = some s.currLine := by simp [← hlen]
  exact hs.inv.linked.fromTop_eq hget

theorem numbered_twoLines (line next : List UInt8) : Numbered (Editor.twoLines line next).heap [0, 2] := by
  intro k i hk
  match k with
  | 0 =>
    obtain rfl : 0 = i := Option.some.inj hk
    exact ⟨_, rfl, rfl⟩
  | 1 =>
    obtain rfl : 2 = i := Option.some.inj hk
    exact ⟨_, rfl, rfl⟩
  | k + 2 => simp at hk

end BsdAdditions.Ee
