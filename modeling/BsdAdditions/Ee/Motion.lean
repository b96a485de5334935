import Mathlib.Data.List.Induction
import BsdAdditions.Ee.Steps

/-! The commands that move the cursor, as movements in the text: all of them return. -/
namespace BsdAdditions.Ee
open Common Common.Prog

/-- The text and the cursor in 8-bit mode, in a window that scrolls. -/
structure At (t : Prop) (s : Editor) (z : Zipper) : Prop where
  shows : ∃ xs ys n, Shows t s z xs ys n
  roomy : Roomy s

variable {t : Prop} {s s' : Editor} {z : Zipper} {xs ys : List ℕ} {n m : Node} {fuel : ℕ}
  {bs as : List (List UInt8)} {a b l r : List UInt8}

theorem Editor.narrowed_eq (h : s.eeChinese = false) : s.narrowed = s := by
  rw [Editor.narrowed, ← h]

theorem Shows.views (h : Shows t s z xs ys n) (hw : Roomy s) : Views t s z xs ys n := by
  refine ⟨?_, hw⟩
  rw [Editor.narrowed_eq h.inv.narrow]
  exact h

theorem Views.at (h : Views t s z xs ys n) (hs : s.eeChinese = false) : At t s z := by
  refine ⟨⟨xs, ys, n, ?_⟩, h.roomy⟩
  rw [← Editor.narrowed_eq hs]
  exact h.shows

theorem At.narrow (h : At t s z) : s.eeChinese = false := by
  obtain ⟨xs, ys, n, hs⟩ := h.shows
  exact hs.inv.narrow

theorem At.views (h : At t s z) : ∃ xs ys n, Views t s z xs ys n := by
  obtain ⟨xs, ys, n, hs⟩ := h.shows
  exact ⟨xs, ys, n, hs.views h.roomy⟩

/-- A movement of the cursor ends in 8-bit mode as it started. -/
theorem At.moved (h : At t s z) {z' : Zipper} (h' : Views t s' z' xs ys n) (hm : Moves s s') :
    At t s' z' :=
  h'.at (hm.eeChinese.trans h.narrow)

theorem At.of_core (h : At t s z) (hs : s'.core = s.core) (hw : Roomy s') : At t s' z := by
  obtain ⟨xs, ys, n, h⟩ := h.shows
  exact ⟨⟨xs, ys, n, h.of_core hs⟩, hw⟩

theorem At.text_eq (h : At t s z) : s.text = z.text := by
  obtain ⟨xs, ys, n, hs⟩ := h.shows
  exact hs.text_eq

theorem At.position_eq (h : At t s z) : s.position = z.left.length + 1 := by
  obtain ⟨xs, ys, n, hs⟩ := h.shows
  exact hs.left

/-! ### Single steps -/

theorem At.returns_right {c : UInt8} (h : At t s ⟨bs, l, c :: r, as⟩) (hfuel : 2 ≤ fuel) :
    Returns (right fuel true) (fun _ s' => At t s' ⟨bs, l ++ [c], r, as⟩ ∧ Moves s s' ∧
      s'.scrPos = width s.eightbit (l ++ [c])) s := by
  obtain ⟨xs, ys, n, hv⟩ := h.views
  have hstep : stepRight s.eeChinese c r = 1 := by
    rw [stepRight, h.narrow]
    simp
  have hlr : (l ++ [c]) ++ r = l ++ c :: r := List.append_assoc l [c] r
  have hlen : (l ++ [c]).length = l.length + stepRight s.eeChinese c r := by
    rw [hstep, List.length_append, List.length_singleton]
  refine (hv.returns_right hfuel hlr hlen).mono fun _ s' ⟨h', hm, _, hscr⟩ => ?_
  exact ⟨h.moved h' hm, hm, hscr⟩

theorem At.returns_right_next (h : At t s ⟨bs, l, [], a :: as⟩) (hfuel : 2 ≤ fuel) :
    Returns (right fuel true) (fun _ s' => At t s' ⟨bs ++ [l], [], a, as⟩ ∧ Moves s s' ∧
      s'.scrPos = 0) s := by
  obtain ⟨xs, ys, n, hv⟩ := h.views
  obtain ⟨i, ys', -, hright⟩ := hv.returns_right_next hfuel
  refine hright.mono fun _ s' ⟨m, h', hm, _, hscr⟩ => ?_
  exact ⟨h.moved h' hm, hm, hscr⟩

theorem At.returns_right_last (h : At t s ⟨bs, l, [], []⟩) :
    Returns (right fuel true) (fun _ s' => s' = s) s := by
  obtain ⟨xs, ys, n, hv⟩ := h.views
  exact hv.returns_right_last fuel

theorem At.returns_left {c : UInt8} (h : At t s ⟨bs, l ++ [c], r, as⟩) (hfuel : 2 ≤ fuel) :
    Returns (left fuel true) (fun _ s' => At t s' ⟨bs, l, c :: r, as⟩ ∧ Moves s s' ∧
      s'.scrPos = width s.eightbit l) s := by
  obtain ⟨xs, ys, n, hv⟩ := h.views
  have hback : StepsBack s.eeChinese (l ++ [c]) 1 := .inl ⟨h.narrow, by simp, rfl⟩
  have hlr : l ++ c :: r = (l ++ [c]) ++ r := (List.append_assoc l [c] r).symm
  have hlen : l.length + 1 = (l ++ [c]).length := by
    rw [List.length_append, List.length_singleton]
  refine (hv.returns_left hfuel hback hlr hlen).mono fun _ s' ⟨h', hm, _, hscr⟩ => ?_
  exact ⟨h.moved h' hm, hm, hscr⟩

theorem At.returns_left_prev (h : At t s ⟨bs ++ [b], [], r, as⟩) (hfuel : 2 ≤ fuel) :
    Returns (left fuel true) (fun _ s' => At t s' ⟨bs, b, [], r :: as⟩ ∧ Moves s s' ∧
      s'.scrPos = width s.eightbit b) s := by
  obtain ⟨xs, ys, n, hv⟩ := h.views
  obtain ⟨i, xs', -, hleft⟩ := hv.returns_left_prev hfuel
  refine hleft.mono fun _ s' ⟨m, h', hm, _, hscr⟩ => ?_
  exact ⟨h.moved h' hm, hm, hscr⟩

theorem At.returns_left_first (h : At t s ⟨[], [], r, as⟩) :
    Returns (left fuel true) (fun _ s' => s' = s) s := by
  obtain ⟨xs, ys, n, hv⟩ := h.views
  exact hv.returns_left_first fuel

/-! ### Looking at the place -/

theorem At.returns_beforeEnd (h : At t s ⟨bs, l, r, as⟩) {post : Bool → Editor → Prop} :
    Returns beforeEnd post s ↔ post (decide (r ≠ [])) s := by
  obtain ⟨xs, ys, n, hv⟩ := h.views
  exact hv.returns_beforeEnd

theorem At.returns_offStart (h : At t s ⟨bs, l, r, as⟩) {post : Bool → Editor → Prop} :
    Returns offStart post s ↔ post (decide (l ≠ [])) s := by
  obtain ⟨xs, ys, n, hv⟩ := h.views
  exact hv.returns_offStart

/-! ### Within a line -/

/-- To the end of the line, with its column found on the way. -/
theorem At.returns_toEnd (h : At t s ⟨bs, l, r, as⟩) (hfuel : 2 ≤ fuel) {k : ℕ} (hk : r.length < k) :
    Returns (repeatWhile k beforeEnd (right fuel true)) (fun _ s' => At t s' ⟨bs, l ++ r, [], as⟩ ∧
      Moves s s' ∧ (r = [] ∧ s' = s ∨ s'.scrPos = width s.eightbit (l ++ r))) s := by
  obtain ⟨k, rfl⟩ := Nat.exists_eq_add_of_lt hk
  induction r generalizing l s with
  | nil =>
    rw [returns_repeatWhile_succ, h.returns_beforeEnd]
    rw [if_neg (by simp)]
    rw [List.append_nil]
    exact ⟨h, rfl, .inl ⟨rfl, rfl⟩⟩
  | cons c r ih =>
    rw [returns_repeatWhile_succ, h.returns_beforeEnd]
    rw [if_pos (by simp)]
    refine (h.returns_right hfuel).mono fun _ s1 ⟨h1, hm1, hscr1⟩ => ?_
    have hcount : (c :: r).length + k = r.length + k + 1 := by
      rw [List.length_cons]
      omega
    rw [hcount]
    refine (ih h1 (by omega)).mono fun _ s2 ⟨h2, hm2, hscr2⟩ => ?_
    have height : s1.eightbit = s.eightbit := (congrArg Editor.eightbit hm1).symm
    rw [List.append_assoc, List.singleton_append] at h2 hscr2
    refine ⟨h2, hm1.trans hm2, .inr ?_⟩
    rcases hscr2 with ⟨rfl, rfl⟩ | hscr2
    · exact hscr1
    · rw [hscr2, height]

theorem At.returns_one_lt_position (h : At t s ⟨bs, l, r, as⟩) {post : Bool → Editor → Prop} :
    Returns (do return 1 < (← get).position : Ed Bool) post s ↔ post (decide (l ≠ [])) s := by
  have hiff : 1 < s.position ↔ l ≠ [] := by
    have hpos : s.position = l.length + 1 := h.position_eq
    rw [hpos, ← List.length_pos_iff]
    omega
  rw [returns_bind, returns_get, returns_pure]
  simp only [hiff]

/-- To the start of the line, by either of the two tests that the program has for it. -/
theorem At.returns_toStart {cond : Ed Bool} (hcond : ∀ s l r, At t s ⟨bs, l, r, as⟩ →
      ∀ post : Bool → Editor → Prop, Returns cond post s ↔ post (decide (l ≠ [])) s)
    (h : At t s ⟨bs, l, r, as⟩) (hfuel : 2 ≤ fuel) {k : ℕ} (hk : l.length < k) :
    Returns (repeatWhile k cond (left fuel true)) (fun _ s' => At t s' ⟨bs, [], l ++ r, as⟩ ∧
      Moves s s' ∧ (l = [] ∧ s' = s ∨ s'.scrPos = 0)) s := by
  obtain ⟨k, rfl⟩ := Nat.exists_eq_add_of_lt hk
  induction l using List.reverseRecOn generalizing r s with
  | nil =>
    rw [returns_repeatWhile_succ, hcond s _ _ h]
    rw [if_neg (by simp)]
    exact ⟨h, rfl, .inl ⟨rfl, rfl⟩⟩
  | append_singleton l c ih =>
    rw [returns_repeatWhile_succ, hcond s _ _ h]
    rw [if_pos (by simp)]
    refine (h.returns_left hfuel).mono fun _ s1 ⟨h1, hm1, hscr1⟩ => ?_
    have hcount : (l ++ [c]).length + k = l.length + k + 1 := by
      rw [List.length_append, List.length_singleton]
      omega
    rw [hcount]
    refine (ih h1 (by omega)).mono fun _ s2 ⟨h2, hm2, hscr2⟩ => ?_
    rw [List.append_assoc, List.singleton_append]
    refine ⟨h2, hm1.trans hm2, .inr ?_⟩
    rcases hscr2 with ⟨rfl, rfl⟩ | hscr2
    · exact hscr1
    · exact hscr2

/-! ### From line to line -/

theorem returns_nextline {i : ℕ} {post : Unit → Editor → Prop} (hn : s.heap s.currLine = some n)
    (hi : n.next = some i) (hm : s.heap i = some m) : Returns nextline post s ↔ post () { s with
      currLine := i, absoluteLin := s.absoluteLin + 1, point := m.start, position := 1,
      scrVert := if s.scrVert = s.lastLine then s.scrVert else s.scrVert + 1 } := by
  simp [nextline, returns_curr hn, hi, returns_node hm]

theorem returns_prevline {i : ℕ} {post : Unit → Editor → Prop} (hn : s.heap s.currLine = some n)
    (hi : n.prev = some i) (hm : s.heap i = some m) : Returns prevline post s ↔ post () { s with
      currLine := i, absoluteLin := s.absoluteLin - 1,
      point := m.start.add (m.lineLength - 1), position := 1 + (m.lineLength - 1),
      scrVert := if s.scrVert = 0 then s.scrVert else s.scrVert - 1 } := by
  simp [prevline, returns_curr hn, hi, returns_node hm]

/-- The column after a byte, as `find_pos` counts outside of two-byte characters. -/
def findByte (w : ℤ) (b : UInt8) : ℤ :=
  if b = 9 then w + tabshift w else if b < 32 then w + 2 else w + 1

/-- How many bytes the loop of `find_pos` passes from column `w` on its way to `aim`, and the column
that it counts behind them. -/
def findFrom (wide : Bool) (aim : ℤ) : List UInt8 → ℤ → ℕ × ℤ
  | [], w => (0, w)
  | [b], w => if w < aim then (1, findByte w b) else (0, w)
  | b :: c :: r, w =>
    if w < aim then
      if wide = true ∧ 127 < b then Prod.map (· + 2) id (findFrom wide aim r (w + 2))
      else Prod.map (· + 1) id (findFrom wide aim (c :: r) (findByte w b))
    else (0, w)

/-- The column behind the character that starts with `b`. -/
def findNext (wide : Bool) (b : UInt8) (r : List UInt8) (w : ℤ) : ℤ :=
  if stepRight wide b r = 2 then w + 2 else findByte w b

theorem stepRight_cases (wide : Bool) (b : UInt8) (r : List UInt8) :
    stepRight wide b r = 1 ∨ stepRight wide b r = 2 := by
  unfold stepRight
  split <;> simp

theorem stepRight_le (wide : Bool) (b : UInt8) (r : List UInt8) :
    stepRight wide b r ≤ (b :: r).length := by
  cases r with
  | nil => simp [stepRight]
  | cons c r =>
    rcases stepRight_cases wide b (c :: r) with hone | htwo
    · simp [hone]
    · simp [htwo]

theorem findFrom_cons (wide : Bool) {aim w : ℤ} (h : w < aim) (b : UInt8) (r : List UInt8) :
    findFrom wide aim (b :: r) w = Prod.map (· + stepRight wide b r) id
      (findFrom wide aim ((b :: r).drop (stepRight wide b r)) (findNext wide b r w)) := by
  cases r with
  | nil => simp [findFrom, findNext, stepRight, h]
  | cons c r =>
    by_cases hwide : wide = true ∧ 127 < b
    · simp [findFrom, findNext, stepRight, h, hwide]
    · have hone : stepRight wide b (c :: r) = 1 := by simpa [stepRight] using hwide
      rw [findFrom, if_pos h, if_neg hwide, hone, findNext, hone, if_neg (by decide), List.drop_one,
        List.tail_cons]

theorem findFrom_of_le {wide : Bool} {aim w : ℤ} (h : aim ≤ w) (r : List UInt8) :
    findFrom wide aim r w = (0, w) := by
  have hlt : ¬ w < aim := by omega
  cases r with
  | nil => rfl
  | cons b r => cases r <;> simp [findFrom, hlt]

theorem findFrom_le_length (wide : Bool) (aim : ℤ) (r : List UInt8) (w : ℤ) :
    (findFrom wide aim r w).1 ≤ r.length := by
  fun_induction findFrom wide aim r w <;> simp_all

/-- The state of the loop of `find_pos` behind `k` bytes of the line, in column `w`. -/
abbrev Editor.foundAt (s : Editor) (n : Node) (k : ℕ) (w : ℤ) : Editor :=
  { s with scrHorz := w, point := ⟨n.line, k⟩, position := k + 1 }

theorem Views.eq_foundAt (h : Views t s ⟨bs, l, r, as⟩ xs ys n) :
    s = s.foundAt n l.length s.scrHorz := by
  rw [Editor.foundAt, ← h.point_eq, ← h.position_eq]

theorem Views.foundAt (h : Views t s ⟨bs, l, r, as⟩ xs ys n) (k : ℕ) (hk : k ≤ r.length) (w : ℤ) :
    Views t (s.foundAt n (l.length + k) w) ⟨bs, l ++ r.take k, r.drop k, as⟩ xs ys n := by
  have hlen : (l ++ r.take k).length = l.length + k := by simp [hk]
  apply h.goto
  · simp
  · rfl
  · rfl
  · rw [hlen]
  · rw [hlen]

/-- One round of the loop. -/
theorem Views.returns_findStep {c : UInt8} (h : Views t s ⟨bs, l, c :: r, as⟩ xs ys n)
    {post : Unit → Editor → Prop} : Returns findStep post s ↔ post ()
      (s.foundAt n (l.length + stepRight s.eeChinese c r) (findNext s.eeChinese c r s.scrHorz)) := by
  obtain ⟨rest, hold⟩ := h.exists_holds
  have hb : n.bytes = l ++ c :: (r ++ rest) := by simpa using hold.bytes
  have hlt : l.length < n.bytes.length := by simp [hb]
  have hget : n.bytes[l.length] = c := by simp [hb]
  have hpt := h.point_eq
  have hpos := h.position_eq
  rw [findStep, returns_bind, returns_get, returns_bind, hpt, returns_deref h.curr rfl hlt, hget]
  by_cases htab : c = 9
  · simp [htab, findNext, stepRight, findByte, advance, hpos, Ptr.add]
  by_cases hlow : c < 32
  · have hhigh : ¬ 127 < c := by
      intro hc
      exact absurd (UInt8.lt_trans hc hlow) (by decide)
    simp [htab, hlow, hhigh, findNext, stepRight, findByte, advance, hpos, Ptr.add]
  rw [if_neg htab, if_neg hlow, returns_bind, h.returns_wideAt, findNext]
  rcases stepRight_cases s.eeChinese c r with hone | htwo
  · simp [hone, htab, hlow, findByte, advance, hpos, Ptr.add]
  · simp [htwo, advance, hpos, Ptr.add]

/-- The test of the loop. -/
abbrev seeks : Ed Bool := do
  let s ← get
  return s.scrHorz < s.scrPos && s.position < (← Ee.curr).lineLength

theorem Views.returns_seeks (h : Views t s ⟨bs, l, r, as⟩ xs ys n) {post : Bool → Editor → Prop} :
    Returns seeks post s ↔ post (decide (s.scrHorz < s.scrPos ∧ r ≠ [])) s := by
  have hiff : s.position < n.lineLength ↔ r ≠ [] := by
    rw [h.position_eq, h.lineLength_eq, ← List.length_pos_iff]
    omega
  rw [seeks, returns_bind, returns_get, returns_bind, returns_curr h.curr, returns_pure]
  simp only [hiff, Bool.decide_and]

theorem Views.returns_findLoop (h : Views t s ⟨bs, l, r, as⟩ xs ys n)
    (hfuel : (findFrom s.eeChinese s.scrPos r s.scrHorz).1 < fuel) :
    Returns (repeatWhile fuel seeks findStep) (fun _ s' => s' =
      s.foundAt n (l.length + (findFrom s.eeChinese s.scrPos r s.scrHorz).1)
        (findFrom s.eeChinese s.scrPos r s.scrHorz).2) s := by
  induction fuel generalizing s l r with
  | zero => omega
  | succ fuel ih =>
    rw [returns_repeatWhile_succ, h.returns_seeks]
    by_cases hgo : s.scrHorz < s.scrPos ∧ r ≠ []
    · obtain ⟨hlt, hr⟩ := hgo
      obtain ⟨c, r, rfl⟩ := List.exists_cons_of_ne_nil hr
      rw [if_pos (by simpa using hlt), h.returns_findStep]
      rw [findFrom_cons _ hlt] at hfuel ⊢
      have h1 := h.foundAt (stepRight s.eeChinese c r) (stepRight_le _ _ _)
        (findNext s.eeChinese c r s.scrHorz)
      have hstep := stepRight_cases s.eeChinese c r
      have hlen : (l ++ (c :: r).take (stepRight s.eeChinese c r)).length =
          l.length + stepRight s.eeChinese c r := by
        rw [List.length_append, List.length_take_of_le (stepRight_le _ _ _)]
      refine (ih h1 ?_).mono fun _ s2 hs2 => ?_
      · simp only [Prod.map_fst] at hfuel
        dsimp only
        omega
      · rw [hs2, hlen, Nat.add_assoc, Nat.add_comm (stepRight _ _ _)]
        rfl
    · rw [if_neg (by simpa using hgo)]
      have hstop : findFrom s.eeChinese s.scrPos r s.scrHorz = (0, s.scrHorz) := by
        by_cases hle : s.scrPos ≤ s.scrHorz
        · exact findFrom_of_le hle r
        · obtain rfl : r = [] := by
            by_contra hr
            exact hgo ⟨by omega, hr⟩
          rfl
      rw [hstop]
      exact h.eq_foundAt

/-- `find_pos`: the bytes that the loop passes are before the cursor. Its own count stays only where the
window shows that column; otherwise `midscreen` has `scanline` count again. -/
theorem Views.returns_findPos {k : ℕ} {w : ℤ} (h : Views t s' ⟨bs, [], r, as⟩ xs ys n)
    (hs : s' = { s with position := 1 }) (hfind : findFrom s.eeChinese s.scrPos r 0 = (k, w))
    (hfuel : 2 ≤ fuel) (hk : k < fuel) :
    Returns (findPos fuel) (fun _ s' => Views t s' ⟨bs, r.take k, r.drop k, as⟩ xs ys n ∧ Steers s s' ∧
      s'.scrHorz = if s.lastCol < w - s.horizOffset ∨ w < s.horizOffset
        then width s.eightbit (r.take k) else w) s := by
  subst hs
  have h1 : Views t { s with scrHorz := 0, position := 1 } ⟨bs, [], r, as⟩ xs ys n :=
    h.of_core rfl ⟨h.roomy.wide, h.roomy.last⟩
  have hle : k ≤ r.length := by
    have := findFrom_le_length s.eeChinese s.scrPos r 0
    rwa [hfind] at this
  have hloop : Returns (repeatWhile fuel seeks findStep) _ { s with scrHorz := 0, position := 1 } :=
    h1.returns_findLoop (by simpa only [hfind] using hk)
  simp only [hfind, List.length_nil, Nat.zero_add] at hloop
  have h2 : Views t (s.foundAt n k w) ⟨bs, r.take k, r.drop k, as⟩ xs ys n := by
    simpa using h1.foundAt k hle w
  -- what the scrolling at the end leaves
  have hmid : ∀ offset line, Returns (midscreen fuel line ⟨n.line, k⟩)
      (fun _ s' => Views t s' ⟨bs, r.take k, r.drop k, as⟩ xs ys n ∧ Steers s s' ∧
        s'.scrHorz = width s.eightbit (r.take k)) { s.foundAt n k w with horizOffset := offset } := by
    intro offset line
    have h3 : Views t { s.foundAt n k w with horizOffset := offset } ⟨bs, r.take k, r.drop k, as⟩ xs ys n :=
      h2.of_core rfl ⟨h.roomy.wide, h.roomy.last⟩
    refine (h3.scannable.returns_midscreen_column h3.roomy hfuel line).mono fun _ s' ⟨hs, hcol⟩ => ?_
    refine ⟨h3.of_core (Rests.of_scrolls hs).core (h3.roomy.scroll hs), ?_, hcol.trans (h3.column_eq _)⟩
    obtain ⟨_, _, _, rfl⟩ := hs
    exact ⟨rfl, rfl, rfl⟩
  rw [findPos, returns_bind, returns_modify, returns_bind]
  refine hloop.mono fun _ s1 hs1 => ?_
  subst hs1
  rw [returns_bind, returns_get]
  refine returns_ite (fun hright => ?_) fun hright => returns_ite (fun hleft => ?_) fun hleft => ?_
  · rw [returns_bind, returns_set, if_pos (.inl hright)]
    exact hmid _ _
  · rw [returns_bind, returns_set, if_pos (.inr hleft)]
    exact hmid _ _
  · rw [returns_pure, if_neg (not_or.mpr ⟨hright, hleft⟩)]
    exact ⟨h2, ⟨rfl, rfl, rfl⟩, rfl⟩

theorem At.returns_down (h : At t s ⟨bs, l, r, a :: as⟩) (hscr : s.scrPos ≤ 0) (hfuel : 2 ≤ fuel) :
    Returns (down fuel) (fun _ s' => At t s' ⟨bs ++ [l ++ r], [], a, as⟩ ∧ Steers s s') s := by
  obtain ⟨xs, ys, n, hv⟩ := h.views
  obtain ⟨i, ys', m, rfl, hnext, hm⟩ := hv.exists_next
  rw [down, returns_bind, returns_curr hv.curr, onlyIf, if_pos (by simp [hnext]), returns_bind,
    returns_nextline hv.curr hnext hm]
  have h1 : Views t { s with
      currLine := i, absoluteLin := s.absoluteLin + 1, point := m.start, position := 1,
      scrVert := if s.scrVert = s.lastLine then s.scrVert else s.scrVert + 1 }
      ⟨bs ++ [l ++ r], [], a, as⟩ (xs ++ [s.currLine]) ys' m := hv.next rfl rfl hm rfl rfl
  have hfind : findFrom s.eeChinese s.scrPos a 0 = (0, 0) := findFrom_of_le hscr a
  refine Returns.mono (h1.returns_findPos (by rfl) hfind hfuel (by omega)) fun _ s' hpost => ?_
  obtain ⟨h', hs', _⟩ := hpost
  exact ⟨h.moved h' hs'.1, hs'⟩

theorem At.returns_down_last (h : At t s ⟨bs, l, r, []⟩) :
    Returns (down fuel) (fun _ s' => s' = s) s := by
  obtain ⟨xs, ys, n, hv⟩ := h.views
  rw [down, returns_bind, returns_curr hv.curr, onlyIf, if_neg (by simp [hv.next_eq_none]), returns_pure]

theorem At.returns_up (h : At t s ⟨bs ++ [b], l, r, as⟩) (hscr : s.scrPos ≤ 0) (hfuel : 2 ≤ fuel) :
    Returns (up fuel) (fun _ s' => At t s' ⟨bs, [], b, (l ++ r) :: as⟩ ∧ Steers s s') s := by
  obtain ⟨xs, ys, n, hv⟩ := h.views
  obtain ⟨i, xs', m, rest, rfl, hprev, hm, hold⟩ := hv.exists_prev
  rw [up, returns_bind, returns_curr hv.curr, onlyIf, if_pos (by simp [hprev]), returns_bind,
    returns_prevline hv.curr hprev hm, returns_bind]
  refine (returns_curr hm).mpr ?_
  rw [returns_bind, setPoint, returns_modify]
  have h1 : Views t { s with
      currLine := i, absoluteLin := s.absoluteLin - 1, point := m.start, position := 1,
      scrVert := if s.scrVert = 0 then s.scrVert else s.scrVert - 1 }
      ⟨bs, [], b, (l ++ r) :: as⟩ xs' (s.currLine :: ys) m := hv.prev rfl rfl hm (List.nil_append b) rfl rfl
  have hfind : findFrom s.eeChinese s.scrPos b 0 = (0, 0) := findFrom_of_le hscr b
  refine Returns.mono (h1.returns_findPos (by rfl) hfind hfuel (by omega)) fun _ s' hpost => ?_
  obtain ⟨h', hs', _⟩ := hpost
  exact ⟨h.moved h' hs'.1, hs'⟩

theorem At.returns_up_first (h : At t s ⟨[], l, r, as⟩) :
    Returns (up fuel) (fun _ s' => s' = s) s := by
  obtain ⟨xs, ys, n, hv⟩ := h.views
  rw [up, returns_bind, returns_curr hv.curr, onlyIf, if_neg (by simp [hv.prev_eq_none]), returns_pure]

theorem At.with_scrPos (h : At t s z) (c : ℤ) : At t { s with scrPos := c } z :=
  h.of_core rfl ⟨h.roomy.wide, h.roomy.last⟩

theorem At.returns_next_ne_none (h : At t s ⟨bs, l, r, as⟩) {m : Ed Unit} {post : Unit → Editor → Prop} :
    Returns (do onlyIf ((← curr).next ≠ none) m) post s ↔ Returns (onlyIf (as ≠ []) m) post s := by
  obtain ⟨xs, ys, n, hv⟩ := h.views
  have hiff : n.next ≠ none ↔ as ≠ [] := by
    cases as with
    | nil => simp [hv.next_eq_none]
    | cons a as =>
      obtain ⟨i, _, _, _, hnext, _⟩ := hv.exists_next
      simp [hnext]
  rw [returns_bind, returns_curr hv.curr, onlyIf, onlyIf]
  by_cases has : as ≠ []
  · rw [if_pos (hiff.mpr has), if_pos has]
  · rw [if_neg (mt hiff.mp has), if_neg has]

/-- To the start of the next line, from anywhere in a line. -/
theorem At.returns_advLine (h : At t s ⟨bs, l, r, a :: as⟩) (hfuel : 2 ≤ fuel) (hr : r.length < fuel) :
    Returns (advLine fuel) (fun _ s' => At t s' ⟨bs ++ [l ++ r], [], a, as⟩ ∧ Moves s s' ∧
      s'.scrPos = 0) s := by
  rw [advLine, returns_bind, h.returns_offStart, returns_bind, returns_get]
  refine returns_ite (fun _ => ?_) fun _ => ?_
  · rw [returns_bind]
    refine (h.returns_toEnd hfuel hr).mono fun _ s1 hpost => ?_
    obtain ⟨h1, hm1, _⟩ := hpost
    refine (h1.returns_right_next hfuel).mono fun _ s2 hpost => ?_
    obtain ⟨h2, hm2, hscr⟩ := hpost
    exact ⟨h2, hm1.trans hm2, hscr⟩
  · rw [h.returns_next_ne_none, onlyIf, if_pos (List.cons_ne_nil a as), returns_bind, returns_modify]
    refine ((h.with_scrPos 0).returns_down (Int.le_refl 0) hfuel).mono fun _ s1 hpost => ?_
    obtain ⟨h1, hs1⟩ := hpost
    exact ⟨h1, hs1.1, hs1.2.2⟩

theorem At.returns_toNextLine (h : At t s ⟨bs, l, r, a :: as⟩) (hfuel : 2 ≤ fuel) (hr : r.length < fuel) :
    Returns (toNextLine fuel) (fun _ s' => At t s' ⟨bs ++ [l ++ r], [], a, as⟩ ∧ Moves s s' ∧
      s'.scrPos = 0) s := by
  obtain ⟨xs, ys, n, hv⟩ := h.views
  obtain ⟨i, ys', m, rfl, hnext, hm⟩ := hv.exists_next
  rw [toNextLine, returns_bind, returns_get, returns_bind, returns_curr hv.curr]
  refine returns_ite (fun _ => ?_) fun _ => h.returns_advLine hfuel hr
  rw [returns_bind, returns_nextline hv.curr hnext hm, returns_bind, returns_modify]
  have h1 : Views t { s with
      currLine := i, absoluteLin := s.absoluteLin + 1, point := m.start, position := 1, scrPos := 0,
      scrHorz := 0, scrVert := if s.scrVert = s.lastLine then s.scrVert else s.scrVert + 1 }
      ⟨bs ++ [l ++ r], [], a, as⟩ (xs ++ [s.currLine]) ys' m := hv.next rfl rfl hm rfl rfl
  refine (h1.scannable.returns_resetOffset h1.roomy hfuel).mono fun _ s2 hs2 => ?_
  have h2 := h1.of_core (Rests.of_scrolls hs2).core (h1.roomy.scroll hs2)
  obtain ⟨_, _, _, rfl⟩ := hs2
  exact ⟨h.moved h2 rfl, rfl, rfl⟩

/-! ### Lines by number -/

/-- The cursor at the start of a line, the first being number 0. -/
def Zipper.start (lines : List (List UInt8)) (i : ℕ) : Zipper :=
  ⟨lines.take i, [], lines.getD i [], lines.drop (i + 1)⟩

theorem Zipper.start_length (bs as : List (List UInt8)) (a : List UInt8) :
    Zipper.start (bs ++ a :: as) bs.length = ⟨bs, [], a, as⟩ := by
  simp [Zipper.start]

theorem Zipper.text_start {lines : List (List UInt8)} {i : ℕ} (hi : i < lines.length) :
    (Zipper.start lines i).text = lines := by
  simp [Zipper.start, Zipper.text, hi]

theorem exists_line_at {lines : List (List UInt8)} {i : ℕ} (hi : i < lines.length) :
    ∃ bs a as, lines = bs ++ a :: as ∧ bs.length = i :=
  ⟨lines.take i, lines[i], lines.drop (i + 1), by simp, by simp; omega⟩

/-- The cursor is at the start of this line, and the screen at its left edge. -/
structure AtLine (t : Prop) (s : Editor) (lines : List (List UInt8)) (i : ℕ) : Prop where
  lt : i < lines.length
  place : At t s (.start lines i)
  edge : s.scrPos ≤ 0

variable {lines : List (List UInt8)} {i : ℕ}

theorem At.atLine (h : At t s ⟨bs, [], a, as⟩) (hscr : s.scrPos ≤ 0) :
    AtLine t s (bs ++ a :: as) bs.length := by
  refine ⟨by simp, ?_, hscr⟩
  rwa [Zipper.start_length]

theorem AtLine.returns_down (h : AtLine t s lines i) (hfuel : 2 ≤ fuel) :
    Returns (down fuel) (fun _ s' => AtLine t s' lines (min (i + 1) (lines.length - 1)) ∧ Steers s s') s := by
  obtain ⟨bs, a, as, rfl, rfl⟩ := exists_line_at h.lt
  have hat := h.place
  rw [Zipper.start_length] at hat
  cases as with
  | nil =>
    refine hat.returns_down_last.mono fun _ s' hs' => ?_
    subst hs'
    have hmin : min (bs.length + 1) ((bs ++ [a]).length - 1) = bs.length := by simp
    rw [hmin]
    exact ⟨h, rfl, rfl, rfl⟩
  | cons c as =>
    refine (hat.returns_down h.edge hfuel).mono fun _ s' ⟨h', hs'⟩ => ⟨?_, hs'⟩
    have hmin : min (bs.length + 1) ((bs ++ a :: c :: as).length - 1) = (bs ++ [a]).length := by
      simp
    rw [hmin, show bs ++ a :: c :: as = bs ++ [a] ++ c :: as by simp]
    exact h'.atLine (hs'.2.2 ▸ h.edge)

theorem AtLine.returns_up (h : AtLine t s lines i) (hfuel : 2 ≤ fuel) :
    Returns (up fuel) (fun _ s' => AtLine t s' lines (i - 1) ∧ Steers s s') s := by
  obtain ⟨bs, a, as, rfl, rfl⟩ := exists_line_at h.lt
  have hat := h.place
  rw [Zipper.start_length] at hat
  obtain rfl | ⟨bs, b, rfl⟩ := bs.eq_nil_or_concat'
  · refine hat.returns_up_first.mono fun _ s' hs' => ?_
    subst hs'
    exact ⟨h, rfl, rfl, rfl⟩
  · refine (hat.returns_up h.edge hfuel).mono fun _ s' ⟨h', hs'⟩ => ⟨?_, hs'⟩
    rw [List.length_append, List.length_singleton, Nat.add_sub_cancel, List.append_assoc, List.singleton_append]
    exact h'.atLine (hs'.2.2 ▸ h.edge)

end BsdAdditions.Ee
