import BsdAdditions.Ee.DeleteSound
import BsdAdditions.Ee.Screen

/-! What the single steps of the cursor do to the text around it, in either character mode. All of
them return. -/
namespace BsdAdditions.Ee
open Common Common.Prog

/-- The column behind these bytes at the start of a line. -/
def width (eightbit : Bool) (bytes : List UInt8) : ℤ := bytes.foldl (scanByte eightbit) 0

/-- The state as it would be in 8-bit mode. -/
abbrev Editor.narrowed (s : Editor) : Editor := { s with eeChinese := false }

/-- The text and the cursor, whatever the character mode, in a window that scrolls. -/
structure Views (t : Prop) (s : Editor) (z : Zipper) (xs ys : List ℕ) (n : Node) : Prop where
  shows : Shows t s.narrowed z xs ys n
  roomy : Roomy s

variable {t : Prop} {s s' : Editor} {z : Zipper} {xs ys : List ℕ} {n m : Node}
  {bs as : List (List UInt8)} {l r l' r' : List UInt8}

theorem Views.curr (h : Views t s z xs ys n) : s.heap s.currLine = some n := h.shows.inv.curr

theorem Views.scannable (h : Views t s z xs ys n) : Scannable s s.point n := by
  obtain ⟨hc, hb, ho, hu⟩ := h.shows.inv.scannable
  exact ⟨hc, hb, ho, hu⟩

theorem Views.point_eq (h : Views t s ⟨bs, l, r, as⟩ xs ys n) : s.point = ⟨n.line, l.length⟩ :=
  h.shows.point_eq

theorem Views.position_eq (h : Views t s ⟨bs, l, r, as⟩ xs ys n) : s.position = l.length + 1 :=
  h.shows.left

theorem Views.lineLength_eq (h : Views t s ⟨bs, l, r, as⟩ xs ys n) :
    n.lineLength = l.length + r.length + 1 := h.shows.lineLength_eq

theorem Views.exists_holds (h : Views t s ⟨bs, l, r, as⟩ xs ys n) : ∃ rest, Holds t n (l ++ r) rest :=
  h.shows.exists_holds

/-- The column of the cursor, which `scanline` reads off the block, by the line. -/
theorem Views.column_eq (h : Views t s ⟨bs, l, r, as⟩ xs ys n) (eightbit : Bool) :
    n.column eightbit s.point.off = width eightbit l := by
  obtain ⟨rest, hold⟩ := h.exists_holds
  rw [Node.column, h.point_eq, hold.bytes, List.append_assoc, List.take_left, width]

theorem Moves.narrow (h : Moves s s') : Moves s.narrowed s'.narrowed := by
  have h' : s.still.narrowed = s'.still.narrowed := congrArg Editor.narrowed h
  exact h'

theorem Roomy.moves (h : Roomy s) (hm : Moves s s') : Roomy s' := by
  have hcols : s'.cols = s.cols := (congrArg Editor.cols hm).symm
  have hlast : s'.lastCol = s.lastCol := (congrArg Editor.lastCol hm).symm
  exact ⟨hcols ▸ h.wide, by rw [hlast, hcols, h.last]⟩

theorem Moves.map_lineAt (h : Moves s s') (ids : List ℕ) :
    ids.map (lineAt s'.heap) = ids.map (lineAt s.heap) := by rw [h.heap]

/-- The cursor moves within the line. -/
theorem Views.goto (h : Views t s ⟨bs, l, r, as⟩ xs ys n) (hlr : l' ++ r' = l ++ r)
    (hm : Moves s s') (hc : s'.currLine = s.currLine) (hpt : s'.point = ⟨n.line, l'.length⟩)
    (hpos : s'.position = l'.length + 1) : Views t s' ⟨bs, l', r', as⟩ xs ys n := by
  have hlen := congrArg List.length hlr
  simp only [List.length_append] at hlen
  have hline := h.lineLength_eq
  have hinv : Inv t s'.narrowed (xs ++ s.currLine :: ys) n := by
    refine h.shows.inv.move hm.narrow ?_ ?_ ?_ ?_ ?_
    · exact hc ▸ h.shows.inv.mem
    · exact hc ▸ h.shows.inv.curr
    · change 1 ≤ s'.position
      omega
    · change s'.position ≤ n.lineLength
      omega
    · change s'.point = ⟨n.line, s'.position - 1⟩
      rw [hpt, hpos, Nat.add_sub_cancel]
  refine ⟨⟨hc ▸ hinv, ?_, ?_, h.shows.line.trans hlr.symm, hpos⟩, h.roomy.moves hm⟩
  · exact (hm.map_lineAt xs).trans h.shows.before
  · exact (hm.map_lineAt ys).trans h.shows.after

/-- The column of the cursor is found, and remembered. -/
theorem Views.returns_settle (h : Views t s ⟨bs, l, r, as⟩ xs ys n) {fuel : ℕ} (hfuel : 2 ≤ fuel)
    {p : Ptr} (hp : s.point = p) : Returns (do scanline fuel p; syncScrPos)
      (fun _ s' => Views t s' ⟨bs, l, r, as⟩ xs ys n ∧ Moves s s' ∧ s'.currLine = s.currLine ∧
        s'.scrPos = width s.eightbit l) s := by
  subst hp
  rw [returns_bind]
  refine (h.scannable.returns_column h.roomy hfuel).mono fun _ s1 ⟨hs, hcol⟩ => ?_
  rw [syncScrPos, returns_modify]
  obtain ⟨_, _, _, rfl⟩ := hs
  exact ⟨h.goto rfl rfl rfl h.point_eq h.position_eq, rfl, rfl, hcol.trans (h.column_eq _)⟩

/-! ### Inside a line -/

/-- How far a step right goes over a byte with `rest` behind it. -/
def stepRight (wide : Bool) (b : UInt8) (rest : List UInt8) : ℕ :=
  if wide = true ∧ 127 < b ∧ rest ≠ [] then 2 else 1

theorem Views.returns_wideAt {b : UInt8} (h : Views t s ⟨bs, l, b :: r, as⟩ xs ys n)
    {post : Bool → Editor → Prop} :
    Returns wideAt post s ↔ post (decide (stepRight s.eeChinese b r = 2)) s := by
  obtain ⟨rest, hold⟩ := h.exists_holds
  have hlen := h.lineLength_eq
  have hpos := h.position_eq
  have hb : n.bytes = l ++ b :: (r ++ rest) := by simpa using hold.bytes
  have hlt : l.length < n.bytes.length := by simp [hb]
  have hget : n.bytes[l.length] = b := by simp [hb]
  have hroom : 2 ≤ n.lineLength - s.position ↔ r ≠ [] := by
    rw [← List.length_pos_iff, hlen, hpos, List.length_cons]
    omega
  unfold wideAt stepRight
  rw [returns_bind, returns_get]
  cases hw : s.eeChinese with
  | false => simp
  | true =>
    rw [if_pos rfl, returns_bind, h.point_eq, returns_deref h.curr rfl hlt, returns_bind,
      returns_curr h.curr, returns_pure]
    simp [hget, hroom]

theorem Views.returns_beforeEnd (h : Views t s ⟨bs, l, r, as⟩ xs ys n) {post : Bool → Editor → Prop} :
    Returns beforeEnd post s ↔ post (decide (r ≠ [])) s := by
  have hiff : s.position < n.lineLength ↔ r ≠ [] := by
    rw [h.position_eq, h.lineLength_eq, ← List.length_pos_iff]
    omega
  rw [beforeEnd, returns_bind, returns_get, returns_bind, returns_curr h.curr, returns_pure]
  simp only [hiff]

/-- Both copies of the cursor go over a byte, or over a character of two. -/
theorem Views.returns_advances {b : UInt8} (h : Views t s ⟨bs, l, b :: r, as⟩ xs ys n)
    (hlr : l' ++ r' = l ++ b :: r) (hlen : l'.length = l.length + stepRight s.eeChinese b r) :
    Returns (onlyIf (decide (stepRight s.eeChinese b r = 2) = true) (advance 1))
      (fun _ s1 => Returns (advance 1) (fun _ s2 => Views t s2 ⟨bs, l', r', as⟩ xs ys n ∧
        Moves s s2 ∧ s2.currLine = s.currLine ∧ s2.eightbit = s.eightbit) s1) s := by
  refine returns_onlyIf (fun h2 => ?_) fun h1 => ?_
  · rw [decide_eq_true_eq] at h2
    rw [advance, returns_modify, returns_modify]
    refine ⟨h.goto hlr rfl rfl ?_ ?_, rfl, rfl, rfl⟩
    · simp only [h.point_eq, Ptr.add, hlen, h2]
    · simp only [h.position_eq, hlen, h2]
  · rw [decide_eq_true_eq] at h1
    have h1 : stepRight s.eeChinese b r = 1 := by
      unfold stepRight at h1 ⊢
      split_ifs at h1 ⊢
      · exact absurd rfl h1
      · rfl
    rw [advance, returns_modify]
    refine ⟨h.goto hlr rfl rfl ?_ ?_, rfl, rfl, rfl⟩
    · simp only [h.point_eq, Ptr.add, hlen, h1]
    · simp only [h.position_eq, hlen, h1]

/-- A step right over a byte, or over a character of two. -/
theorem Views.returns_right {b : UInt8} (h : Views t s ⟨bs, l, b :: r, as⟩ xs ys n) {fuel : ℕ}
    (hfuel : 2 ≤ fuel) (hlr : l' ++ r' = l ++ b :: r)
    (hlen : l'.length = l.length + stepRight s.eeChinese b r) :
    Returns (right fuel true) (fun _ s' => Views t s' ⟨bs, l', r', as⟩ xs ys n ∧ Moves s s' ∧
      s'.currLine = s.currLine ∧ s'.scrPos = width s.eightbit l') s := by
  have hlt : s.position < n.lineLength := by
    rw [h.position_eq, h.lineLength_eq, List.length_cons]
    omega
  rw [right, returns_bind, returns_get, returns_bind, returns_curr h.curr, if_pos hlt, returns_bind,
    h.returns_wideAt, returns_bind]
  refine (h.returns_advances hlr hlen).mono fun _ s1 hs1 => ?_
  rw [returns_bind]
  refine hs1.mono fun _ s2 hpost => ?_
  obtain ⟨h2, hm2, hc2, he2⟩ := hpost
  rw [returns_bind, returns_get]
  refine (h2.returns_settle hfuel rfl).mono fun _ s3 hpost => ?_
  obtain ⟨h3, hm3, hc3, hscr⟩ := hpost
  exact ⟨h3, IsTrans.trans (r := Moves) _ _ _ hm2 hm3, hc3.trans hc2, he2 ▸ hscr⟩

/-- How far a step left goes when `a` is the last byte but one. -/
def stepLeft (wide : Bool) (a : UInt8) : ℕ := if wide = true ∧ 127 < a then 2 else 1

/-- A step left from behind `l` goes back `k` bytes. -/
def StepsBack (wide : Bool) (l : List UInt8) (k : ℕ) : Prop :=
  (wide = false ∧ l ≠ [] ∧ k = 1) ∨ ∃ l₀ a b, l = l₀ ++ [a, b] ∧ k = stepLeft wide a

theorem stepLeft_cases (wide : Bool) (a : UInt8) : stepLeft wide a = 1 ∨ stepLeft wide a = 2 := by
  unfold stepLeft
  split_ifs
  · exact .inr rfl
  · exact .inl rfl

theorem StepsBack.cases {wide : Bool} {k : ℕ} (h : StepsBack wide l k) :
    l ≠ [] ∧ (k = 1 ∨ k = 2 ∧ 2 ≤ l.length) := by
  rcases h with ⟨-, hne, rfl⟩ | ⟨l₀, a, b, rfl, rfl⟩
  · exact ⟨hne, .inl rfl⟩
  · refine ⟨by simp, (stepLeft_cases wide a).imp_right fun h2 => ⟨h2, ?_⟩⟩
    simp

theorem Views.returns_wideBefore {k : ℕ} (h : Views t s ⟨bs, l, r, as⟩ xs ys n)
    (hk : StepsBack s.eeChinese l k) {post : Bool → Editor → Prop} :
    Returns wideBefore post s ↔ post (decide (k = 2)) s := by
  unfold wideBefore
  rw [returns_bind, returns_get]
  cases hw : s.eeChinese with
  | false =>
    have hk : k = 1 := by
      rcases hk with ⟨-, -, rfl⟩ | ⟨l₀, a, b, -, rfl⟩
      · rfl
      · simp [stepLeft, hw]
    simp [hk]
  | true =>
    rw [hw] at hk
    obtain ⟨hf, -⟩ | ⟨l₀, a, b, rfl, rfl⟩ := hk
    · cases hf
    obtain ⟨rest, hold⟩ := h.exists_holds
    have hb : n.bytes = l₀ ++ a :: (b :: r ++ rest) := by simpa using hold.bytes
    have hlt : l₀.length < n.bytes.length := by simp [hb]
    have hget : n.bytes[l₀.length] = a := by simp [hb]
    have hsub : s.point.sub? 2 = some ⟨n.line, l₀.length⟩ := by simp [h.point_eq, Ptr.sub?]
    have hpos : 2 ≤ s.position := by
      rw [h.position_eq, List.length_append]
      simp
    rw [if_pos ⟨rfl, hpos⟩, returns_bind, hsub, returns_orFault_some, returns_bind,
      returns_deref h.curr rfl hlt, returns_pure]
    simp [hget, stepLeft]

/-- Behind the first byte of a line 16-bit mode looks at a byte in front of the line. -/
theorem Views.wideBefore_fault {b : UInt8} (h : Views t s ⟨bs, [b], r, as⟩ xs ys n)
    (hw : s.eeChinese = true) : wideBefore s = .error .fault := by
  have hsub : s.point.sub? 2 = none := by simp [h.point_eq, Ptr.sub?]
  have hpos : s.position = 2 := h.position_eq
  rw [wideBefore, bind_of_ok rfl, if_pos ⟨hw, by omega⟩, hsub]
  rfl

theorem Views.point_ne_start (h : Views t s ⟨bs, l, r, as⟩ xs ys n) (hl : l ≠ []) :
    s.point ≠ n.start := by
  intro heq
  exact hl (h.shows.point_eq_start_iff.mp heq)

theorem Views.returns_offStart (h : Views t s ⟨bs, l, r, as⟩ xs ys n) {post : Bool → Editor → Prop} :
    Returns offStart post s ↔ post (decide (l ≠ [])) s := by
  have hiff : s.point = n.start ↔ l = [] := h.shows.point_eq_start_iff
  rw [offStart, returns_bind, returns_get, returns_bind, returns_curr h.curr, returns_pure]
  simp only [ne_eq, hiff]

theorem Views.returns_retreat {k : ℕ} (h : Views t s ⟨bs, l, r, as⟩ xs ys n)
    (hlr : l' ++ r' = l ++ r) (hlen : l'.length + k = l.length) :
    Returns (retreat k) (fun _ s' => Views t s' ⟨bs, l', r', as⟩ xs ys n ∧ Moves s s' ∧
      s'.currLine = s.currLine) s := by
  have hsub : s.point.sub? k = some ⟨n.line, l'.length⟩ := by
    rw [h.point_eq, Ptr.sub?, if_pos (show k ≤ l.length by omega)]
    simp only [Option.some.injEq, Ptr.mk.injEq, true_and]
    omega
  rw [retreat, returns_bind, returns_get, returns_bind, hsub, returns_orFault_some, returns_set]
  refine ⟨h.goto hlr rfl rfl rfl ?_, rfl, rfl⟩
  change s.position - k = l'.length + 1
  rw [h.position_eq]
  omega

/-- A step left inside the line. -/
theorem Views.returns_left {k : ℕ} (h : Views t s ⟨bs, l, r, as⟩ xs ys n) {fuel : ℕ}
    (hfuel : 2 ≤ fuel) (hk : StepsBack s.eeChinese l k) (hlr : l' ++ r' = l ++ r)
    (hlen : l'.length + k = l.length) :
    Returns (left fuel true) (fun _ s' => Views t s' ⟨bs, l', r', as⟩ xs ys n ∧ Moves s s' ∧
      s'.currLine = s.currLine ∧ s'.scrPos = width s.eightbit l') s := by
  obtain ⟨hl, hk'⟩ := hk.cases
  have hne : s.point ≠ n.start := h.point_ne_start hl
  rw [left, returns_bind, returns_get, returns_bind, returns_curr h.curr, if_pos hne, returns_bind,
    h.returns_wideBefore hk, returns_bind]
  have hstep : Returns (onlyIf (decide (k = 2) = true) (retreat 1))
      (fun _ s1 => Returns (retreat 1) (fun _ s2 => Views t s2 ⟨bs, l', r', as⟩ xs ys n ∧
        Moves s s2 ∧ s2.currLine = s.currLine) s1) s := by
    refine returns_onlyIf (fun h2 => ?_) fun h1 => ?_
    · rw [decide_eq_true_eq] at h2
      obtain ⟨l₁, b, rfl⟩ := l.eq_nil_or_concat'.resolve_left hl
      simp only [List.length_append, List.length_singleton] at hlen
      refine (h.returns_retreat (show l₁ ++ b :: r = _ by simp) (by simp)).mono
        fun _ s1 hpost => ?_
      obtain ⟨h1, hm1, hc1⟩ := hpost
      refine (h1.returns_retreat (hlr.trans (by simp)) (by omega)).mono fun _ s2 hpost => ?_
      obtain ⟨h2, hm2, hc2⟩ := hpost
      exact ⟨h2, IsTrans.trans (r := Moves) _ _ _ hm1 hm2, hc2.trans hc1⟩
    · rw [decide_eq_true_eq] at h1
      exact h.returns_retreat hlr (by omega)
  refine hstep.mono fun _ s1 hs1 => ?_
  rw [returns_bind]
  refine hs1.mono fun _ s2 hpost => ?_
  obtain ⟨h2, hm2, hc2⟩ := hpost
  have he2 : s2.eightbit = s.eightbit := (congrArg Editor.eightbit hm2).symm
  rw [returns_bind, returns_get]
  refine (h2.returns_settle hfuel rfl).mono fun _ s3 hpost => ?_
  obtain ⟨h3, hm3, hc3, hscr⟩ := hpost
  exact ⟨h3, IsTrans.trans (r := Moves) _ _ _ hm2 hm3, hc3.trans hc2, he2 ▸ hscr⟩

theorem Views.left_fault {b : UInt8} (h : Views t s ⟨bs, [b], r, as⟩ xs ys n)
    (hw : s.eeChinese = true) (fuel : ℕ) (post : Unit → Editor → Prop) :
    ¬ Returns (left fuel true) post s := by
  have hne : s.point ≠ n.start := h.point_ne_start (by simp)
  rw [left, returns_bind, returns_get, returns_bind, returns_curr h.curr, if_pos hne, returns_bind]
  rintro ⟨_, _, hok, -⟩
  rw [h.wideBefore_fault hw] at hok
  cases hok

/-! ### Between lines -/

/-- The next line, with the cursor at its start. -/
theorem Views.next {i : ℕ} {a : List UInt8} (h : Views t s ⟨bs, l, r, a :: as⟩ xs (i :: ys) n)
    (hm : Moves s s') (hc : s'.currLine = i) (hi : s.heap i = some m) (hpt : s'.point = m.start)
    (hpos : s'.position = 1) :
    Views t s' ⟨bs ++ [l ++ r], [], a, as⟩ (xs ++ [s.currLine]) ys m := by
  have hids : xs ++ s.currLine :: i :: ys = xs ++ [s.currLine] ++ s'.currLine :: ys := by
    rw [hc]
    simp
  have hinv : Inv t s'.narrowed (xs ++ s.currLine :: i :: ys) m :=
    h.shows.inv.enter hm.narrow (by simp [hc]) (hc ▸ hi) hpos hpt
  obtain ⟨ha, has⟩ := List.cons_eq_cons.mp h.shows.after
  refine ⟨⟨hids ▸ hinv, ?_, ?_, ?_, hpos⟩, h.roomy.moves hm⟩
  · change (xs ++ [s.currLine]).map (lineAt s'.heap) = bs ++ [l ++ r]
    rw [hm.map_lineAt, List.map_append, List.map_singleton, lineAt, h.curr]
    exact congrArg₂ (· ++ ·) h.shows.before (congrArg (fun x => [x]) h.shows.line)
  · exact (hm.map_lineAt ys).trans has
  · have hline : lineAt s.heap i = m.content := by rw [lineAt, hi, Option.elim_some]
    exact hline.symm.trans ha

/-- The line before, with the cursor at a place of it. -/
theorem Views.prev {i : ℕ} {b : List UInt8} (h : Views t s ⟨bs ++ [b], l, r, as⟩ (xs ++ [i]) ys n)
    (hm : Moves s s') (hc : s'.currLine = i) (hi : s.heap i = some m) (hlr : l' ++ r' = b)
    (hpt : s'.point = ⟨m.line, l'.length⟩) (hpos : s'.position = l'.length + 1) :
    Views t s' ⟨bs, l', r', (l ++ r) :: as⟩ xs (s.currLine :: ys) m := by
  have hids : xs ++ [i] ++ s.currLine :: ys = xs ++ s'.currLine :: s.currLine :: ys := by
    rw [hc]
    simp
  obtain ⟨m', rest, hm', -, -, hold⟩ := h.shows.exists_before
  obtain rfl : m' = m := Option.some.inj (hm'.symm.trans hi)
  have hlen := hold.length
  rw [← hlr, List.length_append] at hlen
  have hinv : Inv t s'.narrowed (xs ++ [i] ++ s.currLine :: ys) m' := by
    refine h.shows.inv.move hm.narrow (by simp [hc]) (hc ▸ hi) ?_ ?_ ?_
    · change 1 ≤ s'.position
      omega
    · change s'.position ≤ m'.lineLength
      omega
    · change s'.point = ⟨m'.line, s'.position - 1⟩
      rw [hpt, hpos, Nat.add_sub_cancel]
  refine ⟨⟨hids ▸ hinv, ?_, ?_, ?_, hpos⟩, h.roomy.moves hm⟩
  · have hmap := h.shows.before
    rw [List.map_append] at hmap
    exact (hm.map_lineAt xs).trans (List.append_inj' hmap rfl).1
  · change (s.currLine :: ys).map (lineAt s'.heap) = (l ++ r) :: as
    rw [hm.map_lineAt, List.map_cons, lineAt, h.curr]
    exact congrArg₂ List.cons h.shows.line h.shows.after
  · exact hold.content.trans hlr.symm

theorem Views.next_eq (h : Views t s ⟨bs, l, r, as⟩ xs ys n) : n.next = ys.head? :=
  h.shows.inv.lines.chain.next_eq h.shows.inv.curr

theorem Views.after_length (h : Views t s ⟨bs, l, r, as⟩ xs ys n) : ys.length = as.length := by
  have hmap := congrArg List.length h.shows.after
  rwa [List.length_map] at hmap

theorem Views.before_length (h : Views t s ⟨bs, l, r, as⟩ xs ys n) : xs.length = bs.length := by
  have hmap := congrArg List.length h.shows.before
  rwa [List.length_map] at hmap

/-- A line below goes with a node below. -/
theorem Views.exists_next {a : List UInt8} (h : Views t s ⟨bs, l, r, a :: as⟩ xs ys n) :
    ∃ i ys' m, ys = i :: ys' ∧ n.next = some i ∧ s.heap i = some m := by
  have hlen := h.after_length
  cases ys with
  | nil => simp at hlen
  | cons i ys' =>
    have hnext := h.next_eq
    obtain ⟨m, hm, -⟩ := h.shows.inv.lines.exists_node (i := i) (by simp)
    exact ⟨i, ys', m, rfl, hnext, hm⟩

/-- A line above goes with a node above. -/
theorem Views.exists_prev {b : List UInt8} (h : Views t s ⟨bs ++ [b], l, r, as⟩ xs ys n) :
    ∃ i xs' m rest, xs = xs' ++ [i] ∧ n.prev = some i ∧ s.heap i = some m ∧ Holds t m b rest := by
  have hlen := h.before_length
  obtain rfl | ⟨xs', i, rfl⟩ := xs.eq_nil_or_concat'
  · simp at hlen
  · obtain ⟨m, rest, hm, hprev, -, hold⟩ := h.shows.exists_before
    exact ⟨i, xs', m, rest, rfl, hprev, hm, hold⟩

theorem Views.prev_eq_none (h : Views t s ⟨[], l, r, as⟩ xs ys n) : n.prev = none := by
  have hlen := h.before_length
  obtain rfl : xs = [] := List.length_eq_zero_iff.mp hlen
  obtain ⟨m, hm, hprev, -⟩ := h.shows.inv.lines.chain
  obtain rfl : m = n := Option.some.inj (hm.symm.trans h.curr)
  exact hprev

theorem Views.next_eq_none (h : Views t s ⟨bs, l, r, []⟩ xs ys n) : n.next = none := by
  have hlen := h.after_length
  obtain rfl : ys = [] := List.length_eq_zero_iff.mp hlen
  exact h.next_eq

/-- A step right from the end of a line. -/
theorem Views.returns_right_next {a : List UInt8} (h : Views t s ⟨bs, l, [], a :: as⟩ xs ys n)
    {fuel : ℕ} (hfuel : 2 ≤ fuel) : ∃ i ys', ys = i :: ys' ∧ Returns (right fuel true)
      (fun _ s' => ∃ m, Views t s' ⟨bs ++ [l], [], a, as⟩ (xs ++ [s.currLine]) ys' m ∧ Moves s s' ∧
        s'.currLine = i ∧ s'.scrPos = 0) s := by
  obtain ⟨i, ys', m, rfl, hnext, hm⟩ := h.exists_next
  refine ⟨i, ys', rfl, ?_⟩
  have hge : ¬ s.position < n.lineLength := by
    rw [h.position_eq, h.lineLength_eq, List.length_nil]
    omega
  rw [right, returns_bind, returns_get, returns_bind, returns_curr h.curr, if_neg hge, hnext]
  dsimp only
  rw [if_neg (by simp), returns_bind, nextline, returns_bind, returns_get, returns_bind,
    returns_curr h.curr, returns_bind, hnext, returns_orFault_some, returns_bind, returns_node hm,
    returns_set, returns_bind, returns_modify, returns_bind]
  have h1 : Views t { s with
      currLine := i, absoluteLin := s.absoluteLin + 1, point := m.start, position := 1, scrPos := 0,
      scrHorz := 0, scrVert := if s.scrVert = s.lastLine then s.scrVert else s.scrVert + 1 }
      ⟨bs ++ [l ++ []], [], a, as⟩ (xs ++ [s.currLine]) ys' m :=
    h.next rfl rfl hm rfl rfl
  rw [List.append_nil] at h1
  refine (h1.scannable.returns_resetOffset h1.roomy hfuel).mono fun _ s2 hs2 => ?_
  rw [returns_modify]
  obtain ⟨_, _, _, rfl⟩ := hs2
  exact ⟨m, h1.goto rfl rfl rfl rfl rfl, rfl, rfl, rfl⟩

theorem Views.returns_right_last (h : Views t s ⟨bs, l, [], []⟩ xs ys n) (fuel : ℕ) :
    Returns (right fuel true) (fun _ s' => s' = s) s := by
  have hge : ¬ s.position < n.lineLength := by
    rw [h.position_eq, h.lineLength_eq, List.length_nil]
    omega
  rw [right, returns_bind, returns_get, returns_bind, returns_curr h.curr, if_neg hge, h.next_eq_none]
  exact (returns_pure _ _ _).mpr rfl

/-- A step left from the start of a line. -/
theorem Views.returns_left_prev {b : List UInt8} (h : Views t s ⟨bs ++ [b], [], r, as⟩ xs ys n)
    {fuel : ℕ} (hfuel : 2 ≤ fuel) : ∃ i xs', xs = xs' ++ [i] ∧ Returns (left fuel true)
      (fun _ s' => ∃ m, Views t s' ⟨bs, b, [], r :: as⟩ xs' (s.currLine :: ys) m ∧ Moves s s' ∧
        s'.currLine = i ∧ s'.scrPos = width s.eightbit b) s := by
  obtain ⟨i, xs', m, rest, rfl, hprev, hm, hold⟩ := h.exists_prev
  refine ⟨i, xs', rfl, ?_⟩
  have hstart : s.point = n.start := h.shows.point_eq_start_iff.mpr rfl
  have hlen := hold.length
  rw [left, returns_bind, returns_get, returns_bind, returns_curr h.curr, if_neg (not_not_intro hstart),
    hprev]
  dsimp only
  rw [if_neg (by simp), returns_bind, prevline, returns_bind, returns_get, returns_bind,
    returns_curr h.curr, returns_bind, hprev, returns_orFault_some, returns_bind, returns_node hm,
    returns_set, returns_bind, returns_get]
  have h1 : Views t { s with
      currLine := i, absoluteLin := s.absoluteLin - 1, point := m.start.add (m.lineLength - 1),
      position := 1 + (m.lineLength - 1),
      scrVert := if s.scrVert = 0 then s.scrVert else s.scrVert - 1 }
      ⟨bs, b, [], [] ++ r :: as⟩ xs' (s.currLine :: ys) m := by
    refine h.prev rfl rfl hm (List.append_nil b) ?_ ?_
    · simp only [Node.start, Ptr.add, hlen, Nat.add_sub_cancel, Nat.zero_add]
    · simp only [hlen, Nat.add_sub_cancel, Nat.add_comm]
  refine (h1.returns_settle hfuel rfl).mono fun _ s2 hpost => ?_
  obtain ⟨h2, hm2, hc2, hscr⟩ := hpost
  exact ⟨m, h2, hm2, hc2, hscr⟩

theorem Views.returns_left_first (h : Views t s ⟨[], [], r, as⟩ xs ys n) (fuel : ℕ) :
    Returns (left fuel true) (fun _ s' => s' = s) s := by
  have hstart : s.point = n.start := h.shows.point_eq_start_iff.mpr rfl
  rw [left, returns_bind, returns_get, returns_bind, returns_curr h.curr, if_neg (not_not_intro hstart),
    h.prev_eq_none]
  exact (returns_pure _ _ _).mpr rfl

/-! ### Deleting -/

theorem Views.of_core (h : Views t s z xs ys n) (hs : s'.core = s.core) (hw : Roomy s') :
    Views t s' z xs ys n := by
  refine ⟨h.shows.of_core ?_, hw⟩
  simp only [Editor.core, Prod.mk.injEq] at hs ⊢
  exact ⟨hs.1, hs.2.1, hs.2.2.1, hs.2.2.2.1, hs.2.2.2.2.1, hs.2.2.2.2.2.1, trivial⟩

theorem Views.returns_columnBack (h : Views t s z xs ys n) {fuel : ℕ} (hfuel : 2 ≤ fuel)
    (back : ℕ) : Returns (columnBack fuel back) (fun _ s' => Rests s s') s := by
  have hlt : s.point.off < n.bytes.length := h.shows.inv.off_lt
  rw [columnBack, returns_bind, returns_get, returns_bind, returns_deref h.curr h.scannable.block hlt]
  refine returns_ite (fun _ => ?_) fun _ => ?_
  · rw [returns_bind]
    refine (h.scannable.returns_scanline h.roomy hfuel).mono fun _ s1 hs => ?_
    rw [syncScrPos, returns_modify]
    obtain ⟨_, _, _, rfl⟩ := hs
    exact ⟨rfl, rfl, rfl, rfl⟩
  · rw [returns_set]
    exact ⟨rfl, rfl, rfl, rfl⟩

theorem returns_saveChar (w : List UInt8) {post : Unit → Editor → Prop}
    (hpost : ∀ d, post () { s with dChar := d }) : Returns (saveChar w) post s := by
  rw [saveChar, returns_bind, returns_get]
  exact returns_onlyIf (fun _ => (returns_set _ _ _).mpr (hpost _)) fun _ => hpost s.dChar

theorem returns_setCurr {n' : Node} {post : Unit → Editor → Prop} :
    Returns (setCurr n') post s ↔ post () (s.setNode s.currLine n') := by
  rw [setCurr, returns_bind, returns_get, setNode, returns_modify]

/-- The node of the current line is replaced in place. -/
theorem Views.replace (h : Views t s ⟨bs, l, r, as⟩ xs ys n) {t' : Prop} (ht : t' → t) {n' : Node}
    {rest : List UInt8} (hs : Rests (s.setNode s.currLine n') s') (hlinks : SameLinks n n')
    (hline : n'.line = n.line) (hold : Holds t' n' (l ++ r') rest) :
    Views t' s' ⟨bs, l, r', as⟩ xs ys n' := by
  obtain ⟨hm, hc, hp, hpos⟩ := hs
  refine ⟨h.shows.replace ht ?_ hlinks hold hc ?_ ?_ rfl ?_ ?_ rfl rfl, ?_⟩
  · exact hm.heap
  · exact hm.firstLine
  · exact Nat.le_of_eq hm.fresh.symm
  · exact hp.trans (h.point_eq.trans (by rw [hline]))
  · exact hpos.trans h.position_eq
  · have hw : Roomy (s.setNode s.currLine n') := ⟨h.roomy.wide, h.roomy.last⟩
    exact hw.moves hm

/-- Deleting inside the line takes away what a step left would have gone over. -/
theorem Views.returns_deleteInLine {w : List UInt8} (h : Views t s ⟨bs, l ++ w, r, as⟩ xs ys n)
    {fuel : ℕ} (hfuel : 2 ≤ fuel) (hk : StepsBack s.eeChinese (l ++ w) w.length) :
    Returns (deleteInLine fuel) (fun _ s' => ∃ n', Views t s' ⟨bs, l, r, as⟩ xs ys n' ∧
      s'.currLine = s.currLine) s := by
  have hwidth : (if decide (w.length = 2) = true then 2 else 1) = w.length := by
    rcases hk.cases.2 with h1 | ⟨h2, -⟩
    · rw [h1]
      rfl
    · rw [h2]
      rfl
  have h1 : Views t { s with textChanges := true } ⟨bs, l ++ w, r, as⟩ xs ys n :=
    h.of_core rfl ⟨h.roomy.wide, h.roomy.last⟩
  rw [deleteInLine, returns_bind, markChanged, returns_modify, returns_bind,
    h1.returns_wideBefore hk]
  simp only [hwidth]
  rw [returns_bind]
  refine (h1.returns_retreat (show l ++ (w ++ r) = _ by simp) (by simp)).mono
    fun _ s2 hpost => ?_
  obtain ⟨h2, hm2, hc2⟩ := hpost
  obtain ⟨rest, hold⟩ := h2.exists_holds
  rw [← List.append_assoc] at hold
  obtain ⟨n', rest', hcopy, hlinks, hline, hold'⟩ := hold.deleteRun
  -- the line is cut before its rest moves down: for now nothing is known of the terminator
  obtain ⟨r₀, tail, hsplit, htail⟩ : ∃ r₀ tail, w ++ r = r₀ ++ tail ∧ tail.length = w.length := by
    refine ⟨(w ++ r).take r.length, (w ++ r).drop r.length, (List.take_append_drop _ _).symm, ?_⟩
    rw [List.length_drop, List.length_append, Nat.add_sub_cancel]
  obtain ⟨rest₀, hcut⟩ : ∃ rest₀, Holds False { n with lineLength := n.lineLength - w.length }
      (l ++ r₀) rest₀ := by
    rw [← htail]
    have hold₀ : Holds t n (l ++ r₀ ++ tail) rest := by
      rwa [List.append_assoc, ← hsplit, ← List.append_assoc]
    exact hold₀.cut
  rw [returns_bind, returns_get, returns_bind, returns_curr h2.curr, returns_bind, returns_setCurr,
    returns_bind]
  have h3 : Views False (s2.setNode s2.currLine { n with lineLength := n.lineLength - w.length })
      ⟨bs, l, r₀, as⟩ xs ys { n with lineLength := n.lineLength - w.length } :=
    h2.replace False.elim ⟨rfl, rfl, rfl, rfl⟩ ⟨rfl, rfl⟩ rfl hcut
  refine (h3.returns_columnBack hfuel w.length).mono fun _ s4 hs4 => ?_
  obtain ⟨hm4, hc4, hp4, hpos4⟩ := hs4
  have hcurr4 : s4.heap s4.currLine = some { n with lineLength := n.lineLength - w.length } := by
    rw [hm4.heap, hc4]
    exact h3.curr
  have hread : ({ n with lineLength := n.lineLength - w.length } : Node).readMany s2.point w.length =
      some ((n.bytes.drop s2.point.off).take w.length) := by
    refine Node.readMany_eq h2.scannable.block ?_
    simp only [h2.point_eq, hold.bytes, List.length_append]
    omega
  rw [returns_bind, returns_curr hcurr4, returns_bind, hread, returns_orFault_some, returns_bind]
  refine returns_saveChar _ fun d => ?_
  rw [returns_bind]
  refine (returns_curr (s := { s4 with dChar := d }) hcurr4).mpr ?_
  rw [returns_bind, h2.point_eq, h2.position_eq, Ptr.add, hcopy, returns_orFault_some, returns_bind,
    returns_setCurr, returns_bind, returns_get]
  have h5 : Views t (Editor.setNode { s4 with dChar := d } s4.currLine n') ⟨bs, l, r, as⟩ xs ys n' := by
    refine ⟨h2.shows.replace id ?_ hlinks hold' hc4 hm4.firstLine ?_ rfl ?_ ?_ rfl rfl, ?_⟩
    · simp only [Editor.setNode, hm4.heap, hc4, Function.update_idem]
    · exact Nat.le_of_eq hm4.fresh.symm
    · exact (hp4.trans h2.point_eq).trans (by rw [hline])
    · exact hpos4.trans h2.position_eq
    · have hw4 := h3.roomy.moves hm4
      exact ⟨hw4.wide, hw4.last⟩
  have hc5 : s4.currLine = s.currLine := hc4.trans hc2
  refine returns_onlyIf (fun _ => ?_) fun _ => ⟨n', h5, hc5⟩
  rw [returns_bind, returns_set]
  have h6 : Views t { Editor.setNode { s4 with dChar := d } s4.currLine n' with
      horizOffset := s4.horizOffset - 8 } ⟨bs, l, r, as⟩ xs ys n' :=
    h5.of_core rfl ⟨h5.roomy.wide, h5.roomy.last⟩
  refine (h6.scannable.returns_midscreen h6.roomy hfuel _).mono fun _ s7 hs7 => ?_
  refine ⟨n', h6.of_core (Rests.of_scrolls hs7).core (h6.roomy.scroll hs7), ?_⟩
  exact (Rests.of_scrolls hs7).2.1.trans hc5

theorem Views.returns_delete {w : List UInt8} (h : Views t s ⟨bs, l ++ w, r, as⟩ xs ys n)
    {fuel : ℕ} (hfuel : 2 ≤ fuel) (hk : StepsBack s.eeChinese (l ++ w) w.length) (disp : Bool) :
    Returns (delete fuel disp) (fun _ s' => ∃ n', Views t s' ⟨bs, l, r, as⟩ xs ys n' ∧
      s'.currLine = s.currLine) s := by
  have hne : s.point ≠ n.start := h.point_ne_start hk.cases.1
  rw [delete, returns_bind, deleteBack, returns_bind, offStart, returns_bind, returns_get,
    returns_bind, returns_curr h.curr, returns_pure, if_pos (by simpa using hne)]
  refine (h.returns_deleteInLine hfuel hk).mono fun _ s1 hpost => ?_
  obtain ⟨n', h1, hc1⟩ := hpost
  rw [returns_modify]
  exact ⟨n', h1.of_core rfl ⟨h1.roomy.wide, h1.roomy.last⟩, hc1⟩

theorem Views.delete_fault {b : UInt8} (h : Views t s ⟨bs, [b], r, as⟩ xs ys n)
    (hw : s.eeChinese = true) (fuel : ℕ) (disp : Bool) (post : Unit → Editor → Prop) :
    ¬ Returns (delete fuel disp) post s := by
  have hne : s.point ≠ n.start := h.point_ne_start (by simp)
  have h1 : Views t { s with textChanges := true } ⟨bs, [b], r, as⟩ xs ys n :=
    h.of_core rfl ⟨h.roomy.wide, h.roomy.last⟩
  rw [delete, returns_bind, deleteBack, returns_bind, offStart, returns_bind, returns_get,
    returns_bind, returns_curr h.curr, returns_pure, if_pos (by simpa using hne), deleteInLine,
    returns_bind, markChanged, returns_modify, returns_bind]
  rintro ⟨_, _, hok, -⟩
  rw [h1.wideBefore_fault hw] at hok
  cases hok

end BsdAdditions.Ee
