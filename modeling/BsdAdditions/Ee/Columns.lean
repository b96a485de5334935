import BsdAdditions.Ee.Motion
import BsdAdditions.Ee.Wide

/-! The column of the cursor after a movement to another line, which `find_pos` counts with rules of
its own, against the column that `scanline` counts and the widths that `len_char` gives. -/
namespace BsdAdditions.Ee
open Common Common.Prog

variable {t : Prop} {s s' : Editor} {z : Zipper} {xs ys : List ℕ} {n : Node} {fuel : ℕ}
  {bs as : List (List UInt8)} {l r line : List UInt8}

/-- The widths of the bytes, each at the column that those before it reach, added up. -/
def lenSum (eightbit : Bool) (bytes : List UInt8) : ℤ :=
  bytes.foldl (fun w b => w + lenChar eightbit b.toNat w) 0

theorem scanByte_eq_lenChar (eightbit : Bool) (w : ℤ) (b : UInt8) :
    scanByte eightbit w b = w + lenChar eightbit b.toNat w := by
  have hlt := b.toNat_lt
  simp only [scanByte, lenChar, UInt8.le_iff_toNat_le, UInt8.lt_iff_toNat_lt, ← UInt8.toNat_inj,
    UInt8.toNat_ofNat, TAB]
  grind

theorem width_eq_lenSum (eightbit : Bool) (bytes : List UInt8) :
    width eightbit bytes = lenSum eightbit bytes := by
  have hstep : scanByte eightbit = fun w b => w + lenChar eightbit b.toNat w := by
    funext w b
    exact scanByte_eq_lenChar eightbit w b
  rw [width, lenSum, hstep]

/-- Below DEL the rules of `find_pos` are those of `scanline`. -/
theorem findByte_eq_scanByte (eightbit : Bool) (w : ℤ) {b : UInt8} (hb : b < 127) :
    findByte w b = scanByte eightbit w b := by
  simp only [findByte, scanByte, UInt8.le_iff_toNat_le, UInt8.lt_iff_toNat_lt, ← UInt8.toNat_inj,
    UInt8.toNat_ofNat] at hb ⊢
  grind

theorem findFrom_low (wide eightbit : Bool) (aim : ℤ) (w : ℤ) (h : ∀ b ∈ line, b < 127) :
    (findFrom wide aim line w).2 =
      (line.take (findFrom wide aim line w).1).foldl (scanByte eightbit) w := by
  fun_induction findFrom wide aim line w with
  | case1 => rfl
  | case2 b w => exact findByte_eq_scanByte eightbit w (h b List.mem_cons_self)
  | case3 | case6 => rfl
  | case4 b c r w _ hwide =>
    have hlow := h b List.mem_cons_self
    exact absurd (UInt8.lt_trans hwide.2 hlow) (by decide)
  | case5 b c r w _ _ ih =>
    rw [Prod.map_snd, Prod.map_fst, id, ih fun x hx => h x (List.mem_cons_of_mem b hx),
      findByte_eq_scanByte eightbit w (h b List.mem_cons_self), List.take_succ_cons, List.foldl_cons]

/-- The cursor moves onto the line, from the one above or the one below. -/
inductive Onto (line : List UInt8) : Zipper → (ℕ → Ed Unit) → Prop
  | fromAbove (bs as : List (List UInt8)) (l r : List UInt8) : Onto line ⟨bs, l, r, line :: as⟩ down
  | fromBelow (bs as : List (List UInt8)) (l r : List UInt8) : Onto line ⟨bs ++ [line], l, r, as⟩ up

/-- After the movement the column of the cursor is the widths before it added up, and the one that
`scanline` finds. -/
def ColumnAgrees (move : Ed Unit) (line : List UInt8) (s : Editor) : Prop :=
  Returns move (fun _ s' => s'.scrHorz = lenSum s'.eightbit (line.take (s'.position - 1)) ∧
    ∀ fuel, 2 ≤ fuel →
      Returns (scanline fuel s'.point) (fun _ s'' => s''.scrHorz = s'.scrHorz) s') s

/-- Either movement puts the cursor behind the bytes that `find_pos` passes. -/
theorem Views.returns_onto {move : ℕ → Ed Unit} {k : ℕ} {w : ℤ} (h : Views t s z xs ys n)
    (hmove : Onto line z move) (hfind : findFrom s.eeChinese s.scrPos line 0 = (k, w))
    (hfuel : 2 ≤ fuel) (hk : k < fuel) :
    Returns (move fuel) (fun _ s' => (∃ bs' as' xs' ys' m,
        Views t s' ⟨bs', line.take k, line.drop k, as'⟩ xs' ys' m) ∧ Moves s s' ∧
      s'.scrHorz = if s.lastCol < w - s.horizOffset ∨ w < s.horizOffset
        then width s.eightbit (line.take k) else w) s := by
  cases hmove with
  | fromAbove bs as l r =>
    obtain ⟨i, ys', m, rfl, hnext, hm⟩ := h.exists_next
    rw [down, returns_bind, returns_curr h.curr, onlyIf, if_pos (by simp [hnext]), returns_bind,
      returns_nextline h.curr hnext hm]
    have h1 : Views t { s with
        currLine := i, absoluteLin := s.absoluteLin + 1, point := m.start, position := 1,
        scrVert := if s.scrVert = s.lastLine then s.scrVert else s.scrVert + 1 }
        ⟨bs ++ [l ++ r], [], line, as⟩ (xs ++ [s.currLine]) ys' m := h.next rfl rfl hm rfl rfl
    refine Returns.mono (h1.returns_findPos (by rfl) hfind hfuel hk) fun _ s' hpost => ?_
    obtain ⟨h', hs', hcol⟩ := hpost
    exact ⟨⟨_, _, _, _, _, h'⟩, hs'.1, hcol⟩
  | fromBelow bs as l r =>
    obtain ⟨i, xs', m, rest, rfl, hprev, hm, hold⟩ := h.exists_prev
    rw [up, returns_bind, returns_curr h.curr, onlyIf, if_pos (by simp [hprev]), returns_bind,
      returns_prevline h.curr hprev hm, returns_bind]
    refine (returns_curr hm).mpr ?_
    rw [returns_bind, setPoint, returns_modify]
    have h1 : Views t { s with
        currLine := i, absoluteLin := s.absoluteLin - 1, point := m.start, position := 1,
        scrVert := if s.scrVert = 0 then s.scrVert else s.scrVert - 1 }
        ⟨bs, [], line, (l ++ r) :: as⟩ xs' (s.currLine :: ys) m :=
      h.prev rfl rfl hm (List.nil_append line) rfl rfl
    refine Returns.mono (h1.returns_findPos (by rfl) hfind hfuel hk) fun _ s' hpost => ?_
    obtain ⟨h', hs', hcol⟩ := hpost
    exact ⟨⟨_, _, _, _, _, h'⟩, hs'.1, hcol⟩

theorem Views.returns_scanline_column (h : Views t s ⟨bs, l, r, as⟩ xs ys n) (hfuel : 2 ≤ fuel) :
    Returns (scanline fuel s.point) (fun _ s' => s'.scrHorz = width s.eightbit l) s :=
  (h.scannable.returns_column h.roomy hfuel).mono fun _ _ ⟨_, hcol⟩ => hcol.trans (h.column_eq _)

/-- The columns agree where the count of `find_pos` is that of `scanline`, and where the window does
not show that column, since the text is then scrolled and `scanline` has the last word. -/
theorem Views.columnAgrees_iff {move : ℕ → Ed Unit} {k : ℕ} {w : ℤ} (h : Views t s z xs ys n)
    (hmove : Onto line z move) (hfind : findFrom s.eeChinese s.scrPos line 0 = (k, w))
    (hfuel : line.length + 2 ≤ fuel) :
    ColumnAgrees (move fuel) line s ↔
      w = width s.eightbit (line.take k) ∨ s.lastCol < w - s.horizOffset ∨ w < s.horizOffset := by
  have hle : k ≤ line.length := by
    have := findFrom_le_length s.eeChinese s.scrPos line 0
    rwa [hfind] at this
  have hrun : Returns (move fuel) _ s := h.returns_onto hmove hfind (by omega) (by omega)
  -- what the property asks for, in the state that the movement leaves
  have hthere : ∀ s', (∃ bs' as' xs' ys' m, Views t s' ⟨bs', line.take k, line.drop k, as'⟩ xs' ys' m) →
      Moves s s' → ((s'.scrHorz = lenSum s'.eightbit (line.take (s'.position - 1)) ∧
        ∀ fuel, 2 ≤ fuel → Returns (scanline fuel s'.point) (fun _ s'' => s''.scrHorz = s'.scrHorz) s') ↔
      s'.scrHorz = width s.eightbit (line.take k)) := by
    rintro s' ⟨bs', as', xs', ys', m, h'⟩ hm
    have height : s'.eightbit = s.eightbit := (congrArg Editor.eightbit hm).symm
    have hpos : s'.position - 1 = k := by
      rw [h'.position_eq, List.length_take_of_le hle, Nat.add_sub_cancel]
    rw [hpos, height, ← width_eq_lenSum]
    refine and_iff_left_of_imp fun hcol fuel' hfuel' => ?_
    refine (h'.returns_scanline_column hfuel').mono fun _ s'' hcol' => ?_
    rw [hcol', height, hcol]
  constructor
  · intro hagree
    obtain ⟨_, s', ⟨hv, hm, hcol⟩, hright⟩ := hrun.and hagree
    have hwidth := (hthere s' hv hm).mp hright
    by_cases hout : s.lastCol < w - s.horizOffset ∨ w < s.horizOffset
    · exact .inr hout
    · rw [if_neg hout] at hcol
      exact .inl (hcol.symm.trans hwidth)
  · intro hcase
    refine hrun.mono fun _ s' ⟨hv, hm, hcol⟩ => (hthere s' hv hm).mpr ?_
    by_cases hout : s.lastCol < w - s.horizOffset ∨ w < s.horizOffset
    · rwa [if_pos hout] at hcol
    · rw [if_neg hout] at hcol
      exact hcol.trans (hcase.resolve_right hout)

/-- The state after a step right over the first byte of the upper of two lines. -/
def Editor.behindFirst (b : UInt8) (rest next : List UInt8) : Editor :=
  { Editor.twoLines (b :: rest) next with point := ⟨1, 1⟩, position := 2, scrPos := 1, scrHorz := 1 }

theorem views_behindFirst (b : UInt8) (rest next : List UInt8) :
    Views True (Editor.behindFirst b rest next) ⟨[], [b], rest, [next]⟩ [] [2]
      { Node.sole (b :: rest) with next := some 2 } := by
  have hv : Views True (Editor.twoLines (b :: rest) next) ⟨[], [], b :: rest, [next]⟩ [] [2]
      { Node.sole (b :: rest) with next := some 2 } :=
    (shows_twoLines (b :: rest) next).views ⟨show (8 : ℤ) ≤ 80 by decide, rfl⟩
  exact hv.goto rfl rfl rfl rfl rfl

end BsdAdditions.Ee
