import BsdAdditions.Indent.DumpLine

/-! Where a line inside a parenthesis starts: under the text behind the parenthesis, or further left
where that keeps it inside the margin. -/
namespace BsdAdditions.Indent
open Common Common.Prog

section Continuation
variable {opt : Options} {s : Indenter} {cur : ℤ} {cs text : List UInt8}

/-! ### Tab stops -/

/-- The column behind a tab that is printed in column `cur`. -/
def stop (opt : Options) (cur : ℤ) : ℤ := opt.tabsize * (1 + (cur - 1) / opt.tabsize) + 1

theorem tabStop_eq_stop (htab : 0 < opt.tabsize) (hcur : 1 ≤ cur) : tabStop opt cur = some (stop opt cur) := by
  rw [tabStop_eq htab, Int.tdiv_eq_ediv_of_nonneg (by omega)]
  rfl

theorem stop_shift (htab : 0 < opt.tabsize) (d : ℤ) :
    stop opt (cur + opt.tabsize * d) = stop opt cur + opt.tabsize * d := by
  have hne : (opt.tabsize : ℤ) ≠ 0 := by omega
  have hquot : (cur + opt.tabsize * d - 1) / (opt.tabsize : ℤ) = (cur - 1) / opt.tabsize + d := by
    rw [show cur + opt.tabsize * d - 1 = cur - 1 + opt.tabsize * d by omega, Int.add_mul_ediv_left _ _ hne]
  unfold stop
  rw [hquot, ← add_assoc, mul_add]
  omega

theorem lt_stop (htab : 0 < opt.tabsize) (hcur : 1 ≤ cur) : cur < stop opt cur :=
  lt_tabStop htab hcur (tabStop_eq_stop htab hcur)

/-- Two stops lie a whole number of tabs apart. -/
theorem exists_stop_eq (htab : 0 < opt.tabsize) {far : ℤ} (hle : cur ≤ far) :
    ∃ d : ℕ, stop opt far = stop opt cur + opt.tabsize * d := by
  have hquot : (cur - 1) / (opt.tabsize : ℤ) ≤ (far - 1) / opt.tabsize :=
    Int.ediv_le_ediv (by omega) (by omega)
  obtain ⟨d, hd⟩ := Int.le.dest hquot
  refine ⟨d, ?_⟩
  unfold stop
  rw [← hd, ← add_assoc, mul_add]
  omega

/-! ### The end of a text, by its start -/

/-- Text that stays on its line and moves to the right only. -/
def Forward (cs : List UInt8) : Prop := ∀ c ∈ cs, c ≠ 10 ∧ c ≠ 12 ∧ c ≠ 8

/-- From a column further right by whole tabs, the text ends further right by as much. -/
theorem countSpaces_shift (htab : 0 < opt.tabsize) (hcs : Forward cs) (hcur : 1 ≤ cur) (d : ℕ) :
    countSpaces opt (cur + opt.tabsize * d) cs = (countSpaces opt cur cs).map (· + (opt.tabsize * d : ℤ)) := by
  have hd : (0 : ℤ) ≤ opt.tabsize * d := Int.mul_nonneg (by omega) (by omega)
  induction cs generalizing cur with
  | nil => rfl
  | cons c cs ih =>
    obtain ⟨h10, h12, h8⟩ := hcs c List.mem_cons_self
    have hcs' : Forward cs := fun c hc => hcs c (List.mem_cons_of_mem _ hc)
    have hbreak : ¬(c = 10 ∨ c = 12) := not_or.mpr ⟨h10, h12⟩
    rw [countSpaces, countSpaces]
    simp only [if_neg hbreak, if_neg h8]
    split
    · rfl
    · split
      · have hlt := lt_stop htab hcur
        rw [tabStop_eq_stop htab hcur, tabStop_eq_stop htab (by omega), stop_shift htab]
        exact ih hcs' (by omega)
      · rw [show cur + opt.tabsize * d + 1 = cur + 1 + opt.tabsize * d by omega]
        exact ih hcs' (by omega)

theorem countSpaces_of_no_tab (hcs : Forward cs) (h0 : 0 ∉ cs) (h9 : 9 ∉ cs) :
    countSpaces opt cur cs = some (cur + cs.length) := by
  induction cs generalizing cur with
  | nil => simp [countSpaces]
  | cons c cs ih =>
    obtain ⟨h10, h12, h8⟩ := hcs c List.mem_cons_self
    rw [List.mem_cons, not_or] at h0 h9
    rw [countSpaces, if_neg (Ne.symm h0.1), if_neg (not_or.mpr ⟨h10, h12⟩), if_neg (Ne.symm h9.1), if_neg h8]
    rw [ih (fun c hc => hcs c (List.mem_cons_of_mem _ hc)) h0.2 h9.2, List.length_cons]
    congr 1
    omega

/-- How many columns of the text come before its first tab. -/
def lead (text : List UInt8) : ℕ := (text.takeWhile (· ≠ 9)).length

theorem exists_lead (htext : 9 ∈ text) :
    ∃ pre rest, text = pre ++ 9 :: rest ∧ 9 ∉ pre ∧ lead text = pre.length := by
  obtain ⟨pre, rest, rfl, hpre⟩ := List.eq_append_cons_of_mem htext
  refine ⟨pre, rest, rfl, hpre, ?_⟩
  have hall : ∀ c ∈ pre, decide (c ≠ 9) = true := by
    intro c hc
    exact decide_eq_true fun h => hpre (h ▸ hc)
  rw [lead, List.takeWhile_append_of_pos hall]
  simp

/-- A text with a tab that starts further left ends further left by as much as its first tab does. -/
theorem countSpaces_of_tab (htab : 0 < opt.tabsize) (hcs : Forward text) (h0 : 0 ∉ text) (h9 : 9 ∈ text)
    (hcur : 1 ≤ cur) {far e : ℤ} (hle : cur ≤ far) (he : countSpaces opt far text = some e) :
    countSpaces opt cur text = some (e - (stop opt (far + lead text) - stop opt (cur + lead text))) := by
  obtain ⟨pre, rest, rfl, hpre, hlead⟩ := exists_lead h9
  have hpre0 : 0 ∉ pre := fun h => h0 (List.mem_append_left _ h)
  have hfwd : Forward pre := fun c hc => hcs c (List.mem_append_left _ hc)
  have hrest : Forward rest := fun c hc => hcs c (List.mem_append_right _ (List.mem_cons_of_mem _ hc))
  have hsplit : ∀ col : ℤ, 1 ≤ col → countSpaces opt col (pre ++ 9 :: rest) =
      countSpaces opt (stop opt (col + pre.length)) rest := by
    intro col hcol
    rw [countSpaces_append hpre0, countSpaces_of_no_tab hfwd hpre0 hpre, Option.bind_some]
    exact countSpaces_tab (tabStop_eq_stop htab (by omega))
  rw [hlead]
  rw [hsplit far (by omega)] at he
  rw [hsplit cur hcur]
  obtain ⟨d, hd⟩ : ∃ d : ℕ, stop opt (far + pre.length) = stop opt (cur + pre.length) + opt.tabsize * d :=
    exists_stop_eq htab (by omega)
  have hlt : cur + pre.length < stop opt (cur + pre.length) := lt_stop htab (by omega)
  rw [hd, countSpaces_shift htab hrest (by omega), Option.map_eq_some_iff] at he
  obtain ⟨col, hcol, rfl⟩ := he
  rw [hcol, hd]
  congr 1
  omega

/-! ### The column of the line -/

/-- The column of the prevailing indentation. -/
def indentColumn (opt : Options) (s : Indenter) : ℤ := opt.indSize * s.ps.indLevel + 1

/-- Printed from column `cur`, the text ends at or before the last column. -/
def EndsWithin (opt : Options) (cur : ℤ) (text : List UInt8) : Prop :=
  ∃ e, countSpaces opt cur text = some e ∧ e ≤ opt.maxCol

theorem endsWithin_iff {e : ℤ} (he : countSpaces opt cur text = some e) :
    EndsWithin opt cur text ↔ e ≤ opt.maxCol := by
  unfold EndsWithin
  rw [he]
  simp

/-- By how much the text exceeds the last column when it starts under the parenthesis. -/
def excess (opt : Options) (s : Indenter) (text : List UInt8) : ℤ :=
  (countSpaces opt s.parenTarget text).getD 0 - opt.maxCol

/-- The line is moved to the left of the parenthesis, but not as far as the indentation. -/
structure Shifted (opt : Options) (s : Indenter) (text : List UInt8) : Prop where
  exceeds : 0 < excess opt s text
  fits : EndsWithin opt (indentColumn opt s) text
  short : indentColumn opt s < s.parenTarget - (excess opt s text + 1)

/-- The stop of the first tab of a line that is moved moves by as much as the line was too long. -/
def GainsEnough (opt : Options) (s : Indenter) (text : List UInt8) : Prop :=
  Shifted opt s text → 9 ∈ text →
    excess opt s text ≤ stop opt (s.parenTarget + lead text) -
      stop opt (s.parenTarget - (excess opt s text + 1) + lead text)

theorem zero_notMem_of_string (h : s.code.string? = some text) : 0 ∉ text := by
  unfold Buf.string? at h
  split at h
  · rw [← Option.some.inj h]
    intro h0
    have := List.mem_takeWhile_imp h0
    simp at this
  · cases h

/-- The three places where the line may start. -/
theorem computeCodeTarget_of_paren (htab : 0 < opt.tabsize) (hlevel : s.ps.parenLevel ≠ 0)
    (hlp : opt.lineupToParens = true) (hlpl : opt.lineupToParensAlways = false)
    (hcode : s.code.string? = some text) :
    ∃ c, computeCodeTarget opt s = .ok (c, s) ∧
      ((Shifted opt s text ∧ c = s.parenTarget - (excess opt s text + 1)) ∨
        (¬Shifted opt s text ∧ EndsWithin opt (indentColumn opt s) text ∧ c = indentColumn opt s) ∨
        (¬(0 < excess opt s text ∧ EndsWithin opt (indentColumn opt s) text) ∧ c = s.parenTarget)) := by
  obtain ⟨e, he⟩ := exists_countSpaces htab s.parenTarget text
  obtain ⟨v, hv⟩ := exists_countSpaces htab (indentColumn opt s) text
  have hexcess : excess opt s text = e - opt.maxCol := by rw [excess, he, Option.getD_some]
  have hwithin := endsWithin_iff hv
  have hcol : (opt.indSize : ℤ) * s.ps.indLevel + 1 = indentColumn opt s := rfl
  unfold computeCodeTarget
  rw [bind_of_ok rfl, if_pos hlevel, hlp, hlpl]
  simp only [Bool.not_true, Bool.false_eq_true, if_false, hcode, orFault, orDivide, pure_bind, he, hcol, hv]
  rw [← hexcess]
  split_ifs with hpos hfits hleft
  · exact ⟨_, rfl, Or.inl ⟨⟨hpos, hwithin.mpr hfits, hleft⟩, rfl⟩⟩
  · exact ⟨_, rfl, Or.inr (Or.inl ⟨fun h => hleft h.short, hwithin.mpr hfits, rfl⟩)⟩
  · exact ⟨_, rfl, Or.inr (Or.inr ⟨fun h => hfits (hwithin.mp h.2), rfl⟩)⟩
  · exact ⟨_, rfl, Or.inr (Or.inr ⟨fun h => hpos h.1, rfl⟩)⟩

/-- Moved to the left by `excess + 1`, the line ends inside the margin exactly if its tabs move with it. -/
theorem Shifted.endsWithin_iff (h : Shifted opt s text) (htab : 0 < opt.tabsize) (hcs : Forward text)
    (h0 : 0 ∉ text) (hcol : 1 ≤ indentColumn opt s) :
    EndsWithin opt (s.parenTarget - (excess opt s text + 1)) text ↔ (9 ∈ text →
      excess opt s text ≤ stop opt (s.parenTarget + lead text) -
        stop opt (s.parenTarget - (excess opt s text + 1) + lead text)) := by
  obtain ⟨hpos, _, hleft⟩ := h
  obtain ⟨e, he⟩ := exists_countSpaces htab s.parenTarget text
  have hexcess : excess opt s text = e - opt.maxCol := by rw [excess, he, Option.getD_some]
  by_cases h9 : 9 ∈ text
  · have hend := countSpaces_of_tab htab hcs h0 h9
      (show 1 ≤ s.parenTarget - (excess opt s text + 1) by omega) (by omega) he
    rw [Indent.endsWithin_iff hend]
    constructor
    · intro hle _
      omega
    · intro hle
      have := hle h9
      omega
  · rw [countSpaces_of_no_tab hcs h0 h9] at he
    have hlen := Option.some.inj he
    rw [Indent.endsWithin_iff (countSpaces_of_no_tab hcs h0 h9)]
    constructor
    · intro _ h
      exact absurd h h9
    · intro _
      omega

/-- A line inside a parenthesis is kept inside the margin wherever the indentation would keep it there,
provided that its first tab moves to the left with it. -/
theorem continuation_kept_iff (htab : 0 < opt.tabsize) (hlevel : s.ps.parenLevel ≠ 0)
    (hlp : opt.lineupToParens = true) (hlpl : opt.lineupToParensAlways = false)
    (hind : 0 ≤ s.ps.indLevel) (hcode : s.code.string? = some text) (hcs : Forward text) :
    (∃ c, computeCodeTarget opt s = .ok (c, s) ∧ min (indentColumn opt s) s.parenTarget ≤ c ∧
      (EndsWithin opt (indentColumn opt s) text → EndsWithin opt c text)) ↔ GainsEnough opt s text := by
  have hcol : 1 ≤ indentColumn opt s := by
    have := Int.mul_nonneg (show (0 : ℤ) ≤ opt.indSize by omega) hind
    unfold indentColumn
    omega
  have h0 : 0 ∉ text := zero_notMem_of_string hcode
  obtain ⟨c, hc, hcases⟩ := computeCodeTarget_of_paren htab hlevel hlp hlpl hcode
  constructor
  · rintro ⟨c', hc', _, hkeep⟩ hshift h9
    have heq : c = c' := by
      rw [hc'] at hc
      cases hc
      rfl
    rcases hcases with ⟨_, rfl⟩ | ⟨hnot, _⟩ | ⟨hnot, _⟩
    · rw [← heq] at hkeep
      exact (hshift.endsWithin_iff htab hcs h0 hcol).mp (hkeep hshift.fits) h9
    · exact absurd hshift hnot
    · exact absurd ⟨hshift.exceeds, hshift.fits⟩ hnot
  · intro hgain
    refine ⟨c, hc, ?_⟩
    rcases hcases with ⟨hshift, rfl⟩ | ⟨_, _, rfl⟩ | ⟨hnot, rfl⟩
    · have hleft := hshift.short
      constructor
      · omega
      · intro _
        exact (hshift.endsWithin_iff htab hcs h0 hcol).mpr (hgain hshift)
    · exact ⟨min_le_left _ _, id⟩
    · constructor
      · exact min_le_right _ _
      · intro hfits
        obtain ⟨e, he⟩ := exists_countSpaces htab s.parenTarget text
        have hle : ¬0 < excess opt s text := fun hpos => hnot ⟨hpos, hfits⟩
        rw [excess, he, Option.getD_some] at hle
        exact ⟨e, he, by omega⟩

end Continuation

/-- A line inside a parenthesis behind which text starts in the given column. -/
def continued (column : ℤ) (code : List UInt8) : Indenter :=
  let s := lineOf [] code
  { s with ps := { s.ps with parenLevel := 1 }, parenTarget := column }

/-- A string under column 75 would end in column 83: it is moved to the left. -/
theorem continuation_kept_string : ∃ c, computeCodeTarget .default (continued 75 (bytes "\"abcd\");")) =
    .ok (c, continued 75 (bytes "\"abcd\");")) ∧ EndsWithin .default c (bytes "\"abcd\");") := by
  have hfits : EndsWithin .default (indentColumn .default (continued 75 (bytes "\"abcd\");"))) (bytes "\"abcd\");") :=
    ⟨9, by decide, by decide⟩
  have hgain : GainsEnough .default (continued 75 (bytes "\"abcd\");")) (bytes "\"abcd\");") :=
    fun _ h9 => absurd h9 (by decide)
  obtain ⟨c, hc, -, hkeep⟩ := (continuation_kept_iff (by decide) (by decide) rfl rfl (by decide) (by decide)
    (by unfold Forward; decide +kernel)).mpr hgain
  exact ⟨c, hc, hkeep hfits⟩

/-- With a tab in the string the line is moved two columns to the left, and its end does not move. -/
theorem tab_exceeds_margin :
    ((computeCodeTarget .default (continued 70 (bytes "\"\tabc\");"))).toOption.map Prod.fst) = some 68 ∧
      countSpaces .default 68 (bytes "\"\tabc\");") = some 79 ∧
      countSpaces .default (indentColumn .default (continued 70 (bytes "\"\tabc\");"))) (bytes "\"\tabc\");") =
        some 15 ∧
      Options.default.maxCol = 78 := by
  decide

end BsdAdditions.Indent
