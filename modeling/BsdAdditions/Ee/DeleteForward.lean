import BsdAdditions.Ee.Undelete

/-! Deleting forward is a step right and a backspace, in either character mode. -/
namespace BsdAdditions.Ee
open Common Common.Prog

variable {t : Prop} {s : Editor} {z : Zipper} {xs ys : List ℕ} {n : Node} {fuel : ℕ}
  {bs as : List (List UInt8)} {l r l' r' : List UInt8}

/-! ### Backspace, in either mode -/

/-- At the start of the text there is nothing to take away. -/
theorem Views.returns_delete_first (h : Views t s ⟨[], [], r, as⟩ xs ys n) (disp : Bool) :
    Returns (delete fuel disp) (fun _ s' => Views t s' ⟨[], [], r, as⟩ xs ys n) s := by
  rw [delete, returns_bind, deleteBack, returns_bind, h.returns_offStart, if_neg (by simp), returns_bind,
    returns_curr h.curr, h.prev_eq_none, onlyIf, if_neg (by simp), returns_pure, returns_modify]
  exact h.of_core rfl ⟨h.roomy.wide, h.roomy.last⟩

/-- At the start of a line it is joined to the one before. -/
theorem Views.returns_delete_join {b : List UInt8} (h : Views t s ⟨bs ++ [b], [], r, as⟩ xs ys n)
    (hfuel : 2 ≤ fuel) : Returns (delete fuel true)
      (fun _ s' => ∃ xs' n', Views t s' ⟨bs, b, r, as⟩ xs' ys n') s := by
  have h0 : Views t { s with textChanges := true } ⟨bs ++ [b], [], r, as⟩ xs ys n :=
    h.of_core rfl ⟨h.roomy.wide, h.roomy.last⟩
  obtain ⟨i, xs, rfl, hleft⟩ := h0.returns_left_prev hfuel
  obtain ⟨m, -, -, hprev, -, -⟩ := h0.shows.exists_before
  rw [delete, returns_bind, deleteBack, returns_bind, h.returns_offStart, if_neg (by simp), returns_bind,
    returns_curr h.curr, hprev, onlyIf, if_pos (by simp), joinLines_eq, returns_bind, markChanged,
    returns_modify, returns_bind]
  refine hleft.mono fun _ s1 hpost => ?_
  obtain ⟨m1, h1, hm1, hc1, _⟩ := hpost
  have hjoin := h0.shows.wp_joinBehind hm1.heap hm1.firstLine hm1.fresh hc1 h1.position_eq
  refine (ends_joinBehind.returns h1.roomy hjoin).mono fun _ s2 hpost => ?_
  obtain ⟨hw2, n2, h2, _⟩ := hpost
  rw [returns_modify]
  exact ⟨xs, n2, h2.of_core rfl, hw2.wide, hw2.last⟩

theorem exists_stepsBack (wide : Bool) (hl : l ≠ []) :
    (∃ l₀ w, l = l₀ ++ w ∧ StepsBack wide l w.length) ∨ wide = true ∧ ∃ b, l = [b] := by
  obtain rfl | ⟨l₁, b, rfl⟩ := l.eq_nil_or_concat'
  · exact absurd rfl hl
  cases wide with
  | false => exact .inl ⟨l₁, [b], rfl, .inl ⟨rfl, hl, rfl⟩⟩
  | true =>
    obtain rfl | ⟨l₀, a, rfl⟩ := l₁.eq_nil_or_concat'
    · exact .inr ⟨rfl, b, rfl⟩
    · left
      rcases stepLeft_cases true a with h1 | h2
      · exact ⟨l₀ ++ [a], [b], rfl, .inr ⟨l₀, a, b, by simp, h1.symm⟩⟩
      · exact ⟨l₀, [a, b], by simp, .inr ⟨l₀, a, b, by simp, h2.symm⟩⟩

/-- Behind a byte backspace takes away just what a step left goes over. -/
theorem Views.returns_delete_iff {w : List UInt8} (h : Views t s ⟨bs, l ++ w, r, as⟩ xs ys n)
    (hne : l ++ w ≠ []) (hfuel : 2 ≤ fuel) :
    Returns (delete fuel true) (fun _ s' => s'.text = Zipper.text ⟨bs, l, r, as⟩) s ↔
      StepsBack s.eeChinese (l ++ w) w.length := by
  constructor
  · intro hret
    rcases exists_stepsBack s.eeChinese hne with ⟨l₀, v, hlv, hk⟩ | ⟨hw, b, hb⟩
    · rw [hlv] at h hk ⊢
      obtain ⟨_, s', htext, n', h', -⟩ := hret.and (h.returns_delete hfuel hk true)
      rw [h'.text_eq, Zipper.text, Zipper.text] at htext
      have hline := (List.cons_eq_cons.mp (List.append_cancel_left htext)).1
      obtain rfl : l₀ = l := List.append_cancel_right hline
      obtain rfl : w = v := List.append_cancel_left hlv
      exact hk
    · rw [hb] at h
      exact absurd hret (h.delete_fault hw fuel true _)
  · intro hk
    refine (h.returns_delete hfuel hk true).mono fun _ s' hpost => ?_
    obtain ⟨n', h', -⟩ := hpost
    exact h'.text_eq

/-! ### The step right -/

/-- What `del_char` does before the backspace. -/
def overNext (fuel : ℕ) : Ed Unit := do
  if ← beforeEnd then
    onlyIf (← wideAt) (advance 1)
    advance 1
    scanline fuel (← get).point
  else
    right fuel true

theorem returns_delChar {post : Unit → Editor → Prop} : Returns (delChar fuel) post s ↔
    Returns (overNext fuel) (fun _ s' => Returns (delete fuel true) post s') { s with inChar := 8 } := by
  rw [delChar, overNext, returns_bind, returns_modify, returns_bind, returns_bind]
  refine ⟨fun h => h.mono fun c s1 h1 => ?_, fun h => h.mono fun c s1 h1 => ?_⟩
  all_goals
    cases c
    all_goals simpa only [returns_bind, reduceIte, Bool.false_eq_true] using h1

theorem Views.returns_overNext {b : UInt8} (h : Views t s ⟨bs, l, b :: r, as⟩ xs ys n)
    (hfuel : 2 ≤ fuel) (hlr : l' ++ r' = l ++ b :: r)
    (hlen : l'.length = l.length + stepRight s.eeChinese b r) : Returns (overNext fuel)
      (fun _ s' => Views t s' ⟨bs, l', r', as⟩ xs ys n ∧ s'.eeChinese = s.eeChinese) s := by
  rw [overNext, returns_bind, h.returns_beforeEnd, if_pos (by simp), returns_bind, h.returns_wideAt,
    returns_bind]
  refine (h.returns_advances hlr hlen).mono fun _ s1 hs1 => ?_
  rw [returns_bind]
  refine hs1.mono fun _ s2 ⟨h2, hm2, _⟩ => ?_
  rw [returns_bind, returns_get]
  refine (h2.scannable.returns_scanline h2.roomy hfuel).mono fun _ s3 hs3 => ?_
  have hm3 := Moves.of_scrolls hs3
  refine ⟨h2.of_core (Rests.of_scrolls hs3).core (h2.roomy.moves hm3), ?_⟩
  exact hm3.eeChinese.trans hm2.eeChinese

theorem Views.returns_overNext_end {a : List UInt8} (h : Views t s ⟨bs, l, [], a :: as⟩ xs ys n)
    (hfuel : 2 ≤ fuel) : Returns (overNext fuel)
      (fun _ s' => ∃ xs' ys' m, Views t s' ⟨bs ++ [l], [], a, as⟩ xs' ys' m) s := by
  rw [overNext, returns_bind, h.returns_beforeEnd, if_neg (by simp)]
  obtain ⟨i, ys', rfl, hright⟩ := h.returns_right_next hfuel
  exact hright.mono fun _ s' ⟨m, h', _⟩ => ⟨_, ys', m, h'⟩

theorem Views.returns_overNext_last (h : Views t s ⟨bs, l, [], []⟩ xs ys n) :
    Returns (overNext fuel) (fun _ s' => s' = s) s := by
  rw [overNext, returns_bind, h.returns_beforeEnd, if_neg (by simp)]
  exact h.returns_right_last fuel

/-! ### Deleting forward -/

/-- The text without what stands at the cursor: a character, or the end of the line. -/
def Zipper.withoutNext (wide : Bool) : Zipper → Zipper
  | ⟨bs, l, b :: r, as⟩ => ⟨bs, l, (b :: r).drop (stepRight wide b r), as⟩
  | ⟨bs, l, [], a :: as⟩ => ⟨bs, l, a, as⟩
  | ⟨bs, l, [], []⟩ => ⟨bs, l, [], []⟩

/-- What stands at the cursor is taken away, and nothing else. -/
def DeletesForward (s : Editor) (z : Zipper) : Prop :=
  ∀ fuel, 2 ≤ fuel → Returns (delChar fuel) (fun _ s' => s'.text = (z.withoutNext s.eeChinese).text) s

/-- The backspace comes back to where the step right started. -/
def Zipper.ComesBack (wide : Bool) : Zipper → Prop
  | ⟨_, l, b :: r, _⟩ => wide = true → (127 < b ∧ r ≠ []) ∨ ∃ a ∈ l.getLast?, a ≤ 127
  | ⟨_, _, [], _ :: _⟩ => True
  | ⟨bs, l, [], []⟩ => bs = [] ∧ l = []

theorem stepRight_pos (wide : Bool) (b : UInt8) (r : List UInt8) : 0 < stepRight wide b r := by
  unfold stepRight
  split_ifs <;> decide

theorem length_take_stepRight (wide : Bool) (b : UInt8) (r : List UInt8) :
    ((b :: r).take (stepRight wide b r)).length = stepRight wide b r := by
  rw [List.length_take, Nat.min_eq_left]
  unfold stepRight
  split_ifs with h
  · have := List.length_pos_iff.mpr h.2.2
    rw [List.length_cons]
    omega
  · exact Nat.le_add_left 1 _

/-- What was gone over to the right is gone over to the left. -/
theorem stepsBack_stepRight_iff (wide : Bool) (b : UInt8) :
    StepsBack wide (l ++ (b :: r).take (stepRight wide b r)) (stepRight wide b r) ↔
      (wide = true → (127 < b ∧ r ≠ []) ∨ ∃ a ∈ l.getLast?, a ≤ 127) := by
  cases wide with
  | false => simp [StepsBack, stepRight]
  | true =>
    by_cases hb : 127 < b ∧ r ≠ []
    · obtain ⟨c, r, rfl⟩ := List.exists_cons_of_ne_nil hb.2
      have hstep : stepRight true b (c :: r) = 2 := if_pos ⟨rfl, hb⟩
      rw [hstep]
      refine iff_of_true (.inr ⟨l, b, c, rfl, ?_⟩) fun _ => .inl hb
      exact (if_pos ⟨rfl, hb.1⟩).symm
    · have hstep : stepRight true b r = 1 := if_neg (by simpa using hb)
      rw [hstep]
      constructor
      · rintro (⟨hw, -⟩ | ⟨l₀, a, c, hl, hk⟩) -
        · cases hw
        · have hla : l = l₀ ++ [a] := by
            have hl' : l ++ [b] = (l₀ ++ [a]) ++ [c] := by simpa using hl
            exact (List.append_inj' hl' rfl).1
          refine .inr ⟨a, by simp [hla], ?_⟩
          by_contra ha
          have h2 : stepLeft true a = 2 := if_pos ⟨rfl, by simpa using ha⟩
          omega
      · intro hlast
        obtain ⟨a, ha, hle⟩ := (hlast rfl).resolve_left hb
        obtain ⟨l₀, rfl⟩ := List.getLast?_eq_some_iff.mp ha
        refine .inr ⟨l₀, a, b, by simp, ?_⟩
        exact (if_neg fun hlt => absurd hle (by simpa using hlt.2)).symm

theorem Views.deletesForward_over_iff {b : UInt8} (h : Views t s ⟨bs, l, b :: r, as⟩ xs ys n) :
    DeletesForward s ⟨bs, l, b :: r, as⟩ ↔ Zipper.ComesBack s.eeChinese ⟨bs, l, b :: r, as⟩ := by
  have h8 : Views t { s with inChar := 8 } ⟨bs, l, b :: r, as⟩ xs ys n :=
    h.of_core rfl ⟨h.roomy.wide, h.roomy.last⟩
  have hk := length_take_stepRight s.eeChinese b r
  have hover : ∀ fuel, 2 ≤ fuel → Returns (overNext fuel) (fun _ s' =>
      Views t s' ⟨bs, l ++ (b :: r).take (stepRight s.eeChinese b r),
        (b :: r).drop (stepRight s.eeChinese b r), as⟩ xs ys n ∧ s'.eeChinese = s.eeChinese)
      { s with inChar := 8 } := by
    intro fuel hfuel
    refine h8.returns_overNext hfuel ?_ ?_
    · rw [List.append_assoc, List.take_append_drop]
    · rw [List.length_append, hk]
  have hne : l ++ (b :: r).take (stepRight s.eeChinese b r) ≠ [] := by
    refine List.append_ne_nil_of_right_ne_nil l fun hnil => ?_
    rw [hnil, List.length_nil] at hk
    exact absurd hk.symm (stepRight_pos s.eeChinese b r).ne'
  rw [Zipper.ComesBack, ← stepsBack_stepRight_iff]
  constructor
  · intro hdel
    have hdel := hdel 2 (Nat.le_refl 2)
    rw [returns_delChar] at hdel
    obtain ⟨_, s1, hret, h1, hw1⟩ := hdel.and (hover 2 (Nat.le_refl 2))
    have hback := (h1.returns_delete_iff hne (Nat.le_refl 2)).mp hret
    rw [hk, hw1] at hback
    exact hback
  · intro hback fuel hfuel
    rw [returns_delChar]
    refine (hover fuel hfuel).mono fun _ s1 ⟨h1, hw1⟩ => ?_
    refine (h1.returns_delete_iff hne hfuel).mpr ?_
    rw [hk, hw1]
    exact hback

/-- At the end of a line the next one comes up. -/
theorem Views.deletesForward_end {a : List UInt8} (h : Views t s ⟨bs, l, [], a :: as⟩ xs ys n) :
    DeletesForward s ⟨bs, l, [], a :: as⟩ := by
  have h8 : Views t { s with inChar := 8 } ⟨bs, l, [], a :: as⟩ xs ys n :=
    h.of_core rfl ⟨h.roomy.wide, h.roomy.last⟩
  intro fuel hfuel
  rw [returns_delChar]
  refine (h8.returns_overNext_end hfuel).mono fun _ s1 ⟨xs1, ys1, m, h1⟩ => ?_
  exact (h1.returns_delete_join hfuel).mono fun _ s2 ⟨xs2, n2, h2⟩ => h2.text_eq

/-- At the end of the text the backspace takes what is in front of the cursor. -/
theorem Views.deletesForward_last_iff (h : Views t s ⟨bs, l, [], []⟩ xs ys n) :
    DeletesForward s ⟨bs, l, [], []⟩ ↔ bs = [] ∧ l = [] := by
  have h8 : Views t { s with inChar := 8 } ⟨bs, l, [], []⟩ xs ys n :=
    h.of_core rfl ⟨h.roomy.wide, h.roomy.last⟩
  constructor
  · intro hdel
    have hdel := hdel 2 (Nat.le_refl 2)
    rw [returns_delChar] at hdel
    obtain ⟨_, s1, hret, rfl⟩ := hdel.and h8.returns_overNext_last
    have hl : l = [] := by
      by_contra hl
      rw [← List.append_nil l] at h8 hl
      have hback := (h8.returns_delete_iff hl (Nat.le_refl 2)).mp hret
      have hzero := hback.cases.2
      rw [List.length_nil] at hzero
      omega
    subst hl
    obtain rfl | ⟨bs, b, rfl⟩ := bs.eq_nil_or_concat'
    · exact ⟨rfl, rfl⟩
    · obtain ⟨_, s2, htext, xs2, n2, h2⟩ := hret.and (h8.returns_delete_join (Nat.le_refl 2))
      rw [h2.text_eq] at htext
      have hlen := congrArg List.length htext
      simp [Zipper.text, Zipper.withoutNext] at hlen
  · rintro ⟨rfl, rfl⟩ fuel hfuel
    rw [returns_delChar]
    refine h8.returns_overNext_last.mono fun _ s1 hs1 => ?_
    subst hs1
    exact (h8.returns_delete_first true).mono fun _ s2 h2 => h2.text_eq

/-- Deleting forward takes away what stands at the cursor and nothing else exactly if there is
something, or no text at all, and in 16-bit mode only if it is a character of two bytes or stands
behind a low byte of its line. -/
theorem deletesForward_iff (t : Prop) (s : Editor) (z : Zipper) (xs ys : List ℕ) (n : Node)
    (h : Views t s z xs ys n) : DeletesForward s z ↔ z.ComesBack s.eeChinese := by
  obtain ⟨bs, l, r, as⟩ := z
  cases r with
  | cons b r => exact h.deletesForward_over_iff
  | nil =>
    cases as with
    | cons a as => exact iff_of_true h.deletesForward_end trivial
    | nil => exact h.deletesForward_last_iff

/-- Behind a low byte, in 16-bit mode. -/
theorem deletesForward_behind_low :
    DeletesForward (Editor.oneLine [97] [98]) ⟨[], [97], [98], []⟩ :=
  (deletesForward_iff True _ _ [] [] _ (views_oneLine [97] [98])).mpr fun _ => .inr ⟨97, rfl, by decide⟩

/-- At the end of the text the last character goes; in 16-bit mode, behind a character with a high
second byte, that byte goes as well. -/
theorem delChar_takes_before :
    (((delChar 3) (Editor.oneLine [97, 98] []).narrowed).toOption.map fun r => r.2.text) = some [[97]] ∧
    (((delChar 3) (Editor.oneLine [164, 164] [97, 98])).toOption.map fun r => r.2.text) =
      some [[164, 98]] := by
  decide

end BsdAdditions.Ee
