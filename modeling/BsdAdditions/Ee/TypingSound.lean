import BsdAdditions.Ee.DeleteSound

/-! Typing and the formatters keep the state consistent. -/
namespace BsdAdditions.Ee
open Common Common.Prog
variable {t : Prop}

/-! ### What the formatters look at -/

section Looks
variable {R : Editor → Editor → Prop} [Std.Refl R] {s : Editor} {ids : List ℕ} {n : Node}

theorem Inv.wp_blankLine (h : Inv t s ids n) {i : Option ℕ} (hi : ∀ j, i = some j → j ∈ ids)
    {post : Bool → Editor → Prop} (hpost : ∀ b, post b s) : wp (blankLine i) post s := by
  cases i with
  | none => exact hpost true
  | some j =>
    obtain ⟨m, hm, hok⟩ := h.lines.exists_node (hi j rfl)
    have hne : 0 < m.bytes.length := by
      have := hok.pos
      have := hok.le
      rw [hok.size]
      omega
    rw [blankLine, wp_bind, node, wp_bind, wp_get, hm, wp_orFault_some, wp_bind,
      List.getElem?_eq_getElem hne, wp_orFault_some]
    exact wp_ite (fun _ => hpost _) fun _ => hpost _

theorem keeps_blankHere : Keeps (Consistent t) R blankHere := by
  rintro s ⟨ids, n, h⟩
  rw [blankHere, wp_bind, wp_get]
  exact h.wp_blankLine (fun j hj => Option.some.inj hj ▸ h.mem) fun _ => ⟨⟨ids, n, h⟩, refl s⟩

theorem keeps_blankNext : Keeps (Consistent t) R blankNext := by
  rintro s ⟨ids, n, h⟩
  rw [blankNext, wp_bind, wp_curr h.curr]
  exact h.wp_blankLine (fun _ => h.lines.next_mem h.mem h.curr) fun _ => ⟨⟨ids, n, h⟩, refl s⟩

theorem keeps_blankPrev : Keeps (Consistent t) R blankPrev := by
  rintro s ⟨ids, n, h⟩
  rw [blankPrev, wp_bind, wp_curr h.curr]
  exact h.wp_blankLine (fun _ => h.lines.prev_mem h.mem h.curr) fun _ => ⟨⟨ids, n, h⟩, refl s⟩

theorem keeps_firstByte : Keeps (Consistent t) R firstByte := by
  rintro s ⟨ids, n, h⟩
  have hlt : 0 < n.bytes.length := Nat.zero_lt_of_lt h.off_lt
  rw [firstByte, wp_bind, wp_curr h.curr, List.getElem?_eq_getElem hlt]
  exact ⟨⟨ids, n, h⟩, refl s⟩

theorem keeps_nextWordLen : Keeps (Consistent t) R nextWordLen := by
  rintro s ⟨ids, n, h⟩
  have hs : Consistent t s ∧ R s s := ⟨⟨ids, n, h⟩, refl s⟩
  rw [nextWordLen, wp_bind, wp_curr h.curr]
  cases hj : n.next with
  | none => exact hs
  | some j =>
    obtain ⟨m, hm, -⟩ := h.lines.exists_node (h.lines.next_mem h.mem h.curr hj)
    rw [firstWordLen, wp_bind, node, wp_bind, wp_get, hm, wp_orFault_some]
    cases cString m.bytes with
    | nil => exact hs
    | cons b bs => exact wp_ite (fun _ => hs) fun _ => hs

end Looks

theorem keeps_takeWord : Keeps (Consistent t) Advances takeWord := by
  intro s hs
  obtain ⟨bs, l, r, as, xs, ys, n, h⟩ := hs.exists_shows
  rw [takeWord, wp_bind, wp_get, wp_bind, wp_curr h.inv.curr, wp_bind, h.readMany, wp_orFault_some]
  exact ⟨hs.of_core rfl, ⟨id, fun _ => rfl, id, rfl⟩, id⟩

section Moving
variable (fuel : ℕ)

theorem keeps_paragraphStart : Keeps (Consistent t) Moves (paragraphStart fuel) :=
  Keeps.get.bind fun _ => (keeps_bol fuel).onlyIf.bind fun _ =>
    Keeps.repeatWhile (keeps_blankPrev.bind fun _ => Keeps.pure _) (keeps_bol fuel) fuel

theorem keeps_countSearches (line : Ptr) : Keeps (Consistent t) Moves (countSearches fuel line) :=
  Keeps.loop (fun _ => Keeps.get.bind fun _ => Keeps.pure _)
    (fun _ => (keeps_search fuel).bind fun _ => Keeps.pure _) fuel _

theorem keeps_recenter : Keeps (Consistent t) Moves (recenter fuel) := by
  rintro s ⟨ids, n, h⟩
  rw [recenter, wp_bind, wp_get]
  refine h.wp_midscreen fuel s.scrVert rfl fun s' hs' => ⟨⟨ids, n, h.scroll hs'⟩, ?_⟩
  obtain ⟨_, _, _, rfl⟩ := hs'
  rfl

theorem keeps_backToWord : Keeps (Consistent t) Moves (backToWord fuel) :=
  Keeps.get.bind fun _ => Keeps.onlyIf (keeps_atPoint.bind fun _ => keeps_curr.bind fun _ =>
    (keeps_prevWord fuel).onlyIf)

end Moving

/-! ### Automatic formatting -/

theorem keeps_carrying {α : Type} {m : Ed α} (h : Keeps (Consistent t) Advances m) :
    Keeps (fun s => Consistent t s ∧ Carries s) Advances m :=
  h.and fun _ _ => Advances.carries

theorem keeps_reworks {α : Type} {m : Ed α} (h : Keeps (Consistent t) Advances m) :
    Keeps (Consistent t) Reworks m :=
  h.weaken fun _ _ => Advances.toReworks

/-- An update outside the lines and the cursor. -/
theorem keeps_modify {R : Editor → Editor → Prop} {f : Editor → Editor}
    (hcore : ∀ s, (f s).core = s.core) (hR : ∀ s, R s (f s)) : Keeps (Consistent t) R (modify f) :=
  fun s hs => ⟨hs.of_core (hcore s), hR s⟩

section Auto
variable (fuel : ℕ) {insert : ℤ → Ed Unit} (hins : ∀ c, Keeps (Consistent t) Advances (insert c))

theorem keeps_dropEmptied : Keeps (Consistent t) Advances (dropEmptied fuel) :=
  keeps_firstByte.bind fun _ => keeps_blankHere.bind fun _ =>
    Keeps.ite ((keeps_delLine fuel).bind fun _ => Keeps.pure _) (Keeps.pure _)

theorem keeps_toNextPlace : Keeps (Consistent t) Advances (toNextPlace fuel) :=
  keeps_blankNext.bind fun _ =>
    Keeps.ite (keeps_insertLine fuel true) (keeps_advances (keeps_advLine fuel))

theorem keeps_spillRound (notBlank : Bool) :
    Keeps (Consistent t) Advances (spillRound fuel notBlank) := by
  refine (keeps_advances (keeps_prevWord fuel)).bind fun _ => Keeps.get.bind fun _ =>
    Keeps.ite (keeps_delWord_then ?_) (Keeps.pure _)
  refine (keeps_carrying (keeps_toNextPlace fuel)).bind fun _ =>
    (keeps_carrying keeps_atBlank).bind fun _ =>
    (keeps_carrying (keeps_advances (keeps_advWord fuel))).onlyIf.bind fun _ =>
    keeps_undelWord.bind fun _ => Keeps.get.bind fun _ => ?_
  exact (keeps_carrying (keeps_advances (keeps_bol fuel))).onlyIf.bind fun _ =>
    (keeps_carrying (keeps_advances (keeps_left fuel))).bind fun _ => Keeps.pure _

include hins

theorem keeps_blankAtEnd : Keeps (Consistent t) Advances (blankAtEnd fuel insert) :=
  (keeps_advances (keeps_left fuel)).bind fun _ => keeps_atPoint.bind fun _ =>
    Keeps.ite ((keeps_advances (keeps_right fuel)).bind fun _ => hins SPACE)
      (keeps_advances (keeps_right fuel))

theorem keeps_fillRound : Keeps (Consistent t) Advances (fillRound fuel insert) := by
  refine (keeps_advances (keeps_advLine fuel)).bind fun _ => keeps_atBlank.bind fun _ =>
    (keeps_advances (keeps_advWord fuel)).onlyIf.bind fun _ => keeps_delWord_then ?_
  refine Keeps.get.bind fun _ =>
    (keeps_carrying (keeps_advances (keeps_bol fuel))).onlyIf.bind fun _ =>
    (keeps_carrying (keeps_dropEmptied fuel)).bind fun _ =>
    (keeps_carrying (keeps_advances (keeps_left fuel))).bind fun _ => keeps_undelWord.bind fun _ => ?_
  exact (keeps_carrying (keeps_advances (keeps_eol fuel))).bind fun _ =>
    (keeps_carrying (keeps_blankAtEnd fuel hins)).bind fun _ => Keeps.pure _

theorem keeps_autoLine : Keeps (Consistent t) Advances (autoLine fuel insert) := by
  refine Keeps.get.bind fun _ => keeps_curr.bind fun _ =>
    (keeps_advances (keeps_eol fuel)).onlyIf.bind fun _ =>
    (keeps_blankAtEnd fuel hins).bind fun _ => Keeps.bind ?_ fun _ => Keeps.bind ?_ fun _ => ?_
  · exact Keeps.loop (fun _ => keeps_nextWordLen.bind fun _ => Keeps.get.bind fun _ => Keeps.pure _)
      (fun _ => keeps_fillRound fuel hins) fuel _
  · exact Keeps.loop (fun _ => Keeps.get.bind fun _ => Keeps.pure _) (keeps_spillRound fuel) fuel _
  · exact keeps_blankNext.bind fun _ =>
      Keeps.ite ((keeps_advances (keeps_advLine fuel)).bind fun _ => Keeps.pure _) (Keeps.pure _)

/-- The deleted word is given up here; `Auto_Format` puts the old one back. -/
theorem keeps_autoFormatCore : Keeps (Consistent t) Reworks (autoFormatCore fuel insert) := by
  refine Keeps.get.bind fun _ => (keeps_reworks (keeps_advances (keeps_backToWord fuel))).bind fun _ =>
    Keeps.bind (keeps_modify ?_ ?_) fun _ => keeps_reworks ?_
  · exact fun _ => rfl
  · exact fun _ => ⟨id, fun _ => rfl, id, rfl⟩
  refine keeps_atBlank.bind fun _ => (keeps_advances (keeps_advWord fuel)).onlyIf.bind fun _ =>
    Keeps.get.bind fun _ => keeps_takeWord.bind fun _ =>
    (keeps_advances (keeps_paragraphStart fuel)).bind fun _ =>
    (keeps_advances (keeps_countSearches fuel _)).bind fun (_, _) =>
    (keeps_advances (keeps_paragraphStart fuel)).bind fun _ => Keeps.bind ?_ fun (_, _) => ?_
  · exact Keeps.loop (fun _ => Keeps.pure _)
      (fun _ => (keeps_autoLine fuel hins).bind fun _ => Keeps.pure _) fuel _
  refine Keeps.get.bind fun _ => (keeps_advances (keeps_bol fuel)).onlyIf.bind fun _ =>
    Keeps.bind ?_ fun _ => Keeps.bind ?_ fun (_, _) => ?_
  · exact Keeps.loop
      (fun _ => Keeps.ite (Keeps.pure _) (keeps_blankPrev.bind fun _ => Keeps.pure _))
      (fun _ => (keeps_advances (keeps_bol fuel)).bind fun _ => Keeps.pure _) fuel _
  · exact Keeps.loop (fun _ => Keeps.pure _)
      (fun _ => (keeps_advances (keeps_search fuel)).bind fun _ => Keeps.pure _) fuel _
  · exact ((keeps_advances (keeps_right fuel)).times _).bind fun _ =>
      ((keeps_advances (keeps_left fuel)).times _).onlyIf

theorem keeps_autoFormatBody : Keeps (Consistent t) Advances (autoFormatBody fuel insert) := by
  intro s hs
  rw [autoFormatBody, wp_bind, wp_get]
  refine wp_onlyIf (fun _ => ?_) fun _ => ⟨hs, refl s⟩
  rw [wp_bind]
  refine wp_mono (keeps_blankHere (R := Eq) s hs) fun blank _ ⟨_, heq⟩ => ?_
  subst heq
  refine wp_ite (fun _ => ⟨hs, refl s⟩) fun _ => ?_
  rw [wp_bind, wp_set, wp_bind]
  have hs1 : Consistent t { s with dLine := none, autoFormat := false } := hs.of_core rfl
  refine wp_mono (keeps_autoFormatCore fuel hins _ hs1) fun _ s2 ⟨hs2, h⟩ => ?_
  rw [wp_bind, wp_modify]
  refine wp_mono (keeps_advances (keeps_recenter fuel) _ (hs2.of_core rfl)) fun _ s3 ⟨hs3, h3⟩ => ?_
  refine ⟨hs3, IsTrans.trans (r := Advances) _ _ _ ?_ h3⟩
  exact ⟨⟨h.marked, h.text, id, h.file⟩, id⟩

end Auto

/-! ### Typing -/

section Typing
variable (fuel : ℕ)

theorem keeps_wrap : Keeps (Consistent t) Advances (wrap fuel) := by
  refine Keeps.get.bind fun _ => Keeps.onlyIf (Keeps.bind ?_ fun _ => Keeps.get.bind fun _ =>
    Keeps.ite (keeps_advances (keeps_goRight fuel _)) ?_)
  · exact Keeps.repeatWhile (Keeps.get.bind fun _ => Keeps.pure _)
      (keeps_advances (keeps_prevWord fuel)) fuel
  · exact (keeps_insertLine fuel true).bind fun _ => (keeps_advances (keeps_right fuel)).times _

theorem Shows.wp_typeByte {s : Editor} {bs as : List (List UInt8)} {l r : List UInt8} {xs ys : List ℕ}
    {n : Node} (h : Shows t s ⟨bs, l, r, as⟩ xs ys n) (character : ℤ) :
    wp (typeByte character) (fun _ s' => ∃ n',
      Shows t s' ⟨bs, l ++ [toByte character], r, as⟩ xs ys n' ∧ Edited s s') s := by
  rw [typeByte, wp_bind]
  refine wp_markChanged fun s1 hcore _ hs1 => ?_
  rw [wp_bind]
  refine wp_mono ((h.of_core hcore).wp_putByte (toByte character)) fun _ s2 ⟨n', h2, hs2⟩ => ?_
  rw [wp_bind, wp_modify, wp_bind, syncScrPos, wp_modify]
  refine Shows.wp_advance (h2.of_core ?_) fun s3 h3 hs3 => ⟨n', h3, ?_⟩
  · rfl
  · exact hs1.touches (IsTrans.trans s1 s2 s3 hs2 (.of_moves hs3))

theorem keeps_typeByte (character : ℤ) : Keeps (Consistent t) Advances (typeByte character) := by
  intro s hs
  obtain ⟨bs, l, r, as, xs, ys, n, h⟩ := hs.exists_shows
  exact wp_mono (h.wp_typeByte character) fun _ s' ⟨n', h', hs'⟩ => ⟨h'.consistent, hs'.advances⟩

theorem keeps_scrollRight : Keeps (Consistent t) Moves (scrollRight fuel) := by
  rintro s ⟨ids, n, h⟩
  rw [scrollRight, wp_bind, wp_get]
  refine wp_onlyIf (fun _ => ?_) fun _ => ⟨⟨ids, n, h⟩, refl s⟩
  rw [wp_bind, wp_set]
  have h1 : Inv t { s with horizOffset := s.horizOffset + 8 } ids n := h.of_core rfl
  refine h1.wp_midscreen fuel s.scrVert rfl fun s' hs' => ⟨⟨ids, n, h1.scroll hs'⟩, ?_⟩
  obtain ⟨_, _, _, rfl⟩ := hs'
  rfl

theorem keeps_insertBody {autoFormat : Ed Unit} {insert : ℤ → Ed Unit}
    (hauto : Keeps (Consistent t) Advances autoFormat)
    (hins : ∀ c, Keeps (Consistent t) Advances (insert c)) (character : ℤ) :
    Keeps (Consistent t) Advances (insertBody fuel autoFormat insert character) := by
  refine Keeps.get.bind fun _ => Keeps.ite ?_ ?_
  · exact ((hins SPACE).times _).bind fun _ => Keeps.get.bind fun _ => hauto.onlyIf
  · refine (keeps_typeByte character).bind fun _ => (keeps_wrap fuel).bind fun _ =>
      (keeps_advances (keeps_scrollRight fuel)).bind fun _ => ?_
    intro s hs
    rw [wp_bind, wp_get]
    refine wp_ite (fun _ => hauto s hs) fun _ => wp_onlyIf (fun _ => ?_) fun _ => ⟨hs, refl s⟩
    exact ⟨hs.of_core rfl, ⟨id, fun _ => rfl, id, rfl⟩, id⟩

/-- Typing and formatting to any depth of their calls. -/
theorem keeps_typing (depth : ℕ) :
    (∀ c, Keeps (Consistent t) Advances ((typing fuel depth).1 c)) ∧
      Keeps (Consistent t) Advances (typing fuel depth).2 := by
  induction depth with
  | zero => exact ⟨fun _ => Keeps.outOfFuel, Keeps.outOfFuel⟩
  | succ depth ih => exact ⟨keeps_insertBody fuel ih.2 ih.1, keeps_autoFormatBody fuel ih.1⟩

theorem keeps_insert (character : ℤ) : Keeps (Consistent t) Advances (insert fuel character) :=
  (keeps_typing fuel fuel).1 character

theorem keeps_autoFormat : Keeps (Consistent t) Advances (autoFormat fuel) :=
  (keeps_typing fuel fuel).2

theorem keeps_inChar (c : ℤ) :
    Keeps (Consistent t) Advances (modify fun s => { s with inChar := c }) :=
  keeps_modify (fun _ => rfl) fun _ => ⟨⟨id, fun _ => rfl, id, rfl⟩, id⟩

theorem keeps_undelChar : Keeps (Consistent t) Advances (undelChar fuel) :=
  Keeps.get.bind fun _ => Keeps.ite (keeps_insertLine fuel true)
    ((keeps_inChar _).bind fun _ => (keeps_insert fuel _).bind fun _ => Keeps.get.bind fun _ =>
      Keeps.onlyIf ((keeps_inChar _).bind fun _ => keeps_insert fuel _))

end Typing

/-! ### Formatting a paragraph on request -/

section Format
variable (fuel : ℕ)

/-- The cursor is on a byte of the text. -/
def Inside (s : Editor) : Prop := ∃ n, s.heap s.currLine = some n ∧ s.position < n.lineLength

theorem beforeEnd_inside {R : Editor → Editor → Prop} [Std.Refl R] (s : Editor)
    (hs : Consistent t s) :
    wp beforeEnd (fun go s' => Consistent t s' ∧ R s s' ∧ (go = true → Inside s')) s := by
  obtain ⟨ids, n, h⟩ := hs
  rw [beforeEnd, wp_bind, wp_get, wp_bind, wp_curr h.curr]
  exact ⟨⟨ids, n, h⟩, refl s, fun hlt => ⟨n, h.curr, of_decide_eq_true hlt⟩⟩

/-- On a byte of the text, the byte behind it is still in the line's block. -/
theorem wp_followedBlank {s : Editor} (hs : Consistent t s) (hin : Inside s) (b : UInt8)
    {post : Bool → Editor → Prop} (hpost : ∀ go, post go s) : wp (followedBlank b) post s := by
  obtain ⟨ids, n, h⟩ := hs
  obtain ⟨n', hn', hlt⟩ := hin
  obtain rfl : n = n' := by simpa [h.curr] using hn'
  have hnext : (s.point.add 1).off < n.bytes.length := by
    have hpos := h.pos
    have hle := h.node_ok.le
    rw [h.node_ok.size, h.point]
    show s.position - 1 + 1 < n.maxLength
    omega
  rw [followedBlank, wp_bind, wp_get, wp_bind, wp_deref h.curr h.block h.off_lt]
  refine wp_ite (fun _ => ?_) fun _ => hpost _
  rw [wp_bind, wp_deref (p := s.point.add 1) h.curr h.block hnext]
  exact hpost _

theorem keeps_joinNext : Keeps (Consistent t) Advances (joinNext fuel) :=
  (keeps_advances (keeps_eol fuel)).bind fun _ =>
    (keeps_blankAtEnd fuel (keeps_insert fuel)).bind fun _ => (keeps_delChar fuel).bind fun _ =>
    keeps_atBlank.bind fun _ => keeps_delWord.onlyIf

theorem keeps_squeezeBlanks :
    Keeps (Consistent t) Advances (repeatWhile fuel beforeEnd (squeezeBlank fuel)) := by
  refine Keeps.repeatWhileOn beforeEnd_inside (fun s hs hin => ?_) fuel
  rw [squeezeBlank, wp_bind]
  refine wp_followedBlank hs hin 32 fun go => ?_
  exact wp_ite (fun _ => keeps_delChar fuel s hs) fun _ => keeps_advances (keeps_right fuel) s hs

theorem keeps_spaceStops :
    Keeps (Consistent t) Advances (repeatWhile fuel beforeEnd (spaceStop fuel)) := by
  refine Keeps.repeatWhileOn beforeEnd_inside (fun s hs hin => ?_) fuel
  rw [spaceStop, wp_bind]
  refine wp_followedBlank hs hin 46 fun go => ?_
  have hright : Keeps (Consistent t) Advances (right fuel true) := keeps_advances (keeps_right fuel)
  refine Keeps.after ((Keeps.onlyIf ?_) s hs) fun _ => hright
  exact hright.bind fun _ => (keeps_insert fuel SPACE).bind fun _ =>
    (keeps_insert fuel SPACE).bind fun _ =>
    Keeps.repeatWhile (keeps_atPoint.bind fun _ => Keeps.pure _) (keeps_delChar fuel) fuel

theorem keeps_breakLine : Keeps (Consistent t) Advances (breakLine fuel) := by
  refine Keeps.bind ?_ fun _ => keeps_beforeEnd.bind fun _ => Keeps.onlyIf ?_
  · exact Keeps.repeatWhile
      (Keeps.get.bind fun _ => Keeps.ite keeps_beforeEnd (Keeps.pure _))
      (keeps_advances (keeps_right fuel)) fuel
  · exact (keeps_advances (keeps_prevWord fuel)).bind fun _ => Keeps.get.bind fun _ =>
      (keeps_advances (keeps_advWord fuel)).onlyIf.bind fun _ => keeps_insertLine fuel true

theorem keeps_observMargins (b : Bool) :
    Keeps (Consistent t) Advances (modify fun s => { s with observMargins := b }) :=
  keeps_modify (fun _ => rfl) fun _ => ⟨⟨id, fun _ => rfl, id, rfl⟩, id⟩

theorem keeps_formatCore : Keeps (Consistent t) Reworks (formatCore fuel) := by
  refine Keeps.get.bind fun _ => Keeps.get.bind fun _ =>
    (keeps_reworks (keeps_advances (keeps_prevWord fuel))).onlyIf.bind fun _ =>
    Keeps.bind (keeps_modify ?_ ?_) fun _ => keeps_reworks ?_
  · exact fun _ => rfl
  · exact fun _ => ⟨id, fun _ => rfl, id, rfl⟩
  have hbol : Keeps (Consistent t) Advances (bol fuel) := keeps_advances (keeps_bol fuel)
  have hadv : Keeps (Consistent t) Advances (advWord fuel) := keeps_advances (keeps_advWord fuel)
  have hstart : Keeps (Consistent t) Advances (paragraphStart fuel) :=
    keeps_advances (keeps_paragraphStart fuel)
  refine keeps_atBlank.bind fun _ => hadv.onlyIf.bind fun _ => Keeps.get.bind fun _ =>
    keeps_takeWord.bind fun _ => hstart.bind fun _ =>
    (keeps_advances (keeps_countSearches fuel _)).bind fun (_, _) => hstart.bind fun _ =>
    (keeps_observMargins false).bind fun _ => Keeps.bind ?_ fun _ => ?_
  · exact Keeps.repeatWhile (keeps_blankNext.bind fun _ => Keeps.pure _) (keeps_joinNext fuel) fuel
  refine hbol.bind fun _ => hadv.bind fun _ => (keeps_squeezeBlanks fuel).bind fun _ =>
    hbol.bind fun _ => (keeps_spaceStops fuel).bind fun _ => (keeps_observMargins true).bind fun _ =>
    hbol.bind fun _ => Keeps.bind ?_ fun _ => hbol.bind fun _ => Keeps.bind ?_ fun _ => ?_
  · exact Keeps.repeatWhile keeps_beforeEnd (keeps_breakLine fuel) fuel
  · exact Keeps.repeatWhile (keeps_blankPrev.bind fun _ => Keeps.pure _) hbol fuel
  · exact ((keeps_advances (keeps_search fuel)).bind fun _ => Keeps.pure _).times _ |>.onlyIf.bind
      fun _ => (keeps_advances (keeps_right fuel)).times _

theorem keeps_format : Keeps (Consistent t) Advances (format fuel) := by
  intro s hs
  rw [format, wp_bind, wp_get]
  refine wp_onlyIf (fun _ => ?_) fun _ => ⟨hs, refl s⟩
  rw [wp_bind]
  refine wp_mono (keeps_blankHere (R := Eq) s hs) fun blank _ ⟨_, heq⟩ => ?_
  subst heq
  refine wp_ite (fun _ => ⟨hs, refl s⟩) fun _ => ?_
  rw [wp_bind, wp_set, wp_bind]
  have hs1 : Consistent t { s with autoFormat := false } := hs.of_core rfl
  refine wp_mono (keeps_formatCore fuel _ hs1) fun _ s2 ⟨hs2, h⟩ => ?_
  rw [wp_bind, wp_modify]
  refine wp_mono (keeps_advances (keeps_recenter fuel) _ (hs2.of_core rfl)) fun _ s3 ⟨hs3, h3⟩ => ?_
  refine ⟨hs3, IsTrans.trans (r := Advances) _ _ _ ?_ h3⟩
  exact ⟨⟨h.marked, h.text, h.line, h.file⟩, id⟩

end Format

end BsdAdditions.Ee
