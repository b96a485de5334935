import BsdAdditions.Ee.Ends
import BsdAdditions.Ee.Motion
import BsdAdditions.Ee.Wide

/-! What is deleted comes back: the rest of a line, and a character. -/
namespace BsdAdditions.Ee
open Common Common.Prog Std.Do

set_option mvcgen.warning false

variable {t : Prop} {s : Editor} {z : Zipper} {xs ys : List ℕ} {n : Node} {fuel : ℕ}
  {bs as : List (List UInt8)} {l r : List UInt8}

/-- The line has a next one exactly if there is text below. -/
theorem Shows.next_eq_none_iff (h : Shows t s ⟨bs, l, r, as⟩ xs ys n) : n.next = none ↔ as = [] := by
  rw [h.inv.lines.chain.next_eq h.inv.curr, List.head?_eq_none_iff, ← List.map_eq_nil_iff (f := lineAt s.heap)]
  exact iff_of_eq (congrArg (· = []) h.after)

/-! ### Lines -/

/-- The deleted rest of the line is put back, in front of a line of its own for what has come up. -/
theorem Shows.returns_delLine_undelLine (h : Shows t s ⟨bs, l, r, as⟩ xs ys n) (hw : Roomy s)
    (hfuel : 3 ≤ fuel) :
    Returns (do delLine fuel; undelLine fuel)
      (fun _ s' => s'.text = bs ++ (l ++ r) :: if as = [] then [[]] else as) s := by
  obtain ⟨fuel, rfl⟩ := Nat.exists_eq_add_of_le' hfuel
  rw [returns_bind]
  refine ((ends_delLine fuel).returns hw (h.wp_delLine _)).mono
    fun _ s1 ⟨hw1, r', as', ys', n', h1, hor, hs1⟩ => ?_
  have hline : s1.dLine = some (r ++ [0]) := (congrArg Editor.dLine hs1).symm
  have hlen : s1.dltLineLength = 1 + r.length := (congrArg Editor.dltLineLength hs1).symm
  have hundel := h1.wp_undelLine (fuel + 3) (.inr (by rw [hline]; rfl)) (by omega)
  refine ((ends_undelLine fuel).returns hw1 hundel).mono fun _ s2 ⟨_, w, ys2, n2, hrec, h2, _⟩ => ?_
  have hw : w = r := by
    have := hrec.2 _ hline (by simp [hlen])
    rw [this, hlen]
    simp
  rw [h2.text_eq, Zipper.text, hw]
  rcases hor with ⟨rfl, rfl, rfl⟩ | rfl
  · rfl
  · rw [if_neg (List.cons_ne_nil _ _)]

/-- Deleting the rest of a line and undeleting it leaves the text as it was exactly if there is a line
below: at the end of the text an empty line is added. -/
theorem delLine_undelLine_iff (h : Consistent t s) (hn : s.heap s.currLine = some n) (hw : Roomy s)
    (hfuel : 3 ≤ fuel) :
    Returns (do delLine fuel; undelLine fuel) (fun _ s' => s'.text = s.text) s ↔ n.next ≠ none := by
  obtain ⟨bs, l, r, as, xs, ys, n', hs⟩ := h.exists_shows
  obtain rfl : n' = n := Option.some.inj (hs.inv.curr.symm.trans hn)
  have hundel := hs.returns_delLine_undelLine hw hfuel
  rw [Ne, hs.next_eq_none_iff]
  constructor
  · intro hsame has
    obtain ⟨_, s', htext, htext'⟩ := hundel.and hsame
    rw [htext', hs.text_eq, if_pos has, has] at htext
    have hlen := congrArg List.length htext
    simp [Zipper.text] at hlen
  · intro has
    refine hundel.mono fun _ s' htext => ?_
    rw [htext, if_neg has, hs.text_eq]
    rfl

/-- With a line below, the text comes back. -/
theorem delLine_undelLine_two :
    Returns (do delLine 3; undelLine 3) (fun _ s' => s'.text = (Editor.twoLines [97, 98] [99]).text)
      (Editor.twoLines [97, 98] [99]) :=
  (delLine_undelLine_iff (shows_twoLines [97, 98] [99]).consistent rfl ⟨by decide, rfl⟩ (Nat.le_refl 3)).mpr
    (Option.some_ne_none 2)

/-- In the last line an empty line is left behind. -/
theorem delLine_undelLine_last :
    Consistent True (Editor.oneLine [] [97, 98]).narrowed ∧ Roomy (Editor.oneLine [] [97, 98]).narrowed ∧
      (Editor.oneLine [] [97, 98]).narrowed.text = [[97, 98]] ∧
      (((do delLine 3; undelLine 3 : Ed Unit) (Editor.oneLine [] [97, 98]).narrowed).toOption.map fun r => r.2.text) =
        some [[97, 98], []] := by
  have hview := views_oneLine [] [97, 98]
  refine ⟨hview.shows.consistent, ⟨hview.roomy.wide, hview.roomy.last⟩, hview.shows.text_eq, ?_⟩
  decide +kernel

/-! ### Characters -/

/-- The byte inside a line is gone, and kept with a terminator behind it. -/
theorem Shows.wp_delChar_inside {b : UInt8} (h : Shows t s ⟨bs, l, b :: r, as⟩ xs ys n) (fuel : ℕ) :
    wp (delChar fuel) (fun _ s' => ∃ n', Shows t s' ⟨bs, l, r, as⟩ xs ys n' ∧ Edited s s' ∧
      s'.dChar = [b, 0] ++ s.dChar.drop 2) s := by
  have h1 : Shows t { s with inChar := 8 } ⟨bs, l, b :: r, as⟩ xs ys n := h.of_core rfl
  have hlt : s.position < n.lineLength := by
    rw [h.left, h.lineLength_eq, List.length_cons]
    dsimp only
    omega
  simp only [delChar, beforeEnd, wp_bind, wp_modify, wp_get, wp_curr h1.inv.curr, wp_pure, decide_eq_true_eq]
  rw [if_pos hlt, wp_bind, wp_wideAt h1.inv.narrow, wp_bind, onlyIf, if_neg Bool.false_ne_true, wp_pure,
    wp_bind]
  refine h1.wp_advance fun s2 h2 hm2 => ?_
  rw [wp_bind, wp_get, wp_bind]
  refine h2.inv.wp_scanline fuel rfl fun s3 hs3 _ => ?_
  have hm3 : Moves { s with inChar := 8 } s3 := hm2.trans (Moves.of_scrolls hs3)
  have h3 := h2.of_core (Rests.of_scrolls hs3).core
  rw [delete, wp_bind]
  refine wp_mono (h3.wp_deleteBack_inside fuel true) fun _ s4 hpost => ?_
  obtain ⟨n4, h4, hs4, hchar⟩ := hpost
  have hin : s3.inChar = 8 := (congrArg Editor.inChar hm3).symm
  have hold : s3.dChar = s.dChar := (congrArg Editor.dChar hm3).symm
  rw [Editor.saved, if_pos hin, hold] at hchar
  have hs : Edited { s with inChar := 8 } s4 := Edited.of_moves hm3 hs4
  exact ⟨n4, h4.of_core rfl, hs, hchar⟩

theorem At.returns_delChar {b : UInt8} (h : At t s ⟨bs, l, b :: r, as⟩) :
    Returns (delChar (fuel + 3)) (fun _ s' => At t s' ⟨bs, l, r, as⟩ ∧ Edited s s' ∧
      s'.dChar = [b, 0] ++ s.dChar.drop 2) s := by
  obtain ⟨xs, ys, n, hs⟩ := h.shows
  refine ((ends_delChar fuel).returns h.roomy (hs.wp_delChar_inside _)).mono
    fun _ s' ⟨hw', n', h', hed, hchar⟩ => ?_
  exact ⟨⟨⟨xs, ys, n', h'⟩, hw'⟩, hed, hchar⟩

/-- A line end is deleted from the start of the line behind it. -/
theorem At.returns_delete_join {b : List UInt8} (h : At t s ⟨bs ++ [b], [], r, as⟩) (disp : Bool) :
    Returns (delete (fuel + 3) disp) (fun _ s' => At t s' ⟨bs, b, r, as⟩ ∧ Edited s s' ∧
      s'.dChar = s.saved [10]) s := by
  obtain ⟨xs, ys, n, hs⟩ := h.shows
  obtain ⟨i, xs, _, _, rfl, _⟩ := (hs.views h.roomy).exists_prev
  have hjoin : wp (delete (fuel + 3) disp) (fun _ s' => ∃ n', Shows t s' ⟨bs, b, r, as⟩ xs ys n' ∧
      Edited s s' ∧ s'.dChar = s.saved [10]) s := by
    rw [delete, wp_bind]
    refine wp_mono (hs.wp_deleteBack_start _ disp) fun _ s1 hpost => ?_
    obtain ⟨n1, h1, hs1, hchar⟩ := hpost
    exact ⟨n1, h1.of_core rfl, hs1, hchar⟩
  refine ((ends_delete fuel disp).returns h.roomy hjoin).mono fun _ s' hpost => ?_
  obtain ⟨hw', n', h', hed, hchar⟩ := hpost
  exact ⟨⟨⟨xs, ys, n', h'⟩, hw'⟩, hed, hchar⟩

/-- At the end of a line the next one comes up. -/
theorem At.returns_delChar_end {a : List UInt8} (h : At t s ⟨bs, l, [], a :: as⟩) :
    Returns (delChar (fuel + 3)) (fun _ s' => At t s' ⟨bs, l, a, as⟩ ∧ Edited s s' ∧
      s'.dChar = [10, 0] ++ s.dChar.drop 2) s := by
  have h1 : At t { s with inChar := 8 } ⟨bs, l, [], a :: as⟩ := h.of_core rfl ⟨h.roomy.wide, h.roomy.last⟩
  rw [delChar, returns_bind, returns_modify, returns_bind, h1.returns_beforeEnd, if_neg (by simp),
    returns_bind]
  refine (h1.returns_right_next (Nat.le_add_left 2 (fuel + 1))).mono fun _ s2 hpost => ?_
  obtain ⟨h2, hm2, _⟩ := hpost
  refine (h2.returns_delete_join true).mono fun _ s3 hpost => ?_
  obtain ⟨h3, hs3, hchar⟩ := hpost
  have hin : s2.inChar = 8 := (congrArg Editor.inChar hm2).symm
  have hold : s2.dChar = s.dChar := (congrArg Editor.dChar hm2).symm
  rw [Editor.saved, if_pos hin, hold] at hchar
  have hs : Edited { s with inChar := 8 } s3 := Edited.of_moves hm2 hs3
  exact ⟨h3, hs, hchar⟩

/-! ### Typing without margins -/

/-- The deleted character stays. -/
def Spared (d : List UInt8) (s : Editor) : Prop := s.dChar = d

theorem upholds_orFault {α : Type} {I : Editor → Prop} {E : Stop → Prop} (he : E .fault) (o : Option α) :
    Upholds I E (orFault o : Ed α) := by
  cases o with
  | none => exact upholds_throw he
  | some a => exact upholds_pure a

theorem spares_typeByte (d : List UInt8) (character : ℤ) :
    Upholds (Spared d) (fun _ => True) (typeByte character) := by
  have horFault : ∀ {α : Type} (o : Option α), Upholds (Spared d) (fun _ => True) (orFault o : Ed α) :=
    upholds_orFault trivial
  mvcgen [typeByte, markChanged, putByte, onlyIf, setPoint, resizLine, node, curr, setCurr, setNode,
    syncScrPos, advance, Editor.setNode, horFault]

theorem Shows.wp_scrollRight (h : Shows t s z xs ys n) (fuel : ℕ) :
    wp (scrollRight fuel) (fun _ s' => Shows t s' z xs ys n ∧ Moves s s') s := by
  rw [scrollRight, wp_bind, wp_get]
  refine wp_onlyIf (fun _ => ?_) fun _ => ⟨h, rfl⟩
  exact h.wp_midscreen fuel _ fun s' hs' h' => ⟨h', hs'.1⟩

/-- Without margins a character that is not expanded goes in as it is. -/
theorem At.returns_typing (h : At t s ⟨bs, l, r, as⟩) (hm : s.observMargins = false)
    (ha : s.autoFormat = false) {character : ℤ} (hc : ¬ (character = TAB ∧ s.expandTabs = true))
    (depth : ℕ) :
    Returns ((typing (fuel + 3) (depth + 1)).1 character) (fun _ s' =>
      At t s' ⟨bs, l ++ [toByte character], r, as⟩ ∧ Edited s s' ∧ s'.dChar = s.dChar) s := by
  obtain ⟨xs, ys, n, hs⟩ := h.shows
  change Returns (insertBody (fuel + 3) _ _ character) _ s
  rw [insertBody, returns_bind, returns_get, if_neg hc, returns_bind]
  have htyped := (ends_typeByte character).returns h.roomy (hs.wp_typeByte character)
  refine (htyped.and_upholds (spares_typeByte s.dChar character) rfl).mono
    fun _ s1 hpost => ?_
  obtain ⟨⟨hw1, n1, h1, hs1⟩, hchar1⟩ := hpost
  have hm1 : s1.observMargins = false := (congrArg Editor.observMargins hs1).symm.trans hm
  have ha1 : s1.autoFormat = false := (congrArg Editor.autoFormat hs1).symm.trans ha
  rw [returns_bind, wrap, returns_bind, returns_get, onlyIf, if_neg (by simp [hm1]), returns_pure,
    returns_bind]
  refine ((ends_scrollRight fuel).returns hw1 (h1.wp_scrollRight _)).mono fun _ s2 hpost => ?_
  obtain ⟨hw2, h2, hm2⟩ := hpost
  have ha2 : s2.autoFormat = false := (congrArg Editor.autoFormat hm2).symm.trans ha1
  have hchar2 : s2.dChar = s.dChar := (congrArg Editor.dChar hm2).symm.trans hchar1
  have hs2 : Edited s s2 := hs1.touches (.of_moves hm2)
  rw [returns_bind, returns_get, if_neg (by simp [ha2])]
  refine returns_onlyIf (fun _ => ?_) fun _ => ⟨⟨⟨xs, ys, n1, h2⟩, hw2⟩, hs2, hchar2⟩
  rw [returns_set]
  exact ⟨⟨⟨xs, ys, n1, h2.of_core rfl⟩, ⟨hw2.wide, hw2.last⟩⟩, hs2, hchar2⟩

/-- A tab that is expanded becomes a run of blanks. -/
theorem At.returns_typing_tab (h : At t s ⟨bs, l, r, as⟩) (hm : s.observMargins = false)
    (ha : s.autoFormat = false) (he : s.expandTabs = true) (depth : ℕ) :
    Returns ((typing (fuel + 3) (depth + 2)).1 TAB) (fun _ s' =>
      ∃ k, At t s' ⟨bs, l ++ List.replicate k 32, r, as⟩ ∧ s'.dChar = s.dChar) s := by
  change Returns (insertBody (fuel + 3) _ _ TAB) _ s
  rw [insertBody, returns_bind, returns_get, if_pos ⟨rfl, he⟩, returns_bind]
  have hblank : ∀ i s1, i < (lenChar s.eightbit TAB s.scrHorz).toNat →
      At t s1 ⟨bs, l ++ List.replicate i 32, r, as⟩ ∧ s1.observMargins = false ∧ s1.autoFormat = false ∧
        s1.dChar = s.dChar →
      Returns ((typing (fuel + 3) (depth + 1)).1 SPACE) (fun _ s2 =>
        At t s2 ⟨bs, l ++ List.replicate (i + 1) 32, r, as⟩ ∧ s2.observMargins = false ∧
          s2.autoFormat = false ∧ s2.dChar = s.dChar) s1 := by
    intro i s1 _ ⟨h1, hm1, ha1, hchar1⟩
    have hnot : ¬ (SPACE = TAB ∧ s1.expandTabs = true) := fun h => absurd h.1 (by decide)
    refine (h1.returns_typing hm1 ha1 hnot depth).mono fun _ s2 ⟨h2, hs2, hchar2⟩ => ?_
    rw [List.append_assoc, show [toByte SPACE] = [32] from rfl, ← List.replicate_succ'] at h2
    have hm2 : s2.observMargins = false := (congrArg Editor.observMargins hs2).symm.trans hm1
    have ha2 : s2.autoFormat = false := (congrArg Editor.autoFormat hs2).symm.trans ha1
    exact ⟨h2, hm2, ha2, hchar2.trans hchar1⟩
  have hstart : At t s ⟨bs, l ++ List.replicate 0 32, r, as⟩ ∧ s.observMargins = false ∧
      s.autoFormat = false ∧ s.dChar = s.dChar := by
    rw [List.replicate_zero, List.append_nil]
    exact ⟨h, hm, ha, rfl⟩
  refine (returns_times hblank (Nat.zero_add _) hstart).mono fun _ s1 ⟨h1, _, ha1, hchar1⟩ => ?_
  rw [returns_bind, returns_get, onlyIf, if_neg (by simp [ha1]), returns_pure]
  exact ⟨_, h1, hchar1⟩

/-! ### Putting the character back -/

theorem toByte_toNat (b : UInt8) : toByte b.toNat = b := by
  have hlt := b.toNat_lt
  rw [toByte, Int.emod_eq_of_lt (by omega) (by omega), Int.toNat_natCast, UInt8.ofNat_toNat]

/-- The line end is typed again. -/
theorem At.returns_undelChar_newline (h : At t s ⟨bs, l, r, as⟩) {d : List UInt8} (hd : s.dChar = 10 :: d) :
    Returns (undelChar (fuel + 3)) (fun _ s' => At t s' ⟨bs ++ [l], [], r, as⟩) s := by
  obtain ⟨xs, ys, n, hs⟩ := h.shows
  rw [undelChar, returns_bind, returns_get, if_pos (by rw [hd]; rfl)]
  refine ((ends_insertLine fuel true).returns h.roomy (hs.wp_insertLine _ true)).mono
    fun _ s' ⟨hw', n', _, h', _⟩ => ?_
  exact ⟨⟨_, _, n', h'⟩, hw'⟩

/-- Any other character is typed, and with it what typing makes of a tab. -/
theorem At.returns_undelChar (h : At t s ⟨bs, l, r, as⟩) (hm : s.observMargins = false)
    (ha : s.autoFormat = false) {b : UInt8} {d : List UInt8} (hd : s.dChar = b :: 0 :: d) (hb : b ≠ 10) :
    Returns (undelChar (fuel + 4)) (fun _ s' => if b = 9 ∧ s.expandTabs = true then
      ∃ k, At t s' ⟨bs, l ++ List.replicate k 32, r, as⟩ else At t s' ⟨bs, l ++ [b], r, as⟩) s := by
  have hb0 : s.dChar.getD 0 0 = b := by rw [hd]; rfl
  -- the second byte of `d_char` is looked at when the first has been typed
  have hdone : ∀ (s1 : Editor) (post : Unit → Editor → Prop), s1.dChar = s.dChar → post () s1 →
      Returns (do
        let b1 := (← get).dChar.getD 1 0
        onlyIf (b1 ≠ 0) do
          modify fun s => { s with inChar := b1.toNat }
          insert (fuel + 4) b1.toNat) post s1 := by
    intro s1 post hs1 hpost
    rw [returns_bind, returns_get, onlyIf, if_neg (by rw [hs1, hd]; simp), returns_pure]
    exact hpost
  have h1 : At t { s with inChar := b.toNat } ⟨bs, l, r, as⟩ := h.of_core rfl ⟨h.roomy.wide, h.roomy.last⟩
  rw [undelChar, returns_bind, returns_get, hb0]
  dsimp only
  rw [if_neg hb, returns_bind, returns_modify, returns_bind]
  by_cases htab : b = 9 ∧ s.expandTabs = true
  · obtain ⟨rfl, he⟩ := htab
    change Returns ((typing (fuel + 1 + 3) (fuel + 2 + 2)).1 TAB) _ _
    refine (h1.returns_typing_tab hm ha he (fuel + 2)).mono fun _ s2 hpost => ?_
    obtain ⟨k, h2, hchar2⟩ := hpost
    apply hdone s2 _ hchar2
    rw [if_pos ⟨rfl, he⟩]
    exact ⟨k, h2⟩
  · have hnot : ¬ ((b.toNat : ℤ) = TAB ∧ s.expandTabs = true) := by
      rintro ⟨hb9, he⟩
      refine htab ⟨UInt8.toNat_inj.mp ?_, he⟩
      exact Int.ofNat_inj.mp hb9
    change Returns ((typing (fuel + 1 + 3) (fuel + 3 + 1)).1 b.toNat) _ _
    refine (h1.returns_typing hm ha hnot (fuel + 3)).mono fun _ s2 hpost => ?_
    obtain ⟨h2, _, hchar2⟩ := hpost
    apply hdone s2 _ hchar2
    rw [if_neg htab]
    rwa [toByte_toNat] at h2

/-- What becomes of a byte that is deleted and undeleted. -/
theorem At.returns_delChar_undelChar {b : UInt8} (h : At t s ⟨bs, l, b :: r, as⟩)
    (hm : s.observMargins = false) (ha : s.autoFormat = false) :
    Returns (do delChar (fuel + 4); undelChar (fuel + 4)) (fun _ s' =>
      if b = 10 then s'.text = bs ++ l :: r :: as
      else if b = 9 ∧ s.expandTabs = true then
        ∃ k, s'.text = bs ++ (l ++ List.replicate k 32 ++ r) :: as
      else s'.text = bs ++ (l ++ b :: r) :: as) s := by
  rw [returns_bind]
  refine h.returns_delChar.mono fun _ s1 ⟨h1, hs1, hchar⟩ => ?_
  have hm1 : s1.observMargins = false := (congrArg Editor.observMargins hs1).symm.trans hm
  have ha1 : s1.autoFormat = false := (congrArg Editor.autoFormat hs1).symm.trans ha
  have he1 : s1.expandTabs = s.expandTabs := (congrArg Editor.expandTabs hs1).symm
  by_cases hb : b = 10
  · subst hb
    refine (h1.returns_undelChar_newline hchar).mono fun _ s2 h2 => ?_
    rw [if_pos rfl, h2.text_eq]
    exact List.append_assoc bs [l] _
  · refine (h1.returns_undelChar hm1 ha1 hchar hb).mono fun _ s2 h2 => ?_
    rw [if_neg hb]
    rw [he1] at h2
    split at h2
    next htab =>
      obtain ⟨k, h2⟩ := h2
      rw [if_pos htab]
      exact ⟨k, h2.text_eq⟩
    next htab =>
      rw [if_neg htab, h2.text_eq, Zipper.text, List.append_assoc, List.singleton_append]

/-- Deleting the character at the cursor and undeleting it leaves the text as it was exactly if the
character is the end of a line, or else neither a line feed nor a tab that typing expands. -/
theorem delChar_undelChar_iff (h : Consistent t s) (hn : s.heap s.currLine = some n) (hw : Roomy s)
    (hm : s.observMargins = false) (ha : s.autoFormat = false)
    (hend : s.position < n.lineLength ∨ n.next ≠ none) (hfuel : 4 ≤ fuel) :
    Returns (do delChar fuel; undelChar fuel) (fun _ s' => s'.text = s.text) s ↔
      ∀ b, n.content[s.position - 1]? = some b → b ≠ 10 ∧ ¬ (b = 9 ∧ s.expandTabs = true) := by
  obtain ⟨bs, l, r, as, xs, ys, n', hs⟩ := h.exists_shows
  obtain rfl : n' = n := Option.some.inj (hs.inv.curr.symm.trans hn)
  obtain ⟨fuel, rfl⟩ := Nat.exists_eq_add_of_le' hfuel
  have hat : At t s ⟨bs, l, r, as⟩ := ⟨⟨xs, ys, n', hs⟩, hw⟩
  have hunder : n'.content[s.position - 1]? = r.head? := by
    rw [hs.line, hs.left, Nat.add_sub_cancel, List.getElem?_append_right (Nat.le_refl _), Nat.sub_self,
      List.head?_eq_getElem?]
  have htext : s.text = bs ++ (l ++ r) :: as := hs.text_eq
  rw [hunder, htext]
  cases r with
  | nil =>
    have has : as ≠ [] := by
      rcases hend with hlt | hnext
      · rw [hs.left, hs.lineLength_eq] at hlt
        simp at hlt
      · exact fun has => hnext (hs.next_eq_none_iff.mpr has)
    obtain ⟨a, as, rfl⟩ := List.exists_cons_of_ne_nil has
    refine iff_of_true ?_ nofun
    rw [returns_bind]
    refine hat.returns_delChar_end.mono fun _ s1 ⟨h1, _, hchar⟩ => ?_
    refine (h1.returns_undelChar_newline hchar).mono fun _ s2 h2 => ?_
    rw [h2.text_eq, Zipper.text, List.append_nil]
    exact List.append_assoc bs [l] _
  | cons b r =>
    simp only [List.head?_cons, Option.some.injEq, forall_eq']
    have hback : Returns (do delChar (fuel + 4); undelChar (fuel + 4)) _ s :=
      hat.returns_delChar_undelChar hm ha
    constructor
    · intro hsame
      obtain ⟨_, s', htext', hsame'⟩ := hback.and hsame
      rw [hsame'] at htext'
      split_ifs at htext' with hb htab
      · simpa using congrArg List.length htext'
      · obtain ⟨k, htext'⟩ := htext'
        obtain ⟨rfl, -⟩ := htab
        rw [List.append_cancel_left_eq, List.cons.injEq, List.append_assoc, List.append_cancel_left_eq] at htext'
        cases k with
        | zero => simpa using congrArg List.length htext'.1
        | succ k => simp [List.replicate_succ] at htext'
      · exact ⟨hb, htab⟩
    · rintro ⟨hb, htab⟩
      refine hback.mono fun _ s' htext' => ?_
      rwa [if_neg hb, if_neg htab] at htext'

/-- An `a` comes back whatever the tabs do. -/
theorem delChar_undelChar_letter :
    Returns (do delChar 4; undelChar 4) (fun _ s' => s'.text = [[97, 98], [99]])
      { Editor.twoLines [97, 98] [99] with observMargins := false } := by
  have hs : Shows True { Editor.twoLines [97, 98] [99] with observMargins := false }
      ⟨[], [], [97, 98], [[99]]⟩ [] [2] { Node.sole [97, 98] with next := some 2 } :=
    (shows_twoLines [97, 98] [99]).of_core rfl
  have htext := hs.text_eq
  have hback := (delChar_undelChar_iff hs.consistent rfl ⟨by decide, rfl⟩ rfl rfl (.inl (by decide))
    (Nat.le_refl 4)).mpr fun b hb => by
      obtain rfl : 97 = b := Option.some.inj hb
      decide
  rwa [htext] at hback

/-- A tab comes back as blanks. -/
theorem delChar_undelChar_tab :
    Consistent True { Editor.twoLines [9, 98] [99] with observMargins := false } ∧
      Roomy (Editor.twoLines [9, 98] [99]) ∧ (Editor.twoLines [9, 98] [99]).autoFormat = false ∧
      (Editor.twoLines [9, 98] [99]).text = [[9, 98], [99]] ∧
      (((do delChar 4; undelChar 4 : Ed Unit)
        { Editor.twoLines [9, 98] [99] with observMargins := false }).toOption.map fun r => r.2.text) = some [List.replicate 8 32 ++ [98], [99]] := by
  have hs := shows_twoLines [9, 98] [99]
  refine ⟨hs.consistent.of_core rfl, ⟨by decide, rfl⟩, rfl, hs.text_eq, ?_⟩
  decide +kernel

end BsdAdditions.Ee
