import BsdAdditions.Ee.EditSound

/-! Joining lines, and the buffers for deleted text. -/
namespace BsdAdditions.Ee
open Common Common.Prog

variable {t : Prop} {s : Editor} {xs ys : List ℕ} {n : Node}
  {bs as : List (List UInt8)} {l r : List UInt8}

/-! ### Joining lines -/

section Chain
variable {heap : ℕ → Option Node}

/-- The predecessor of a node that is not the first. -/
theorem Chain.prev_eq {p : Option ℕ} {xs ys : List ℕ} {i c : ℕ} {n : Node}
    (h : Chain heap p (xs ++ i :: c :: ys)) (hn : heap c = some n) : n.prev = some i := by
  induction xs generalizing p with
  | nil =>
    obtain ⟨_, -, -, -, m, hm, hprev, -⟩ := h
    obtain rfl : m = n := by simpa [hm] using hn
    exact hprev
  | cons x xs ih =>
    obtain ⟨_, -, -, -, hc⟩ := h
    exact ih hc

end Chain

/-- A run of bytes and the terminator, behind the end of the line. -/
theorem Holds.append {line rest : List UInt8} (h : Holds t n line rest) (bytes : List UInt8)
    (hroom : bytes.length + 1 ≤ rest.length) : ∃ n' rest',
      ({ n with lineLength := n.lineLength + bytes.length } : Node).copyFrom ⟨n.line, line.length⟩
        (bytes ++ [0]) = some n' ∧
      SameLinks n n' ∧ n'.line = n.line ∧ Holds True n' (line ++ bytes) rest' := by
  obtain ⟨hbytes, hlen, hsize, -, -⟩ := h
  obtain ⟨old, tail, rfl, hold⟩ : ∃ old tail, rest = old ++ tail ∧ old.length = bytes.length + 1 :=
    ⟨rest.take (bytes.length + 1), rest.drop (bytes.length + 1), (List.take_append_drop _ _).symm,
      by rw [List.length_take]; omega⟩
  have hover : overwrite n.bytes line.length (bytes ++ [0]) = line ++ bytes ++ 0 :: tail := by
    rw [hbytes, overwrite_append _ _ _ (by simpa using hold)]
    simp
  refine ⟨{ n with lineLength := n.lineLength + bytes.length, bytes := line ++ bytes ++ 0 :: tail },
    0 :: tail, ?_, ⟨rfl, rfl⟩, rfl, rfl, ?_, ?_, by simp, fun _ => rfl⟩
  · rw [Node.copyFrom_eq rfl (by simp [hbytes, hold])]
    simp only [hover]
  · simp only [List.length_append]
    omega
  · simp only [hsize, List.length_append, List.length_cons, hold]
    omega

/-- The bytes of a line, from its start to the terminator. -/
theorem Holds.readMany {l r rest : List UInt8} (h : Holds t n (l ++ r) rest) :
    n.readMany ⟨n.line, l.length⟩ r.length = some r := by
  rw [Node.readMany_eq rfl (by simp [h.bytes]), h.bytes]
  simp

/-- The line before the current one. -/
theorem Shows.exists_before {i : ℕ} {line : List UInt8}
    (h : Shows t s ⟨bs ++ [line], l, r, as⟩ (xs ++ [i]) ys n) : ∃ m rest, s.heap i = some m ∧
      n.prev = some i ∧ m.next = some s.currLine ∧ Holds t m line rest := by
  have hids : xs ++ [i] ++ s.currLine :: ys = xs ++ i :: s.currLine :: ys := by simp
  have hlines := h.inv.lines
  rw [hids] at hlines
  obtain ⟨m, hm, hok⟩ := hlines.exists_node (i := i) (by simp)
  obtain ⟨rest, hold⟩ := hok.exists_holds
  have hline : m.content = line := by
    have hmap := h.before
    rw [List.map_append, List.map_singleton, lineAt, hm] at hmap
    exact List.singleton_inj.mp (List.append_inj' hmap rfl).2
  exact ⟨m, rest, hm, hlines.chain.prev_eq h.inv.curr, hlines.chain.next_eq hm, hline ▸ hold⟩

/-- What joining two lines does from the end of the first one on. -/
def joinBehind : Ed Unit := do
  let s ← get
  let j ← orFault (← curr).next
  let tempBuff ← node j
  let point ← resizLine tempBuff.lineLength s.currLine s.position
  setPoint point
  setPrev tempBuff.next s.currLine
  setCurr { (← curr) with next := tempBuff.next }
  saveChar [10]
  let bs ← orFault (tempBuff.readMany tempBuff.start (tempBuff.lineLength - 1))
  let n ← curr
  let n ← orFault ({ n with lineLength := n.lineLength + bs.length }.copyFrom point (bs ++ [0]))
  setCurr n
  modify fun s => { s with heap := Function.update s.heap j none }
  syncScrPos

theorem joinLines_eq (fuel : ℕ) (disp : Bool) :
    joinLines fuel disp = (do markChanged; left fuel disp; joinBehind) := rfl

/-- The character mode plays no part in this: `s` is the state before the step to the line before,
in either mode. -/
theorem Shows.wp_joinBehind {i : ℕ} {line : List UInt8} {s1 : Editor}
    (h : Shows t s ⟨bs ++ [line], [], r, as⟩ (xs ++ [i]) ys n) (hheap : s1.heap = s.heap)
    (hfirst : s1.firstLine = s.firstLine) (hfresh : s1.fresh = s.fresh) (hc1 : s1.currLine = i)
    (hpos1 : s1.position = line.length + 1) :
    wp joinBehind (fun _ s' => ∃ n',
      Shows t { s' with eeChinese := s.eeChinese } ⟨bs, line, r, as⟩ xs ys n' ∧
      Touches s1 s' ∧ s'.dChar = s1.saved [10]) s1 := by
  obtain ⟨m, restm, hm, hprev, hnext, holdm⟩ := h.exists_before
  obtain ⟨restn, holdn⟩ := h.exists_holds
  obtain ⟨-, hxc, hyc, hxy⟩ := nodup_around h.inv.lines.nodup
  have hij : i ≠ s.currLine := hxc i (by simp)
  have hnexti : n.next ≠ some i := by
    rw [h.inv.lines.chain.next_eq h.inv.curr]
    exact fun hhead => hxy i (by simp) (List.mem_of_head? hhead)
  have hcurr1 : s1.heap s1.currLine = some m := by rw [hheap, hc1, hm]
  rw [joinBehind, wp_bind, wp_get, wp_bind, wp_curr hcurr1, wp_bind, hnext, wp_orFault_some, wp_bind,
    wp_node (by rw [hheap, h.inv.curr]), wp_bind]
  refine holdm.wp_resizLine hcurr1 n.lineLength _ fun s2 m2 rest2 hs2 heap2 hlinks2 _ hlen2 hold2 => ?_
  rw [hc1, hheap] at heap2
  rw [wp_bind, setPoint, wp_modify, wp_bind]
  refine wp_setPrev (fun j hj => ?_) fun s4 hs4 heap4 => ?_
  · obtain ⟨y, hy, -⟩ := h.inv.lines.exists_node (h.inv.lines.next_mem h.inv.mem h.inv.curr hj)
    have hne : j ≠ i := fun hji => hnexti (hji ▸ hj)
    exact ⟨y, by rw [heap2, Function.update_of_ne hne, hy]⟩
  dsimp only at heap4
  have hc4 : s4.currLine = i := (hs4.currLine.trans hs2.currLine).trans hc1
  have hcurr4 : s4.heap s4.currLine = some m2 := by
    rw [hc4, heap4 i m2 (by rw [heap2, Function.update_self]), if_neg hnexti]
  have hoff : s1.position - 1 = line.length := by rw [hpos1, Nat.add_sub_cancel]
  have hread : n.readMany n.start (n.lineLength - 1) = some r := by
    rw [holdn.length, Nat.add_sub_cancel]
    exact holdn.readMany (l := [])
  have hold3 : Holds t { m2 with next := n.next } line rest2 :=
    ⟨hold2.bytes, hold2.length, hold2.size, hold2.room, hold2.term⟩
  have hroom : r.length + 1 ≤ rest2.length := by
    have := holdn.length
    simp only [List.nil_append] at this
    omega
  obtain ⟨m3, rest3, hcopy, hlinks3, hline3, hold4⟩ := hold3.append r hroom
  rw [wp_bind, wp_curr hcurr4, wp_bind, wp_setCurr, wp_bind, wp_saveChar, wp_bind, hread,
    wp_orFault_some, wp_bind]
  refine (wp_curr (n := { m2 with next := n.next }) (by simp)).mpr ?_
  rw [wp_bind, hoff, hcopy, wp_orFault_some, wp_bind, wp_setCurr, wp_bind, wp_modify, syncScrPos,
    wp_modify]
  refine ⟨m3, h.remove (m := m) ?_ (hold4.weaken fun _ => trivial) hc4 ?_ ?_ rfl ?_ ?_ ?_ rfl, ?_, ?_⟩
  · refine ⟨hm, hnext, h.inv.curr, ?_, hlinks3.2.trans hlinks2.2, hlinks3.1, fun x y hxi hxj hy => ?_⟩
    · simp [hc4, hij]
    · simp only [Editor.setNode_heap, Editor.setNode_currLine, hc4, Function.update_of_ne hxi,
        Function.update_of_ne hxj]
      rw [heap4 x y (by rw [heap2, Function.update_of_ne hxi, hy]), hc1]
  · exact (hs4.firstLine.trans hs2.firstLine).trans hfirst
  · exact Nat.le_trans (Nat.le_trans (Nat.le_of_eq hfresh.symm) hs2.fresh) hs4.fresh
  · exact hs4.point.trans (by rw [hline3, hoff])
  · exact (hs4.position.trans hs2.position).trans hpos1
  · rw [holdm.content]
  · exact hs2.touches.trans hs4.touches
  · change s4.saved [10] = s1.saved [10]
    rw [hs4.eq, hs2.eq]
    rfl

theorem Shows.wp_joinLines {i : ℕ} {line : List UInt8}
    (h : Shows t s ⟨bs ++ [line], [], r, as⟩ (xs ++ [i]) ys n) (fuel : ℕ) (disp : Bool) :
    wp (joinLines fuel disp) (fun _ s' => ∃ n', Shows t s' ⟨bs, line, r, as⟩ xs ys n' ∧
      Edited s s' ∧ s'.dChar = s.saved [10]) s := by
  rw [joinLines_eq, wp_bind, markChanged, wp_modify]
  generalize hs0 : { s with textChanges := true } = s0
  have hd0 : s0.saved [10] = s.saved [10] := by
    subst hs0
    rfl
  have h0 : Shows t s0 ⟨bs ++ [line], [], r, as⟩ (xs ++ [i]) ys n := by
    subst hs0
    exact h.of_core rfl
  obtain ⟨m, restm, hm, hprev, hnext, holdm⟩ := h0.exists_before
  rw [wp_bind]
  refine h0.inv.wp_left_start fuel disp h0.point_eq hprev hm fun s1 hs1 hc1 hpos1 _ _ => ?_
  refine wp_mono (h0.wp_joinBehind hs1.heap hs1.firstLine hs1.fresh hc1 (hpos1.trans holdm.length))
    fun _ s' hpost => ?_
  obtain ⟨n', h', ht, hd⟩ := hpost
  refine ⟨n', ?_, ?_, ?_⟩
  · have hmode : s'.eeChinese = s0.eeChinese := (congrArg Editor.eeChinese ht).symm.trans hs1.eeChinese
    rw [← hmode] at h'
    exact h'
  · have hs04 := (Touches.of_moves hs1).trans ht
    subst hs0
    exact hs04
  · exact (hd.trans (congrArg (·.saved [10]) hs1).symm).trans hd0

/-! ### What editing may change -/

/-- There is a line to undelete, or none is asked for. -/
def HasLine (s : Editor) : Prop := s.dltLineLength ≤ 1 ∨ s.dLine.isSome = true

/-- A change of the text is marked, and a deleted line is kept. -/
structure Reworks (s s' : Editor) : Prop where
  marked : s.textChanges = true → s'.textChanges = true
  text : s'.textChanges = false → s'.text = s.text
  line : HasLine s → HasLine s'
  file : s'.inputFile = s.inputFile

instance : IsPreorder Editor Reworks where
  refl _ := ⟨id, fun _ => rfl, id, rfl⟩
  trans s s' s'' h h' := by
    refine ⟨h'.marked ∘ h.marked, fun hc => ?_, h'.line ∘ h.line, h'.file.trans h.file⟩
    have hc' : s'.textChanges = false := by
      cases hs : s'.textChanges with
      | false => rfl
      | true => exact absurd hc (by simp [h'.marked hs])
    exact (h'.text hc).trans (h.text hc')

/-- A deleted word is kept as well. -/
structure Advances (s s' : Editor) : Prop extends Reworks s s' where
  word : s.dWord.isSome = true → s'.dWord.isSome = true

instance : IsPreorder Editor Advances where
  refl s := ⟨refl s, id⟩
  trans s s' s'' h h' := ⟨IsTrans.trans s s' s'' h.toReworks h'.toReworks, h'.word ∘ h.word⟩

theorem Reworks.of_changed {s s' : Editor} (hc : s'.textChanges = true)
    (hline : HasLine s → HasLine s') (hfile : s'.inputFile = s.inputFile) : Reworks s s' :=
  ⟨fun _ => hc, fun hf => absurd (hc.symm.trans hf) (by simp), hline, hfile⟩

theorem Advances.of_moves {s s' : Editor} (h : Moves s s') : Advances s s' := by
  have hm : s'.still = s.still := h.symm
  refine ⟨⟨fun hc => ?_, fun _ => ?_, fun hl => ?_, (congrArg Editor.inputFile h).symm⟩, fun hw => ?_⟩
  · exact (congrArg Editor.textChanges hm).trans hc
  · rw [Editor.text, Editor.text, h.heap, h.fresh, h.firstLine]
  · exact (congrArg HasLine hm).mpr hl
  · exact (congrArg (·.dWord.isSome) hm).trans hw

theorem Edited.changed {s s' : Editor} (h : Edited s s') : s'.textChanges = true :=
  (congrArg Editor.textChanges h).symm

theorem Edited.advances {s s' : Editor} (h : Edited s s') : Advances s s' := by
  have hm : s'.bare = Editor.bare { s with textChanges := true } := h.symm
  refine ⟨.of_changed h.changed (fun hl => ?_) (congrArg Editor.inputFile h).symm, fun hw => ?_⟩
  · exact (congrArg HasLine hm).mpr hl
  · exact (congrArg (·.dWord.isSome) hm).trans hw

theorem keeps_advances {α : Type} {m : Ed α} (h : Keeps (Consistent t) Moves m) :
    Keeps (Consistent t) Advances m :=
  h.weaken fun _ _ => Advances.of_moves

theorem Consistent.exists_shows (h : Consistent t s) : ∃ bs l r as xs ys n,
    Shows t s ⟨bs, l, r, as⟩ xs ys n := by
  obtain ⟨ids, n, h⟩ := h
  obtain ⟨⟨bs, l, r, as⟩, xs, ys, -, hs⟩ := h.exists_shows
  exact ⟨bs, l, r, as, xs, ys, n, hs⟩

/-- The start of the line, in the text. -/
theorem Shows.point_eq_start_iff (h : Shows t s ⟨bs, l, r, as⟩ xs ys n) :
    s.point = n.start ↔ l = [] := by
  rw [h.point_eq, Node.start, Ptr.mk.injEq]
  simp

/-- The list of lines has as many lines in front as there are nodes. -/
theorem Shows.exists_last (h : Shows t s ⟨bs, l, r, as⟩ xs ys n) (hprev : n.prev ≠ none) :
    ∃ bs' line xs' i, bs = bs' ++ [line] ∧ xs = xs' ++ [i] := by
  obtain rfl | ⟨xs, i, rfl⟩ := xs.eq_nil_or_concat'
  · obtain ⟨m, hm, hp, -⟩ := h.inv.lines.chain
    obtain rfl : m = n := by simpa [h.inv.curr] using hm.symm
    exact absurd hp hprev
  · have hmap := h.before
    rw [List.map_append] at hmap
    exact ⟨_, lineAt s.heap i, xs, i, hmap.symm, rfl⟩

/-- Deleting a byte inside the line. -/
theorem Shows.wp_deleteBack_inside {b : UInt8} (h : Shows t s ⟨bs, l ++ [b], r, as⟩ xs ys n)
    (fuel : ℕ) (disp : Bool) :
    wp (deleteBack fuel disp) (fun _ s' => ∃ n', Shows t s' ⟨bs, l, r, as⟩ xs ys n' ∧
      Edited s s' ∧ s'.dChar = s.saved [b]) s := by
  have hne : s.point ≠ n.start := fun heq => by simpa using h.point_eq_start_iff.mp heq
  simp only [deleteBack, offStart, wp_bind, wp_get, wp_curr h.inv.curr, wp_pure, decide_eq_true_eq]
  rw [if_pos hne]
  exact h.wp_deleteInLine fuel

/-- Deleting at the start of a line that has one before it. -/
theorem Shows.wp_deleteBack_start {i : ℕ} {line : List UInt8}
    (h : Shows t s ⟨bs ++ [line], [], r, as⟩ (xs ++ [i]) ys n) (fuel : ℕ) (disp : Bool) :
    wp (deleteBack fuel disp) (fun _ s' => ∃ n', Shows t s' ⟨bs, line, r, as⟩ xs ys n' ∧
      Edited s s' ∧ s'.dChar = s.saved [10]) s := by
  have heq : s.point = n.start := h.point_eq_start_iff.mpr rfl
  obtain ⟨m, rest, hm, hprev, -, -⟩ := h.exists_before
  simp only [deleteBack, offStart, wp_bind, wp_get, wp_curr h.inv.curr, wp_pure, decide_eq_true_eq]
  rw [if_neg (not_not_intro heq), wp_bind, wp_curr h.inv.curr, onlyIf, if_pos (by simp [hprev])]
  exact h.wp_joinLines fuel disp

theorem keeps_deleteBack (fuel : ℕ) (disp : Bool) :
    Keeps (Consistent t) Advances (deleteBack fuel disp) := by
  intro s hs
  obtain ⟨bs, l, r, as, xs, ys, n, h⟩ := hs.exists_shows
  obtain rfl | ⟨l, b, rfl⟩ := l.eq_nil_or_concat'
  · by_cases hprev : n.prev = none
    · have heq : s.point = n.start := h.point_eq_start_iff.mpr rfl
      simp only [deleteBack, offStart, wp_bind, wp_get, wp_curr h.inv.curr, wp_pure,
        decide_eq_true_eq]
      rw [if_neg (not_not_intro heq), wp_bind, wp_curr h.inv.curr, onlyIf,
        if_neg (not_not_intro hprev)]
      exact ⟨hs, refl s⟩
    · obtain ⟨bs, line, xs, i, rfl, rfl⟩ := h.exists_last hprev
      refine wp_mono (h.wp_deleteBack_start fuel disp) fun _ s' ⟨n', h', hs', _⟩ => ?_
      exact ⟨h'.consistent, hs'.advances⟩
  · refine wp_mono (h.wp_deleteBack_inside fuel disp) fun _ s' ⟨n', h', hs', _⟩ => ?_
    exact ⟨h'.consistent, hs'.advances⟩

theorem keeps_formatted (f : Bool) :
    Keeps (Consistent t) Advances (modify fun s => { s with formatted := f }) := by
  rintro s ⟨ids, n, h⟩
  exact ⟨⟨ids, n, h.of_core rfl⟩, ⟨⟨id, fun _ => rfl, id, rfl⟩, id⟩⟩

theorem keeps_delete (fuel : ℕ) (disp : Bool) : Keeps (Consistent t) Advances (delete fuel disp) :=
  (keeps_deleteBack fuel disp).bind fun _ => keeps_formatted false

theorem Consistent.of_core {s s' : Editor} (h : Consistent t s) (hs : s'.core = s.core) :
    Consistent t s' := by
  obtain ⟨ids, n, h⟩ := h
  exact ⟨ids, n, h.of_core hs⟩

theorem keeps_delChar (fuel : ℕ) : Keeps (Consistent t) Advances (delChar fuel) := by
  rintro s ⟨ids, n, h⟩
  rw [delChar, wp_bind, wp_modify, wp_bind]
  have h1 : Inv t { s with inChar := 8 } ids n := h.of_core rfl
  simp only [beforeEnd, wp_bind, wp_get, wp_curr h1.curr, wp_pure, decide_eq_true_eq]
  have hs1 : Advances s { s with inChar := 8 } := ⟨⟨id, fun _ => rfl, id, rfl⟩, id⟩
  refine wp_ite (fun hlt => ?_) fun _ => ?_
  · rw [wp_bind, wp_wideAt h1.narrow, wp_bind, onlyIf, if_neg Bool.false_ne_true, wp_pure, wp_bind,
      advance, wp_modify, wp_bind, wp_get]
    have h2 := h1.advance hlt
    refine Keeps.after (R := Advances) ?_ fun _ => keeps_delete fuel true
    refine h2.wp_scanline fuel rfl fun s' hs' _ => ⟨⟨ids, n, h2.scroll hs'⟩, ?_⟩
    have hm : Moves { s with inChar := 8 } s' := by
      obtain ⟨_, _, _, rfl⟩ := hs'
      rfl
    exact IsTrans.trans (r := Advances) _ _ _ hs1 (.of_moves hm)
  · refine Keeps.after (R := Advances) ?_ fun _ => keeps_delete fuel true
    refine wp_mono (keeps_advances (keeps_right fuel) _ ⟨ids, n, h1⟩) fun _ s' hpost => ⟨hpost.1, ?_⟩
    exact IsTrans.trans (r := Advances) _ _ _ hs1 hpost.2

/-! ### Words -/

/-- A run of bytes behind `l` is cut out. -/
theorem Holds.cutRun {w rest : List UInt8} (h : Holds t n (l ++ (w ++ r)) rest) : ∃ n1 n2 rest',
    n.copyDown ⟨n.line, l.length⟩ (Ptr.add ⟨n.line, l.length⟩ w.length) r.length = some n1 ∧
      n1.write (Ptr.add ⟨n.line, l.length⟩ r.length) 0 = some n2 ∧ SameLinks n n2 ∧
      n2.line = n.line ∧ n2.lineLength = n.lineLength ∧
      Holds True { n2 with lineLength := n2.lineLength - w.length } (l ++ r) rest' := by
  obtain ⟨hbytes, hlen, hsize, hroom, -⟩ := h
  simp only [List.length_append] at hlen hsize
  have hrun : (n.bytes.drop (l.length + w.length)).take r.length = r := by
    rw [hbytes, List.append_assoc, List.append_assoc, ← List.append_assoc l, ← List.length_append,
      List.drop_left, List.take_left]
  have hdown : n.copyDown ⟨n.line, l.length⟩ (Ptr.add ⟨n.line, l.length⟩ w.length) r.length =
      some { n with bytes := overwrite n.bytes l.length r } := by
    rw [Node.copyDown_eq rfl rfl (Nat.le_add_right _ _) (by simp [Ptr.add, hbytes]; omega)]
    simp only [Ptr.add, hrun]
  -- behind the run that has moved down, at least the terminator's old place is left
  obtain ⟨old, y, tail, heq, hold⟩ : ∃ old y tail, w ++ r ++ rest = old ++ y :: tail ∧
      old.length = r.length := by
    have hpos := List.length_pos_iff.mpr hroom
    have hlt : r.length < (w ++ r ++ rest).length := by
      simp only [List.length_append]
      omega
    refine ⟨(w ++ r ++ rest).take r.length, (w ++ r ++ rest)[r.length],
      (w ++ r ++ rest).drop (r.length + 1), ?_, by rw [List.length_take]; omega⟩
    rw [List.getElem_cons_drop, List.take_append_drop]
  have hover : overwrite n.bytes l.length r = l ++ (r ++ y :: tail) := by
    rw [hbytes, List.append_assoc, heq, overwrite_append _ _ _ hold]
  have htail : tail.length + 1 = w.length + rest.length := by
    have := congrArg List.length heq
    simp only [List.length_append, List.length_cons] at this
    omega
  refine ⟨_, { n with bytes := l ++ (r ++ 0 :: tail) }, 0 :: tail, hdown, ?_, ⟨rfl, rfl⟩, rfl, rfl,
    ?_, ?_, ?_, by simp, fun _ => rfl⟩
  · rw [Node.write_eq rfl (by simp [Ptr.add, hover])]
    simp only [hover, Ptr.add]
    simp
  · simp
  · simp only [List.length_append]
    omega
  · simp only [List.length_append, List.length_cons]
    omega

theorem wordLength_le (rest : List UInt8) : wordLength rest ≤ rest.length := by
  have hword := (List.takeWhile_prefix (l := rest) fun b => !isBlank b).length_le
  have hblank := (List.takeWhile_prefix isBlank (l := rest.drop
    (rest.takeWhile fun b => !isBlank b).length)).length_le
  rw [List.length_drop] at hblank
  simp only [wordLength]
  omega

/-- The bytes from the cursor to the end of the line. -/
theorem Shows.readMany (h : Shows t s ⟨bs, l, r, as⟩ xs ys n) :
    n.readMany s.point (n.lineLength - s.position) = some r := by
  obtain ⟨rest, hold⟩ := h.exists_holds
  have hlen := h.lineLength_eq
  dsimp only at hlen
  rw [h.point_eq, h.left, hlen, show l.length + r.length + 1 - (l.length + 1) = r.length by omega]
  exact hold.readMany

/-- The word has been deleted: it is kept, with a terminator and whatever the block held behind it. -/
def Editor.withWord (s : Editor) (word junk : List UInt8) : Editor :=
  { s with textChanges := true, dWord := some (word ++ 0 :: junk), dWrdLen := word.length }

theorem Shows.wp_delWord (h : Shows t s ⟨bs, l, r, as⟩ xs ys n) :
    wp delWord (fun _ s' => ∃ junk n', Shows t s' ⟨bs, l, r.drop (wordLength r), as⟩ xs ys n' ∧
      Touches (s.withWord (r.take (wordLength r)) junk) s') s := by
  obtain ⟨w, r', rfl, hw⟩ : ∃ w r', r = w ++ r' ∧ w.length = wordLength r :=
    ⟨r.take (wordLength r), r.drop (wordLength r), (List.take_append_drop _ _).symm,
      by rw [List.length_take, Nat.min_eq_left (wordLength_le r)]⟩
  obtain ⟨rest, hold⟩ := h.exists_holds
  obtain ⟨n1, n2, rest', hdown, hwrite, hlinks, hline, hlen, hold'⟩ := hold.cutRun
  have hpt : s.point = ⟨n.line, l.length⟩ := h.point_eq
  have hcount : (w ++ r').length - w.length = r'.length := by simp
  dsimp only at hdown hwrite
  rw [← hpt] at hdown hwrite
  rw [delWord, wp_bind, wp_get, wp_bind, wp_curr h.inv.curr, wp_bind, h.readMany, wp_orFault_some]
  simp only [← hw, hcount]
  rw [wp_bind, wp_set, wp_bind, hdown, wp_orFault_some, wp_bind, hwrite, wp_orFault_some, wp_bind,
    wp_setCurr, wp_modify, List.drop_left, List.take_left]
  refine ⟨(s.host.malloc s.fresh n.lineLength).drop (w.length + 1),
    { n2 with lineLength := n2.lineLength - w.length }, ?_, ?_⟩
  swap
  · unfold Touches Editor.withWord
    simp [Editor.bare, Editor.still, Editor.setNode]
  refine h.replace id rfl hlinks (hold'.weaken fun _ => trivial) rfl rfl (Nat.le_succ _) rfl ?_ h.left
    rfl rfl
  exact hpt.trans (by rw [hline])

/-- A run of bytes is put in front of what is behind `l`. -/
theorem Holds.insertRun {w rest : List UInt8} (h : Holds t n (l ++ r) rest)
    (hroom : w.length + 1 ≤ rest.length) : ∃ n' rest',
      n.copyFrom ⟨n.line, l.length⟩ (w ++ r ++ [0]) = some n' ∧ SameLinks n n' ∧ n'.line = n.line ∧
      Holds True { n' with lineLength := n'.lineLength + w.length } (l ++ (w ++ r)) rest' := by
  obtain ⟨hbytes, hlen, hsize, -, -⟩ := h
  simp only [List.length_append] at hlen hsize
  obtain ⟨old, tail, rfl, hold⟩ : ∃ old tail, rest = old ++ tail ∧ old.length = w.length + 1 :=
    ⟨rest.take (w.length + 1), rest.drop (w.length + 1), (List.take_append_drop _ _).symm,
      by rw [List.length_take]; omega⟩
  have hover : overwrite n.bytes l.length (w ++ r ++ [0]) = l ++ (w ++ r) ++ 0 :: tail := by
    rw [hbytes, show l ++ r ++ (old ++ tail) = l ++ ((r ++ old) ++ tail) by simp,
      overwrite_append _ _ _ (by simp [hold]; omega)]
    simp
  refine ⟨{ n with bytes := l ++ (w ++ r) ++ 0 :: tail }, 0 :: tail, ?_, ⟨rfl, rfl⟩, rfl, rfl, ?_, ?_,
    by simp, fun _ => rfl⟩
  · rw [Node.copyFrom_eq rfl (by simp [hbytes, hold]; omega)]
    simp only [hover]
  · simp only [List.length_append]
    omega
  · simp only [List.length_append, List.length_cons, hold] at hsize ⊢
    omega

/-- The bytes are the first `k` of the block, as far as the block goes. -/
def Recalls (block : Option (List UInt8)) (k : ℕ) (w : List UInt8) : Prop :=
  w.length = k ∧ ∀ bytes, block = some bytes → k ≤ bytes.length → w = bytes.take k

theorem Editor.readBlock_recalls {k : ℕ} {block : Option (List UInt8)}
    (h : block.isSome = true ∨ k = 0) : ∃ w, s.readBlock k block = some w ∧ Recalls block k w := by
  cases block with
  | none =>
    obtain rfl := h.resolve_left (by simp)
    exact ⟨[], rfl, rfl, nofun⟩
  | some bytes =>
    refine ⟨_, rfl, ?_, ?_⟩
    · simp only [Host.realloc, List.length_append, List.length_take, List.length_drop, length_malloc]
      omega
    · rintro _ ⟨⟩ hle
      exact realloc_shrink _ _ hle

/-- `undel_word` puts the word back. -/
theorem Shows.wp_undelWord (h : Shows t s ⟨bs, l, r, as⟩ xs ys n)
    (hw : s.dWord.isSome = true ∨ s.dWrdLen = 0) :
    wp undelWord (fun _ s' => ∃ w n', Recalls s.dWord s.dWrdLen w ∧
      Shows t s' ⟨bs, l, w ++ r, as⟩ xs ys n' ∧ Touches s s') s := by
  have hput : ∀ s1 n1, Shows t s1 ⟨bs, l, r, as⟩ xs ys n1 → Touches s s1 →
      n1.lineLength + s.dWrdLen ≤ n1.maxLength →
      wp (do
        let s ← get
        let n ← curr
        let word ← orFault (s.readBlock s.dWrdLen s.dWord)
        let rest ← orFault (n.readMany s.point (n.lineLength - s.position))
        let n ← orFault (n.copyFrom s.point (word ++ rest ++ [0]))
        setCurr { n with lineLength := n.lineLength + s.dWrdLen })
        (fun _ s' => ∃ w n', Recalls s.dWord s.dWrdLen w ∧ Shows t s' ⟨bs, l, w ++ r, as⟩ xs ys n' ∧
          Touches s s') s1 := by
    intro s1 n1 h1 hs1 hroom
    have hlen : s1.dWrdLen = s.dWrdLen := (congrArg Editor.dWrdLen hs1).symm
    have hword : s1.dWord = s.dWord := (congrArg Editor.dWord hs1).symm
    obtain ⟨w, hread, hrec⟩ := Editor.readBlock_recalls (s := s1) (k := s1.dWrdLen)
      (show s1.dWord.isSome = true ∨ s1.dWrdLen = 0 by rw [hlen, hword]; exact hw)
    have hwlen := hrec.1
    obtain ⟨rest, hold⟩ := h1.exists_holds
    have hsize := hold.size
    have hll := hold.length
    obtain ⟨n2, rest', hcopy, hlinks, hline, hold'⟩ := hold.insertRun (w := w) (by omega)
    have hpt : s1.point = ⟨n1.line, l.length⟩ := h1.point_eq
    rw [← hpt] at hcopy
    rw [wp_bind, wp_get, wp_bind, wp_curr h1.inv.curr, wp_bind, hread, wp_orFault_some, wp_bind,
      h1.readMany, wp_orFault_some, wp_bind, hcopy, wp_orFault_some, wp_setCurr, ← hwlen]
    rw [hlen, hword] at hrec
    refine ⟨w, { n2 with lineLength := n2.lineLength + w.length }, hrec, ?_, hs1⟩
    refine h1.replace id rfl hlinks (hold'.weaken fun _ => trivial) rfl rfl (Nat.le_refl _) rfl ?_
      h1.left rfl rfl
    exact hpt.trans (by rw [hline])
  have hmax := h.inv.node_ok.le
  rw [undelWord, wp_bind, wp_get, wp_bind, wp_curr h.inv.curr, wp_bind]
  refine wp_onlyIf (fun _ => ?_) fun hroom => hput s n h rfl (by omega)
  refine h.wp_grow s.dWrdLen fun s1 n1 h1 hmax1 hs1 _ => hput s1 n1 h1 hs1 ?_
  rw [hmax1, h1.lineLength_eq, ← h.lineLength_eq]
  omega

/-- A word has been taken out of the text. -/
def Carries (s : Editor) : Prop := s.textChanges = true ∧ s.dWord.isSome = true

theorem Advances.carries {s s' : Editor} (h : Advances s s') (hs : Carries s) : Carries s' :=
  hs.imp h.marked h.word

theorem keeps_undelWord :
    Keeps (fun s => Consistent t s ∧ Carries s) Advances undelWord := by
  rintro s ⟨hs, hcarry⟩
  obtain ⟨bs, l, r, as, xs, ys, n, h⟩ := hs.exists_shows
  refine wp_mono (h.wp_undelWord (.inl hcarry.2)) fun _ s' ⟨w, n', _, h', hs'⟩ => ?_
  have hm : s'.bare = s.bare := hs'.symm
  have hc' : s'.textChanges = true := (congrArg Editor.textChanges hm).trans hcarry.1
  have hw' : s'.dWord.isSome = true := (congrArg (·.dWord.isSome) hm).trans hcarry.2
  have hf' : s'.inputFile = s.inputFile := (congrArg Editor.inputFile hs').symm
  exact ⟨⟨h'.consistent, hc', hw'⟩, .of_changed hc' (congrArg HasLine hm).mpr hf', fun _ => hw'⟩

/-- After `del_word` the word may be put down anywhere. -/
theorem keeps_delWord_then {α : Type} {f : Unit → Ed α}
    (hf : Keeps (fun s => Consistent t s ∧ Carries s) Advances (f ())) :
    Keeps (Consistent t) Advances (delWord >>= f) := by
  intro s hs
  obtain ⟨bs, l, r, as, xs, ys, n, h⟩ := hs.exists_shows
  rw [wp_bind]
  refine wp_mono h.wp_delWord fun _ s1 ⟨junk, n1, h1, hs1⟩ => ?_
  have hc : s1.textChanges = true := (congrArg Editor.textChanges hs1).symm
  have hw : s1.dWord.isSome = true := (congrArg (·.dWord.isSome) hs1).symm
  have hline : HasLine s → HasLine s1 := (congrArg HasLine hs1).mp
  have hadv : Advances s s1 := ⟨.of_changed hc hline (congrArg Editor.inputFile hs1).symm, fun _ => hw⟩
  refine wp_mono (hf s1 ⟨h1.consistent, hc, hw⟩) fun _ s2 ⟨h2, hs2⟩ => ?_
  exact ⟨h2.1, IsTrans.trans _ _ _ hadv hs2⟩

theorem keeps_delWord : Keeps (Consistent t) Advances delWord :=
  bind_pure delWord ▸ keeps_delWord_then (Keeps.pure ())

/-! ### Lines -/

/-- The start of the next line. -/
theorem Shows.enter_next {s' : Editor} {m : Node} {j : ℕ} {ys' : List ℕ} {line : List UInt8}
    {as' : List (List UInt8)} (h : Shows t s ⟨bs, l, r, line :: as'⟩ xs (j :: ys') n)
    (hm : s.heap j = some m) (hs : Moves s s') (hc : s'.currLine = j) (hpt : s'.point = m.start)
    (hpos : s'.position = 1) :
    Shows t s' ⟨bs ++ [l ++ r], [], line, as'⟩ (xs ++ [s.currLine]) ys' m := by
  have hids : xs ++ [s.currLine] ++ s'.currLine :: ys' = xs ++ s.currLine :: j :: ys' := by simp [hc]
  have hafter := h.after
  rw [List.map_cons, List.cons.injEq, lineAt, hm] at hafter
  refine ⟨?_, ?_, ?_, hafter.1, hpos⟩
  · rw [hids]
    exact h.inv.enter hs (by simp [hc]) (hc ▸ hm) hpos hpt
  · rw [hs.heap, List.map_append, h.before, List.map_singleton, lineAt, h.inv.curr]
    exact congrArg (fun x => bs ++ [x]) h.line
  · rw [hs.heap]
    exact hafter.2

/-- The end of the line before. -/
theorem Shows.enter_prev {s' : Editor} {m : Node} {i : ℕ} {line : List UInt8}
    (h : Shows t s ⟨bs ++ [line], l, r, as⟩ (xs ++ [i]) ys n) (hm : s.heap i = some m)
    (hs : Moves s s') (hinv : Inv t s' (xs ++ [i] ++ s.currLine :: ys) m) (hc : s'.currLine = i)
    (hpos : s'.position = m.lineLength) :
    Shows t s' ⟨bs, line, [], (l ++ r) :: as⟩ xs (s.currLine :: ys) m := by
  obtain ⟨m', rest, hm', -, -, hold⟩ := h.exists_before
  obtain rfl : m = m' := by simpa [hm] using hm'
  have hids : xs ++ s'.currLine :: s.currLine :: ys = xs ++ [i] ++ s.currLine :: ys := by simp [hc]
  have hbefore := h.before
  rw [List.map_append] at hbefore
  refine ⟨hids ▸ hinv, ?_, ?_, ?_, hpos.trans hold.length⟩
  · rw [hs.heap]
    exact (List.append_inj' hbefore rfl).1
  · rw [hs.heap, List.map_cons, h.after, lineAt, h.inv.curr]
    exact congrArg (· :: as) h.line
  · rw [hold.content, List.append_nil]

/-- The list of lines has as many lines behind as there are nodes. -/
theorem Shows.exists_next (h : Shows t s ⟨bs, l, r, as⟩ xs ys n) (hnext : n.next ≠ none) :
    ∃ line as' j ys' m, as = line :: as' ∧ ys = j :: ys' ∧ n.next = some j ∧ s.heap j = some m := by
  have heq := h.inv.lines.chain.next_eq h.inv.curr
  cases ys with
  | nil => exact absurd heq hnext
  | cons j ys =>
    obtain ⟨m, hm, -⟩ := h.inv.lines.exists_node (i := j) (by simp)
    exact ⟨_, _, j, ys, m, h.after.symm, rfl, heq, hm⟩

/-- A line that ends at the cursor. -/
theorem Holds.truncate {rest : List UInt8} (h : Holds t n (l ++ r) rest) : ∃ n' rest',
    n.write ⟨n.line, l.length⟩ 0 = some n' ∧ SameLinks n n' ∧ n'.line = n.line ∧
      Holds True { n' with lineLength := l.length + 1 } l rest' := by
  obtain ⟨hbytes, -, hsize, hroom, -⟩ := h
  obtain ⟨x, tail, hx⟩ := List.exists_cons_of_ne_nil (l := r ++ rest) (by simp [hroom])
  have hb : n.bytes = l ++ x :: tail := by rw [hbytes, List.append_assoc, hx]
  have hlen : tail.length + 1 = r.length + rest.length := by
    rw [← List.length_cons (a := x), ← hx, List.length_append]
  refine ⟨_, 0 :: tail, Node.write_eq rfl (by simp [hb]) 0, ⟨rfl, rfl⟩, rfl, ?_, rfl, ?_, by simp,
    fun _ => rfl⟩
  · simp [hb]
  · simp only [hsize, List.length_append, List.length_cons]
    omega

/-- `right` without the display, from the end of a line. -/
theorem Inv.wp_right_end {ids : List ℕ} (h : Inv t s ids n) (fuel : ℕ)
    (hend : n.lineLength ≤ s.position) {j : ℕ} {m : Node} (hj : n.next = some j)
    (hm : s.heap j = some m) {post : Unit → Editor → Prop}
    (hpost : ∀ s', Moves s s' → s'.currLine = j → s'.point = m.start → s'.position = 1 →
      post () s') : wp (right fuel false) post s := by
  rw [right, wp_bind, wp_get, wp_bind, wp_curr h.curr, if_neg (Nat.not_lt.mpr hend), hj]
  refine wp_ite (fun _ => ?_) fun hne => absurd rfl hne
  rw [wp_bind, wp_node hm, wp_set]
  exact hpost _ rfl rfl rfl rfl

/-- The end of `del_line`: the next line takes the place of what was deleted. -/
theorem Shows.wp_pullUp (h : Shows t s ⟨bs, l, [], as⟩ xs ys n) (fuel : ℕ) {next : Option ℕ}
    (hnext : n.next = next) :
    wp (do
      onlyIf (next ≠ none) do
        right fuel false
        delete fuel false
      markChanged)
      (fun _ s' => ∃ r' as' ys' n', Shows t s' ⟨bs, l, r', as'⟩ xs ys' n' ∧
        (as = [] ∧ r' = [] ∧ as' = [] ∨ as = r' :: as') ∧ Edited s s') s := by
  subst hnext
  rw [wp_bind]
  refine wp_onlyIf (fun hne => ?_) fun hnone => ?_
  · obtain ⟨line, as', j, ys', m, rfl, rfl, hj, hm⟩ := h.exists_next hne
    have hend : n.lineLength ≤ s.position := by
      rw [h.lineLength_eq, h.left]
      exact Nat.le_refl _
    rw [wp_bind]
    refine h.inv.wp_right_end fuel hend hj hm fun s1 hs1 hc1 hpt1 hpos1 => ?_
    have h1 := h.enter_next hm hs1 hc1 hpt1 hpos1
    rw [List.append_nil] at h1
    rw [delete, wp_bind]
    refine wp_mono (h1.wp_deleteBack_start fuel false) fun _ s2 ⟨n2, h2, hs2, _⟩ => ?_
    rw [wp_modify]
    refine wp_markChanged fun s3 hcore _ hs3 => ?_
    have h2' : Shows t { s2 with formatted := false } ⟨bs, l, line, as'⟩ xs ys' n2 := h2.of_core rfl
    have hs2' : Edited s1 { s2 with formatted := false } := hs2
    exact ⟨line, as', ys', n2, h2'.of_core hcore, .inr rfl, .of_moves hs1 (hs2'.again hs3)⟩
  · have hys : ys = [] := by
      have heq := h.inv.lines.chain.next_eq h.inv.curr
      rw [Classical.not_not.mp hnone] at heq
      exact List.head?_eq_none_iff.mp heq.symm
    have has : as = [] := by
      have heq := h.after
      rw [hys] at heq
      exact heq.symm
    subst has
    refine wp_markChanged fun s1 hcore _ hs1 => ?_
    exact ⟨[], [], ys, n, h.of_core hcore, .inl ⟨rfl, rfl, rfl⟩, hs1⟩

/-- The rest of a line has been deleted, and is kept. -/
def Editor.withLine (s : Editor) (line : List UInt8) : Editor :=
  { s with textChanges := true, dLine := some (line ++ [0]), dltLineLength := 1 + line.length }

theorem Shows.wp_delLine (h : Shows t s ⟨bs, l, r, as⟩ xs ys n) (fuel : ℕ) :
    wp (delLine fuel) (fun _ s' => ∃ r' as' ys' n', Shows t s' ⟨bs, l, r', as'⟩ xs ys' n' ∧
      (as = [] ∧ r' = [] ∧ as' = [] ∨ as = r' :: as') ∧ Touches (s.withLine r) s') s := by
  obtain ⟨rest, hold⟩ := h.exists_holds
  obtain ⟨n1, rest1, hwrite, hlinks, hline, hold1⟩ := hold.truncate
  have hpt : s.point = ⟨n.line, l.length⟩ := h.point_eq
  have hpos : s.position = l.length + 1 := h.left
  dsimp only at hwrite hold1
  rw [← hpt] at hwrite
  rw [← hpos] at hold1
  rw [delLine, wp_bind, wp_get, wp_bind, wp_curr h.inv.curr, wp_bind, h.readMany, wp_orFault_some,
    wp_bind, wp_set, wp_bind, hwrite, wp_orFault_some, wp_bind, wp_setCurr]
  refine wp_mono (Shows.wp_pullUp (n := { n1 with lineLength := s.position })
    (?_ : Shows t _ ⟨bs, l, [], as⟩ xs ys _) fuel hlinks.1)
    fun _ s' ⟨r', as', ys', n', h', hor, hs'⟩ => ⟨r', as', ys', n', h', hor, hs'⟩
  · have hold2 : Holds t { n1 with lineLength := s.position } (l ++ []) rest1 := by
      rw [List.append_nil]
      exact hold1.weaken fun _ => trivial
    refine h.replace id rfl hlinks hold2 rfl rfl (Nat.le_refl _) rfl ?_ h.left rfl rfl
    exact hpt.trans (by rw [hline])

theorem keeps_delLine (fuel : ℕ) : Keeps (Consistent t) Advances (delLine fuel) := by
  intro s hs
  obtain ⟨bs, l, r, as, xs, ys, n, h⟩ := hs.exists_shows
  refine wp_mono (h.wp_delLine fuel) fun _ s' ⟨r', as', ys', n', h', _, hs'⟩ => ⟨h'.consistent, ?_⟩
  have hm : s'.bare = (s.withLine r).bare := hs'.symm
  have hline : HasLine s' := (congrArg HasLine hm).mpr (.inr rfl)
  have hc : s'.textChanges = true := congrArg Editor.textChanges hm
  have hfile : s'.inputFile = s.inputFile := (congrArg Editor.inputFile hs').symm
  exact ⟨.of_changed hc (fun _ => hline) hfile,
    fun hw => (congrArg (·.dWord.isSome) hm).trans hw⟩

theorem keeps_insertLine (fuel : ℕ) (disp : Bool) :
    Keeps (Consistent t) Advances (insertLine fuel disp) := by
  intro s hs
  obtain ⟨bs, l, r, as, xs, ys, n, h⟩ := hs.exists_shows
  refine wp_mono (h.wp_insertLine fuel disp) fun _ s' ⟨n', _, h', hs'⟩ => ?_
  exact ⟨h'.consistent, hs'.advances⟩

/-- `undel_line`: the deleted bytes make up the end of the line, and what was behind the cursor
follows as a line of its own. -/
theorem Shows.wp_undelLine (h : Shows t s ⟨bs, l, r, as⟩ xs ys n) (fuel : ℕ) (hline : HasLine s)
    (hne : s.dltLineLength ≠ 0) :
    wp (undelLine fuel) (fun _ s' => ∃ w ys' n', Recalls s.dLine (s.dltLineLength - 1) w ∧
      Shows t s' ⟨bs, l, w, r :: as⟩ xs ys' n' ∧ Edited s s') s := by
  rw [undelLine, wp_bind, wp_get, onlyIf, if_pos hne, wp_bind]
  refine wp_mono (h.wp_insertLine fuel true) fun _ s1 hpost => ?_
  obtain ⟨n1, _, h1, hs1⟩ := hpost
  obtain ⟨m, rest, hm, hprev, -, hold⟩ := h1.exists_before
  rw [wp_bind]
  refine h1.inv.wp_left_start fuel true h1.point_eq hprev hm fun s2 hs2 hc2 hpos2 _ hinv2 => ?_
  have h2 := h1.enter_prev hm hs2 (hinv2 rfl).1 hc2 hpos2
  have hs02 : Edited s s2 := hs1.touches (.of_moves hs2)
  have hlen2 : s2.dltLineLength = s.dltLineLength := (congrArg Editor.dltLineLength hs02).symm
  have hline2 : s2.dLine = s.dLine := (congrArg Editor.dLine hs02).symm
  rw [wp_bind, wp_get, wp_bind]
  refine hold.wp_resizLine h2.inv.curr s2.dltLineLength _
    fun s3 m3 rest3 hs3 heap3 hlinks3 _ hlen3 hold3 => ?_
  obtain ⟨w, hread, hrec⟩ := Editor.readBlock_recalls (s := s2) (k := s2.dltLineLength - 1)
    (show s2.dLine.isSome = true ∨ s2.dltLineLength - 1 = 0 by
      rw [hline2, hlen2]
      exact hline.symm.imp_right fun hle => by omega)
  have hwlen := hrec.1
  rw [← List.append_nil l] at hold3
  obtain ⟨m4, rest4, hcopy, hlinks4, hline4, hold4⟩ := hold3.insertRun (w := w) (by omega)
  rw [List.append_nil w] at hcopy hold4
  have hoff : s2.position - 1 = l.length := by rw [hpos2, hold.length, Nat.add_sub_cancel]
  have hcurr3 : s3.heap s3.currLine = some m3 := by rw [heap3, hs3.currLine, Function.update_self]
  rw [wp_bind, setPoint, wp_modify, wp_bind, hread, wp_orFault_some, wp_bind]
  rw [wp_curr (s := { s3 with point := ⟨m3.line, s2.position - 1⟩ }) hcurr3, wp_bind, hoff, hcopy,
    wp_orFault_some, wp_setCurr, ← hwlen]
  rw [hline2, hlen2] at hrec
  refine ⟨w, s1.currLine :: ys, { m4 with lineLength := m4.lineLength + w.length }, hrec, ?_, ?_⟩
  · have hpt : (⟨m3.line, l.length⟩ : Ptr) = ⟨m4.line, l.length⟩ := by rw [hline4]
    refine h2.replace id ?_ (hlinks3.trans hlinks4) (hold4.weaken fun _ => trivial) hs3.currLine
      hs3.firstLine hs3.fresh hs3.eeChinese hpt (hs3.position.trans h2.left) rfl rfl
    exact (congrArg (Function.update s3.heap · _) hs3.currLine).trans (by rw [heap3, Function.update_idem])
  · exact hs02.touches hs3.touches

theorem keeps_undelLine (fuel : ℕ) :
    Keeps (fun s => Consistent t s ∧ HasLine s) Advances (undelLine fuel) := by
  rintro s ⟨hs, hline⟩
  by_cases hne : s.dltLineLength = 0
  · rw [undelLine, wp_bind, wp_get, onlyIf, if_neg (not_not_intro hne)]
    exact ⟨⟨hs, hline⟩, refl s⟩
  · obtain ⟨bs, l, r, as, xs, ys, n, h⟩ := hs.exists_shows
    refine wp_mono (h.wp_undelLine fuel hline hne) fun _ s' hpost => ?_
    obtain ⟨w, ys', n', _, h', hs'⟩ := hpost
    exact ⟨⟨h'.consistent, hs'.advances.line hline⟩, hs'.advances⟩

end BsdAdditions.Ee
