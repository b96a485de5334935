import BsdAdditions.Ee.Wanders

/-! Editing keeps `absolute_lin` in step with the list of lines. -/
namespace BsdAdditions.Ee
open Common Common.Prog

theorem tracks_of_stays {α : Type} {m : Ed α} (h : Relates Stays m) : Relates Tracks m :=
  h.weaken fun _ _ => Stays.tracks

/-- Keeping track is a matter of states with a list of lines only. -/
theorem tracks_intro {α : Type} {m : Ed α} (h : ∀ s ids d, Off ids d s →
    Ensures m (fun _ s' => (∃ ids', Off ids' d s') ∧ s'.inputFile = s.inputFile) s) :
    Relates Tracks m :=
  fun s a s' hm ids d hs => h s ids d hs a s' hm

/-! ### Inside a line -/

section Node
variable {n n' : Node}

theorem Node.write_links {p : Ptr} {b : UInt8} (h : n.write p b = some n') : SameLinks n n' := by
  unfold Node.write at h
  split at h
  · obtain rfl := Option.some.inj h
    exact ⟨rfl, rfl⟩
  · cases h

theorem Node.copyFrom_links {bs : List UInt8} {p : Ptr} (h : n.copyFrom p bs = some n') :
    SameLinks n n' := by
  induction bs generalizing n p with
  | nil =>
    obtain rfl := Option.some.inj h
    exact ⟨rfl, rfl⟩
  | cons b bs ih =>
    obtain ⟨m, hm, hrest⟩ := Option.bind_eq_some_iff.mp h
    exact (Node.write_links hm).trans (ih hrest)

theorem Node.copyDown_links {k : ℕ} {p q : Ptr} (h : n.copyDown p q k = some n') :
    SameLinks n n' := by
  induction k generalizing n p q with
  | zero =>
    obtain rfl := Option.some.inj h
    exact ⟨rfl, rfl⟩
  | succ k ih =>
    obtain ⟨b, -, h⟩ := Option.bind_eq_some_iff.mp h
    obtain ⟨m, hm, hrest⟩ := Option.bind_eq_some_iff.mp h
    exact (Node.write_links hm).trans (ih hrest)

theorem Node.shiftUp_links {k : ℕ} {p : Ptr} (h : n.shiftUp p k = some n') : SameLinks n n' := by
  induction k generalizing n with
  | zero =>
    obtain rfl := Option.some.inj h
    exact ⟨rfl, rfl⟩
  | succ k ih =>
    obtain ⟨b, -, h⟩ := Option.bind_eq_some_iff.mp h
    obtain ⟨m, hm, hrest⟩ := Option.bind_eq_some_iff.mp h
    exact (Node.write_links hm).trans (ih hrest)

theorem Node.insertByte_links {p : Ptr} {position : ℕ} {b : UInt8}
    (h : n.insertByte p position b = some n') : SameLinks n n' := by
  obtain ⟨m, hm, hwrite⟩ := Option.bind_eq_some_iff.mp h
  have hshift := Node.shiftUp_links hm
  exact SameLinks.trans (n := n) hshift (Node.write_links hwrite)

end Node

theorem stays_markChanged : Relates Stays markChanged := Relates.modify fun _ => .of_spine rfl

/-- The current line is replaced by one that holds something else. -/
theorem ensures_setCurr {s0 s : Editor} {n n' : Node} (h : Stays s0 s)
    (hn : s0.heap s0.currLine = some n) (hlinks : SameLinks n n') :
    Ensures (setCurr n') (fun _ s' => Stays s0 s') s := by
  rw [setCurr, ensures_bind, ensures_get, setNode, ensures_modify, h.curr]
  exact h.setNode hn hlinks

theorem stays_resizLine (factor : ℤ) (rline rpos : ℕ) : Relates Stays (resizLine factor rline rpos) := by
  intro s
  simp only [resizLine, ensures_bind, ensures_node, ensures_get, setNode, ensures_modify, ensures_pure]
  intro n hn
  have hsame : SameLinks n { n with
      line := s.fresh
      bytes := s.host.realloc s.fresh n.bytes (n.maxLength + factor).toNat
      maxLength := (n.maxLength + factor).toNat } := ⟨rfl, rfl⟩
  obtain ⟨hlinks, hfresh, hfirst, hcurr, htmp, hlin, hfile⟩ :=
    Stays.setNode (s := s) (refl s) hn hsame
  exact ⟨hlinks, Nat.le_succ_of_le hfresh, hfirst, hcurr, htmp, hlin, hfile⟩

theorem stays_saveChar (bs : List UInt8) : Relates Stays (saveChar bs) :=
  Relates.get_bind fun s => ensures_onlyIf (fun _ => (ensures_set _ _ _).mpr (.of_spine rfl))
    fun _ => refl s

theorem stays_columnBack (fuel width : ℕ) : Relates Stays (columnBack fuel width) := by
  refine Relates.get_bind fun s => ?_
  rw [ensures_bind]
  refine (relates_deref s.point).looks fun b => ensures_ite (fun _ => ?_) fun _ => ?_
  · exact ((stays_scanline fuel _).bind fun _ => stays_syncScrPos) s
  · exact (ensures_set _ _ _).mpr (.of_spine rfl)

theorem stays_deleteInLine (fuel : ℕ) : Relates Stays (deleteInLine fuel) := by
  refine stays_markChanged.bind fun _ => relates_wideBefore.bind fun w => (stays_retreat _).bind
    fun _ => Relates.get.bind fun s => ?_
  intro s1
  rw [ensures_bind, ensures_curr]
  intro n hn
  refine Relates.after (ensures_setCurr (refl s1) hn ⟨rfl, rfl⟩) fun _ =>
    (stays_columnBack fuel _).bind fun _ => relates_curr.bind fun _ => (Relates.orFault _).bind fun _ =>
      (stays_saveChar _).bind fun _ => ?_
  intro s2
  rw [ensures_bind, ensures_curr]
  intro m hm
  rw [ensures_bind, ensures_orFault]
  intro m' hm'
  refine Relates.after (ensures_setCurr (refl s2) hm (Node.copyDown_links hm')) fun _ => ?_
  exact Relates.get_bind fun s3 => ensures_onlyIf (fun _ => stays_offset fuel s3 _ _ _) fun _ => refl s3

theorem stays_delWord : Relates Stays delWord := by
  refine Relates.get_bind fun s => ?_
  simp only [ensures_bind, ensures_curr, ensures_orFault, ensures_set]
  intro n hn rest _ n1 hn1 n2 hn2
  have hset : Stays s { s with
      dWord := some (rest.take (wordLength rest) ++ [0] ++
        (s.host.malloc s.fresh n.lineLength).drop (rest.take (wordLength rest) ++ [0]).length),
      dWrdLen := wordLength rest, fresh := s.fresh + 1 } :=
    ⟨fun i m hm => ⟨m, hm, rfl, rfl⟩, Nat.le_succ _, rfl, rfl, rfl, rfl, rfl⟩
  have hlinks : SameLinks n { n2 with lineLength := n2.lineLength - wordLength rest } := by
    have h12 := (Node.copyDown_links hn1).trans (Node.write_links hn2)
    exact h12
  refine (ensures_setCurr hset hn hlinks).mono fun _ s1 hs1 => ?_
  rw [ensures_modify]
  exact IsTrans.trans s s1 _ hs1 (.of_spine rfl)

/-- Room for more bytes, with `point` in the new block. -/
theorem stays_makeRoom (factor : ℤ) (rline rpos : ℕ) :
    Relates Stays (do setPoint (← resizLine factor rline rpos)) :=
  (stays_resizLine _ _ _).bind fun _ => stays_setPoint _

theorem stays_undelWord : Relates Stays undelWord := by
  refine Relates.get_bind fun s => ?_
  rw [ensures_bind, ensures_curr]
  intro n _
  refine Relates.after (Relates.onlyIf (stays_makeRoom _ _ _) s) fun _ => Relates.get_bind fun s1 => ?_
  simp only [ensures_bind, ensures_curr, ensures_orFault]
  intro m hm word _ rest _ m' hm'
  have hlinks := Node.copyFrom_links hm'
  exact ensures_setCurr (refl s1) hm hlinks

theorem stays_putByte (b : UInt8) : Relates Stays (putByte b) := by
  refine Relates.get.bind fun s => relates_curr.bind fun n =>
    (Relates.onlyIf (stays_makeRoom _ _ _)).bind fun _ => Relates.get_bind fun s1 => ?_
  simp only [ensures_bind, ensures_curr, ensures_orFault]
  intro m hm m' hm'
  exact ensures_setCurr (refl s1) hm (Node.insertByte_links hm')

theorem stays_typeByte (character : ℤ) : Relates Stays (typeByte character) :=
  stays_markChanged.bind fun _ => (stays_putByte _).bind fun _ =>
    (Relates.modify fun _ => .of_spine rfl).bind fun _ => stays_syncScrPos.bind fun _ => stays_advance 1

/-! ### Splitting and joining lines -/

theorem stays_appendBytes (nod : ℕ) (bytes : List UInt8) (extra : Ptr) (tempPos : ℕ) :
    Relates Stays (appendBytes nod bytes extra tempPos) := by
  induction bytes generalizing extra tempPos with
  | nil => exact Relates.pure _
  | cons b bytes ih =>
    refine (relates_node nod).bind fun m =>
      (Relates.ite (stays_resizLine _ _ _) (Relates.pure _)).bind fun extra1 => ?_
    intro s
    simp only [ensures_bind, ensures_node, ensures_orFault, setNode, ensures_modify]
    intro m1 hm1 m2 hm2
    have hlinks := Node.write_links hm2
    have hs : Stays s (s.setNode nod m2) := Stays.setNode (refl s) hm1 hlinks
    exact (ih _ _ _).mono fun _ s2 hs2 => IsTrans.trans s _ s2 hs hs2

theorem stays_moveTail (nod : ℕ) : Relates Stays (moveTail nod) := by
  refine Relates.get_bind fun s => ?_
  rw [ensures_bind, ensures_curr]
  intro n hn
  rw [ensures_bind, ensures_node]
  intro m _
  refine ensures_ite (fun _ => ?_) fun _ => (ensures_pure _ _ _).mpr (refl s)
  rw [ensures_bind, ensures_orFault]
  intro rest _
  rw [ensures_bind]
  refine (stays_appendBytes nod rest _ 1 s).mono fun extra s1 hs1 => ?_
  rw [ensures_bind, ensures_orFault]
  intro n' hn'
  refine Relates.after (ensures_setCurr hs1 hn (Node.write_links hn')) fun _ => ?_
  exact (relates_node nod).bind fun _ => (stays_resizLine _ _ _).bind fun _ => Relates.pure extra

/-- A list around one of its elements. -/
theorem exists_split {ids : List ℕ} {k c : ℕ} (hk : ids[k]? = some c) :
    ∃ xs ys, ids = xs ++ c :: ys ∧ xs.length = k := by
  obtain ⟨hlen, hc⟩ := List.getElem?_eq_some_iff.mp hk
  refine ⟨ids.take k, ids.drop (k + 1), ?_, by simp; omega⟩
  rw [← hc, List.getElem_cons_drop, List.take_append_drop]

/-- A new line behind `c`. -/
theorem Linked.insert {s s' : Editor} {xs ys : List ℕ} {c nod : ℕ} {n n' m : Node}
    (h : Linked s (xs ++ c :: ys)) (hi : Inserted s.heap s'.heap c nod n n' m) (hnod : s.fresh ≤ nod)
    (hfresh : nod < s'.fresh) (hfirst : s'.firstLine = s.firstLine) :
    Linked s' (xs ++ c :: nod :: ys) := by
  have hnew : nod ∉ xs ++ c :: ys := fun hmem => by
    have := h.bound nod hmem
    omega
  refine ⟨h.chain.insert h.nodup hi hnew, nodup_insert hnew h.nodup, ?_, fun i hmem => ?_⟩
  · rw [hfirst, ← h.first]
    cases xs <;> rfl
  · have hcases : i = nod ∨ i ∈ xs ++ c :: ys := by
      simp only [List.mem_append, List.mem_cons] at hmem ⊢
      tauto
    rcases hcases with rfl | hmem
    · exact hfresh
    · have := h.bound i hmem
      omega

theorem Off.mem {s : Editor} {ids : List ℕ} {d : ℤ} (h : Off ids d s) : s.currLine ∈ ids := by
  obtain ⟨-, k, hk, -⟩ := h
  exact List.mem_of_getElem? hk

theorem Allocates.absoluteLin {s s' : Editor} (h : Allocates s s') : s'.absoluteLin = s.absoluteLin := by
  rw [h.eq]

theorem Allocates.inputFile {s s' : Editor} (h : Allocates s s') : s'.inputFile = s.inputFile := by
  rw [h.eq]

/-- The state after `insert_line`: the cursor is at the start of the new line. -/
structure SplitOff (disp : Bool) (s s' : Editor) (xs ys : List ℕ) (nod : ℕ) : Prop where
  linked : Linked s' (xs ++ s.currLine :: nod :: ys)
  curr : s'.currLine = nod
  lin : s'.absoluteLin = s.absoluteLin + 1
  tmp : s'.tmpLine = s.tmpLine
  file : s'.inputFile = s.inputFile
  start : disp = false → ∃ m, s'.heap nod = some m ∧ s'.point = m.start

theorem Linked.ensures_insertLine {s : Editor} {xs ys : List ℕ} (h : Linked s (xs ++ s.currLine :: ys))
    (fuel : ℕ) (disp : Bool) :
    Ensures (insertLine fuel disp) (fun _ s' => ∃ nod, SplitOff disp s s' xs ys nod) s := by
  have hmem : s.currLine ∈ xs ++ s.currLine :: ys := by simp
  obtain ⟨n, hn⟩ := h.chain.exists_node hmem
  rw [insertLine, ensures_bind, markChanged, ensures_modify, ensures_bind]
  have h0 : Linked { s with textChanges := true } (xs ++ s.currLine :: ys) := h.of_eq rfl
  refine Ensures.of_wp (h0.wp_linkNew hmem hn fun s1 m rest hs1 hfresh hi _ => ?_)
  rw [ensures_bind]
  refine (stays_moveTail _ s1).mono fun extra s2 hs2 => ?_
  rw [ensures_bind, ensures_get, ensures_bind, ensures_curr]
  intro n2 hn2
  have hset : Ensures (setCurr { n2 with lineLength := s2.position }) (fun _ s' => Stays s2 s') s2 :=
    ensures_setCurr (refl s2) hn2 ⟨rfl, rfl⟩
  rw [ensures_bind]
  refine hset.mono fun _ s3 hs3 => ?_
  simp only [ensures_bind, ensures_node, ensures_orFault, setNode, ensures_modify]
  intro m3 hm3 m4 hm4 m5 hm5
  have hs4 : Stays s1 (s3.setNode s.fresh m4) := by
    refine IsTrans.trans s1 s2 _ hs2 (IsTrans.trans s2 s3 _ hs3 ?_)
    exact Stays.setNode (refl s3) hm3 (Node.write_links hm4)
  have h4 := (h0.insert hi (Nat.le_refl _) hfresh hs1.firstLine).stays hs4
  refine ensures_onlyIf (fun hdisp => ?_) fun _ => ⟨s.fresh, h4.of_eq rfl, rfl, ?_, ?_, ?_, fun _ => ?_⟩
  · have hdraw : Relates Stays (do
        modify fun s : Editor => { s with
          scrVert := if s.scrVert < s.lastLine then s.scrVert + 1 else s.scrVert, scrPos := 0,
          scrHorz := 0 }
        resetOffset fuel) :=
      (Relates.modify fun _ => .of_spine rfl).bind fun _ => stays_resetOffset fuel
    refine (hdraw _).mono fun _ s5 hs5 => ⟨s.fresh, ?_, hs5.curr, ?_, ?_, ?_, fun hfalse => ?_⟩
    · refine Linked.stays ?_ hs5
      exact h4.of_eq rfl
    · exact hs5.lin.trans (congrArg (· + 1) (hs4.lin.trans hs1.absoluteLin))
    · exact hs5.tmp.trans (hs4.tmp.trans hs1.tmpLine)
    · exact hs5.file.trans (hs4.file.trans hs1.inputFile)
    · exact absurd (hdisp.symm.trans hfalse) (by simp)
  · exact congrArg (· + 1) (hs4.lin.trans hs1.absoluteLin)
  · exact hs4.tmp.trans hs1.tmpLine
  · exact hs4.file.trans hs1.inputFile
  · exact ⟨m5, hm5, rfl⟩

theorem tracks_insertLine (fuel : ℕ) (disp : Bool) : Relates Tracks (insertLine fuel disp) := by
  refine tracks_intro fun s ids d ⟨hlinked, k, hk, hlin⟩ => ?_
  obtain ⟨xs, ys, rfl, hxs⟩ := exists_split hk
  refine (hlinked.ensures_insertLine fuel disp).mono fun _ s' ⟨nod, h'⟩ => ?_
  refine ⟨⟨_, h'.linked, k + 1, ?_, ?_⟩, h'.file⟩
  · simp [h'.curr, ← hxs]
  · rw [h'.lin, hlin]
    push_cast
    omega

/-- A list around one of its elements and the next one. -/
theorem Linked.exists_next {s : Editor} {ids : List ℕ} {k c j : ℕ} {n : Node} (h : Linked s ids)
    (hk : ids[k]? = some c) (hn : s.heap c = some n) (hj : n.next = some j) :
    ∃ xs ys, ids = xs ++ c :: j :: ys ∧ xs.length = k := by
  obtain ⟨xs, ys, rfl, hxs⟩ := exists_split hk
  have hnext := (h.chain.next_eq hn).symm.trans hj
  cases ys with
  | nil => simp at hnext
  | cons i ys =>
    obtain rfl : i = j := by simpa using hnext
    exact ⟨xs, ys, rfl, hxs⟩

/-- The line behind `c` is gone. -/
theorem Linked.remove {s s' : Editor} {xs ys : List ℕ} {c j : ℕ} {n n' m : Node}
    (h : Linked s (xs ++ c :: j :: ys)) (hr : Removed s.heap s'.heap c j n n' m)
    (hfresh : s.fresh ≤ s'.fresh) (hfirst : s'.firstLine = s.firstLine) :
    Linked s' (xs ++ c :: ys) := by
  have hsub := sublist_remove xs ys c j
  refine ⟨h.chain.remove h.nodup hr, hsub.nodup h.nodup, ?_, fun i hi => ?_⟩
  · rw [hfirst, ← h.first]
    cases xs <;> rfl
  · exact Nat.lt_of_lt_of_le (h.bound i (hsub.subset hi)) hfresh

theorem Off.remove {s s' : Editor} {ids : List ℕ} {d : ℤ} {j : ℕ} {n n' m : Node} (h : Off ids d s)
    (hr : Removed s.heap s'.heap s.currLine j n n' m) (hfresh : s.fresh ≤ s'.fresh)
    (hfirst : s'.firstLine = s.firstLine) (hcurr : s'.currLine = s.currLine)
    (hlin : s'.absoluteLin = s.absoluteLin) : ∃ ids', j ∉ ids' ∧ Off ids' d s' := by
  obtain ⟨hlinked, k, hk, hk1⟩ := h
  obtain ⟨xs, ys, rfl, hxs⟩ := hlinked.exists_next hk hr.old hr.next
  refine ⟨xs ++ s.currLine :: ys, fun hmem => ne_of_nodup_remove hlinked.nodup hmem rfl,
    hlinked.remove hr hfresh hfirst, k, ?_, ?_⟩
  · simp [hcurr, ← hxs]
  · rw [hlin, hk1]

/-- A line and the one after next are different, and so are neighbours. -/
theorem Linked.behind_next {s : Editor} {ids : List ℕ} {c j : ℕ} {n m : Node} (h : Linked s ids)
    (hc : c ∈ ids) (hn : s.heap c = some n) (hj : n.next = some j) (hm : s.heap j = some m) :
    c ≠ j ∧ m.next ≠ some c := by
  obtain ⟨k, hk⟩ := List.mem_iff_getElem?.mp hc
  obtain ⟨xs, ys, rfl, -⟩ := h.exists_next hk hn hj
  obtain ⟨-, -, hyc, -⟩ := nodup_around h.nodup
  have hnext : m.next = ys.head? :=
    (show Chain s.heap none ((xs ++ [c]) ++ j :: ys) by simpa using h.chain).next_eq hm
  refine ⟨fun hcj => hyc j (by simp) hcj.symm, fun hmc => ?_⟩
  exact hyc c (List.mem_cons_of_mem j (List.mem_of_head? (hnext ▸ hmc))) rfl

/-- A node that is not in the list may go. -/
theorem Off.free {s : Editor} {ids : List ℕ} {d : ℤ} {j : ℕ} (h : Off ids d s) (hj : j ∉ ids) :
    Off ids d { s with heap := Function.update s.heap j none } := by
  obtain ⟨⟨hchain, hnodup, hfirst, hbound⟩, hk⟩ := h
  refine ⟨⟨hchain.of_links fun i hi n hn => ⟨n, ?_, rfl, rfl⟩, hnodup, hfirst, hbound⟩, hk⟩
  have hij : i ≠ j := fun hij => hj (hij ▸ hi)
  simp only [Function.update_of_ne hij, hn]

theorem tracks_joinLines (fuel : ℕ) (disp : Bool) : Relates Tracks (joinLines fuel disp) := by
  refine (tracks_of_stays stays_markChanged).bind fun _ =>
    (tracks_of_wanders (wanders_left fuel disp)).bind fun _ => tracks_intro fun s ids d h => ?_
  rw [ensures_bind, ensures_get, ensures_bind, ensures_curr]
  intro n hn
  rw [ensures_bind, ensures_orFault]
  intro j hj
  rw [ensures_bind, ensures_node]
  intro m hm
  obtain ⟨hcj, hmc⟩ := h.1.behind_next h.mem hn hj hm
  rw [ensures_bind]
  refine (stays_resizLine _ _ _ s).mono fun point s1 hs1 => ?_
  rw [ensures_bind]
  refine (stays_setPoint point s1).mono fun _ s2 hs12 => ?_
  have hs2 : Stays s s2 := IsTrans.trans s s1 s2 hs1 hs12
  have h2 := h.stays hs2
  obtain ⟨n2, hn2, hlinks2⟩ := hs2.links _ n hn
  obtain ⟨m2, hm2, hlinksm⟩ := hs2.links j m hm
  rw [ensures_bind]
  refine Ensures.of_wp (wp_setPrev (fun i hi => ?_) fun s3 hs3 heap3 => ?_)
  · exact h2.1.chain.exists_node (h.1.next_mem (h.1.next_mem h.mem hn hj) hm hi)
  have hc3 : s3.currLine = s.currLine := hs3.currLine.trans hs2.curr
  have hn3 : s3.heap s3.currLine = some n2 := by rw [hc3, heap3 _ n2 hn2, if_neg hmc]
  simp only [ensures_bind, ensures_curr, setCurr, ensures_get, setNode, ensures_modify]
  intro n3 hn3'
  obtain rfl : n2 = n3 := by simpa [hn3] using hn3'
  -- from here on the line behind the current one is no longer in the list
  have hr : Removed s2.heap (s3.setNode s3.currLine { n2 with next := m.next }).heap s2.currLine j n2
      { n2 with next := m.next } m2 := by
    rw [hs2.curr, hc3]
    refine ⟨hn2, hlinks2.1.trans hj, hm2, by simp, rfl, hlinksm.1.symm, fun x y hxc _ hy => ?_⟩
    rw [Editor.setNode_heap, Function.update_of_ne hxc, heap3 x y hy, hlinksm.1]
  obtain ⟨ids', hj', h4⟩ := h2.remove hr hs3.fresh hs3.firstLine hs3.currLine hs3.absoluteLin
  refine (stays_saveChar [10] _).mono fun _ s5 hs5 => ?_
  have h5 := h4.stays hs5
  simp only [ensures_orFault]
  intro bs _ n5 hn5 n6 hn6
  have hlinks6 := Node.copyFrom_links hn6
  have h6 : Off ids' d (s5.setNode s5.currLine n6) := h5.stays (Stays.setNode (refl s5) hn5 hlinks6)
  refine (stays_syncScrPos _).mono fun _ s7 hs7 => ⟨⟨ids', ?_⟩, ?_⟩
  · refine Off.stays ?_ hs7
    exact h6.free hj'
  · exact (hs7.file.trans hs5.file).trans (hs3.inputFile.trans hs2.file)

theorem tracks_delete (fuel : ℕ) (disp : Bool) : Relates Tracks (delete fuel disp) := by
  refine Relates.bind (relates_offStart.bind fun _ => ?_) fun _ =>
    Relates.modify fun _ => .of_spine rfl
  exact Relates.ite (tracks_of_stays (stays_deleteInLine fuel))
    (relates_curr.bind fun _ => Relates.onlyIf (tracks_joinLines fuel disp))

/-! ### Deleted text -/

theorem stays_inChar (c : ℤ) : Relates Stays (modify fun s => { s with inChar := c } : Ed Unit) :=
  Relates.modify fun _ => .of_spine rfl

theorem tracks_delChar (fuel : ℕ) : Relates Tracks (delChar fuel) := by
  refine (tracks_of_stays (stays_inChar 8)).bind fun _ => relates_beforeEnd.bind fun _ =>
    Relates.ite ?_ ?_
  · have hstep : Relates Stays (do
        onlyIf (← wideAt) (advance 1)
        advance 1
        scanline fuel (← get).point) :=
      relates_wideAt.bind fun _ => (Relates.onlyIf (stays_advance 1)).bind fun _ =>
        (stays_advance 1).bind fun _ => Relates.get.bind fun _ => stays_scanline fuel _
    have hall := (tracks_of_stays hstep).bind fun _ => tracks_delete fuel true
    simpa only [bind_assoc] using hall
  · exact (tracks_of_wanders (wanders_right fuel true)).bind fun _ => tracks_delete fuel true

theorem tracks_delLine (fuel : ℕ) : Relates Tracks (delLine fuel) := by
  refine Relates.get_bind fun s => ?_
  rw [ensures_bind, ensures_curr]
  intro n hn
  rw [ensures_bind, ensures_orFault]
  intro rest _
  rw [ensures_bind, ensures_set, ensures_bind, ensures_orFault]
  intro n1 hn1
  have hlinks := Node.write_links hn1
  have hset : Ensures (setCurr { n1 with lineLength := s.position }) (fun _ s' => Stays s s')
      { s with dLine := some (rest ++ [0]), dltLineLength := 1 + rest.length } :=
    ensures_setCurr (.of_spine rfl) hn hlinks
  refine Relates.after (hset.mono fun _ _ => Stays.tracks) fun _ => ?_
  refine Relates.bind (Relates.onlyIf ?_) fun _ => tracks_of_stays stays_markChanged
  exact (tracks_of_wanders (wanders_right fuel false)).bind fun _ => tracks_delete fuel false

theorem tracks_undelLine (fuel : ℕ) : Relates Tracks (undelLine fuel) := by
  refine Relates.get.bind fun _ => Relates.onlyIf ((tracks_insertLine fuel true).bind fun _ =>
    (tracks_of_wanders (wanders_left fuel true)).bind fun _ => tracks_of_stays ?_)
  refine Relates.get.bind fun s => (stays_resizLine _ _ _).bind fun p => (stays_setPoint p).bind fun _ =>
    (Relates.orFault _).bind fun bs => fun s1 => ?_
  rw [ensures_bind, ensures_curr]
  intro n hn
  rw [ensures_bind, ensures_orFault]
  intro n1 hn1
  have hlinks := Node.copyFrom_links hn1
  exact ensures_setCurr (refl s1) hn hlinks

theorem tracks_searchPrompt (fuel : ℕ) (answer : List UInt8) :
    Relates Tracks (searchPrompt fuel answer) := by
  refine Relates.bind (Relates.modify fun _ => .of_spine rfl) fun _ => ?_
  exact (tracks_search fuel).bind fun _ => Relates.pure _

/-! ### What the formatters look at -/

section Looks
variable {R : Editor → Editor → Prop} [IsPreorder Editor R]

theorem relates_blankLine (i : Option ℕ) : Relates R (blankLine i) := by
  cases i with
  | none => exact Relates.pure _
  | some i =>
    exact (relates_node i).bind fun _ => (Relates.orFault _).bind fun _ =>
      Relates.ite (Relates.pure _) (Relates.pure _)

theorem relates_blankHere : Relates R blankHere := Relates.get.bind fun _ => relates_blankLine _

theorem relates_blankNext : Relates R blankNext := relates_curr.bind fun _ => relates_blankLine _

theorem relates_blankPrev : Relates R blankPrev := relates_curr.bind fun _ => relates_blankLine _

theorem relates_notBlankPrev : Relates R (do return !(← blankPrev)) :=
  relates_blankPrev.bind fun _ => Relates.pure _

theorem relates_firstByte : Relates R firstByte := relates_curr.bind fun _ => Relates.orFault _

theorem relates_nextWordLen : Relates R nextWordLen := by
  refine relates_curr.bind fun n => ?_
  cases n.next with
  | none => exact Relates.pure _
  | some i =>
    refine (relates_node i).bind fun m => ?_
    cases cString m.bytes with
    | nil => exact Relates.pure _
    | cons b bs => exact Relates.ite (Relates.pure _) (Relates.pure _)

end Looks

section Formatting
variable (fuel : ℕ)

theorem stays_takeWord : Relates Stays takeWord := by
  refine Relates.get_bind fun s => ?_
  rw [ensures_bind, ensures_curr]
  intro n _
  rw [ensures_bind, ensures_orFault]
  exact fun rest _ => (ensures_set _ _ _).mpr (.of_spine rfl)

theorem tracks_paragraphStart : Relates Tracks (paragraphStart fuel) :=
  tracks_of_wanders (Relates.get.bind fun _ => (Relates.onlyIf (wanders_bol fuel)).bind fun _ =>
    Relates.repeatWhile relates_notBlankPrev (wanders_bol fuel) fuel)

theorem tracks_countSearches (line : Ptr) : Relates Tracks (countSearches fuel line) :=
  Relates.loop (fun _ => Relates.get.bind fun _ => Relates.pure _)
    (fun _ => (tracks_search fuel).bind fun _ => Relates.pure _) fuel _

theorem tracks_recenter : Relates Tracks (recenter fuel) :=
  tracks_of_stays (Relates.get.bind fun _ => stays_midscreen fuel _ _)

theorem tracks_backToWord : Relates Tracks (backToWord fuel) :=
  tracks_of_wanders (Relates.get.bind fun _ => Relates.onlyIf (relates_atPoint.bind fun _ =>
    relates_curr.bind fun _ => Relates.onlyIf (wanders_prevWord fuel)))

theorem tracks_dropEmptied : Relates Tracks (dropEmptied fuel) :=
  relates_firstByte.bind fun _ => relates_blankHere.bind fun _ =>
    Relates.ite ((tracks_delLine fuel).bind fun _ => Relates.pure _) (Relates.pure _)

theorem tracks_toNextPlace : Relates Tracks (toNextPlace fuel) :=
  relates_blankNext.bind fun _ =>
    Relates.ite (tracks_insertLine fuel true) (tracks_of_wanders (wanders_advLine fuel))

theorem tracks_spillRound (notBlank : Bool) : Relates Tracks (spillRound fuel notBlank) :=
  (tracks_of_wanders (wanders_prevWord fuel)).bind fun _ => Relates.get.bind fun _ => Relates.ite
    ((tracks_of_stays stays_delWord).bind fun _ => (tracks_toNextPlace fuel).bind fun _ =>
      relates_atBlank.bind fun _ => (Relates.onlyIf (tracks_of_wanders (wanders_advWord fuel))).bind
        fun _ => (tracks_of_stays stays_undelWord).bind fun _ => Relates.get.bind fun _ =>
          (Relates.onlyIf (tracks_of_wanders (wanders_bol fuel))).bind fun _ =>
            (tracks_of_wanders (wanders_left fuel true)).bind fun _ => Relates.pure _)
    (Relates.pure _)

section Insert
variable {insert : ℤ → Ed Unit} (hinsert : ∀ c, Relates Tracks (insert c))
include hinsert

theorem tracks_blankAtEnd : Relates Tracks (blankAtEnd fuel insert) :=
  (tracks_of_wanders (wanders_left fuel true)).bind fun _ => relates_atPoint.bind fun _ => Relates.ite
    ((tracks_of_wanders (wanders_right fuel true)).bind fun _ => hinsert _)
    (tracks_of_wanders (wanders_right fuel true))

theorem tracks_fillRound : Relates Tracks (fillRound fuel insert) :=
  (tracks_of_wanders (wanders_advLine fuel)).bind fun _ => relates_atBlank.bind fun _ =>
    (Relates.onlyIf (tracks_of_wanders (wanders_advWord fuel))).bind fun _ =>
      (tracks_of_stays stays_delWord).bind fun _ => Relates.get.bind fun _ =>
        (Relates.onlyIf (tracks_of_wanders (wanders_bol fuel))).bind fun _ =>
          (tracks_dropEmptied fuel).bind fun _ => (tracks_of_wanders (wanders_left fuel true)).bind
            fun _ => (tracks_of_stays stays_undelWord).bind fun _ =>
              (tracks_of_wanders (wanders_eol fuel)).bind fun _ =>
                (tracks_blankAtEnd fuel hinsert).bind fun _ => Relates.pure _

theorem tracks_autoLine : Relates Tracks (autoLine fuel insert) := by
  refine Relates.get.bind fun _ => relates_curr.bind fun _ =>
    (Relates.onlyIf (tracks_of_wanders (wanders_eol fuel))).bind fun _ =>
      (tracks_blankAtEnd fuel hinsert).bind fun _ => ?_
  refine (Relates.loop (fun _ => ?_) (fun _ => tracks_fillRound fuel hinsert) fuel _).bind fun _ =>
    (Relates.loop (fun _ => ?_) (tracks_spillRound fuel) fuel _).bind fun _ => ?_
  · exact relates_nextWordLen.bind fun _ => Relates.get.bind fun _ => Relates.pure _
  · exact Relates.get.bind fun _ => Relates.pure _
  · exact relates_blankNext.bind fun _ => Relates.ite
      ((tracks_of_wanders (wanders_advLine fuel)).bind fun _ => Relates.pure _) (Relates.pure _)

theorem tracks_autoFormatCore : Relates Tracks (autoFormatCore fuel insert) := by
  have hbol := tracks_of_wanders (wanders_bol fuel)
  refine Relates.get.bind fun _ => (tracks_backToWord fuel).bind fun _ =>
    (Relates.modify fun _ => .of_spine rfl).bind fun _ => relates_atBlank.bind fun _ =>
      (Relates.onlyIf (tracks_of_wanders (wanders_advWord fuel))).bind fun _ => Relates.get.bind fun _ =>
        (tracks_of_stays stays_takeWord).bind fun _ => (tracks_paragraphStart fuel).bind fun _ =>
          (tracks_countSearches fuel _).bind fun ⟨_, _⟩ => (tracks_paragraphStart fuel).bind fun _ => ?_
  refine (Relates.loop (fun _ => Relates.pure _) (fun _ => ?_) fuel _).bind fun ⟨_, _⟩ =>
    Relates.get.bind fun _ => (Relates.onlyIf hbol).bind fun _ =>
      (Relates.loop (fun c => ?_) (fun _ => hbol.bind fun _ => Relates.pure _) fuel _).bind fun _ => ?_
  · exact (tracks_autoLine fuel hinsert).bind fun _ => Relates.pure _
  · exact Relates.ite (Relates.pure _) relates_notBlankPrev
  · refine (Relates.loop (fun _ => Relates.pure _) (fun _ => ?_) fuel _).bind fun ⟨_, _⟩ => ?_
    · exact (tracks_search fuel).bind fun _ => Relates.pure _
    · exact (Relates.times (tracks_of_wanders (wanders_right fuel true)) _).bind fun _ =>
        Relates.onlyIf (Relates.times (tracks_of_wanders (wanders_left fuel true)) _)

theorem tracks_autoFormatBody : Relates Tracks (autoFormatBody fuel insert) := by
  refine Relates.get_bind fun old => ensures_onlyIf (fun _ => ?_) fun _ => refl old
  rw [ensures_bind]
  refine relates_blankHere.looks fun b => ensures_ite (fun _ => (ensures_pure _ _ _).mpr (refl old))
    fun _ => ?_
  refine Relates.after ((ensures_set _ _ _).mpr (.of_spine rfl)) fun _ =>
    (tracks_autoFormatCore fuel hinsert).bind fun _ => ?_
  exact (Relates.modify fun _ => .of_spine rfl).bind fun _ => tracks_recenter fuel

end Insert

/-! ### Typing -/

theorem tracks_wrap : Relates Tracks (wrap fuel) := by
  refine Relates.get.bind fun _ => Relates.onlyIf (Relates.bind (Relates.repeatWhile ?_
    (tracks_of_wanders (wanders_prevWord fuel)) fuel) fun _ => Relates.get.bind fun _ => Relates.ite ?_ ?_)
  · exact Relates.get.bind fun _ => Relates.pure _
  · exact tracks_of_wanders (wanders_goRight fuel _)
  · exact (tracks_insertLine fuel true).bind fun _ =>
      Relates.times (tracks_of_wanders (wanders_right fuel true)) _

theorem stays_scrollRight : Relates Stays (scrollRight fuel) :=
  Relates.get_bind fun s => ensures_onlyIf (fun _ => stays_offset fuel s _ _ _) fun _ => refl s

theorem tracks_insertBody {autoFormat : Ed Unit} {insert : ℤ → Ed Unit}
    (hauto : Relates Tracks autoFormat) (hinsert : ∀ c, Relates Tracks (insert c)) (character : ℤ) :
    Relates Tracks (insertBody fuel autoFormat insert character) := by
  refine Relates.get.bind fun s => Relates.ite ?_ ?_
  · exact (Relates.times (hinsert _) _).bind fun _ => Relates.get.bind fun _ => Relates.onlyIf hauto
  · refine (tracks_of_stays (stays_typeByte character)).bind fun _ => (tracks_wrap fuel).bind fun _ =>
      (tracks_of_stays (stays_scrollRight fuel)).bind fun _ => Relates.get_bind fun s1 => ?_
    refine ensures_ite (fun _ => hauto s1) fun _ => ensures_onlyIf (fun _ => ?_) fun _ => refl s1
    exact (ensures_set _ _ _).mpr (.of_spine rfl)

theorem tracks_typing (depth : ℕ) :
    (∀ c, Relates Tracks ((typing fuel depth).1 c)) ∧ Relates Tracks (typing fuel depth).2 := by
  induction depth with
  | zero => exact ⟨fun _ => Relates.outOfFuel, Relates.outOfFuel⟩
  | succ depth ih =>
    exact ⟨tracks_insertBody fuel ih.2 ih.1, tracks_autoFormatBody fuel ih.1⟩

theorem tracks_insert (character : ℤ) : Relates Tracks (insert fuel character) :=
  (tracks_typing fuel fuel).1 character

theorem tracks_undelChar : Relates Tracks (undelChar fuel) :=
  Relates.get.bind fun _ => Relates.ite (tracks_insertLine fuel true)
    ((tracks_of_stays (stays_inChar _)).bind fun _ => (tracks_insert fuel _).bind fun _ =>
      Relates.get.bind fun _ => Relates.onlyIf
        ((tracks_of_stays (stays_inChar _)).bind fun _ => tracks_insert fuel _))

/-! ### Formatting a paragraph on request -/

theorem tracks_joinNext : Relates Tracks (joinNext fuel) :=
  (tracks_of_wanders (wanders_eol fuel)).bind fun _ =>
    (tracks_blankAtEnd fuel (tracks_insert fuel)).bind fun _ => (tracks_delChar fuel).bind fun _ =>
      relates_atBlank.bind fun _ => Relates.onlyIf (tracks_of_stays stays_delWord)

theorem relates_followedBlank {R : Editor → Editor → Prop} [IsPreorder Editor R] (b : UInt8) :
    Relates R (followedBlank b) :=
  Relates.get.bind fun _ => (relates_deref _).bind fun _ =>
    Relates.ite ((relates_deref _).bind fun _ => Relates.pure _) (Relates.pure _)

theorem tracks_spaceStop : Relates Tracks (spaceStop fuel) := by
  have hright := tracks_of_wanders (wanders_right fuel true)
  refine (relates_followedBlank 46).bind fun _ => (Relates.onlyIf ?_).bind fun _ => hright
  exact hright.bind fun _ => (tracks_insert fuel _).bind fun _ => (tracks_insert fuel _).bind fun _ =>
    Relates.repeatWhile (relates_atPoint.bind fun _ => Relates.pure _) (tracks_delChar fuel) fuel

theorem tracks_squeezeBlank : Relates Tracks (squeezeBlank fuel) :=
  (relates_followedBlank 32).bind fun _ =>
    Relates.ite (tracks_delChar fuel) (tracks_of_wanders (wanders_right fuel true))

theorem tracks_breakLine : Relates Tracks (breakLine fuel) := by
  have hinside : Relates Tracks (do
      let s ← get
      if s.scrPos < s.rightMargin then beforeEnd else return false) :=
    Relates.get.bind fun _ => Relates.ite relates_beforeEnd (Relates.pure _)
  refine (Relates.repeatWhile hinside (tracks_of_wanders (wanders_right fuel true)) fuel).bind fun _ =>
    relates_beforeEnd.bind fun _ => Relates.onlyIf ?_
  exact (tracks_of_wanders (wanders_prevWord fuel)).bind fun _ => Relates.get.bind fun _ =>
    (Relates.onlyIf (tracks_of_wanders (wanders_advWord fuel))).bind fun _ => tracks_insertLine fuel true

theorem tracks_observMargins (b : Bool) :
    Relates Tracks (modify fun s => { s with observMargins := b } : Ed Unit) :=
  Relates.modify fun _ => .of_spine rfl

theorem tracks_formatCore : Relates Tracks (formatCore fuel) := by
  have hbol := tracks_of_wanders (wanders_bol fuel)
  have hadv := tracks_of_wanders (wanders_advWord fuel)
  refine Relates.get.bind fun _ => Relates.get.bind fun _ =>
    (Relates.onlyIf (tracks_of_wanders (wanders_prevWord fuel))).bind fun _ =>
      (Relates.modify fun _ => .of_spine rfl).bind fun _ => relates_atBlank.bind fun _ =>
        (Relates.onlyIf hadv).bind fun _ => Relates.get.bind fun _ =>
          (tracks_of_stays stays_takeWord).bind fun _ => (tracks_paragraphStart fuel).bind fun _ =>
            (tracks_countSearches fuel _).bind fun ⟨_, _⟩ => (tracks_paragraphStart fuel).bind fun _ =>
              (tracks_observMargins false).bind fun _ => ?_
  refine (Relates.repeatWhile (relates_blankNext.bind fun _ => Relates.pure _) (tracks_joinNext fuel)
    fuel).bind fun _ => hbol.bind fun _ => hadv.bind fun _ =>
      (Relates.repeatWhile relates_beforeEnd (tracks_squeezeBlank fuel) fuel).bind fun _ =>
        hbol.bind fun _ => (Relates.repeatWhile relates_beforeEnd (tracks_spaceStop fuel) fuel).bind
          fun _ => (tracks_observMargins true).bind fun _ => hbol.bind fun _ => ?_
  refine (Relates.repeatWhile relates_beforeEnd (tracks_breakLine fuel) fuel).bind fun _ =>
    hbol.bind fun _ => (Relates.repeatWhile relates_notBlankPrev hbol fuel).bind fun _ => ?_
  exact (Relates.onlyIf (Relates.times ((tracks_search fuel).bind fun _ => Relates.pure _) _)).bind
    fun _ => Relates.times (tracks_of_wanders (wanders_right fuel true)) _

theorem tracks_format : Relates Tracks (format fuel) := by
  refine Relates.get_bind fun old => ensures_onlyIf (fun _ => ?_) fun _ => refl old
  rw [ensures_bind]
  refine relates_blankHere.looks fun b => ensures_ite (fun _ => (ensures_pure _ _ _).mpr (refl old))
    fun _ => ?_
  refine Relates.after ((ensures_set _ _ _).mpr (.of_spine rfl)) fun _ =>
    (tracks_formatCore fuel).bind fun _ => ?_
  exact (Relates.modify fun _ => .of_spine rfl).bind fun _ => tracks_recenter fuel

end Formatting

end BsdAdditions.Ee
