import BsdAdditions.Ee.Ends
import BsdAdditions.Ee.Goto
import BsdAdditions.Ee.LoadSave

/-! The line that `ee` starts at when it is given one on the command line. -/
namespace BsdAdditions.Ee
open Common Common.Prog Std.Do

set_option mvcgen.warning false

variable {t : Prop} {s s' : Editor} {fuel : ℕ}

/-! ### Reading leaves the screen alone -/

/-- The screen is at the left edge of a window with room. -/
def Flush (s : Editor) : Prop := s.scrPos = 0 ∧ 8 ≤ s.cols ∧ s.lastCol = s.cols - 1

abbrev KeepsFlush {α : Type} (m : Ed α) : Prop := Upholds Flush (fun _ => True) m

@[local spec] theorem flush_orFault {α : Type} (o : Option α) : KeepsFlush (orFault o : Ed α) := by
  cases o with
  | none => exact upholds_throw trivial
  | some a => exact upholds_pure a

@[local spec] theorem flush_node (i : ℕ) : KeepsFlush (node i) := by
  mvcgen [node]

@[local spec] theorem flush_curr : KeepsFlush curr := by
  mvcgen [curr]

@[local spec] theorem flush_setNode (i : ℕ) (n : Node) : KeepsFlush (setNode i n) := by
  mvcgen [setNode]

@[local spec] theorem flush_setCurr (n : Node) : KeepsFlush (setCurr n) := by
  mvcgen [setCurr]

@[local spec] theorem flush_setPrev (i : Option ℕ) (p : ℕ) : KeepsFlush (setPrev i p) := by
  mvcgen [setPrev]

@[local spec] theorem flush_allocLine (size : ℕ) (n : Node) : KeepsFlush (allocLine size n) := by
  mvcgen [allocLine]

@[local spec] theorem flush_resizLine (factor : ℤ) (rline rpos : ℕ) :
    KeepsFlush (resizLine factor rline rpos) := by
  mvcgen [resizLine]

@[local spec] theorem flush_getPart (append : Bool) (part : List UInt8) :
    KeepsFlush (getPart append part) := by
  mvcgen [getPart, growCurr, linkRead, setPoint]

@[local spec] theorem flush_getLineFrom (inString : List UInt8) (length fuel num : ℕ) (append : Bool) :
    KeepsFlush (getLineFrom inString length fuel num append) := by
  induction fuel generalizing num append with
  | zero => exact upholds_throw trivial
  | succ fuel ih => mvcgen [getLineFrom, ih]

@[local spec] theorem flush_readLoop (chunks : List (List UInt8)) (append : Bool) :
    KeepsFlush (readLoop chunks append) := by
  induction chunks generalizing append with
  | nil => exact upholds_pure ()
  | cons chunk chunks ih => mvcgen [readLoop, getLine, ih]

/-- Into an empty line the file is read without any move of the cursor. -/
theorem flush_getFile {n : Node} (hn : s.heap s.currLine = some n) (hempty : n.lineLength = 1) (hs : Flush s)
    (chunks : List (List UInt8)) (hget : getFile chunks s = .ok ((), s')) : Flush s' := by
  have hopen : openLine s = .ok (true, s) := by
    rw [openLine, bind_of_ok (curr_eq hn), if_neg (by omega)]
    rfl
  have hrest : KeepsFlush (do
      readLoop chunks true
      onlyIf (canRead chunks ∧ (← curr).lineLength = 1) unlinkCurr
      onlyIf ((← get).inputFile = false ∧ canRead chunks) markChanged
      onlyIf ((← get).recvFile = true) (modify fun s => { s with inChar := -1 })) := by
    mvcgen [onlyIf, unlinkCurr, markChanged]
  have hend := upholds_iff.mp hrest s hs
  rw [getFile, bind_of_ok hopen] at hget
  rw [hget] at hend
  exact hend

/-! ### Moving down from the start of a line -/

theorem AtLine.returns_toNextLine {lines : List (List UInt8)} {i : ℕ} (h : AtLine t s lines i) (hfuel : 2 ≤ fuel) :
    Returns (toNextLine fuel) (fun _ s' => AtLine t s' lines (min (i + 1) (lines.length - 1)) ∧ Moves s s') s := by
  obtain ⟨xs, ys, n, hv⟩ := h.place.views
  have hpos : s.position = 1 := h.place.position_eq
  have hflush : AtLine t { s with scrPos := 0 } lines i := ⟨h.lt, h.place.with_scrPos 0, Int.le_refl 0⟩
  rw [toNextLine, returns_bind, returns_get, returns_bind, returns_curr hv.curr, if_neg (fun hne => hne.1 hpos),
    advLine, returns_bind, h.place.returns_offStart, returns_bind, returns_get,
    if_neg (by simpa using h.edge), h.place.returns_next_ne_none]
  refine returns_onlyIf (fun hnext => ?_) fun hlast => ?_
  · rw [returns_bind, returns_modify]
    exact (hflush.returns_down hfuel).mono fun _ s' hpost => ⟨hpost.1, hpost.2.1⟩
  · have hend : lines.length ≤ i + 1 := List.drop_eq_nil_iff.mp (not_not.mp hlast)
    have hlt := h.lt
    rw [show min (i + 1) (lines.length - 1) = i by omega]
    exact ⟨h, rfl⟩

/-- `move_rel('d', lines)` from the start of a line: it goes down at least one line. -/
theorem AtLine.returns_moveRel_down {lines : List (List UInt8)} {i : ℕ} (h : AtLine t s lines i)
    (hfuel : 2 ≤ fuel) {k : ℕ} (hk : i + k < lines.length) :
    Returns (moveRel fuel .down k) (fun _ s' =>
      AtLine t s' lines (min (i + max k 1) (lines.length - 1)) ∧ Moves s s') s := by
  rw [moveRel, returns_bind]
  refine (h.returns_toNextLine hfuel).mono fun _ s1 hpost => ?_
  obtain ⟨h1, hm1⟩ := hpost
  have hlt1 := h1.lt
  rw [returns_bind]
  refine (h1.returns_times_down hfuel (k := k - 1) (by omega)).mono fun _ s2 hpost => ?_
  obtain ⟨h2, hm2⟩ := hpost
  rw [show min (i + 1) (lines.length - 1) + (k - 1) = min (i + max k 1) (lines.length - 1) by omega] at h2
  rw [returns_bind, returns_get]
  refine returns_onlyIf (fun _ => ?_) fun _ => ⟨h2, hm1.trans hm2⟩
  refine (h2.returns_lookAround (fun s3 j h3 => ?_) hfuel (-1)).mono fun _ s3 hpost => ?_
  · exact (h3.returns_down hfuel).mono fun _ s4 h4 => ⟨_, h4⟩
  · exact ⟨hpost.1, (hm1.trans hm2).trans hpost.2⟩

/-! ### Starting -/

/-- What `main` has set up when it calls `check_fp` for the file on its command line. -/
def Editor.started (h : Host) (lastLine cols : ℤ) (recvFile : Bool) : Editor :=
  { Editor.initial h lastLine cols with recvFile, inputFile := true }

/-- Once the file is in the buffer, only the move to the line is left to do. -/
theorem exists_loaded (c : List UInt8) (hc : c ≠ []) (h : Host) (lastLine cols : ℤ) (hcols : 8 ≤ cols)
    (recvFile : Bool) : ∃ s, AtLine False s (lines 10 c) 0 ∧ ∀ fuel n,
      checkFp fuel (.regular (reads c)) (some n) (.started h lastLine cols recvFile) =
        moveRel fuel .down (n - 1) s := by
  obtain ⟨n, hshow⟩ := shows_initial h lastLine cols
  have hshow' : Shows False { Editor.started h lastLine cols recvFile with tmpLine := 0 } ⟨[], [], [], []⟩ [] [] n :=
    hshow.of_core rfl
  obtain ⟨s1, hget, hside, ⟨ids, hids, hmem⟩, htext⟩ := hshow'.exists_getFile (reads c)
  have htext : s1.text = lines 10 c := (htext.trans (spliced_reads hc _ _)).trans (List.append_nil _)
  simp only [Editor.side, Prod.mk.injEq] at hside
  obtain ⟨-, hpos, hfile, -⟩ := hside
  have hfile : s1.inputFile = true := hfile
  have hflush : Flush s1 := flush_getFile hshow'.inv.curr hshow'.lineLength_eq ⟨rfl, hcols, rfl⟩ (reads c) hget
  have hk : ids[0]? = some s1.firstLine := List.head?_eq_getElem?.symm.trans hids.first
  have hmem := List.mem_of_getElem? hk
  obtain ⟨m, hm, hok⟩ := hids.lines.exists_node hmem
  let s2 : Editor := { s1 with
    recvFile := false, scrVert := 0, scrHorz := 0, currLine := s1.firstLine, point := m.start, inputFile := false }
  have hinv : Inv False s2 ids m := by
    refine ⟨hids.lines, hids.first, hids.bound, hmem, hm, Nat.le_of_eq hpos.symm, ?_, ?_, hids.narrow⟩
    · exact Nat.le_trans (Nat.le_of_eq hpos) hok.pos
    · change m.start = ⟨m.line, s1.position - 1⟩
      rw [hpos]
      rfl
  have hat : At False s2 (.place s2.text 0 0) :=
    hinv.at_place ⟨hflush.2.1, hflush.2.2⟩ hk hm rfl rfl rfl hpos hok.pos
  have htext2 : s2.text = lines 10 c := htext
  rw [htext2, Zipper.place_zero] at hat
  have hlen : 0 < (lines 10 c).length := by
    rw [← htext, hids.text_eq, List.length_map]
    exact List.length_pos_of_mem hmem
  refine ⟨s2, ⟨hlen, hat, Int.le_of_eq hflush.1⟩, fun fuel k => ?_⟩
  have hback : (modify fun u : Editor =>
      { u with recvFile := false, scrVert := 0, scrHorz := 0,
               currLine := if u.inputFile then u.firstLine else u.tmpLine } : Ed Unit) s1 =
      .ok ((), { s1 with recvFile := false, scrVert := 0, scrHorz := 0, currLine := s1.firstLine }) := by
    have hcl : (if s1.inputFile then s1.firstLine else s1.tmpLine) = s1.firstLine := by
      rw [hfile]
      rfl
    exact congrArg (fun i => Except.ok ((), ({ s1 with
      recvFile := false, scrVert := 0, scrHorz := 0, currLine := i } : Editor))) hcl
  have hcurr : curr { s1 with recvFile := false, scrVert := 0, scrHorz := 0, currLine := s1.firstLine } =
      .ok (m, { s1 with recvFile := false, scrVert := 0, scrHorz := 0, currLine := s1.firstLine }) := curr_eq hm
  rw [checkFp, bind_of_ok rfl, bind_of_ok rfl]
  refine (bind_of_ok hget).trans ((bind_of_ok hback).trans ((bind_of_ok hcurr).trans ?_))
  rw [bind_of_ok rfl, bind_of_ok rfl, if_pos hfile, bind_of_ok rfl]

/-- Started with `+n`, for a line `n` of the file, the editor is at the start of that line exactly if
`n` is not 1 or the file has no other line: `move_rel` has gone down one line before it looks at how
many it has to go. -/
theorem start_at_line_iff (c : List UInt8) (h : Host) (lastLine cols : ℤ) (hcols : 8 ≤ cols) (recvFile : Bool)
    (n : ℕ) (hn : 1 ≤ n) (hlines : n ≤ (lines 10 c).length) (hfuel : 2 ≤ fuel) :
    Returns (checkFp fuel (.regular (reads c)) (some n)) (fun _ s' => s'.fromTop = n ∧ s'.position = 1 ∧
      s'.text = lines 10 c) (.started h lastLine cols recvFile) ↔ n ≠ 1 ∨ (lines 10 c).length = 1 := by
  have hc : c ≠ [] := by
    rintro rfl
    exact absurd hlines (by change ¬ n ≤ 0; omega)
  obtain ⟨s, hat, hload⟩ := exists_loaded c hc h lastLine cols hcols recvFile
  have hmove := hat.returns_moveRel_down hfuel (k := n - 1) (by omega)
  have hat' : Returns (checkFp fuel (.regular (reads c)) (some n)) (fun _ s' =>
      AtLine False s' (lines 10 c) (min (0 + max (n - 1) 1) ((lines 10 c).length - 1))) (.started h lastLine cols recvFile) := by
    obtain ⟨_, s', hrun, h', _⟩ := hmove
    exact ⟨_, s', (hload fuel n).trans hrun, h'⟩
  have htop : ∀ s', AtLine False s' (lines 10 c) (min (0 + max (n - 1) 1) ((lines 10 c).length - 1)) →
      s'.fromTop = 1 + (min (0 + max (n - 1) 1) ((lines 10 c).length - 1) : ℕ) :=
    fun s' h' => h'.place.fromTop_eq h'.lt
  constructor
  · intro hgoal
    obtain ⟨_, s', h', htop', -⟩ := hat'.and hgoal
    have := htop s' h'
    omega
  · intro hok
    refine hat'.mono fun _ s' h' => ⟨?_, h'.place.position_eq, h'.place.text_eq.trans ?_⟩
    · have := htop s' h'
      omega
    · exact Zipper.text_start h'.lt

/-- `+2` on a file of three lines. -/
theorem start_at_second_line :
    Returns (checkFp 2 (.regular (reads [97, 10, 98, 10, 99])) (some 2)) (fun _ s' => s'.fromTop = 2 ∧
      s'.position = 1 ∧ s'.text = lines 10 [97, 10, 98, 10, 99]) (.started (cLocale 0) 23 80 true) :=
  (start_at_line_iff [97, 10, 98, 10, 99] (cLocale 0) 23 80 (by decide) true 2 (by decide) (by decide)
    (Nat.le_refl 2)).mpr (.inl (by decide))

/-- `+1` on a file of two lines starts in the second. -/
theorem start_at_first_line :
    lines 10 [97, 10, 98, 10] = [[97], [98]] ∧
      ((checkFp 2 (.regular (reads [97, 10, 98, 10])) (some 1) (.started (cLocale 0) 23 80 true)).toOption.map
        fun r => (r.2.fromTop, r.2.position)) = some (2, 1) := by
  constructor
  · decide
  · decide +kernel

end BsdAdditions.Ee
