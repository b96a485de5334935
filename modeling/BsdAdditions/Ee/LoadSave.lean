import BsdAdditions.Ee.Commands
import BsdAdditions.Ee.ReadSound

/-! Loading a file, reading one in the middle of an edit, and writing the buffer. -/
namespace BsdAdditions.Ee
open Common Common.Prog

/-! ### Nothing here runs out of fuel -/

theorem halts_node (i : ℕ) : Halts (node i) := Halts.get.bind fun _ => Halts.orFault _

theorem halts_curr : Halts curr := Halts.get.bind fun _ => halts_node _

theorem halts_setNode (i : ℕ) (n : Node) : Halts (setNode i n) := Halts.modify _

theorem halts_setCurr (n : Node) : Halts (setCurr n) := Halts.get.bind fun _ => halts_setNode _ _

theorem halts_resizLine (factor : ℤ) (rline rpos : ℕ) : Halts (resizLine factor rline rpos) :=
  (halts_node _).bind fun _ => Halts.get.bind fun _ => (halts_setNode _ _).bind fun _ =>
    (Halts.modify _).bind fun _ => Halts.pure _

theorem halts_setPrev (i : Option ℕ) (p : ℕ) : Halts (setPrev i p) := by
  cases i with
  | none => exact Halts.pure ()
  | some j => exact (halts_node j).bind fun _ => halts_setNode _ _

theorem halts_allocLine (size : ℕ) (n : Node) : Halts (allocLine size n) :=
  Halts.get.bind fun _ => (Halts.set _).bind fun _ => (halts_setNode _ _).bind fun _ => Halts.pure _

theorem halts_appendBytes (nod : ℕ) (bytes : List UInt8) (extra : Ptr) (tempPos : ℕ) :
    Halts (appendBytes nod bytes extra tempPos) := by
  induction bytes generalizing extra tempPos with
  | nil => exact Halts.pure _
  | cons b bytes ih =>
    exact (halts_node nod).bind fun _ => (Halts.ite (halts_resizLine _ _ _) (Halts.pure _)).bind
      fun _ => (halts_node nod).bind fun _ => (Halts.orFault _).bind fun _ =>
      (halts_setNode _ _).bind fun _ => ih _ _

/-- Without the display, splitting a line needs no loop. -/
theorem halts_insertLine (fuel : ℕ) : Halts (insertLine fuel false) := by
  have hlink : Halts linkNew := Halts.get.bind fun _ => halts_curr.bind fun _ =>
    (halts_allocLine _ _).bind fun _ => (halts_setPrev _ _).bind fun _ =>
    (halts_setNode _ _).bind fun _ => Halts.pure _
  have htail : ∀ nod, Halts (moveTail nod) := fun nod =>
    Halts.get.bind fun _ => halts_curr.bind fun _ => (halts_node _).bind fun _ => Halts.ite
      ((Halts.orFault _).bind fun _ => (halts_appendBytes _ _ _ _).bind fun _ =>
        (Halts.orFault _).bind fun _ => (halts_setCurr _).bind fun _ => (halts_node _).bind fun _ =>
        (halts_resizLine _ _ _).bind fun _ => Halts.pure _) (Halts.pure _)
  refine (Halts.modify _).bind fun _ => hlink.bind fun _ => (htail _).bind fun _ =>
    Halts.get.bind fun _ => halts_curr.bind fun _ => (halts_setCurr _).bind fun _ =>
    (halts_node _).bind fun _ => (Halts.orFault _).bind fun _ => (halts_setNode _ _).bind fun _ =>
    (halts_node _).bind fun _ => (Halts.modify _).bind fun _ => Halts.onlyIf ?_
  exact fun h => absurd h Bool.false_ne_true

theorem halts_getPart (append : Bool) (part : List UInt8) : Halts (getPart append part) := by
  have hgrow : ∀ k, Halts (growCurr k) := fun k => Halts.get.bind fun _ => halts_curr.bind fun _ =>
    (halts_resizLine _ _ _).bind fun _ => (Halts.modify _).bind fun _ => halts_curr.bind fun _ =>
    halts_setCurr _
  have hlink : ∀ k, Halts (linkRead k) := fun k => Halts.get.bind fun _ => halts_curr.bind fun _ =>
    (halts_allocLine _ _).bind fun _ => (halts_setNode _ _).bind fun _ =>
    (halts_setPrev _ _).bind fun _ => (halts_node _).bind fun _ => Halts.modify _
  exact (Halts.ite (hgrow _) (hlink _)).bind fun _ => Halts.get.bind fun _ => halts_curr.bind
    fun _ => (Halts.orFault _).bind fun _ => (halts_setCurr _).bind fun _ => Halts.modify _

theorem halts_getLineFrom (inString : List UInt8) (length fuel : ℕ) {num : ℕ} (append : Bool)
    (hfuel : length - num < fuel) : Halts (getLineFrom inString length fuel num append) := by
  induction fuel generalizing num append with
  | zero => exact absurd hfuel (Nat.not_lt_zero _)
  | succ fuel ih =>
    refine (halts_getPart _ _).bind fun _ => ?_
    split
    · refine ih _ ?_
      unfold lineEnd at *
      omega
    · exact Halts.pure _

theorem halts_readLoop (chunks : List (List UInt8)) (append : Bool) :
    Halts (readLoop chunks append) := by
  induction chunks generalizing append with
  | nil => exact Halts.pure _
  | cons chunk chunks ih =>
    refine Halts.ite (Halts.pure _) ((Halts.modify _).bind fun _ => Halts.get.bind fun _ =>
      Halts.bind ?_ ih)
    exact Halts.ite (halts_getLineFrom _ _ _ _ (by omega)) (Halts.pure _)

theorem halts_unlinkCurr : Halts unlinkCurr :=
  Halts.get.bind fun _ => halts_curr.bind fun _ => (Halts.orFault _).bind fun _ =>
    (halts_node _).bind fun _ => (halts_setNode _ _).bind fun _ => (halts_setPrev _ _).bind fun _ =>
    Halts.modify _

section Loads
variable {t : Prop} {s : Editor} {bs as : List (List UInt8)} {l r : List UInt8} {xs ys : List ℕ}
  {n : Node}

/-- From the start of a line, and without the display, `left` needs no loop either. -/
theorem exists_left {m : Node} {p : ℕ} (hn : s.heap s.currLine = some n) (hpt : s.point = n.start)
    (hp : n.prev = some p) (hm : s.heap p = some m) (fuel : ℕ) :
    ∃ s', left fuel false s = .ok ((), s') := by
  have hnode : node p s = .ok (m, s) := by
    rw [node, bind_of_ok rfl, hm]
    rfl
  rw [left, bind_of_ok rfl, bind_of_ok (curr_eq hn), if_neg (not_not_intro hpt), hp]
  dsimp only
  rw [if_pos rfl, bind_of_ok hnode]
  exact ⟨_, rfl⟩

theorem Shows.exists_openLine (h : Shows t s ⟨bs, l, r, as⟩ xs ys n) :
    ∃ append s', openLine s = .ok (append, s') := by
  rw [openLine, bind_of_ok (curr_eq h.inv.curr)]
  split
  · obtain ⟨_, s1, hins, n1, -, h1, -⟩ :=
      exists_ok (h.wp_insertLine 0 false) (halts_insertLine 0 s)
    obtain ⟨m, rest, hm, hprev, -⟩ := h1.exists_before
    obtain ⟨s2, hleft⟩ := exists_left h1.inv.curr h1.point_eq hprev hm 0
    rw [bind_of_ok hins, bind_of_ok hleft]
    exact ⟨false, s2, rfl⟩
  · exact ⟨true, s, rfl⟩

/-- `get_file` returns, with the file's lines at the cursor. -/
theorem Shows.exists_getFile (h : Shows t s ⟨bs, l, r, as⟩ xs ys n) (chunks : List (List UInt8)) :
    ∃ s', getFile chunks s = .ok ((), s') ∧
      Received t s s' (spliced chunks s.inString ⟨bs, l, r, as⟩) := by
  have hhalt : getFile chunks s ≠ .error .fuel := by
    obtain ⟨append, s1, hopen⟩ := h.exists_openLine
    rw [getFile, bind_of_ok hopen]
    exact ((halts_readLoop chunks append).bind fun _ => halts_curr.bind fun _ =>
      (Halts.onlyIf fun _ => halts_unlinkCurr).bind fun _ => Halts.get.bind fun _ =>
      (Halts.onlyIf fun _ => Halts.modify _).bind fun _ => Halts.get.bind fun _ =>
      Halts.onlyIf fun _ => Halts.modify _) s1
  obtain ⟨_, s', hok, hpost⟩ := exists_ok (h.wp_getFile chunks) hhalt
  exact ⟨s', hok, hpost⟩

/-! ### Writing -/

theorem NodeOk.readMany_content (h : NodeOk t n) :
    n.readMany n.start (n.lineLength - 1) = some n.content := by
  obtain ⟨rest, hold⟩ := h.exists_holds
  have hread := Holds.readMany (l := []) hold
  rwa [← h.length_content]

theorem Chain.writeLines_eq {p : Option ℕ} {ids : List ℕ} (h : Chain s.heap p ids)
    (hok : ∀ i ∈ ids, ∀ m, s.heap i = some m → NodeOk t m) {fuel : ℕ} (hfuel : ids.length ≤ fuel) :
    writeLines fuel ids.head? s = .ok ((ids.map (lineAt s.heap)).flatMap (· ++ [10]), s) := by
  induction ids generalizing p fuel with
  | nil => cases fuel <;> rfl
  | cons i is ih =>
    obtain ⟨m, hm, -, hnext, hc⟩ := h
    obtain ⟨fuel, rfl⟩ : ∃ f, fuel = f + 1 := ⟨fuel - 1, by rw [List.length_cons] at hfuel; omega⟩
    have hnode : node i s = .ok (m, s) := by
      rw [node, bind_of_ok rfl, hm]
      rfl
    have hrest := ih hc (fun j hj => hok j (List.mem_cons_of_mem i hj)) (Nat.le_of_succ_le_succ hfuel)
    rw [List.head?_cons, writeLines, bind_of_ok hnode, (hok i List.mem_cons_self m hm).readMany_content,
      hnext, bind_of_ok (t := s) rfl, bind_of_ok hrest, List.map_cons, List.flatMap_cons, lineAt, hm]
    rfl

theorem Listed.writeFile_eq {ids : List ℕ} (h : Listed t s ids) :
    writeFile s.text.length .stream s = .ok (some (s.text.flatMap (· ++ [10])), s) := by
  have hlen : ids.length = s.text.length := by rw [h.text_eq, List.length_map]
  have hwrite := h.lines.chain.writeLines_eq h.lines.ok (Nat.le_of_eq hlen)
  rw [h.first, ← h.text_eq] at hwrite
  rw [writeFile, bind_of_ok rfl, bind_of_ok hwrite]
  rfl

end Loads

/-! ### Loading and saving -/

/-- The empty line that the editor starts with. -/
theorem shows_initial (h : Host) (lastLine cols : ℤ) :
    ∃ n, Shows False (Editor.initial h lastLine cols) ⟨[], [], [], []⟩ [] [] n := by
  obtain ⟨n, hinv⟩ := inv_initial (h := h) False.elim lastLine cols
  refine ⟨n, hinv, rfl, rfl, ?_, rfl⟩
  obtain rfl := Option.some.inj hinv.curr
  rfl

/-- The bytes written for the lines that a file has been split into. -/
theorem flatMap_spliced_reads (c : List UInt8) (b : InString) :
    (spliced (reads c) b ⟨[], [], [], []⟩).flatMap (· ++ [10]) =
      if c.getLast? = some 10 then c else c ++ [10] := by
  by_cases hc : c = []
  · subst hc
    rfl
  have hlines : spliced (reads c) b ⟨[], [], [], []⟩ = lines 10 c :=
    (spliced_reads hc b _).trans (List.append_nil _)
  rw [hlines, flatMap_lines 10 c hc]

theorem load_then_save (c : List UInt8) (h : Host) (lastLine cols : ℤ) (recvFile inputFile : Bool) :
    ∃ s, getFile (reads c) { Editor.initial h lastLine cols with recvFile, inputFile } = .ok ((), s) ∧
      writeFile s.text.length .stream s =
        .ok (some (if c.getLast? = some 10 then c else c ++ [10]), s) := by
  obtain ⟨n, hshow⟩ := shows_initial h lastLine cols
  have hshow' : Shows False { Editor.initial h lastLine cols with recvFile, inputFile }
      ⟨[], [], [], []⟩ [] [] n := hshow.of_core rfl
  obtain ⟨s, hget, hrec⟩ := hshow'.exists_getFile (reads c)
  obtain ⟨ids, hlisted, -⟩ := hrec.listed
  refine ⟨s, hget, ?_⟩
  rw [hlisted.writeFile_eq, hrec.text, flatMap_spliced_reads]

/-! ### Reading a file in the middle of an edit -/

section ReadIn
variable {t : Prop} {s s' : Editor} {z : Zipper} {xs ys : List ℕ} {n : Node}

/-- The editor after a file has been read: the lines are in order, and `point` is at the start of
the line where the reading began. -/
structure ReadIn (t : Prop) (s s' : Editor) (text : List (List UInt8)) : Prop where
  listed : ∃ ids, Listed t s' ids ∧ s'.currLine ∈ ids
  text : s'.text = text
  changed : s'.textChanges = true
  position : s'.position = s.position
  point : ∃ m, s'.heap s'.currLine = some m ∧ s'.point = m.start
  word : s'.dWord = s.dWord
  line : HasLine s → HasLine s'
  file : s'.inputFile = s.inputFile

theorem Shows.exists_readFile (h : Shows t s z xs ys n) (hin : s.inputFile = false) (fuel : ℕ)
    (chunks : List (List UInt8)) : ∃ s', readFile fuel (.regular chunks) s = .ok ((), s') ∧
      ReadIn t s s' (spliced chunks s.inString z) := by
  have h0 : Shows t { s with recvFile := true, tmpLine := s.currLine } z xs ys n := h.of_core rfl
  obtain ⟨s1, hget, hside, ⟨ids, hids, hmem⟩, htext⟩ := h0.exists_getFile chunks
  simp only [Editor.side, Prod.mk.injEq] at hside
  obtain ⟨htmp, hpos, hfile, hword, hline, hdlt⟩ := hside
  have hfile1 : s1.inputFile = false := hfile.trans hin
  obtain ⟨m, hm, -⟩ := hids.lines.exists_node hmem
  let s2 : Editor := { s1 with recvFile := false, scrVert := s.scrVert, scrHorz := s.scrHorz,
                               currLine := s.currLine }
  refine ⟨{ s2 with point := m.start, textChanges := true }, ?_, ?_⟩
  · have hback : (modify fun u : Editor =>
        { u with recvFile := false, scrVert := s.scrVert, scrHorz := s.scrHorz,
                 currLine := if u.inputFile then u.firstLine else u.tmpLine } : Ed Unit) s1 =
        .ok ((), s2) := by
      have hcl : (if s1.inputFile then s1.firstLine else s1.tmpLine) = s.currLine := by
        rw [hfile1]
        exact htmp
      exact congrArg (fun i => Except.ok ((), ({ s2 with currLine := i } : Editor))) hcl
    have hcurr : curr s2 = .ok (m, s2) := curr_eq hm
    rw [readFile, bind_of_ok rfl, checkFp, bind_of_ok rfl, bind_of_ok rfl]
    refine (bind_of_ok hget).trans ((bind_of_ok hback).trans ((bind_of_ok hcurr).trans ?_))
    refine (bind_of_ok rfl).trans ((bind_of_ok rfl).trans ?_)
    rw [if_neg (by rw [show s2.inputFile = false from hfile1]; exact Bool.false_ne_true)]
    rfl
  · refine ⟨⟨ids, ⟨hids.lines, hids.first, hids.bound, hids.narrow⟩, hmem⟩, htext, rfl, hpos,
      ⟨m, hm, rfl⟩, hword, fun hl => ?_, hfile⟩
    show s1.dltLineLength ≤ 1 ∨ s1.dLine.isSome = true
    rw [hdlt, hline]
    exact hl

/-- Both copies of the cursor agree, on a place in the current line. -/
def CursorInside (s : Editor) : Prop := ∃ n, s.heap s.currLine = some n ∧ 1 ≤ s.position ∧
  s.position ≤ n.lineLength ∧ s.point = n.start.add (s.position - 1)

instance (s : Editor) : Decidable (CursorInside s) :=
  match h : s.heap s.currLine with
  | none => .isFalse (by simp [CursorInside, h])
  | some n => decidable_of_iff (1 ≤ s.position ∧ s.position ≤ n.lineLength ∧
      s.point = n.start.add (s.position - 1)) (by simp [CursorInside, h])

theorem ReadIn.cursorInside_iff {text : List (List UInt8)} (h : ReadIn t s s' text)
    (hpos : 1 ≤ s.position) : CursorInside s' ↔ s.position = 1 := by
  obtain ⟨⟨ids, hids, hmem⟩, -, -, hp, ⟨m, hm, hpt⟩, -, -, -⟩ := h
  constructor
  · rintro ⟨m', hm', -, -, hpt'⟩
    obtain rfl : m = m' := by simpa [hm] using hm'
    have hoff := congrArg Ptr.off (hpt.symm.trans hpt')
    simp only [Node.start, Ptr.add, hp] at hoff
    omega
  · intro hone
    rw [hone] at hp
    refine ⟨m, hm, Nat.le_of_eq hp.symm, ?_, ?_⟩
    · rw [hp]
      exact (hids.lines.ok _ hmem m hm).pos
    · rw [hp]
      exact hpt

/-- The file comes in where the cursor is, but the cursor is left in a line only if it stood at
the start of one. -/
theorem read_file_splices_iff (s : Editor) (z : Zipper) (h : Shows t s z xs ys n)
    (hin : s.inputFile = false) (c : List UInt8) (hc : c ≠ []) (fuel : ℕ) :
    ∃ s', readFile fuel (.regular (reads c)) s = .ok ((), s') ∧
      (s'.text = if z.left ++ z.right = [] then z.before ++ lines 10 c ++ z.after
        else z.before ++ [z.left] ++ lines 10 c ++ z.right :: z.after) ∧
      (CursorInside s' ↔ s.position = 1) := by
  obtain ⟨s', hread, hin'⟩ := h.exists_readFile hin fuel (reads c)
  exact ⟨s', hread, hin'.text.trans (spliced_reads hc s.inString z), hin'.cursorInside_iff h.inv.pos⟩

theorem read_file_into_empty_buffer :
    ∃ s', readFile 0 (.regular (reads [120, 10, 121])) (Editor.initial (cLocale 0) 23 80) = .ok ((), s') ∧
      s'.text = [[120], [121]] ∧ CursorInside s' := by
  obtain ⟨n, hshow⟩ := shows_initial (cLocale 0) 23 80
  obtain ⟨s', hread, htext, hcursor⟩ :=
    read_file_splices_iff _ _ hshow rfl [120, 10, 121] (by simp) 0
  exact ⟨s', hread, htext, hcursor.mpr rfl⟩

/-- Two letters have been typed and a file is read behind them: `point` goes to the start of the
line, and `position` still says that it is behind the letters. -/
theorem read_file_loses_cursor :
    ∃ s s', Common.run next? (Editor.initial (cLocale 0) 23 80) [(9, .insert 97), (9, .insert 98)] =
        some s ∧ s.position = 3 ∧ readFile 0 (.regular (reads [120, 10])) s = .ok ((), s') ∧
      s'.text = [[97, 98], [120], []] ∧ ¬ CursorInside s' := by
  have hrun : ((Common.run next? (Editor.initial (cLocale 0) 23 80)
      [(9, .insert 97), (9, .insert 98)]).bind fun s =>
        (readFile 0 (.regular (reads [120, 10])) s).toOption.map fun p =>
          (s.position, p.2.text, p.2.position, p.2.point.off)) =
      some (3, [[97, 98], [120], []], 3, 0) := by
    decide +kernel
  obtain ⟨s, hs, hmap⟩ := Option.bind_eq_some_iff.mp hrun
  obtain ⟨⟨u, s'⟩, hread, heq⟩ := Option.map_eq_some_iff.mp hmap
  simp only [Prod.mk.injEq] at heq
  obtain ⟨hpos, htext, hpos', hoff⟩ := heq
  refine ⟨s, s', hs, hpos, ?_, htext, ?_⟩
  · cases hok : readFile 0 (.regular (reads [120, 10])) s with
    | ok p => rw [hok] at hread; exact congrArg Except.ok (Option.some.inj hread)
    | error e => rw [hok] at hread; cases hread
  · rintro ⟨n, -, -, -, hpt⟩
    rw [hpt, hpos'] at hoff
    exact absurd hoff (by simp [Node.start, Ptr.add])

end ReadIn

end BsdAdditions.Ee
