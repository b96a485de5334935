import Mathlib.Data.Int.Notation
import BsdAdditions.Common.Linked
import BsdAdditions.Common.Overwrite

/-! The lines of a window, and the insertion and deletion of one of them. -/
namespace BsdAdditions.Curse
open Common

/-- The direction in which a line has been scrolled. -/
inductive Scroll where
  | still
  | up
  | down

/-- What has happened to a window since it was last shown. -/
inductive ScrollClear where
  | nothing
  | change
  | scroll
  | clear

/-- A window. The nodes of its list are numbers, and each field of `struct _line` is a function of the
node. -/
structure Window where
  ly : ℕ
  numLines : ℕ
  numCols : ℕ
  scrollUp : ℕ
  scrollDown : ℕ
  scrollClear : ScrollClear
  firstLine : Option ℕ
  lineArray : List (Option ℕ)
  nextScreen : ℕ → Option ℕ
  prevScreen : ℕ → Option ℕ
  row : ℕ → List UInt8
  attributes : ℕ → List UInt8
  lastChar : ℕ → ℕ
  changed : ℕ → Bool
  scroll : ℕ → Scroll
  number : ℕ → ℤ

namespace Window

/-- A new window of at least one line, with a screen of `screenLines` lines: its nodes are numbered by
row. -/
def newwin (screenLines lines cols : ℕ) : Window where
  ly := 0
  numLines := lines
  numCols := cols
  scrollUp := 0
  scrollDown := 0
  scrollClear := .nothing
  firstLine := some 0
  lineArray := (List.range lines).map some ++ List.replicate (screenLines - lines) none
  nextScreen i := if i + 1 < lines then some (i + 1) else none
  prevScreen i := if i = 0 then none else some (i - 1)
  row _ := (List.replicate cols (32 : UInt8) ++ [0]).set 0 0
  attributes _ := List.replicate cols 0 ++ [0]
  lastChar _ := 0
  changed _ := false
  scroll _ := .still
  number i := i

/-- A buffer that is padded up to the column and ends there. -/
def cutAt (buffer : List UInt8) (lastChar column : ℕ) (pad : UInt8) : List UInt8 :=
  (if lastChar < column then overwrite buffer lastChar (List.replicate (column - lastChar) pad)
    else buffer).set column 0

/-- Without a result a buffer would be left, here, or the pointer of no node followed, below. -/
def clearLine (w : Window) (line column : ℕ) : Option Window :=
  if column < (w.row line).length ∧ column < (w.attributes line).length then
    some { w with
      row := Function.update w.row line (cutAt (w.row line) (w.lastChar line) column 32)
      attributes := Function.update w.attributes line (cutAt (w.attributes line) (w.lastChar line) column 0)
      lastChar := Function.update w.lastChar line column
      changed := Function.update w.changed line true }
  else none

/-- The loop that ends both functions: `line_array` follows the list. -/
def fillArray (w : Window) : Option Window := do
  let ids ← collect w.nextScreen w.numLines w.firstLine
  if w.numLines ≤ w.lineArray.length then
    some { w with lineArray := ids.map some ++ w.lineArray.drop w.numLines }
  else none

/-- `tmp1` becomes the last line, behind `tmp`. -/
def placeBehind (w : Window) (tmp tmp1 : ℕ) : Option Window := do
  let w := { w with nextScreen := Function.update w.nextScreen tmp1 (w.nextScreen tmp) }
  let w := { w with nextScreen := Function.update w.nextScreen tmp (some tmp1) }
  let w := { w with changed := Function.update w.changed tmp true }
  let next ← w.nextScreen tmp
  some { w with prevScreen := Function.update w.prevScreen next (some tmp) }

/-- `tmp1` is put in front of `tmp`. -/
def placeBefore (w : Window) (tmp tmp1 : ℕ) : Window :=
  let w := { w with nextScreen := link w.nextScreen (w.prevScreen tmp) (some tmp1) }
  let w := { w with prevScreen := Function.update w.prevScreen tmp1 (w.prevScreen tmp) }
  let w := { w with prevScreen := Function.update w.prevScreen tmp (some tmp1) }
  let w := { w with nextScreen := Function.update w.nextScreen tmp1 (some tmp) }
  { w with
    changed := Function.update w.changed tmp true
    scroll := Function.update w.scroll tmp .down }

/-- The cleared line `tmp1` is put into the list again, which `tmp` has been found in. -/
def place (w : Window) (tmp tmp1 : ℕ) : Option Window :=
  if w.ly + 1 = w.numLines ∧ 1 < w.numLines then w.placeBehind tmp tmp1
  else if 1 < w.numLines then some (w.placeBefore tmp tmp1)
  else some w

def winsertln (w : Window) : Option Window := do
  let w := { w with scrollDown := w.scrollDown + 1, scrollClear := .scroll }
  let first ← w.firstLine
  -- the last line leaves the list
  let tmp1 := walk w.nextScreen w.numLines first
  let w := { w with nextScreen := link w.nextScreen (w.prevScreen tmp1) none }
  let w ← w.clearLine tmp1 0
  let w := { w with number := Function.update w.number tmp1 (-1) }
  let w ← w.place (walk w.nextScreen w.ly first) tmp1
  let w := { w with firstLine := if w.ly = 0 then some tmp1 else w.firstLine }
  w.fillArray

/-- The line leaves the list. -/
def unlink (w : Window) (tmp : ℕ) : Window :=
  let w := { w with firstLine := if w.ly = 0 then w.nextScreen tmp else w.firstLine }
  let w := { w with nextScreen := link w.nextScreen (w.prevScreen tmp) (w.nextScreen tmp) }
  match w.nextScreen tmp with
  | none => w
  | some next =>
    { w with
      changed := Function.update w.changed next true
      scroll := Function.update w.scroll next .up
      prevScreen := Function.update w.prevScreen next (w.prevScreen tmp) }

/-- The line becomes the last one. The pointer to the line before it has been followed, so it is not
NULL where the program asks for that. -/
def relinkLast (w : Window) (tmp tmpline : ℕ) : Window :=
  let w := { w with nextScreen := Function.update w.nextScreen tmp (some tmpline) }
  let w := { w with prevScreen := Function.update w.prevScreen tmpline (some tmp) }
  let w := { w with changed := Function.update w.changed tmp true }
  { w with nextScreen := Function.update w.nextScreen tmpline none }

def wdeleteln (fuel : ℕ) (w : Window) : Option Window := do
  if 1 < w.numLines then
    let w := { w with scrollUp := w.scrollUp + 1, scrollClear := .scroll }
    let tmpline ← (← follow w.nextScreen w.ly w.firstLine)
    let w := w.unlink tmpline
    let w ← w.clearLine tmpline 0
    let w := { w with number := Function.update w.number tmpline (-1) }
    let tmp ← walkEnd w.nextScreen fuel (← w.firstLine)
    (w.relinkLast tmp tmpline).fillArray
  else w.clearLine (← w.firstLine) 0

/-! ### Windows that are well formed -/

/-- What a line shows: its characters with their attributes. -/
def cells (w : Window) (line : ℕ) : List (UInt8 × UInt8) :=
  ((w.row line).zip (w.attributes line)).take (w.lastChar line)

/-- The list and the array have these nodes, and each of them has its buffers. -/
structure Listed (w : Window) (ids : List ℕ) : Prop where
  links : Seg w.nextScreen w.prevScreen none ids none
  first : w.firstLine = ids.head?
  length : ids.length = w.numLines
  array : w.lineArray.take w.numLines = ids.map some
  row : ∀ i ∈ ids, (w.row i).length = w.numCols + 1
  attributes : ∀ i ∈ ids, (w.attributes i).length = w.numCols + 1

/-- A well-formed window with these contents. -/
def Shows (w : Window) (lines : List (List (UInt8 × UInt8))) : Prop :=
  ∃ ids, w.Listed ids ∧ ids.map w.cells = lines

variable {w : Window} {ids init : List ℕ} {last : ℕ}

/-- A line that is cleared from its first column on: its buffers stay, and it shows nothing. -/
theorem exists_clearLine {line : ℕ} (hrow : 0 < (w.row line).length) (hattr : 0 < (w.attributes line).length) :
    ∃ row attributes lastChar changed, w.clearLine line 0 = some { w with
        row := row, attributes := attributes, lastChar := lastChar, changed := changed } ∧
      (∀ i, (row i).length = (w.row i).length ∧ (attributes i).length = (w.attributes i).length) ∧
      ∀ i, ((row i).zip (attributes i)).take (lastChar i) = if i = line then [] else w.cells i := by
  refine ⟨_, _, _, _, if_pos ⟨hrow, hattr⟩, fun i => ?_, fun i => ?_⟩
  · by_cases hi : i = line
    · subst hi
      simp [cutAt]
    · simp [hi]
  · by_cases hi : i = line
    · subst hi
      simp
    · simp [hi, cells]

/-- With the array filled again the window is well formed. -/
theorem exists_fillArray (h : Seg w.nextScreen w.prevScreen none ids none) (hfirst : w.firstLine = ids.head?)
    (hlen : ids.length = w.numLines) (hroom : w.numLines ≤ w.lineArray.length)
    (hrow : ∀ i ∈ ids, (w.row i).length = w.numCols + 1)
    (hattr : ∀ i ∈ ids, (w.attributes i).length = w.numCols + 1) :
    ∃ w', w.fillArray = some w' ∧ w'.Listed ids ∧ ∀ i, w'.cells i = w.cells i := by
  have hcollect := h.collect_eq
  rw [hlen, ← hfirst] at hcollect
  have harray : (ids.map some ++ w.lineArray.drop w.numLines).take w.numLines = ids.map some := by
    rw [← hlen, ← List.length_map (f := (some : ℕ → Option ℕ)), List.take_left]
  refine ⟨{ w with lineArray := ids.map some ++ w.lineArray.drop w.numLines }, ?_, ?_, fun _ => rfl⟩
  · rw [fillArray, hcollect, Option.bind_eq_bind, Option.bind_some, if_pos hroom]
  · exact ⟨h, hfirst, hlen, harray, hrow, hattr⟩

theorem Listed.room (h : w.Listed ids) : w.numLines ≤ w.lineArray.length := by
  have hlen := congrArg List.length h.array
  rw [List.length_take, List.length_map, h.length] at hlen
  omega

/-- The last line taken off the list, with the pointer to it. -/
theorem Listed.detach (h : w.Listed (init ++ [last])) :
    w.prevScreen last = init.getLast? ∧ w.nextScreen last = none ∧ last ∉ init ∧ init.Nodup ∧
      Seg (link w.nextScreen (w.prevScreen last) none) w.prevScreen none init none := by
  obtain ⟨hinit, hprev, hnext, -⟩ := seg_append.mp h.links
  obtain ⟨hnodup, -, hne⟩ := List.nodup_append.mp h.links.nodup
  rw [Option.or_none] at hprev
  refine ⟨hprev, hnext, fun hmem => hne last hmem last (by simp) rfl, hnodup, ?_⟩
  rw [hprev]
  exact hinit.link_last hnodup none

/-- A node put at the end of the list. -/
theorem seg_placeBehind {next prev : ℕ → Option ℕ} {tmp : ℕ} (h : Seg next prev none init none)
    (hlast : last ∉ init) (htmp : init.getLast? = some tmp) :
    Seg (Function.update (Function.update next last (next tmp)) tmp (some last))
      (Function.update prev last (some tmp)) none (init ++ [last]) none := by
  have hnodup := h.nodup
  have hmem := List.mem_of_getLast? htmp
  have hne : last ≠ tmp := fun heq => hlast (heq ▸ hmem)
  obtain ⟨front, rfl⟩ := List.getLast?_eq_some_iff.mp htmp
  have hend : next tmp = none := (seg_append.mp h).2.2.1
  have h1 := (h.update_notMem hlast (next tmp)).1
  have h2 := h1.link_last hnodup (some last)
  rw [htmp] at h2
  refine seg_append.mpr ⟨(h2.update_notMem hlast (some tmp)).2, ?_, ?_, trivial⟩
  · rw [htmp]
    exact Function.update_self _ _ _
  · rw [Function.update_of_ne hne, Function.update_self, hend]
    rfl

/-- A node put in front of another. -/
theorem seg_placeBefore {next prev : ℕ → Option ℕ} {xs ys : List ℕ} {tmp : ℕ}
    (h : Seg next prev none (xs ++ tmp :: ys) none) (hlast : last ∉ xs ++ tmp :: ys) :
    Seg (Function.update (link next (prev tmp) (some last)) last (some tmp))
      (Function.update (Function.update prev last (prev tmp)) tmp (some last)) none
      (xs ++ last :: tmp :: ys) none := by
  obtain ⟨hxs, hys⟩ := seg_append.mp h
  obtain ⟨hnodupx, hnodupy, hdisj⟩ := List.nodup_append.mp h.nodup
  have hprev : prev tmp = xs.getLast? := by
    rw [hys.1, Option.or_none]
  have hlastx : last ∉ xs := fun hmem => hlast (List.mem_append_left _ hmem)
  have hlasty : last ∉ tmp :: ys := fun hmem => hlast (List.mem_append_right _ hmem)
  have htmpx : tmp ∉ xs := fun hmem => hdisj tmp hmem tmp List.mem_cons_self rfl
  have hne : last ≠ tmp := fun heq => hlasty (heq ▸ List.mem_cons_self)
  rw [hprev]
  refine seg_append.mpr ⟨?_, ?_, ?_, ?_⟩
  · have h1 := hxs.link_last hnodupx (some last)
    have h2 := (h1.update_notMem hlastx (some tmp)).1
    have h3 := (h2.update_notMem hlastx xs.getLast?).2
    exact (h3.update_notMem htmpx (some last)).2
  · rw [Function.update_of_ne hne, Function.update_self, Option.or_none]
  · rw [Function.update_self]
    rfl
  · have h1 : Seg (link next xs.getLast? (some last)) prev (xs.getLast?.or none) (tmp :: ys) none := by
      refine hys.congr (fun i hi => link_of_ne fun heq => ?_) fun _ _ => rfl
      exact hdisj i (List.mem_of_getLast? heq) i hi rfl
    have h2 := (h1.update_notMem hlasty (some tmp)).1
    have h3 := (h2.update_notMem hlasty xs.getLast?).2
    exact h3.link_head hnodupy (some last)

theorem placeBehind_eq (w : Window) (tmp tmp1 : ℕ) : w.placeBehind tmp tmp1 = some { w with
    nextScreen := Function.update (Function.update w.nextScreen tmp1 (w.nextScreen tmp)) tmp (some tmp1)
    changed := Function.update w.changed tmp true
    prevScreen := Function.update w.prevScreen tmp1 (some tmp) } := by
  simp [placeBehind]

/-- The list after `place`, with the last line in row `LY`. -/
theorem exists_place {first : ℕ} (h : Seg w.nextScreen w.prevScreen none init none) (hlast : last ∉ init)
    (hlen : w.numLines = init.length + 1) (hly : w.ly ≤ init.length)
    (hfirst : (init ++ [last]).head? = some first) (hend : w.nextScreen last = none)
    (hprev : w.prevScreen last = init.getLast?) :
    ∃ next prev changed scroll, w.place (walk w.nextScreen w.ly first) last = some { w with
        nextScreen := next, prevScreen := prev, changed := changed, scroll := scroll } ∧
      Seg next prev none (init.take w.ly ++ last :: init.drop w.ly) none := by
  unfold place
  obtain hnil | ⟨front, tmp, hinit⟩ := init.eq_nil_or_concat'
  · subst hnil
    have hone : ¬ 1 < w.numLines := by
      rw [hlen]
      simp
    refine ⟨w.nextScreen, w.prevScreen, w.changed, w.scroll, ?_, ?_⟩
    · rw [if_neg fun hand => hone hand.2, if_neg hone]
    · simp only [List.take_nil, List.drop_nil, List.nil_append]
      exact ⟨hprev, hend, trivial⟩
  have hpos : 0 < init.length := by simp [hinit]
  have hmany : 1 < w.numLines := by omega
  have hhead : init.head? = some first := by
    rw [← hfirst, List.head?_append_of_ne_nil _ (List.ne_nil_of_length_pos hpos)]
  rcases Nat.lt_or_eq_of_le hly with hlt | heq
  · have hsplit := List.take_append_drop w.ly init
    rw [List.drop_eq_getElem_cons hlt] at hsplit
    have hwalk : walk w.nextScreen w.ly first = init[w.ly] := by
      have h' := h
      rw [← hsplit] at h' hhead
      have hw := h'.walk_eq hhead
      rwa [List.length_take_of_le hly] at hw
    rw [← hsplit] at h hlast
    have hseg := seg_placeBefore h hlast
    rw [if_neg (by omega), if_pos hmany, hwalk, List.drop_eq_getElem_cons hlt]
    exact ⟨_, _, _, _, rfl, hseg⟩
  · have hwalk : walk w.nextScreen w.ly first = tmp := by
      rw [hinit] at h hhead
      apply h.walk_last hhead
      rw [heq, hinit, List.length_append]
      omega
    have htmp : init.getLast? = some tmp := by simp [hinit]
    have hseg := seg_placeBehind h hlast htmp
    rw [if_pos ⟨by omega, hmany⟩, hwalk, placeBehind_eq, heq, List.take_length, List.drop_length]
    exact ⟨_, _, _, _, rfl, hseg⟩

/-- A step whose result is known, before others. -/
theorem exists_bind {α β : Type} {o : Option α} {f : α → Option β} {post : β → Prop} {a : α} (ho : o = some a)
    (h : ∃ b, f a = some b ∧ post b) : ∃ b, (o >>= f) = some b ∧ post b := by
  rw [ho]
  exact h

/-- What `winsertln` does to the list: its last node, cleared, goes to row `LY`. -/
theorem Listed.winsertln (h : w.Listed (init ++ [last])) (hly : w.ly ≤ init.length) :
    ∃ w', w.winsertln = some w' ∧ w'.Listed (init.take w.ly ++ last :: init.drop w.ly) ∧
      ∀ i, w'.cells i = if i = last then [] else w.cells i := by
  obtain ⟨hprev, hnext, hlast, hnodup, hseg⟩ := h.detach
  have hmem : last ∈ init ++ [last] := by simp
  obtain ⟨first, hhead⟩ : ∃ f, (init ++ [last]).head? = some f := by cases init <;> exact ⟨_, rfl⟩
  have hfirst := h.first.trans hhead
  have hwalk : walk w.nextScreen w.numLines first = last := by
    apply h.links.walk_last hhead
    rw [← h.length, List.length_append]
    omega
  have hrow : 0 < (w.row last).length := by
    rw [h.row last hmem]
    omega
  have hattr : 0 < (w.attributes last).length := by
    rw [h.attributes last hmem]
    omega
  have hdetached : link w.nextScreen (w.prevScreen last) none last = none := by
    rw [hprev, link_of_ne (fun heq => hlast (List.mem_of_getLast? heq)), hnext]
  unfold Window.winsertln
  refine exists_bind hfirst ?_
  simp only [hwalk]
  obtain ⟨row, attributes, lastChar, changed, hclear, hbuffers, hcells⟩ := exists_clearLine
    (w := { w with
      scrollDown := w.scrollDown + 1, scrollClear := .scroll
      nextScreen := link w.nextScreen (w.prevScreen last) none }) hrow hattr
  refine exists_bind hclear ?_
  obtain ⟨next, prev, changed', scroll, hplace, hseg'⟩ := exists_place
    (w := { w with
      scrollDown := w.scrollDown + 1, scrollClear := .scroll
      nextScreen := link w.nextScreen (w.prevScreen last) none
      row := row, attributes := attributes, lastChar := lastChar, changed := changed
      number := Function.update w.number last (-1) }) hseg hlast
    (by rw [← h.length, List.length_append, List.length_singleton]) hly hhead hdetached hprev
  refine exists_bind hplace ?_
  have hmem' : ∀ i ∈ init.take w.ly ++ last :: init.drop w.ly, i ∈ init ++ [last] := by
    intro i hi
    rw [List.mem_append, List.mem_cons] at hi
    rw [List.mem_append, List.mem_singleton]
    rcases hi with hi | hi | hi
    · exact .inl (List.mem_of_mem_take hi)
    · exact .inr hi
    · exact .inl (List.mem_of_mem_drop hi)
  have hlen' : (init.take w.ly ++ last :: init.drop w.ly).length = w.numLines := by
    rw [← h.length, List.length_append, List.length_cons, List.length_take, List.length_drop,
      List.length_append, List.length_singleton]
    omega
  have hrow' : ∀ i ∈ init.take w.ly ++ last :: init.drop w.ly, (row i).length = w.numCols + 1 :=
    fun i hi => (hbuffers i).1.trans (h.row i (hmem' i hi))
  have hattr' : ∀ i ∈ init.take w.ly ++ last :: init.drop w.ly, (attributes i).length = w.numCols + 1 :=
    fun i hi => (hbuffers i).2.trans (h.attributes i (hmem' i hi))
  have hfirst' : (if w.ly = 0 then some last else w.firstLine) =
      (init.take w.ly ++ last :: init.drop w.ly).head? := by
    by_cases hzero : w.ly = 0
    · simp [hzero]
    · have hinit : init ≠ [] := fun hnil => hzero (by simpa [hnil] using hly)
      have htake : init.take w.ly ≠ [] := by simp [hzero, hinit]
      rw [if_neg hzero, h.first, List.head?_append_of_ne_nil _ hinit, List.head?_append_of_ne_nil _ htake,
        List.head?_take, if_neg hzero]
  obtain ⟨w', hfill, hlisted, hsame⟩ := exists_fillArray
    (w := { w with
      scrollDown := w.scrollDown + 1, scrollClear := .scroll
      firstLine := if w.ly = 0 then some last else w.firstLine
      nextScreen := next, prevScreen := prev, scroll := scroll
      row := row, attributes := attributes, lastChar := lastChar, changed := changed'
      number := Function.update w.number last (-1) }) hseg' hfirst' hlen' h.room hrow' hattr'
  exact ⟨w', hfill, hlisted, fun i => (hsame i).trans (hcells i)⟩

theorem seg_newwin (screenLines cols : ℕ) {lines start k : ℕ} (h : start + k = lines) :
    Seg (newwin screenLines lines cols).nextScreen (newwin screenLines lines cols).prevScreen
      (if start = 0 then none else some (start - 1)) (List.range' start k) none := by
  induction k generalizing start with
  | zero => trivial
  | succ k ih =>
    have hrest := @ih (start + 1) (by omega)
    rw [List.range'_succ]
    refine ⟨rfl, ?_, hrest⟩
    rw [Option.or_none]
    cases k with
    | zero => simp [newwin, ← h]
    | succ k =>
      rw [List.range'_succ, List.head?_cons]
      exact if_pos (by omega)

/-- A new window is well formed, and all its lines are blank. -/
theorem newwin_shows {screenLines lines : ℕ} (cols : ℕ) (hpos : 0 < lines) (hlines : lines ≤ screenLines) :
    (newwin screenLines lines cols).Shows (List.replicate lines []) := by
  refine ⟨List.range lines, ⟨?_, ?_, List.length_range, ?_, fun _ _ => ?_, fun _ _ => ?_⟩, ?_⟩
  · rw [List.range_eq_range']
    exact seg_newwin screenLines cols (Nat.zero_add lines)
  · obtain ⟨k, rfl⟩ := Nat.exists_eq_add_of_le' hpos
    rw [List.range_succ_eq_map]
    rfl
  · simp [newwin]
  · simp [newwin]
  · simp [newwin]
  · rw [List.eq_replicate_iff]
    simp [cells, newwin]

section Delete
variable {xs ys : List ℕ} {tmp : ℕ}

/-- A node taken out of the list. -/
theorem seg_unlink {next prev : ℕ → Option ℕ} (h : Seg next prev none (xs ++ tmp :: ys) none) :
    Seg (link next xs.getLast? ys.head?) (link prev ys.head? xs.getLast?) none (xs ++ ys) none := by
  obtain ⟨hxs, -, -, hys⟩ := seg_append.mp h
  obtain ⟨hnodupx, hnodupy, hdisj⟩ := List.nodup_append.mp h.nodup
  have hnodupy := (List.nodup_cons.mp hnodupy).2
  have hdisj : ∀ i ∈ xs, i ∉ ys := fun i hx hy => hdisj i hx i (List.mem_cons_of_mem tmp hy) rfl
  refine seg_append.mpr ⟨?_, ?_⟩
  · rw [Option.or_none]
    refine (hxs.link_last hnodupx ys.head?).congr (fun _ _ => rfl) fun i hi => link_of_ne fun heq => ?_
    exact hdisj i hi (List.mem_of_mem_head? heq)
  · rw [Option.or_none]
    refine (hys.link_head hnodupy xs.getLast?).congr (fun i hi => link_of_ne fun heq => ?_) fun _ _ => rfl
    exact hdisj i (List.mem_of_getLast? heq) hi

theorem exists_unlink (h : Seg w.nextScreen w.prevScreen none (xs ++ tmp :: ys) none) :
    ∃ changed scroll, w.unlink tmp = { w with
      firstLine := if w.ly = 0 then ys.head? else w.firstLine
      nextScreen := link w.nextScreen xs.getLast? ys.head?
      prevScreen := link w.prevScreen ys.head? xs.getLast?
      changed := changed, scroll := scroll } := by
  obtain ⟨-, hprev, hnext, -⟩ := seg_append.mp h
  obtain ⟨-, -, hdisj⟩ := List.nodup_append.mp h.nodup
  rw [Option.or_none] at hprev hnext
  have hnext' : link w.nextScreen xs.getLast? ys.head? tmp = ys.head? := by
    rw [link_of_ne fun heq => hdisj tmp (List.mem_of_getLast? heq) tmp List.mem_cons_self rfl, hnext]
  unfold unlink
  simp only [hprev, hnext, hnext']
  cases ys with
  | nil => exact ⟨_, _, rfl⟩
  | cons y ys => exact ⟨_, _, rfl⟩

/-- What `wdeleteln` does to the list: the node of row `LY`, cleared, goes to its end. -/
theorem Listed.wdeleteln (h : w.Listed (xs ++ tmp :: ys)) (hly : w.ly = xs.length) {fuel : ℕ}
    (hfuel : w.numLines ≤ fuel) :
    ∃ w', w.wdeleteln fuel = some w' ∧ w'.Listed (xs ++ ys ++ [tmp]) ∧
      ∀ i, w'.cells i = if i = tmp then [] else w.cells i := by
  have hmem : tmp ∈ xs ++ tmp :: ys := by simp
  have hrow : 0 < (w.row tmp).length := by
    rw [h.row tmp hmem]
    omega
  have hattr : 0 < (w.attributes tmp).length := by
    rw [h.attributes tmp hmem]
    omega
  have hlen := h.length
  rw [List.length_append, List.length_cons] at hlen
  have hmem' : ∀ i ∈ xs ++ ys ++ [tmp], i ∈ xs ++ tmp :: ys := by
    intro i hi
    simp only [List.mem_append, List.mem_cons, List.not_mem_nil, or_false] at hi ⊢
    tauto
  unfold Window.wdeleteln
  by_cases hmany : 1 < w.numLines
  · rw [if_pos hmany]
    have hfollow : follow w.nextScreen w.ly w.firstLine = some (some tmp) := by
      rw [hly, h.first]
      exact h.links.follow_eq
    refine exists_bind hfollow (exists_bind rfl ?_)
    obtain ⟨changed, scroll, hunlink⟩ := exists_unlink
      (w := { w with scrollUp := w.scrollUp + 1, scrollClear := .scroll }) h.links
    rw [hunlink]
    obtain ⟨row, attributes, lastChar, changed, hclear, hbuffers, hcells⟩ := exists_clearLine
      (w := { w with
        scrollUp := w.scrollUp + 1, scrollClear := .scroll
        firstLine := if w.ly = 0 then ys.head? else w.firstLine
        nextScreen := link w.nextScreen xs.getLast? ys.head?
        prevScreen := link w.prevScreen ys.head? xs.getLast?
        changed := changed, scroll := scroll }) hrow hattr
    refine exists_bind hclear ?_
    have hseg := seg_unlink h.links
    have hfirst : (if w.ly = 0 then ys.head? else w.firstLine) = (xs ++ ys).head? := by
      rw [hly, h.first]
      cases xs <;> rfl
    obtain ⟨front, last, hlast⟩ : ∃ front last, xs ++ ys = front ++ [last] := by
      refine (xs ++ ys).eq_nil_or_concat'.resolve_left (List.ne_nil_of_length_pos ?_)
      rw [List.length_append]
      omega
    obtain ⟨first, hhead⟩ : ∃ f, (front ++ [last]).head? = some f := by cases front <;> exact ⟨_, rfl⟩
    obtain ⟨-, hnodup, hdisj⟩ := List.nodup_append.mp h.links.nodup
    have htmp : tmp ∉ xs ++ ys := by
      intro hin
      rcases List.mem_append.mp hin with hin | hin
      · exact hdisj tmp hin tmp List.mem_cons_self rfl
      · exact (List.nodup_cons.mp hnodup).1 hin
    have hwalk : walkEnd (link w.nextScreen xs.getLast? ys.head?) fuel first = some last := by
      have hseg' := hseg
      rw [hlast] at hseg'
      apply hseg'.walkEnd_eq hhead
      have hcount := congrArg List.length hlast
      rw [List.length_append, List.length_append, List.length_singleton] at hcount
      omega
    refine exists_bind (hfirst.trans ((congrArg List.head? hlast).trans hhead)) (exists_bind hwalk ?_)
    have hgetLast : (xs ++ ys).getLast? = some last := by
      rw [hlast]
      simp
    have hend := seg_placeBehind hseg htmp hgetLast
    have hnone : link w.nextScreen xs.getLast? ys.head? last = none := by
      rw [hlast] at hseg
      exact (seg_append.mp hseg).2.2.1
    have hne : tmp ≠ last := fun heq => htmp (heq ▸ List.mem_of_getLast? hgetLast)
    rw [hnone, Function.update_comm hne] at hend
    obtain ⟨w', hfill, hlisted, hsame⟩ := exists_fillArray
      (w := relinkLast { w with
        scrollUp := w.scrollUp + 1, scrollClear := .scroll
        firstLine := if w.ly = 0 then ys.head? else w.firstLine
        nextScreen := link w.nextScreen xs.getLast? ys.head?
        prevScreen := link w.prevScreen ys.head? xs.getLast?
        row := row, attributes := attributes, lastChar := lastChar, changed := changed, scroll := scroll
        number := Function.update w.number tmp (-1) } last tmp)
      hend
      (by
        rw [List.head?_append_of_ne_nil _ (List.ne_nil_of_mem (List.mem_of_getLast? hgetLast))]
        exact hfirst)
      (by
        rw [List.length_append, List.length_append, List.length_singleton]
        exact (show xs.length + ys.length + 1 = w.numLines by omega))
      h.room
      (fun i hi => (hbuffers i).1.trans (h.row i (hmem' i hi)))
      (fun i hi => (hbuffers i).2.trans (h.attributes i (hmem' i hi)))
    exact ⟨w', hfill, hlisted, fun i => (hsame i).trans (hcells i)⟩
  · rw [if_neg hmany]
    obtain rfl : xs = [] := List.length_eq_zero_iff.mp (by omega)
    obtain rfl : ys = [] := List.length_eq_zero_iff.mp (by omega)
    obtain ⟨row, attributes, lastChar, changed, hclear, hbuffers, hcells⟩ := exists_clearLine hrow hattr
    refine exists_bind h.first ⟨_, hclear, ?_, hcells⟩
    exact ⟨h.links, h.first, h.length, h.array, fun i hi => (hbuffers i).1.trans (h.row i hi),
      fun i hi => (hbuffers i).2.trans (h.attributes i hi)⟩

end Delete

end Window

theorem dropLast_insertIdx {α : Type} (a x : α) {l : List α} {k : ℕ} (hk : k ≤ l.length) :
    ((l ++ [x]).insertIdx k a).dropLast = l.take k ++ a :: l.drop k := by
  induction l generalizing k with
  | nil =>
    obtain rfl : k = 0 := Nat.le_zero.mp hk
    rfl
  | cons b l ih =>
    cases k with
    | zero =>
      rw [List.insertIdx_zero, ← List.cons_append, List.dropLast_concat]
      rfl
    | succ k =>
      have hne : (l ++ [x]).insertIdx k a ≠ [] := by
        intro hnil
        have hlen := congrArg List.length hnil
        rw [List.length_insertIdx_of_le_length] at hlen
        · simp at hlen
        · rw [List.length_append]
          simp only [List.length_cons] at hk
          omega
      rw [List.cons_append, List.insertIdx_succ_cons, List.dropLast_cons_of_ne_nil hne,
        ih (Nat.le_of_succ_le_succ hk)]
      rfl

/-- The contents when one line alone has been cleared. -/
theorem map_cells_of_notMem {w w' : Window} {ids : List ℕ} {line : ℕ} (h : line ∉ ids)
    (hcells : ∀ i, w'.cells i = if i = line then [] else w.cells i) : ids.map w'.cells = ids.map w.cells := by
  refine List.map_congr_left fun i hi => ?_
  have hne : i ≠ line := fun heq => h (heq ▸ hi)
  rw [hcells, if_neg hne]

open Window in
/-- Both functions keep a window well formed, and do to its contents what they are for. -/
theorem window_lines_kept {w : Window} {lines : List (List (UInt8 × UInt8))} (h : w.Shows lines)
    (hly : w.ly < w.numLines) {fuel : ℕ} (hfuel : w.numLines ≤ fuel) :
    (∃ w', w.winsertln = some w' ∧ w'.numLines = w.numLines ∧
        w'.Shows (lines.insertIdx w.ly []).dropLast) ∧
      ∃ w', w.wdeleteln fuel = some w' ∧ w'.numLines = w.numLines ∧
        w'.Shows (lines.eraseIdx w.ly ++ [[]]) := by
  obtain ⟨ids, hlisted, rfl⟩ := h
  have hlen := hlisted.length
  constructor
  · obtain ⟨init, last, rfl⟩ : ∃ init last, ids = init ++ [last] := by
      refine ids.eq_nil_or_concat'.resolve_left (List.ne_nil_of_length_pos ?_)
      omega
    have hly' : w.ly ≤ init.length := by
      rw [List.length_append, List.length_singleton] at hlen
      omega
    obtain ⟨w', hrun, hlisted', hcells⟩ := hlisted.winsertln hly'
    have hlast := hlisted.detach.2.2.1
    refine ⟨w', hrun, ?_, _, hlisted', ?_⟩
    · rw [← hlisted'.length, ← hlen]
      simp
      omega
    · have htake : (init.take w.ly).map w'.cells = (init.take w.ly).map w.cells :=
        map_cells_of_notMem (fun hin => hlast (List.mem_of_mem_take hin)) hcells
      have hdrop : (init.drop w.ly).map w'.cells = (init.drop w.ly).map w.cells :=
        map_cells_of_notMem (fun hin => hlast (List.mem_of_mem_drop hin)) hcells
      rw [List.map_append, List.map_cons, htake, hdrop, hcells, if_pos rfl, List.map_append,
        List.map_singleton, dropLast_insertIdx _ _ (by simpa using hly'), List.map_take, List.map_drop]
  · have hlt : w.ly < ids.length := by omega
    have hsplit := List.take_append_drop w.ly ids
    rw [List.drop_eq_getElem_cons hlt] at hsplit
    have hlisted' := hlisted
    rw [← hsplit] at hlisted'
    have hnodup := (List.nodup_append.mp hlisted'.links.nodup)
    obtain ⟨w', hrun, hdeleted, hcells⟩ :=
      hlisted'.wdeleteln (List.length_take_of_le (Nat.le_of_lt hlt)).symm hfuel
    refine ⟨w', hrun, ?_, _, hdeleted, ?_⟩
    · rw [← hdeleted.length, ← hlen]
      simp
      omega
    · have hrest : ids[w.ly] ∉ ids.take w.ly ++ ids.drop (w.ly + 1) := by
        intro hin
        rcases List.mem_append.mp hin with hin | hin
        · exact hnodup.2.2 _ hin _ List.mem_cons_self rfl
        · exact (List.nodup_cons.mp hnodup.2.1).1 hin
      rw [List.map_append, map_cells_of_notMem hrest hcells, List.map_singleton, hcells, if_pos rfl,
        List.eraseIdx_eq_take_drop_succ, List.map_append, List.map_take, List.map_drop]

theorem window_lines_kept_new :
    (∃ w', (Window.newwin 24 2 80).winsertln = some w' ∧ w'.numLines = 2 ∧ w'.Shows [[], []]) ∧
      ∃ w', (Window.newwin 24 2 80).wdeleteln 2 = some w' ∧ w'.numLines = 2 ∧ w'.Shows [[], []] :=
  window_lines_kept (Window.newwin_shows 80 (by decide) (by decide)) (by decide) (by decide)

end BsdAdditions.Curse
