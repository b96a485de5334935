import BsdAdditions.Ee.LoadSave

/-! The flag `text_changes` against the text at the last load or save. -/
namespace BsdAdditions.Ee
open Common Common.Prog

/-- The editor, and the text as it was at the last load or successful save. -/
structure Session where
  editor : Editor
  saved : List (List UInt8)

inductive Event where
  | edit (op : Op)
  | readFile (file : File)
  | save (target : Target)

def Event.exec (fuel : ℕ) : Event → Ed Unit
  | .edit op => op.exec fuel
  | .readFile file => Ee.readFile fuel file
  | .save target => Ee.save fuel target

/-- A save that succeeds makes the present text the saved one. -/
def Event.saved (text saved : List (List UInt8)) : Event → List (List UInt8)
  | .save .stream => text
  | _ => saved

def Session.next? (w : Session) (e : ℕ × Event) : Option Session :=
  match e.2.exec e.1 w.editor with
  | .ok (_, s) => some ⟨s, e.2.saved s.text w.saved⟩
  | .error _ => none

/-- Editing and reading start from a cursor in its line; and a deleted word comes back only into
a text that is already marked as changed, unless the word is empty. -/
def Session.Meets (w : Session) (e : ℕ × Event) : Prop :=
  match e.2 with
  | .edit op => CursorInside w.editor ∧
      (op = .undelWord → w.editor.textChanges = true ∨ w.editor.dWrdLen = 0)
  | .readFile _ => CursorInside w.editor
  | .save _ => True

instance : (w : Session) → (e : ℕ × Event) → Decidable (w.Meets e)
  | _, (_, .edit _) => inferInstanceAs (Decidable (_ ∧ (_ → _)))
  | _, (_, .readFile _) => inferInstanceAs (Decidable (CursorInside _))
  | _, (_, .save _) => inferInstanceAs (Decidable True)

/-- What holds between two events, wherever the cursor is. -/
structure Session.Kept (w : Session) : Prop where
  listed : ∃ ids, Listed False w.editor ids ∧ w.editor.currLine ∈ ids
  word : w.editor.dWord.isSome = true
  line : HasLine w.editor
  file : w.editor.inputFile = false
  unchanged : w.editor.textChanges = false → w.editor.text = w.saved

section Steps
variable {s s' : Editor} {saved : List (List UInt8)}

theorem Session.Kept.ready {w : Session} (h : w.Kept) (hc : CursorInside w.editor) :
    Ready False w.editor := by
  obtain ⟨ids, hids, hmem⟩ := h.listed
  obtain ⟨n, hn, hpos, hle, hpt⟩ := hc
  refine ⟨⟨ids, n, hids.lines, hids.first, hids.bound, hmem, hn, hpos, hle, ?_, hids.narrow⟩, h.word,
    h.line⟩
  rw [hpt, Node.start, Ptr.add, Nat.zero_add]

theorem Session.Kept.advance (h : Session.Kept ⟨s, saved⟩) (hs' : Consistent False s')
    (ha : Advances s s') : Session.Kept ⟨s', saved⟩ := by
  obtain ⟨ids, n, hinv⟩ := hs'
  refine ⟨⟨ids, hinv.listed, hinv.mem⟩, ha.word h.word, ha.line h.line, ha.file.trans h.file,
    fun hc => ?_⟩
  have hc0 : s.textChanges = false := by
    cases hs : s.textChanges with
    | false => rfl
    | true => exact absurd hc (by simp [ha.marked hs])
  exact (ha.text hc).trans (h.unchanged hc0)

/-- The empty word changes nothing. -/
theorem Ready.wp_undelWord_empty (h : Ready False s) (hw : s.dWrdLen = 0) :
    wp undelWord (fun _ s' => Consistent False s' ∧ Advances s s') s := by
  obtain ⟨bs, l, r, as, xs, ys, n, hshow⟩ := h.consistent.exists_shows
  refine wp_mono (hshow.wp_undelWord (.inr hw)) fun _ s' ⟨w, n', hrec, hshow', hs'⟩ => ?_
  obtain rfl : w = [] := List.length_eq_zero_iff.mp (hrec.1.trans hw)
  have hm : s'.bare = s.bare := hs'.symm
  refine ⟨hshow'.consistent, ⟨fun hc => ?_, fun _ => ?_, ?_, (congrArg Editor.inputFile hs').symm⟩,
    fun hw => ?_⟩
  · exact (congrArg Editor.textChanges hm).trans hc
  · rw [hshow'.text_eq, hshow.text_eq]
    rfl
  · exact (congrArg HasLine hm).mpr
  · exact (congrArg (·.dWord.isSome) hm).trans hw

theorem Ready.wp_exec_advances (h : Ready False s) (fuel : ℕ) {op : Op}
    (hop : op = .undelWord → s.textChanges = true ∨ s.dWrdLen = 0) :
    wp (op.exec fuel) (fun _ s' => Consistent False s' ∧ Advances s s') s := by
  by_cases hword : op = .undelWord
  · subst hword
    rcases hop rfl with hc | hw
    · exact wp_mono (keeps_undelWord s ⟨h.consistent, hc, h.word⟩) fun _ s' hs' => ⟨hs'.1.1, hs'.2⟩
    · exact h.wp_undelWord_empty hw
  by_cases hline : op = .undelLine
  · subst hline
    exact wp_mono (keeps_undelLine fuel s ⟨h.consistent, h.line⟩) fun _ s' hs' => ⟨hs'.1.1, hs'.2⟩
  · exact keeps_exec fuel hword hline s h.consistent

/-- Writing leaves the buffer as it is. -/
theorem Listed.wp_writeLines {t : Prop} {ids : List ℕ} (h : Listed t s ids) (fuel : ℕ) {i : Option ℕ}
    (hi : ∀ j, i = some j → j ∈ ids) : wp (writeLines fuel i) (fun _ s' => s' = s) s := by
  induction fuel generalizing i with
  | zero => cases i <;> trivial
  | succ fuel ih =>
    cases i with
    | none => rfl
    | some j =>
      obtain ⟨m, hm, hok⟩ := h.lines.exists_node (hi j rfl)
      rw [writeLines, wp_bind, wp_node hm, wp_bind, hok.readMany_content, wp_orFault_some, wp_bind]
      exact wp_mono (ih fun k hk => h.lines.next_mem (hi j rfl) hm hk) fun _ s' hs' => hs'

/-- An update that has no part in the text. -/
theorem Session.Kept.of_core (h : Session.Kept ⟨s, saved⟩) (hcore : s'.core = s.core)
    (hword : s'.dWord = s.dWord) (hline : HasLine s → HasLine s') (hfile : s'.inputFile = false)
    (hc : s'.textChanges = s.textChanges) : Session.Kept ⟨s', saved⟩ := by
  obtain ⟨⟨ids, hids, hmem⟩, hw, hl, -, hu⟩ := h
  simp only [Editor.core, Prod.mk.injEq] at hcore
  obtain ⟨hheap, hfresh, hfirst, hcurr, -, -, hnarrow⟩ := hcore
  refine ⟨⟨ids, ⟨?_, ?_, ?_, ?_⟩, ?_⟩, ?_, hline hl, hfile, fun hf => ?_⟩
  · exact hheap ▸ hids.lines
  · exact hfirst ▸ hids.first
  · exact hfresh ▸ hids.bound
  · exact hnarrow.trans hids.narrow
  · exact hcurr.symm ▸ hmem
  · exact hword.symm ▸ hw
  · have htext : s'.text = s.text := by rw [Editor.text, Editor.text, hheap, hfresh, hfirst]
    exact htext.trans (hu (hc ▸ hf))

theorem Session.Kept.wp_readFile (h : Session.Kept ⟨s, saved⟩) (hc : CursorInside s) (fuel : ℕ)
    (file : File) : wp (readFile fuel file) (fun _ s' => Session.Kept ⟨s', saved⟩) s := by
  cases file with
  | special => exact h.of_core rfl rfl id h.file rfl
  | missing => exact h.of_core rfl rfl id rfl rfl
  | regular chunks =>
    obtain ⟨bs, l, r, as, xs, ys, n, hshow⟩ := (h.ready hc).consistent.exists_shows
    obtain ⟨s', hread, hin⟩ := hshow.exists_readFile h.file fuel chunks
    refine wp_of_ok hread ⟨hin.listed, hin.word ▸ h.word, hin.line h.line, hin.file.trans h.file,
      fun hf => ?_⟩
    exact absurd (hin.changed.symm.trans hf) (by simp)

theorem Session.Kept.wp_save (h : Session.Kept ⟨s, saved⟩) (fuel : ℕ) (target : Target) :
    wp (save fuel target)
      (fun _ s' => Session.Kept ⟨s', (Event.save target).saved s'.text saved⟩) s := by
  cases target with
  | declined => exact h
  | cannotCreate => exact h
  | stream =>
    obtain ⟨ids, hids, hmem⟩ := h.listed
    rw [save, wp_bind, writeFile, wp_bind, wp_get, wp_bind]
    refine wp_mono (hids.wp_writeLines fuel (fun j hj => ?_)) fun out s' hs' => ?_
    · exact List.mem_of_head? (hids.first.trans hj)
    · subst hs'
      exact ⟨⟨ids, ⟨hids.lines, hids.first, hids.bound, hids.narrow⟩, hmem⟩, h.word, h.line, h.file,
        fun _ => rfl⟩

theorem Session.Kept.next? {w w' : Session} {e : ℕ × Event} (h : w.Kept) (hok : w.Meets e)
    (hw' : w.next? e = some w') : w'.Kept := by
  obtain ⟨fuel, e⟩ := e
  have hwp : wp (e.exec fuel) (fun _ s' => Session.Kept ⟨s', e.saved s'.text w.saved⟩) w.editor := by
    cases e with
    | edit op =>
      refine wp_mono ((h.ready hok.1).wp_exec_advances fuel hok.2) fun _ s' ⟨hs', ha⟩ => ?_
      exact Session.Kept.advance h hs' ha
    | readFile file => exact Session.Kept.wp_readFile h hok fuel file
    | save target => exact Session.Kept.wp_save h fuel target
  rw [Session.next?] at hw'
  split at hw'
  case h_1 u s' hs' =>
    obtain rfl := Option.some.inj hw'
    exact wp_ok hwp hs'
  case h_2 => cases hw'

end Steps

/-- Neither `quit` nor the menu gives the text up without a question. -/
def AsksFirst (s : Editor) : Prop := ∀ yes,
  (∃ s', quit false yes s = .ok (⟨.prompt, yes⟩, s')) ∧ leaveOp yes s = .ok (⟨.menu, yes⟩, s)

theorem asksFirst_of_changed {s : Editor} (h : s.textChanges = true) : AsksFirst s := by
  intro yes
  constructor
  · rw [quit, bind_of_ok rfl, if_pos ⟨h, rfl⟩]
    cases yes
    · exact ⟨_, rfl⟩
    · exact ⟨_, rfl⟩
  · rw [leaveOp, bind_of_ok rfl, if_pos h]
    rfl

/-- In every session whose events all meet the condition, a text that is not the saved one is
marked as changed, and is not thrown away without a question. -/
theorem edits_are_not_discarded (s : Editor) (hs : Ready False s) (hin : s.inputFile = false)
    (es : List (ℕ × Event)) (w : Session) (hmeets : StepsMeet Session.next? Session.Meets ⟨s, s.text⟩ es)
    (hrun : Common.run Session.next? ⟨s, s.text⟩ es = some w) (hne : w.editor.text ≠ w.saved) :
    w.editor.textChanges = true ∧ AsksFirst w.editor := by
  obtain ⟨⟨ids, n, hinv⟩, hword, hline⟩ := hs
  have hstart : Session.Kept ⟨s, s.text⟩ := ⟨⟨ids, hinv.listed, hinv.mem⟩, hword, hline, hin, fun _ => rfl⟩
  have hkept : w.Kept := run_invariant (fun _ _ _ hok hk hw' => hk.next? hok hw') hstart hmeets hrun
  have hc : w.editor.textChanges = true := by
    cases htc : w.editor.textChanges with
    | true => rfl
    | false => exact absurd (hkept.unchanged htc) hne
  exact ⟨hc, asksFirst_of_changed hc⟩

theorem edits_after_save_are_marked :
    ∃ w, Common.run Session.next? ⟨Editor.initial (cLocale 0) 23 80, [[]]⟩
        [(9, .edit (.insert 97)), (9, .save .stream), (9, .edit (.insert 98))] = some w ∧
      w.saved = [[97]] ∧ w.editor.text = [[97, 98]] ∧ w.editor.textChanges = true := by
  have hrun : (Common.run Session.next? ⟨Editor.initial (cLocale 0) 23 80, [[]]⟩
      [(9, .edit (.insert 97)), (9, .save .stream), (9, .edit (.insert 98))]).map
        (fun w => (w.saved, w.editor.text)) = some ([[97]], [[97, 98]]) := by
    decide +kernel
  obtain ⟨w, hw, heq⟩ := Option.map_eq_some_iff.mp hrun
  obtain ⟨hsaved, htext⟩ := Prod.mk.inj heq
  refine ⟨w, hw, hsaved, htext, ?_⟩
  refine (edits_are_not_discarded (Editor.initial (cLocale 0) 23 80) (ready_initial _ 23 80) rfl
    [(9, .edit (.insert 97)), (9, .save .stream), (9, .edit (.insert 98))] w ?_ hw ?_).1
  · decide +kernel
  · rw [hsaved, htext]
    decide

/-- A word is deleted, the file saved, and the word brought back: the buffer is no longer what
was saved, and `quit` does not ask. -/
theorem undeleted_word_is_discarded :
    ∃ w, Common.run Session.next? ⟨Editor.initial (cLocale 0) 23 80, [[]]⟩
        [(9, .edit (.insert 97)), (9, .edit .bol), (9, .edit .delWord), (9, .save .stream),
          (9, .edit .undelWord)] = some w ∧
      w.saved = [[]] ∧ w.editor.text = [[97]] ∧ w.editor.textChanges = false ∧
      ∃ s, quit false false w.editor = .ok (⟨.nothing, true⟩, s) := by
  have hrun : (Common.run Session.next? ⟨Editor.initial (cLocale 0) 23 80, [[]]⟩
      [(9, .edit (.insert 97)), (9, .edit .bol), (9, .edit .delWord), (9, .save .stream),
        (9, .edit .undelWord)]).map (fun w => (w.saved, w.editor.text, w.editor.textChanges)) =
      some ([[]], [[97]], false) := by
    decide +kernel
  obtain ⟨w, hw, heq⟩ := Option.map_eq_some_iff.mp hrun
  simp only [Prod.mk.injEq] at heq
  obtain ⟨hsaved, htext, hc⟩ := heq
  refine ⟨w, hw, hsaved, htext, hc, w.editor, ?_⟩
  rw [quit, bind_of_ok rfl, if_neg (by simp [hc])]
  rfl

end BsdAdditions.Ee
