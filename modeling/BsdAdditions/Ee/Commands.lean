import BsdAdditions.Common.Run
import BsdAdditions.Ee.TypingSound

/-! The commands of the keyboard and of the command prompt, and what every sequence of them
keeps. -/
namespace BsdAdditions.Ee
open Common Common.Prog

inductive Op where
  | insert (character : ℤ)
  | delete
  | insertLine
  | left
  | right
  | up
  | down
  | bol
  | eol
  | delChar
  | undelChar
  | delWord
  | undelWord
  | delLine
  | undelLine
  | search
  | searchPrompt (answer : List UInt8)
  | gotoLine (cmdStr : List UInt8)
  | format
  | autoFormat
  deriving DecidableEq

/-- A key that types or deletes is in `in` when its function is called. -/
def Op.exec (fuel : ℕ) : Op → Ed Unit
  | .insert character => do
    modify fun s => { s with inChar := character }
    Ee.insert fuel character
  | .delete => do
    modify fun s => { s with inChar := 8 }
    Ee.delete fuel true
  | .insertLine => Ee.insertLine fuel true
  | .left => Ee.left fuel true
  | .right => Ee.right fuel true
  | .up => Ee.up fuel
  | .down => Ee.down fuel
  | .bol => Ee.bol fuel
  | .eol => Ee.eol fuel
  | .delChar => Ee.delChar fuel
  | .undelChar => Ee.undelChar fuel
  | .delWord => Ee.delWord
  | .undelWord => Ee.undelWord
  | .delLine => Ee.delLine fuel
  | .undelLine => Ee.undelLine fuel
  | .search => do let _ ← Ee.search fuel
  | .searchPrompt answer => Ee.searchPrompt fuel answer
  | .gotoLine cmdStr => Ee.gotoLine fuel cmdStr
  | .format => Ee.format fuel
  | .autoFormat => Ee.autoFormat fuel

/-- What `main` sets up, and every command may rely on. -/
structure Ready (t : Prop) (s : Editor) : Prop where
  consistent : Consistent t s
  word : s.dWord.isSome = true
  line : HasLine s

variable {t : Prop} {s : Editor}

theorem Ready.advances {s' : Editor} (h : Ready t s) (hs' : Consistent t s') (ha : Advances s s') :
    Ready t s' :=
  ⟨hs', ha.word h.word, ha.line h.line⟩

theorem keeps_searchPrompt (fuel : ℕ) (answer : List UInt8) :
    Keeps (Consistent t) Advances (searchPrompt fuel answer) := by
  refine Keeps.bind (keeps_modify ?_ ?_) fun _ =>
    (keeps_advances (keeps_search fuel)).bind fun _ => Keeps.pure _
  · exact fun _ => rfl
  · exact fun _ => ⟨⟨id, fun _ => rfl, id, rfl⟩, id⟩

/-- All commands but two ask for nothing else than a consistent state. -/
theorem keeps_exec (fuel : ℕ) {op : Op} (hword : op ≠ .undelWord) (hline : op ≠ .undelLine) :
    Keeps (Consistent t) Advances (op.exec fuel) := by
  cases op with
  | insert character => exact (keeps_inChar character).bind fun _ => keeps_insert fuel character
  | delete => exact (keeps_inChar 8).bind fun _ => keeps_delete fuel true
  | insertLine => exact keeps_insertLine fuel true
  | left => exact keeps_advances (keeps_left fuel)
  | right => exact keeps_advances (keeps_right fuel)
  | up => exact keeps_advances ((keeps_up fuel).weaken fun _ _ => Glides.moves)
  | down => exact keeps_advances ((keeps_down fuel).weaken fun _ _ => Glides.moves)
  | bol => exact keeps_advances (keeps_bol fuel)
  | eol => exact keeps_advances (keeps_eol fuel)
  | delChar => exact keeps_delChar fuel
  | undelChar => exact keeps_undelChar fuel
  | delWord => exact keeps_delWord
  | undelWord => exact absurd rfl hword
  | delLine => exact keeps_delLine fuel
  | undelLine => exact absurd rfl hline
  | search => exact (keeps_advances (keeps_search fuel)).bind fun _ => Keeps.pure _
  | searchPrompt answer => exact keeps_searchPrompt fuel answer
  | gotoLine cmdStr => exact keeps_advances (keeps_gotoLine fuel cmdStr)
  | format => exact keeps_format fuel
  | autoFormat => exact keeps_autoFormat fuel

theorem Ready.wp_undelWord (h : Ready t s) : wp undelWord (fun _ s' => Ready t s') s := by
  obtain ⟨bs, l, r, as, xs, ys, n, hshow⟩ := h.consistent.exists_shows
  refine wp_mono (hshow.wp_undelWord (.inl h.word)) fun _ s' ⟨_, _, _, hshow', hs'⟩ => ?_
  have hm : s'.bare = s.bare := hs'.symm
  refine ⟨hshow'.consistent, ?_, ?_⟩
  · exact (congrArg (·.dWord.isSome) hm).trans h.word
  · exact (congrArg HasLine hm).mpr h.line

theorem Ready.wp_exec (h : Ready t s) (fuel : ℕ) (op : Op) :
    wp (op.exec fuel) (fun _ s' => Ready t s') s := by
  by_cases hword : op = .undelWord
  · subst hword
    exact h.wp_undelWord
  by_cases hline : op = .undelLine
  · subst hline
    refine wp_mono (keeps_undelLine fuel s ⟨h.consistent, h.line⟩) fun _ s' ⟨hs', ha⟩ => ?_
    exact h.advances hs'.1 ha
  · refine wp_mono (keeps_exec fuel hword hline s h.consistent) fun _ s' ⟨hs', ha⟩ => ?_
    exact h.advances hs' ha

/-- One command, with a bound on the rounds of each of its loops. -/
def next? (s : Editor) (e : ℕ × Op) : Option Editor :=
  match e.2.exec e.1 s with
  | .ok (_, s') => some s'
  | .error _ => none

theorem Ready.next? (h : Ready t s) {e : ℕ × Op} {s' : Editor} (hs' : next? s e = some s') :
    Ready t s' := by
  rw [Ee.next?] at hs'
  split at hs'
  case h_1 u s1 hok =>
    obtain rfl : s1 = s' := by simpa using hs'
    have := wp_ok (h.wp_exec e.1 e.2) hok
    exact this
  case h_2 => simp at hs'

theorem Ready.run {es : List (ℕ × Op)} {s' : Editor} (h : Ready t s)
    (hrun : Common.run Ee.next? s es = some s') : Ready t s' :=
  run_keeps (fun _ _ _ hs hs' => hs.next? hs') h hrun

theorem curr_eq {n : Node} (hn : s.heap s.currLine = some n) : curr s = .ok (n, s) := by
  rw [curr, bind_of_ok rfl, node, bind_of_ok rfl, hn]
  rfl

/-- Looking for the empty string changes neither the text nor the cursor. -/
theorem next?_searchPrompt_nil (h : Consistent t s) :
    ∃ s', next? s (0, .searchPrompt []) = some s' ∧ s'.core = s.core := by
  obtain ⟨ids, n, h⟩ := h
  have hfind : ∀ s1 : Editor, s1.heap s1.currLine = some n → s1.srchStr = some [] →
      search 0 s1 = .ok (false, s1) := by
    intro s1 hn hstr
    have hnone : findString 0 s1 = .ok (none, s1) := by
      rw [findString, bind_of_ok rfl, bind_of_ok (curr_eq hn), if_pos]
      · rfl
      · exact .inl (by rw [hstr]; rfl)
    rw [search, bind_of_ok hnone]
    rfl
  refine ⟨{ s with srchStr := some [], uSrchStr := some [] }, ?_, rfl⟩
  have hexec : Op.exec 0 (.searchPrompt []) s =
      .ok ((), { s with srchStr := some [], uSrchStr := some [] }) :=
    (bind_of_ok rfl).trans (bind_of_ok (hfind _ h.curr rfl))
  rw [next?, hexec]

/-- The one line that `main` allocates is terminated only if its block happens to be. -/
theorem inv_initial {h : Host} (ht : t → h.junk 1 0 = 0) (lastLine cols : ℤ) :
    ∃ n, Inv t (Editor.initial h lastLine cols) [0] n := by
  refine ⟨_, ⟨⟨_, rfl, rfl, rfl, trivial⟩, by simp, fun i hi n hn => ?_⟩, rfl, fun i hi => ?_,
    List.mem_singleton_self 0, rfl, Nat.le_refl 1, Nat.le_refl 1, rfl, rfl⟩
  · obtain rfl := List.mem_singleton.mp hi
    obtain rfl := Option.some.inj hn
    exact ⟨Nat.le_refl 1, Nat.le_add_left 1 9, length_malloc h 1 10, fun htt => congrArg some (ht htt)⟩
  · obtain rfl := List.mem_singleton.mp hi
    exact Nat.zero_lt_two

theorem ready_initial (h : Host) (lastLine cols : ℤ) : Ready False (Editor.initial h lastLine cols) := by
  obtain ⟨n, hinv⟩ := inv_initial (h := h) False.elim lastLine cols
  exact ⟨⟨[0], n, hinv⟩, rfl, .inl (Nat.zero_le 1)⟩

/-- A machine whose fresh memory holds one byte throughout, with the character functions of the
C locale. -/
def cLocale (fill : UInt8) : Host where
  junk := fun _ _ => fill
  isprint := fun b => 32 ≤ b && b < 127
  toupper := fun b => if 97 ≤ b && b ≤ 122 then b - 32 else b
  toupper_zero := rfl

/-- The lines stay linked and terminated, and both copies of the cursor stay in the current line,
after every sequence of commands, just when the buffer it starts from is terminated. -/
theorem consistent_after_commands_iff (s : Editor) (hs : Ready False s) :
    (∀ es s', es ≠ [] → Common.run next? s es = some s' →
      Consistent True s' ∧ ∀ fuel op, Op.exec fuel op s' ≠ .error .fault) ↔ Consistent True s := by
  constructor
  · intro h
    obtain ⟨s', hs', hcore⟩ := next?_searchPrompt_nil hs.consistent
    have hrun : Common.run next? s [(0, .searchPrompt [])] = some s' :=
      run_cons_eq_some.mpr ⟨s', hs', rfl⟩
    exact (h _ s' (by simp) hrun).1.of_core hcore.symm
  · intro hc es s' _ hrun
    have hs' : Ready True s' := Ready.run ⟨hc, hs.word, hs.line⟩ hrun
    exact ⟨hs'.consistent, fun fuel op => wp_ne_fault (hs'.wp_exec fuel op)⟩

theorem consistent_after_editing :
    ∃ s', Common.run next? (Editor.initial (cLocale 0) 23 80)
        [(9, .insert 97), (9, .insertLine), (9, .insert 32), (9, .up), (9, .delWord), (9, .down),
          (9, .undelWord), (9, .delLine), (9, .undelLine)] = some s' ∧ Consistent True s' := by
  obtain ⟨n, hinv⟩ := inv_initial (t := True) (h := cLocale 0) (fun _ => rfl) 23 80
  have hsome : (Common.run next? (Editor.initial (cLocale 0) 23 80)
      [(9, .insert 97), (9, .insertLine), (9, .insert 32), (9, .up), (9, .delWord), (9, .down),
        (9, .undelWord), (9, .delLine), (9, .undelLine)]).isSome = true := by
    decide +kernel
  obtain ⟨s', hs'⟩ := Option.isSome_iff_exists.mp hsome
  refine ⟨s', hs', ?_⟩
  exact ((consistent_after_commands_iff _ (ready_initial (cLocale 0) 23 80)).mpr
    ⟨[0], n, hinv⟩ _ s' (by simp) hs').1

/-- Before anything has been typed, the line that `main` allocates need not be terminated. -/
theorem unterminated_after_left :
    ∃ s', Common.run next? (Editor.initial (cLocale 120) 23 80) [(1, .left)] = some s' ∧
      ¬ Consistent True s' := by
  refine ⟨Editor.initial (cLocale 120) 23 80, rfl, ?_⟩
  rintro ⟨ids, n, h⟩
  obtain rfl := Option.some.inj h.curr
  exact absurd (h.node_ok.term trivial) (by decide)

end BsdAdditions.Ee
