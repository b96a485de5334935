import Mathlib.Algebra.Order.Ring.Int
import Mathlib.Data.List.TakeWhile
import BsdAdditions.Indent.Effects
import BsdAdditions.Indent.Main

/-! What `dump_line` writes, and in which columns. -/
namespace BsdAdditions.Indent
open Common Common.Prog

/-! ### Columns -/

section Columns
variable {opt : Options} {cur : ℤ}

attribute [local simp] countSpaces

theorem tabStop_eq (htab : 0 < opt.tabsize) :
    tabStop opt cur = some (opt.tabsize * (1 + (cur - 1).tdiv opt.tabsize) + 1) :=
  if_neg htab.ne'

/-- A tab moves to the right. -/
theorem lt_tabStop (htab : 0 < opt.tabsize) (hcur : 1 ≤ cur) {next : ℤ}
    (h : tabStop opt cur = some next) : cur < next := by
  rw [tabStop_eq htab, Int.tdiv_eq_ediv_of_nonneg (by omega)] at h
  have hnext := Option.some.inj h
  have hlt := Int.lt_mul_ediv_self_add (x := cur - 1) (k := opt.tabsize) (by omega)
  rw [← hnext, mul_add]
  omega

theorem countSpaces_append {cs ds : List UInt8} (hcs : 0 ∉ cs) :
    countSpaces opt cur (cs ++ ds) = (countSpaces opt cur cs).bind fun col => countSpaces opt col ds := by
  induction cs generalizing cur with
  | nil => rfl
  | cons c cs ih =>
    have hc : c ≠ 0 := fun h => hcs (h ▸ List.mem_cons_self)
    have hcs' : 0 ∉ cs := fun h => hcs (List.mem_cons_of_mem c h)
    rw [List.cons_append, countSpaces, countSpaces, if_neg hc, if_neg hc]
    split
    · exact ih hcs'
    · split
      · cases tabStop opt cur with
        | none => rfl
        | some next => exact ih hcs'
      · split <;> exact ih hcs'

theorem countSpaces_tab {cs : List UInt8} {next : ℤ} (h : tabStop opt cur = some next) :
    countSpaces opt cur (9 :: cs) = countSpaces opt next cs := by
  simp [h]

theorem countSpaces_blanks (n : ℕ) : countSpaces opt cur (List.replicate n 32) = some (cur + n) := by
  induction n generalizing cur with
  | zero => simp
  | succ n ih =>
    simp [List.replicate_succ, ih]
    omega

theorem exists_countSpaces (htab : 0 < opt.tabsize) (cur : ℤ) (cs : List UInt8) :
    ∃ col, countSpaces opt cur cs = some col := by
  induction cs generalizing cur with
  | nil => exact ⟨cur, rfl⟩
  | cons c cs ih =>
    rw [countSpaces, tabStop_eq htab, Option.bind_some]
    split
    · exact ⟨cur, rfl⟩
    · repeat' split
      all_goals exact ih _

/-- Text without line breaks and backspaces does not move to the left. -/
theorem le_countSpaces (htab : 0 < opt.tabsize) (hcur : 1 ≤ cur) {cs : List UInt8}
    (hcs : ∀ c ∈ cs, c ≠ 10 ∧ c ≠ 12 ∧ c ≠ 8) {col : ℤ} (h : countSpaces opt cur cs = some col) :
    cur ≤ col := by
  induction cs generalizing cur with
  | nil => exact (Option.some.inj h).le
  | cons c cs ih =>
    obtain ⟨h10, h12, h8⟩ := hcs c List.mem_cons_self
    have hcs' := fun d hd => hcs d (List.mem_cons_of_mem c hd)
    rw [countSpaces, if_neg (not_or.mpr ⟨h10, h12⟩), if_neg h8] at h
    split at h
    · exact (Option.some.inj h).le
    · split at h
      · obtain ⟨next, hnext, h⟩ := Option.bind_eq_some_iff.mp h
        have hlt := lt_tabStop htab hcur hnext
        have hle := ih (by omega) hcs' h
        omega
      · have hle := ih (by omega) hcs' h
        omega

end Columns

/-! ### Writing -/

/-- The program appends `cs` to the output, changes nothing else, and returns `a`. -/
def Writes {α : Type} (m : Ind α) (cs : List UInt8) (a : α) : Prop :=
  ∀ s, m s = .ok (a, { s with output := s.output ++ cs })

namespace Writes
variable {α β : Type} {cs ds : List UInt8} {a : α} {b : β}

theorem pure : Writes (Pure.pure a) [] a := by
  intro s
  rw [List.append_nil]
  rfl

theorem putc (c : UInt8) : Writes (putc c) [c] () := fun _ => rfl

theorem puts (cs : List UInt8) : Writes (puts cs) cs () := fun _ => rfl

theorem bind {m : Ind α} {f : α → Ind β} (hm : Writes m cs a) (hf : Writes (f a) ds b) :
    Writes (m >>= f) (cs ++ ds) b := by
  intro s
  rw [bind_of_ok (hm s), hf, List.append_assoc]

end Writes

/-- Blanks and tabs that take the column from `cur` to `next`. -/
structure Pads (opt : Options) (cur next : ℤ) (ws : List UInt8) : Prop where
  blank : ∀ c ∈ ws, isBlank c = true
  column : countSpaces opt cur ws = some next

section Pads
variable {opt : Options} {cur next target : ℤ} {ws : List UInt8}

theorem Pads.nil : Pads opt cur cur [] := ⟨nofun, rfl⟩

theorem Pads.tab (hnext : tabStop opt cur = some next) (h : Pads opt next target ws) :
    Pads opt cur target (9 :: ws) where
  blank := List.forall_mem_cons.mpr ⟨rfl, h.blank⟩
  column := (countSpaces_tab hnext).trans h.column

theorem Pads.blanks (hle : cur ≤ target) :
    Pads opt cur target (List.replicate (target - cur).toNat 32) where
  blank := fun c hc => List.eq_of_mem_replicate hc ▸ rfl
  column := by
    rw [countSpaces_blanks]
    congr 1
    omega

theorem Pads.notMem (h : Pads opt cur next ws) {c : UInt8} (hc : isBlank c = false) : c ∉ ws :=
  fun hmem => Bool.false_ne_true (hc.symm.trans (h.blank c hmem))

theorem Pads.append {ws' : List UInt8} (h : Pads opt cur next ws) (h' : Pads opt next target ws') :
    Pads opt cur target (ws ++ ws') where
  blank := fun c hc => (List.mem_append.mp hc).elim (h.blank c) (h'.blank c)
  column := by rw [countSpaces_append (h.notMem rfl), h.column, Option.bind_some, h'.column]

/-- Blanks take the column from where it is to its target. -/
theorem Pads.fill (h : Pads opt cur next ws) (hle : next ≤ target) {m : Ind ℤ} (hm : Writes m ws next) :
    ∃ ws, Writes (m >>= fun curr => puts (List.replicate (target - curr).toNat 32) >>= fun _ => pure target)
      ws target ∧ Pads opt cur target ws := by
  refine ⟨_, hm.bind ((Writes.puts _).bind Writes.pure), ?_⟩
  rw [List.append_nil]
  exact h.append (Pads.blanks hle)

theorem writes_padTabs (htab : 0 < opt.tabsize) (n : ℕ) (hcur : 1 ≤ cur) (hle : cur ≤ target) :
    ∃ ws next, Writes (padTabs opt target n cur) ws next ∧ Pads opt cur next ws ∧ next ≤ target := by
  induction n generalizing cur with
  | zero => exact ⟨[], cur, Writes.pure, Pads.nil, hle⟩
  | succ n ih =>
    obtain ⟨tcur, htcur⟩ : ∃ tcur, tabStop opt cur = some tcur := ⟨_, tabStop_eq htab⟩
    have hlt := lt_tabStop htab hcur htcur
    rw [padTabs, htcur]
    by_cases hroom : tcur ≤ target
    · obtain ⟨ws, next, hwrites, hpads, hnext⟩ := ih (by omega) hroom
      refine ⟨9 :: ws, next, Writes.bind Writes.pure ?_, hpads.tab htcur, hnext⟩
      rw [if_pos hroom]
      exact (Writes.putc 9).bind hwrites
    · refine ⟨[], cur, Writes.bind Writes.pure ?_, Pads.nil, hle⟩
      rw [if_neg hroom]
      exact Writes.pure

theorem writes_padOutput (htab : 0 < opt.tabsize) (hcur : 1 ≤ cur) (target : ℤ) :
    ∃ ws, Writes (padOutput opt cur target) ws (max cur target) ∧ Pads opt cur (max cur target) ws := by
  unfold padOutput
  by_cases hge : cur ≥ target
  · rw [if_pos hge, max_eq_left hge]
    exact ⟨[], Writes.pure, Pads.nil⟩
  · have hle : cur ≤ target := by omega
    rw [if_neg hge, max_eq_right hle]
    by_cases huse : opt.useTabs
    · obtain ⟨ws, next, hwrites, hpads, hnext⟩ := writes_padTabs htab (target - cur).toNat hcur hle
      rw [if_pos huse]
      exact hpads.fill hnext hwrites
    · rw [if_neg huse]
      exact Pads.nil.fill hle Writes.pure

end Pads

/-! ### The sections of a line -/

theorem mem_trimEnd {p : UInt8 → Bool} {text : List UInt8} {c : UInt8} (hc : p c = false) :
    c ∈ trimEnd p text ↔ c ∈ text := by
  unfold trimEnd
  rw [List.mem_reverse]
  constructor
  · intro h
    exact List.mem_reverse.mp ((List.dropWhile_suffix p).mem h)
  · intro h
    have hsplit := List.takeWhile_append_dropWhile (p := p) (l := text.reverse)
    have hmem : c ∈ text.reverse.takeWhile p ++ text.reverse.dropWhile p := by
      rw [hsplit]
      exact List.mem_reverse.mpr h
    apply (List.mem_append.mp hmem).resolve_left
    intro htake
    exact Bool.false_ne_true (hc.symm.trans (List.mem_takeWhile_imp htake))

theorem trimEnd_isPrefix (p : UInt8 → Bool) (text : List UInt8) : trimEnd p text <+: text := by
  unfold trimEnd
  conv_rhs => rw [← text.reverse_reverse]
  exact List.reverse_prefix.mpr (List.dropWhile_suffix p)

/-- A label that is printed as it is. -/
structure PlainLabel (lab : Buf) : Prop where
  hash : lab.text.head? ≠ some (byte '#')
  bytes : ∀ c ∈ lab.text, c ≠ 10 ∧ c ≠ 12 ∧ c ≠ 8
  /-- There is room for a terminator. -/
  room : lab.tail ≠ []

section Sections
variable {opt : Options} {s : Indenter}

theorem closeComment_of_closed (h : s.commentOpen = false) : closeComment s = .ok ((), s) := by
  unfold closeComment onlyIf
  rw [bind_of_ok rfl, if_neg (by simp [h])]
  rfl

theorem closeLab_spec (h : s.lab.tail ≠ []) :
    ∃ lab, lab.text = s.lab.text ∧ lab.tail.head? = some 0 ∧ closeLab s = .ok ((), { s with lab }) := by
  cases htail : s.lab.tail with
  | nil => exact absurd htail h
  | cons c tail =>
    refine ⟨{ s.lab with tail := 0 :: tail }, rfl, rfl, ?_⟩
    unfold closeLab Buf.close?
    rw [bind_of_ok rfl, htail]
    rfl

theorem computeLabelTarget_spec (opt : Options) (s : Indenter) :
    ∃ t, computeLabelTarget opt s = .ok (t, s) := by
  unfold computeLabelTarget
  rw [bind_of_ok rfl]
  split
  · exact ⟨_, rfl⟩
  · split <;> exact ⟨_, rfl⟩

theorem not_hash_isPrefixOf {text : List UInt8} (h : text.head? ≠ some (byte '#')) :
    ¬ ((bytes "#else").isPrefixOf text = true ∨ (bytes "#endif").isPrefixOf text = true) := by
  cases text with
  | nil => decide
  | cons c text =>
    have hc : byte '#' ≠ c := fun hc => h (congrArg some hc.symm)
    have hfirst : ∀ cs, (byte '#' :: cs).isPrefixOf (c :: text) = false := by
      intro cs
      simp [List.isPrefixOf, hc]
    rw [show bytes "#else" = byte '#' :: bytes "else" by decide,
      show bytes "#endif" = byte '#' :: bytes "endif" by decide, hfirst, hfirst]
    simp

/-- The label is written up to its first NUL, and the column behind it is counted in the same way. -/
theorem writeLab_spec (htab : 0 < opt.tabsize) (hlab : PlainLabel s.lab) (hopen : s.commentOpen = false) :
    ∃ lead e lab', (s.lab.text = [] → lead = []) ∧ (∀ c ∈ lead, isBlank c = true) ∧
      countSpaces opt 1 (lead ++ trimEnd isBlank s.lab.text) = some e ∧ 1 ≤ e ∧ lab'.tail ≠ [] ∧
      writeLab opt s = .ok (e, { s with
        lab := lab', output := s.output ++ lead ++ (trimEnd isBlank s.lab.text).takeWhile (· ≠ 0) }) := by
  by_cases hne : s.lab.text = []
  · refine ⟨[], 1, s.lab, fun _ => rfl, nofun, by rw [hne]; rfl, le_rfl, hlab.room, ?_⟩
    unfold writeLab
    rw [bind_of_ok rfl, if_neg (not_not_intro hne), hne, List.append_nil]
    simp [trimEnd]
    rfl
  · obtain ⟨suffix, hsuffix⟩ := trimEnd_isPrefix isBlank s.lab.text
    set text := trimEnd isBlank s.lab.text with htext
    have hcut : (s.lab.cut text.length).text = text := by
      unfold Buf.cut
      rw [← hsuffix, List.take_left]
    have hbytes : ∀ c ∈ text, c ≠ 10 ∧ c ≠ 12 ∧ c ≠ 8 := by
      intro c hc
      apply hlab.bytes
      rw [← hsuffix]
      exact List.mem_append_left suffix hc
    have hroom : (s.lab.cut text.length).tail ≠ [] := by
      intro h
      exact hlab.room (List.append_eq_nil_iff.mp h).2
    obtain ⟨lab', hlab', hend, hclose⟩ := closeLab_spec (s := { s with lab := s.lab.cut text.length }) hroom
    obtain ⟨t, ht⟩ := computeLabelTarget_spec opt { s with lab := lab' }
    obtain ⟨lead, hwrites, hpads⟩ := writes_padOutput htab (le_refl (1 : ℤ)) t
    obtain ⟨e, he⟩ := exists_countSpaces htab (max 1 t) text
    have hle := le_countSpaces htab (le_max_left 1 t) hbytes he
    have hhash : text.head? ≠ some (byte '#') := by
      intro h
      apply hlab.hash
      rw [← hsuffix, List.head?_append, h]
      rfl
    refine ⟨lead, e, lab', fun h => absurd h hne, hpads.blank, ?_, by omega, ?_, ?_⟩
    · rw [countSpaces_append (hpads.notMem rfl), hpads.column]
      exact he
    · intro h
      rw [h] at hend
      cases hend
    · unfold writeLab
      rw [bind_of_ok rfl, if_pos hne, bind_of_ok (closeComment_of_closed hopen), bind_of_ok rfl]
      rw [bind_of_ok hclose, bind_of_ok ht, bind_of_ok (hwrites _), bind_of_ok rfl]
      dsimp only
      rw [hlab', hcut, if_neg (not_hash_isPrefixOf hhash), bind_of_ok rfl, he]
      rfl

/-- The column depends on the levels, on the parenthesis and on the code. -/
theorem computeCodeTarget_eq (htab : 0 < opt.tabsize) {text : List UInt8} (hcode : s.code.string? = some text) :
    ∃ t, ∀ s' : Indenter, s'.ps.indLevel = s.ps.indLevel → s'.ps.parenLevel = s.ps.parenLevel →
      s'.ps.indStmt = s.ps.indStmt → s'.parenTarget = s.parenTarget → s'.code = s.code →
      computeCodeTarget opt s' = .ok (t, s') := by
  obtain ⟨w, hw⟩ := exists_countSpaces htab s.parenTarget text
  obtain ⟨v, hv⟩ := exists_countSpaces htab (opt.indSize * s.ps.indLevel + 1) text
  refine ⟨((computeCodeTarget opt s).toOption.map Prod.fst).getD 0, ?_⟩
  intro s' hlevel hplevel hstmt htarget hc
  unfold computeCodeTarget
  rw [bind_of_ok rfl, bind_of_ok rfl]
  simp only [hlevel, hplevel, hstmt, htarget, hc, hcode, orFault, orDivide, pure_bind, hw, hv]
  split_ifs <;> rfl

theorem writeBlankLines_spec (opt : Options) (s : Indenter) :
    ∃ n, writeBlankLines opt s = .ok ((), { s with
      nRealBlanklines := 0, output := s.output ++ List.replicate n 10 }) :=
  ⟨_, rfl⟩

theorem writeCode_spec (htab : 0 < opt.tabsize) {cur t : ℤ} (hcur : 1 ≤ cur)
    (ht : computeCodeTarget opt s = .ok (t, s)) (hne : s.code.text ≠ []) (hcode : s.code.string? ≠ none)
    (hopen : s.commentOpen = false) (hfollow : s.ps.pLFollow ≤ 20) :
    ∃ gap col, Pads opt cur (max cur t) gap ∧ writeCode opt cur s = .ok (col, { s with
      ps := placeParens t s.ps, output := s.output ++ gap ++ s.code.text.flatMap (codeByte t) }) := by
  obtain ⟨text, htext⟩ := Option.ne_none_iff_exists'.mp hcode
  obtain ⟨gap, hwrites, hpads⟩ := writes_padOutput htab hcur t
  obtain ⟨col, hcol⟩ := exists_countSpaces htab (max cur t) text
  refine ⟨gap, col, hpads, ?_⟩
  unfold writeCode
  rw [bind_of_ok rfl, if_pos hne, bind_of_ok (closeComment_of_closed hopen), bind_of_ok ht, bind_of_ok rfl]
  have hbound : within .parenIndents (s.ps.pLFollow ≤ 20) s = .ok ((), s) := by
    unfold within
    rw [if_pos hfollow]
    rfl
  rw [bind_of_ok hbound, bind_of_ok rfl, bind_of_ok (hwrites _), bind_of_ok rfl, bind_of_ok rfl,
    bind_of_ok rfl]
  dsimp only
  rw [htext, bind_of_ok rfl, hcol]
  rfl

theorem writeCom_of_empty {cur : ℤ} (h : s.com.text = []) : writeCom opt cur s = .ok ((), s) := by
  unfold writeCom onlyIf
  rw [bind_of_ok rfl, if_neg (not_not_intro h)]
  rfl

theorem onlyIf_modifyPs (c : Prop) [Decidable c] (f : ParserState → ParserState) :
    onlyIf c (modifyPs f) s = .ok ((), { s with ps := if c then f s.ps else s.ps }) := by
  unfold onlyIf
  split <;> rfl

theorem onlyIf_modify_of {c : Prop} [Decidable c] (hc : c) (f : Indenter → Indenter) :
    onlyIf c (modify f) s = .ok ((), f s) := by
  unfold onlyIf
  rw [if_pos hc]
  rfl

theorem length_placeParens (t : ℤ) (ps : ParserState) :
    (placeParens t ps).parenIndents.length = ps.parenIndents.length := List.length_mapIdx

/-- A line of code with a plain label and without a comment, as `dump_line` finds it. -/
structure CodeLine (opt : Options) (s : Indenter) : Prop where
  tabsize : 0 < opt.tabsize
  lab : PlainLabel s.lab
  code : s.code.text ≠ []
  code_nul : 0 ∉ s.code.text
  /-- The code is terminated. -/
  code_end : s.code.tail.head? = some 0
  com : s.com.text = []
  formatting : s.inhibitFormatting = false
  comment : s.commentOpen = false
  follow : s.ps.pLFollow ≤ 20
  parens : s.ps.parenIndents.length = 20

/-- What `dump_line` adds to the output: empty lines, the label and the code with blanks in front of
each, and a terminator; `t` is the column meant for the code. -/
def AddsLine (opt : Options) (t : ℤ) (s : Indenter) (label code out : List UInt8) : Prop :=
  ∃ n lead gap term e, out = s.output ++ List.replicate n 10 ++ lead ++ label ++ gap ++ code ++ [term] ∧
    (∀ c ∈ lead, isBlank c = true) ∧ (term = 10 ∨ term = 12) ∧ (s.lab.text = [] → lead = []) ∧
    countSpaces opt 1 (lead ++ trimEnd isBlank s.lab.text) = some e ∧ Pads opt e (max t e) gap

theorem CodeLine.string? (h : CodeLine opt s) : s.code.string? = some s.code.text := by
  cases htail : s.code.tail with
  | nil =>
    have hend := h.code_end
    rw [htail] at hend
    cases hend
  | cons c tail =>
    have hc : c = 0 := by
      have hend := h.code_end
      rw [htail] at hend
      exact Option.some.inj hend
    have hfree : ∀ c ∈ s.code.text, decide (c ≠ 0) = true := fun c hc =>
      decide_eq_true fun hzero => h.code_nul (hzero ▸ hc)
    unfold Buf.string?
    rw [htail, hc, if_pos (by simp), List.takeWhile_append_of_pos hfree]
    simp

/-- A line ends the header of a procedure. -/
def ParserState.leaveHeader (ps : ParserState) : ParserState :=
  if ps.hasProcname = true then { ps with indLevel := 0, procname := ps.procname.set 0 0 } else ps

/-- What `dump_line` does to the parser state in front of the sections. -/
def ParserState.settle (ps : ParserState) : ParserState :=
  if ps.indLevel = 0 then { ps with blLine := false, indStmt := false } else { ps with blLine := false }

theorem leaveHeader_frame (ps : ParserState) :
    ps.leaveHeader.pLFollow = ps.pLFollow ∧ ps.leaveHeader.parenIndents = ps.parenIndents := by
  unfold ParserState.leaveHeader
  split <;> exact ⟨rfl, rfl⟩

theorem settle_frame (ps : ParserState) :
    ps.settle.indLevel = ps.indLevel ∧ ps.settle.parenLevel = ps.parenLevel ∧
      ps.settle.pLFollow = ps.pLFollow ∧ ps.settle.parenIndents = ps.parenIndents := by
  unfold ParserState.settle
  split <;> exact ⟨rfl, rfl, rfl, rfl⟩

theorem writeLine_spec (h : CodeLine opt s) {t : ℤ}
    (ht : ∀ s' : Indenter, s'.ps.indLevel = s.ps.indLevel → s'.ps.parenLevel = s.ps.parenLevel →
      s'.ps.indStmt = s.ps.settle.indStmt → s'.parenTarget = s.parenTarget →
      s'.code = s.code → computeCodeTarget opt s' = .ok (t, s')) :
    Returns (writeLine opt) (fun _ s' => AddsLine opt t s
      ((trimEnd isBlank s.lab.text).takeWhile (· ≠ 0)) (s.code.text.flatMap (codeByte t)) s'.output ∧
      s'.lab.tail ≠ [] ∧ s'.code = s.code ∧ s'.ps.pLFollow = s.ps.pLFollow ∧
      s'.ps.parenIndents.length = s.ps.parenIndents.length) s := by
  obtain ⟨hlevel, hparen, hfollow, hindents⟩ := settle_frame s.ps
  obtain ⟨n, hn⟩ := writeBlankLines_spec opt { s with
    suppressBlanklines := 0, ps := { s.ps with blLine := false } }
  obtain ⟨lead, e, lab', hlead, hblank, he, hpos, hlab', hlabel⟩ :=
    writeLab_spec (s := { s with
      suppressBlanklines := 0, nRealBlanklines := 0, output := s.output ++ List.replicate n 10
      codeLines := s.codeLines + 1, ps := s.ps.settle }) h.tabsize h.lab h.comment
  obtain ⟨gap, col, hgap, hcode⟩ := writeCode_spec (s := { s with
      suppressBlanklines := 0, nRealBlanklines := 0, codeLines := s.codeLines + 1, lab := lab'
      output := s.output ++ List.replicate n 10 ++ lead ++ (trimEnd isBlank s.lab.text).takeWhile (· ≠ 0)
      ps := { s.ps.settle with pcase := false } })
    h.tabsize hpos (ht _ hlevel hparen rfl rfl rfl) h.code (by simp [h.string?]) h.comment
    (hfollow.trans_le h.follow)
  unfold writeLine
  apply Returns.after rfl
  apply Returns.after hn
  apply Returns.after rfl
  apply Returns.after (onlyIf_modifyPs _ _)
  apply Returns.after (onlyIf_modify_of (Or.inr h.code) _)
  apply Returns.after hlabel
  apply Returns.after rfl
  apply Returns.after hcode
  refine Returns.after (writeCom_of_empty ?_) ?_
  · exact h.com
  have hadds : AddsLine opt t s ((trimEnd isBlank s.lab.text).takeWhile (· ≠ 0))
      (s.code.text.flatMap (codeByte t)) (s.output ++ List.replicate n 10 ++ lead ++
        (trimEnd isBlank s.lab.text).takeWhile (· ≠ 0) ++ gap ++ s.code.text.flatMap (codeByte t) ++
        [if s.ps.settle.useFf then 12 else 10]) := by
    refine ⟨n, lead, gap, _, e, rfl, hblank, ?_, hlead, he, max_comm t e ▸ hgap⟩
    split
    · exact Or.inr rfl
    · exact Or.inl rfl
  have hlength := (length_placeParens t { s.ps.settle with pcase := false }).trans (congrArg _ hindents)
  simp only [returns_bind, returns_get, Ind.returns_putc, Ind.returns_modifyPs, returns_modify]
  apply returns_ite
  · intro _
    rw [returns_set]
    exact ⟨hadds, hlab', rfl, hfollow, hlength⟩
  · intro _
    rw [returns_set]
    exact ⟨hadds, hlab', rfl, hfollow, hlength⟩

theorem closeCode_spec (h : s.code.tail ≠ []) : ∃ code, closeCode s = .ok ((), { s with code }) := by
  cases htail : s.code.tail with
  | nil => exact absurd htail h
  | cons c tail =>
    refine ⟨{ s.code with tail := 0 :: tail }, ?_⟩
    unfold closeCode Buf.close?
    rw [bind_of_ok rfl, htail]
    rfl

theorem finishLine_spec (hlab : s.lab.tail ≠ []) (hcode : s.code.text ≠ []) (hfollow : s.ps.pLFollow ≤ 20)
    (hparens : s.ps.parenIndents.length = 20) : Returns finishLine (fun _ s' => s'.output = s.output) s := by
  have hlab' : (s.lab.cut 0).tail ≠ [] := fun h => hlab (List.append_eq_nil_iff.mp h).2
  have hcode' : (s.code.cut 0).tail ≠ [] := fun h => hcode (List.append_eq_nil_iff.mp h).1
  obtain ⟨lab, -, -, hclose⟩ := closeLab_spec (s := { s with
    lab := s.lab.cut 0, code := s.code.cut 0, com := s.com.restart, ps := s.ps.newLine }) hlab'
  obtain ⟨code, hclose'⟩ := closeCode_spec (s := { s with
    lab, code := s.code.cut 0, com := s.com.restart, ps := s.ps.newLine }) hcode'
  unfold finishLine
  apply Returns.after rfl
  apply Returns.after hclose
  apply Returns.after hclose'
  simp only [returns_bind, returns_get]
  apply Ind.returns_onlyIf
  · intro hpos
    have hlt : s.ps.pLFollow - 1 < s.ps.parenIndents.length := by
      have hpos' : 0 < s.ps.pLFollow := hpos
      omega
    apply Returns.after (a := s.ps.parenIndents[s.ps.pLFollow - 1])
    · exact congrFun (congrArg (orRange _) (List.getElem?_eq_getElem hlt)) _
    · simp only [returns_modify]
  · intro _
    simp only [returns_modify]

theorem CodeLine.of_ps (h : CodeLine opt s) {ps : ParserState} (hfollow : ps.pLFollow = s.ps.pLFollow)
    (hparens : ps.parenIndents = s.ps.parenIndents) : CodeLine opt { s with ps } :=
  { h with follow := hfollow.trans_le h.follow, parens := (congrArg _ hparens).trans h.parens }

end Sections

/-- The parser state in which the code of a line gets its column. -/
def ParserState.atLine (ps : ParserState) : ParserState := ps.leaveHeader.settle

/-- `dump_line` writes a line of code. -/
theorem dumpLine_spec {env : Env} {s : Indenter} (h : CodeLine env.opt s) :
    ∃ s' t, dumpLine env s = .ok ((), s') ∧
      computeCodeTarget env.opt { s with ps := s.ps.atLine } = .ok (t, { s with ps := s.ps.atLine }) ∧
      AddsLine env.opt t s ((trimEnd isBlank s.lab.text).takeWhile (· ≠ 0))
        (s.code.text.flatMap (codeByte t)) s'.output := by
  obtain ⟨hfollow, hparens⟩ := leaveHeader_frame s.ps
  obtain ⟨hlevel, hparen, -, -⟩ := settle_frame s.ps.leaveHeader
  obtain ⟨t, ht⟩ := computeCodeTarget_eq (s := { s with ps := s.ps.atLine }) h.tabsize h.string?
  have hwrite := writeLine_spec (t := t) (h.of_ps hfollow hparens) fun s' hl hp hi =>
    ht s' (hl.trans hlevel.symm) (hp.trans hparen.symm) hi
  have hreturns : Returns (dumpLine env) (fun _ s' => AddsLine env.opt t s
      ((trimEnd isBlank s.lab.text).takeWhile (· ≠ 0)) (s.code.text.flatMap (codeByte t)) s'.output) s := by
    unfold dumpLine
    apply Returns.after rfl
    apply Returns.after (onlyIf_modifyPs _ _)
    apply Returns.after rfl
    rw [if_neg (fun hempty => h.code hempty.1), returns_bind]
    apply Ind.returns_onlyIf
    · intro _
      apply hwrite.mono
      intro _ s' ⟨hline, hlab, hcode, hfollow', hparens'⟩
      apply (finishLine_spec hlab (hcode ▸ h.code) ?_ ?_).mono
      · intro _ s'' hout
        rw [hout]
        exact hline
      · rw [hfollow', hfollow]
        exact h.follow
      · rw [hparens', hparens]
        exact h.parens
    · intro hinhibit
      exact absurd h.formatting hinhibit
  obtain ⟨_, s', hdump, hline⟩ := hreturns
  exact ⟨s', t, hdump, ht _ rfl rfl rfl rfl rfl, hline⟩

/-! ### Verbatim lines -/

/-- The line as it should be: the bytes of the label without its trailing blanks and of the code
unchanged, and the code in the column meant for it or right behind the label. -/
def Verbatim (opt : Options) (t : ℤ) (s : Indenter) (out : List UInt8) : Prop :=
  ∃ n lead gap term e, out = s.output ++ List.replicate n 10 ++ lead ++ trimEnd isBlank s.lab.text ++ gap ++
      s.code.text ++ [term] ∧
    (∀ c ∈ lead ++ gap, isBlank c = true) ∧ (term = 10 ∨ term = 12) ∧ (s.lab.text = [] → lead = []) ∧
    countSpaces opt 1 (lead ++ trimEnd isBlank s.lab.text) = some e ∧
    countSpaces opt 1 (lead ++ trimEnd isBlank s.lab.text ++ gap) = some (max t e)

theorem codeByte_of_ne {t : ℤ} {c : UInt8} (hc : c ≠ 128) : codeByte t c = [c] := if_neg hc

theorem flatMap_codeByte {t : ℤ} {cs : List UInt8} (h : 128 ∉ cs) : cs.flatMap (codeByte t) = cs := by
  induction cs with
  | nil => rfl
  | cons c cs ih =>
    obtain ⟨hc, hcs⟩ := not_or.mp (mt List.mem_cons.mpr h)
    rw [List.flatMap_cons, codeByte_of_ne (Ne.symm hc), ih hcs]
    rfl

/-- The digits of a number and its sign are neither NUL nor byte 0200. -/
theorem notMem_toString (n : ℤ) {b : UInt8} (hb : b = 0 ∨ b = 128) : b ∉ bytes (toString n) := by
  have hdigits : ∀ m : ℕ, b ∉ bytes m.repr := by
    intro m hmem
    obtain ⟨c, hc, rfl⟩ := List.mem_map.mp hmem
    rw [Nat.toList_repr] at hc
    have hdigit := Nat.isDigit_of_mem_toDigits (by decide) le_rfl hc
    obtain ⟨hlow, hhigh⟩ : 48 ≤ c.toNat ∧ c.toNat ≤ 57 := Char.isDigit_iff_toNat.mp hdigit
    have hsize : c.toNat.toUInt8.toNat = c.toNat % 2 ^ 8 := UInt8.toNat_ofNat'
    rcases hb with hb | hb
    · rw [hb, UInt8.toNat_zero] at hsize
      omega
    · rw [hb, show (128 : UInt8).toNat = 128 by decide] at hsize
      omega
  rw [Int.toString_eq_repr, Int.repr_eq_if]
  split
  · exact hdigits _
  · intro hmem
    unfold bytes at hmem
    rw [String.toList_append, List.map_append] at hmem
    apply (List.mem_append.mp hmem).elim _ (hdigits _)
    rcases hb with rfl | rfl <;> decide

theorem notMem_flatMap_codeByte {t : ℤ} {cs : List UInt8} {b : UInt8} (hb : b = 0 ∨ b = 128)
    (h : b = 128 ∨ b ∉ cs) : b ∉ cs.flatMap (codeByte t) := by
  intro hmem
  obtain ⟨c, hc, hbc⟩ := List.mem_flatMap.mp hmem
  by_cases h128 : c = 128
  · rw [codeByte, if_pos h128] at hbc
    exact notMem_toString _ hb hbc
  · rw [codeByte_of_ne h128, List.mem_singleton] at hbc
    subst hbc
    exact h.elim h128 fun h => h hc

/-- In a line the bytes that do not stand for white space are those of its sections. -/
theorem count_line {b : UInt8} (hb : isSpace b = false) (out label code : List UInt8) (n : ℕ)
    {lead gap : List UInt8} (hlead : ∀ c ∈ lead, isBlank c = true) (hgap : ∀ c ∈ gap, isBlank c = true)
    {term : UInt8} (hterm : term = 10 ∨ term = 12) :
    (out ++ List.replicate n 10 ++ lead ++ label ++ gap ++ code ++ [term]).count b =
      out.count b + label.count b + code.count b := by
  have hblank : ∀ {ws : List UInt8}, (∀ c ∈ ws, isBlank c = true) → ws.count b = 0 := by
    intro ws hws
    apply List.count_eq_zero.mpr
    intro hmem
    have hbb := hws b hmem
    simp only [isBlank, isSpace, Bool.or_eq_true, decide_eq_true_eq, Bool.or_eq_false_iff] at hbb hb
    rcases hbb with rfl | rfl
    · exact absurd hb.1 (by decide)
    · exact absurd hb.2 (by decide)
  have hbreak : b ≠ 10 ∧ b ≠ 12 := by
    constructor <;> (rintro rfl; exact absurd hb (by decide))
  have hterm' : [term].count b = 0 := by
    apply List.count_eq_zero.mpr
    rw [List.mem_singleton]
    rcases hterm with rfl | rfl
    · exact hbreak.1
    · exact hbreak.2
  have hempty : (List.replicate n (10 : UInt8)).count b = 0 :=
    List.count_eq_zero.mpr fun hmem => hbreak.1 (List.eq_of_mem_replicate hmem)
  simp only [List.count_append, hblank hlead, hblank hgap, hterm', hempty]
  omega

theorem AddsLine.verbatim_iff {opt : Options} {t : ℤ} {s : Indenter} {out : List UInt8} (h : CodeLine opt s)
    (hadds : AddsLine opt t s ((trimEnd isBlank s.lab.text).takeWhile (· ≠ 0))
      (s.code.text.flatMap (codeByte t)) out) :
    Verbatim opt t s out ↔ 128 ∉ s.code.text ∧ 0 ∉ s.lab.text := by
  obtain ⟨n, lead, gap, term, e, hout, hlead, hterm, hnone, he, hgap⟩ := hadds
  unfold Verbatim
  have hnul : 0 ∈ trimEnd isBlank s.lab.text ↔ 0 ∈ s.lab.text := mem_trimEnd rfl
  rw [← hnul]
  clear hnul
  generalize trimEnd isBlank s.lab.text = label at hout he ⊢
  constructor
  · rintro ⟨n', lead', gap', term', e', hout', hblank', hterm', -, -, -⟩
    have hcount : ∀ b, isSpace b = false → (label.takeWhile (· ≠ 0)).count b +
        (s.code.text.flatMap (codeByte t)).count b = label.count b + s.code.text.count b := by
      intro b hb
      have hsame := congrArg (List.count b) (hout.symm.trans hout')
      rw [count_line hb _ _ _ _ hlead hgap.blank hterm, count_line hb _ _ _ _
        (fun c hc => hblank' c (List.mem_append_left _ hc)) (fun c hc => hblank' c (List.mem_append_right _ hc))
        hterm'] at hsame
      omega
    have hhigh := hcount 128 rfl
    have hnul := hcount 0 rfl
    have hsub := (List.takeWhile_sublist (fun c : UInt8 => decide (c ≠ 0)) (l := label)).count_le 128
    rw [List.count_eq_zero.mpr (notMem_flatMap_codeByte (Or.inr rfl) (Or.inl rfl))] at hhigh
    rw [List.count_eq_zero.mpr (notMem_flatMap_codeByte (Or.inl rfl) (Or.inr h.code_nul)),
      List.count_eq_zero.mpr h.code_nul] at hnul
    have hfree : (label.takeWhile (· ≠ 0)).count 0 = 0 := by
      apply List.count_eq_zero.mpr
      intro hmem
      have hne := List.mem_takeWhile_imp hmem
      exact of_decide_eq_true hne rfl
    constructor
    · exact List.count_eq_zero.mp (by omega)
    · exact List.count_eq_zero.mp (by omega)
  · rintro ⟨hhigh, hnul⟩
    have htake : label.takeWhile (· ≠ 0) = label := by
      apply List.takeWhile_eq_self_iff.mpr
      intro c hc
      exact decide_eq_true fun hzero => hnul (hzero ▸ hc)
    rw [htake, flatMap_codeByte hhigh] at hout
    refine ⟨n, lead, gap, term, e, hout, ?_, hterm, hnone, he, ?_⟩
    · exact fun c hc => (List.mem_append.mp hc).elim (hlead c) (hgap.blank c)
    · have hfree : 0 ∉ lead ++ label := by
        intro hmem
        apply (List.mem_append.mp hmem).elim _ hnul
        intro hmem'
        exact Bool.false_ne_true (hlead 0 hmem')
      rw [countSpaces_append hfree, he]
      exact hgap.column

theorem line_verbatim_iff (env : Env) (s : Indenter) (h : CodeLine env.opt s) :
    ∃ s' t, dumpLine env s = .ok ((), s') ∧
      computeCodeTarget env.opt { s with ps := s.ps.atLine } = .ok (t, { s with ps := s.ps.atLine }) ∧
      (Verbatim env.opt t s s'.output ↔ 128 ∉ s.code.text ∧ 0 ∉ s.lab.text) := by
  obtain ⟨s', t, hdump, ht, hadds⟩ := dumpLine_spec h
  exact ⟨s', t, hdump, ht, hadds.verbatim_iff h⟩

/-- A line of the buffers. -/
def lineOf (lab code : List UInt8) : Indenter :=
  { Indenter.initial .plain [] with lab := ⟨[], lab, [0]⟩, code := ⟨[], code, [0]⟩ }

theorem line_verbatim_label : ∃ s' t, dumpLine .plain (lineOf (bytes "out: ") (bytes "return;")) = .ok ((), s') ∧
    Verbatim Env.plain.opt t (lineOf (bytes "out: ") (bytes "return;")) s'.output := by
  have hline : CodeLine Env.plain.opt (lineOf (bytes "out: ") (bytes "return;")) :=
    ⟨by decide, ⟨by decide, by decide +kernel, by decide⟩, by decide, by decide, rfl, rfl,
      rfl, rfl, by decide, rfl⟩
  obtain ⟨s', t, hdump, -, hiff⟩ := line_verbatim_iff .plain _ hline
  exact ⟨s', t, hdump, hiff.mpr ⟨by decide, by decide⟩⟩

/-- A character constant with byte 0200 in it: a number is written in its place. -/
theorem high_byte_replaced : ((dumpLine .plain (lineOf [] (bytes "'" ++ [128] ++ bytes "';"))).toOption.map
    fun r => r.2.output) = some (bytes "'7';\n") := by
  decide

end BsdAdditions.Indent
