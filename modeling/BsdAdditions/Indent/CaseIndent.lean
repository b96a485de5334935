import BsdAdditions.Indent.Conditionals
import BsdAdditions.Indent.Effects
import BsdAdditions.Indent.ParseSound

/-! Case labels are placed by the innermost `switch`, as long as `#else` does not leave one. -/
namespace BsdAdditions.Indent
open Common Common.Prog

/-- The indentation of the case labels of the innermost `switch` on the stack. -/
def caseLevel (opt : Options) : List Frame → ℚ
  | [] => 0
  | f :: rest => if f.code = .swstmt then f.il + opt.caseIndent else caseLevel opt rest

/-- Every `switch` on the stack keeps the indentation of the one around it, and only a list of
statements stands on a left brace. -/
def WellCased (opt : Options) : List Frame → Prop
  | [] => True
  | f :: rest =>
    (f.code = .swstmt → f.cstk = caseLevel opt rest) ∧
      (∀ g ∈ rest.head?, g.code = .lbrace → Parser.collects f.code) ∧ WellCased opt rest

/-- Stacks as `parse` leaves them. -/
structure CaseStack (opt : Options) (stack : List Frame) : Prop where
  frames : WellCased opt stack
  top : ∀ g ∈ stack.head?, g.code ≠ .lbrace

section Stack
variable {opt : Options} {f g : Frame} {rest stack : List Frame}

theorem caseLevel_cons (hf : f.code ≠ .swstmt) : caseLevel opt (f :: rest) = caseLevel opt rest :=
  if_neg hf

theorem caseLevel_switch (hf : f.code = .swstmt) : caseLevel opt (f :: rest) = f.il + opt.caseIndent :=
  if_pos hf

theorem ne_swstmt_of_collects {code : Code} (h : Parser.collects code) : code ≠ .swstmt := by
  rintro rfl
  cases h

/-- Below what waits for a statement there is no left brace. -/
theorem WellCased.below (h : WellCased opt (f :: rest)) (hf : Parser.collects f.code = false) :
    CaseStack opt rest := by
  refine ⟨h.2.2, fun g hg hbrace => ?_⟩
  have := h.2.1 g hg hbrace
  rw [hf] at this
  cases this

theorem CaseStack.push (h : CaseStack opt stack) (hf : f.code = .swstmt → f.cstk = caseLevel opt stack)
    (hbrace : f.code ≠ .lbrace) : CaseStack opt (f :: stack) := by
  refine ⟨⟨hf, fun g hg hlbrace => (h.top g hg hlbrace).elim, h.frames⟩, ?_⟩
  rintro _ ⟨⟩
  exact hbrace

/-- Another code on top. -/
theorem WellCased.retop (h : WellCased opt (f :: rest)) {c : Code} (hc : c ≠ .swstmt)
    (hcol : Parser.collects f.code → Parser.collects c) (hbrace : c ≠ .lbrace) :
    CaseStack opt ({ f with code := c } :: rest) := by
  refine ⟨⟨fun hf => (hc hf).elim, fun g hg hlbrace => hcol (h.2.1 g hg hlbrace), h.2.2⟩, ?_⟩
  rintro _ ⟨⟩
  exact hbrace

end Stack

/-- The case labels go where the innermost `switch` wants them. -/
structure Parser.Cased (opt : Options) (p : Parser) : Prop where
  level : p.caseInd = caseLevel opt p.stack
  stack : CaseStack opt p.stack

namespace Parser
variable {opt : Options} {p q : Parser}

theorem joined_facts {code c : Code} (h : joined code = some c) :
    c ≠ .swstmt ∧ c ≠ .lbrace ∧ (collects code → collects c) := by
  cases code <;> cases h <;> exact ⟨nofun, nofun, fun h => by first | rfl | cases h⟩

theorem Cased.reduceOnce (h : Cased opt p) (hq : reduceOnce p = .ok (some q)) : Cased opt q := by
  have hframes := h.stack.frames
  have hlevel := h.level
  rcases reduceOnce_cases hq with ⟨f, g, rest, c, level, hs, hf, hc, rfl⟩ | ⟨f, g, rest, hs, hf, hg, rfl⟩
  · obtain ⟨hsw, hbrace, hcol⟩ := joined_facts hc
    rw [hs] at hframes hlevel
    refine ⟨?_, hframes.2.2.retop hsw hcol hbrace⟩
    show (if g.code = .swstmt then g.cstk else p.caseInd) = _
    rw [caseLevel_cons (by exact hsw)]
    split
    case isTrue hg => exact hframes.2.2.1 hg
    case isFalse hg => rw [hlevel, caseLevel_cons (by rw [hf]; nofun), caseLevel_cons hg]
  · rw [hs] at hframes hlevel
    refine ⟨?_, hframes.2.2.below (by rw [hg]; rfl)⟩
    show p.caseInd = caseLevel opt rest
    rw [hlevel, caseLevel_cons (by rw [hf]; nofun), caseLevel_cons (by rw [hg]; nofun)]

/-- The end of an `if` without `else`. -/
theorem Cased.retop_stmt {f : Frame} {rest : List Frame} (h : Cased opt p) (hs : p.stack = f :: rest)
    (hf : f.code ≠ .swstmt) : Cased opt { p with stack := { f with code := .stmt } :: rest } := by
  have hframes := h.stack.frames
  have hlevel := h.level
  rw [hs] at hframes hlevel
  refine ⟨?_, hframes.retop nofun (fun _ => rfl) nofun⟩
  show p.caseInd = _
  rw [hlevel, caseLevel_cons hf, caseLevel_cons (by simp)]

theorem Cased.reduce (h : Cased opt p) (hq : reduce p = .ok q) : Cased opt q :=
  reduce_keeps (fun _ _ hp honce => Cased.reduceOnce hp honce) h hq

theorem Cased.endIfs (h : Cased opt p) (hq : endIfs p = .ok q) : Cased opt q :=
  endIfs_keeps (fun _ _ hp honce => Cased.reduceOnce hp honce)
    (fun _ _ _ hp hs hf => Cased.retop_stmt hp hs (by rw [hf]; nofun)) h hq

theorem Cased.push {f : Frame} (h : Cased opt p) (hs : q.stack = f :: p.stack)
    (hind : q.caseInd = p.caseInd) (hf : f.code ≠ .swstmt) (hbrace : f.code ≠ .lbrace) : Cased opt q := by
  constructor
  · rw [hind, hs, h.level, caseLevel_cons hf]
  · rw [hs]
    exact h.stack.push (fun hsw => (hf hsw).elim) hbrace

theorem Cased.same (h : Cased opt p) {q : Parser} (hs : q.stack = p.stack) (hind : q.caseInd = p.caseInd) :
    Cased opt q :=
  ⟨by rw [hind, hs, h.level], hs ▸ h.stack⟩

theorem Cased.shift {top : Frame} {rest : List Frame} {codeEmpty : Bool} {tk : Code} {msg : Option String}
    (h : Cased opt p) (hs : p.stack = top :: rest) (hq : shift opt codeEmpty tk top p = some (q, msg)) :
    Cased opt q := by
  have hframes := h.stack.frames
  have hlevel := h.level
  rw [hs] at hframes hlevel
  cases tk
  case decl =>
    cases hq
    unfold shiftDecl
    split
    · split <;> exact h.push (f := ⟨.decl, p.iLFollow, 0⟩) rfl rfl (by simp) (by simp)
    · exact h.same rfl rfl
  case ifstmt =>
    cases hq
    unfold shiftIf
    split
    case isTrue helse =>
      have hpop : Cased opt { p with stack := p.stack.tail, iLFollow := top.il } := by
        rw [hs]
        refine ⟨?_, hframes.below (by rw [helse.1]; rfl)⟩
        show p.caseInd = caseLevel opt rest
        rw [hlevel, caseLevel_cons (by simp [helse.1])]
      exact hpop.push rfl rfl (by simp) (by simp)
    · exact h.push rfl rfl (by simp) (by simp)
  case dolit | forstmt =>
    cases hq
    exact h.push rfl rfl (by simp) (by simp)
  case lbrace =>
    cases hq
    obtain ⟨il, il', hstack⟩ := shiftLbrace_stack opt codeEmpty top p
    have hind : (shiftLbrace opt codeEmpty top p).caseInd = p.caseInd := by
      unfold shiftLbrace
      split
      · rfl
      · split <;> rfl
    constructor
    · rw [hind, hstack, h.level, caseLevel_cons (by simp), caseLevel_cons (by simp)]
    · rw [hstack]
      -- the brace is covered at once by the statement that stands for an empty block
      refine ⟨⟨(by simp), fun _ _ _ => rfl, (by simp), ?_, h.stack.frames⟩, ?_⟩
      · exact fun g hg hbrace => (h.stack.top g hg hbrace).elim
      · rintro _ ⟨⟩
        simp
  case whilestmt =>
    cases hq
    unfold shiftWhile
    split
    · exact h.push rfl rfl (by simp) (by simp)
    · exact h.push rfl rfl (by simp) (by simp)
  case elselit =>
    rw [Parser.shift] at hq
    split at hq
    · cases hq
      exact h
    case isFalse hif =>
      cases hq
      have hif := not_not.mp hif
      have hstack : (shiftElse opt top p).stack = { top with code := .elsehead } :: rest := by
        rw [shiftElse, hs]
        rfl
      have hbelow := hframes.below (by rw [hif]; rfl)
      constructor
      · rw [hstack, caseLevel_cons (by simp)]
        show p.caseInd = _
        rw [hlevel, caseLevel_cons (by simp [hif])]
      · rw [hstack]
        exact hbelow.push (by simp) (by simp)
  case rbrace =>
    rw [Parser.shift] at hq
    split at hq
    case h_1 il c rest' htail =>
      cases hq
      rw [hs] at htail
      obtain rfl : rest = ⟨.lbrace, il, c⟩ :: rest' := htail
      have htop : Parser.collects top.code := hframes.2.1 _ rfl rfl
      refine ⟨?_, hframes.2.2.retop (by simp) (fun _ => rfl) (by simp)⟩
      show p.caseInd = _
      rw [hlevel, caseLevel_cons (ne_swstmt_of_collects htop), caseLevel_cons (by simp),
        caseLevel_cons (by simp)]
    · cases hq
      exact h
  case swstmt =>
    cases hq
    have hstack : CaseStack opt (⟨.swstmt, p.iLFollow, p.caseInd⟩ :: p.stack) :=
      h.stack.push (fun _ => h.level) (by simp)
    exact ⟨rfl, hstack⟩
  case semicolon =>
    cases hq
    exact h.push rfl rfl (by simp) (by simp)
  all_goals cases hq

theorem Cased.parse {codeEmpty : Bool} {tk : Code} {msg : Option String} (h : Cased opt p)
    (hq : parse opt codeEmpty tk p = .ok (q, msg)) : Cased opt q := by
  obtain ⟨r, top, rest, hbegin, hs, hrest⟩ := parse_cases hq
  have hr : Cased opt r := by
    unfold begin at hbegin
    split at hbegin
    · cases hbegin
      exact h
    · exact h.endIfs hbegin
  rcases hrest with ⟨-, rfl⟩ | ⟨u, hshift, hu⟩
  · exact hr
  · exact (hr.shift hs hshift).reduce hu

end Parser

/-! ### Calls of the parser and conditional lines in any order -/

/-- What can happen to the parser's stack and to `case_ind`: a call of `parse`, a conditional line
with its text, and whatever leaves both alone. -/
inductive StackEvent where
  | parse (tk : Code)
  | conditional (lab : List UInt8)
  | elsewhere (core : Indenter)

def Main.after? (env : Env) (s : Main) : StackEvent → Option Main
  | .parse tk =>
    match onCore (Indent.parse env tk) s with
    | .ok (_, t) => some t
    | .error _ => none
  | .conditional lab =>
    match Indent.conditional env lab s with
    | .ok (_, t) => some t
    | .error _ => none
  | .elsewhere core =>
    some { s with
      core := { core with
        caseInd := s.core.caseInd
        ps := { core.ps with stack := s.core.ps.stack } } }

/-- `case_ind` is that of the innermost `switch`, and so a case label is indented by it. -/
def PlacesCases (opt : Options) (s : Main) : Prop :=
  s.core.caseInd = caseLevel opt s.core.ps.stack ∧
    (s.core.ps.pcase = true → computeLabelTarget opt s.core =
      .ok (truncate (caseLevel opt s.core.ps.stack * opt.indSize) + 1, s.core))

/-- An `#else` or `#elif` brings back a state whose innermost `switch` indents its labels as the
innermost one does now. -/
def SameSwitch (opt : Options) (s : Main) : StackEvent → Prop
  | .conditional lab =>
    Directive.of lab = .switches → ∀ h : s.ifdefLevel - 1 < 5, 0 < s.ifdefLevel →
      caseLevel opt s.core.ps.stack = caseLevel opt (s.stateStack ⟨s.ifdefLevel - 1, h⟩).stack
  | _ => True

instance (opt : Options) (s : Main) (e : StackEvent) : Decidable (SameSwitch opt s e) :=
  match e with
  | .conditional _ => inferInstanceAs (Decidable (_ → ∀ _ : _, _ → _ = _))
  | .parse _ => .isTrue trivial
  | .elsewhere _ => .isTrue trivial

/-- The stack and the saved stacks of the open groups. -/
structure CaseStacks (opt : Options) (s : Main) : Prop where
  current : CaseStack opt s.core.ps.stack
  level : s.ifdefLevel ≤ 5
  saved : ∀ i : Fin 5, i < s.ifdefLevel → CaseStack opt (s.stateStack i).stack

section Events
variable {env : Env} {s t : Main}

theorem placesCases_iff {opt : Options} :
    PlacesCases opt s ↔ s.core.caseInd = caseLevel opt s.core.ps.stack := by
  refine ⟨fun h => h.1, fun h => ⟨h, fun hcase => ?_⟩⟩
  rw [← h]
  unfold computeLabelTarget
  simp only [hcase, get, getThe, MonadStateOf.get, StateT.get, StateT.bind, bind, Except.bind, pure,
    Except.pure, if_true]
  rfl

/-- Messages leave the stack and `case_ind` alone. -/
theorem leaves_diag (error : Bool) (msg : String) : Relates (fun s t : Indenter =>
    (t.ps, t.caseInd) = (s.ps, s.caseInd)) (diag env error msg) :=
  relates_diag env error msg (fun _ => rfl) (fun _ _ => rfl) fun _ _ => rfl

/-- A call of `parse` on the program's state. -/
theorem parse_sets_cases (tk : Code) (s : Indenter) : Ensures (Indent.parse env tk) (fun _ t =>
    ∃ q msg, Parser.parse env.opt (s.code.text = []) tk s.parser = .ok (q, msg) ∧
      t.ps.stack = q.stack ∧ t.caseInd = q.caseInd) s := by
  rw [Indent.parse, ensures_bind, ensures_get, ensures_bind]
  rintro ⟨q, msg⟩ s' hlift
  cases hq : Parser.parse env.opt (s.code.text = []) tk s.parser with
  | error e =>
    rw [hq] at hlift
    cases hlift
  | ok r =>
    rw [hq] at hlift
    obtain ⟨rfl, rfl⟩ : r = (q, msg) ∧ s = s' := by
      cases hlift
      exact ⟨rfl, rfl⟩
    rw [ensures_bind, ensures_set]
    have hset : (s.setParser q).ps.stack = q.stack ∧ (s.setParser q).caseInd = q.caseInd := ⟨rfl, rfl⟩
    cases msg with
    | none => exact (ensures_pure _ _ _).mpr ⟨q, none, rfl, hset⟩
    | some msg =>
      refine (leaves_diag true msg (s.setParser q)).mono fun _ t ht => ?_
      obtain ⟨hps, hind⟩ := Prod.mk.inj ht
      exact ⟨q, some msg, rfl, by rw [hps]; exact hset.1, hind.trans hset.2⟩

theorem after?_parse {tk : Code} (h : s.after? env (.parse tk) = some t) (hstacks : CaseStacks env.opt s)
    (hplaces : PlacesCases env.opt s) : CaseStacks env.opt t ∧ PlacesCases env.opt t := by
  rw [Main.after?] at h
  split at h
  case h_2 => cases h
  case h_1 u t' hok =>
    obtain rfl := Option.some.inj h
    obtain ⟨hlevel, hsaved⟩ := saves_onCore (Indent.parse env tk) s u t' hok
    have hparse : Ensures (onCore (Indent.parse env tk)) (fun _ t =>
        ∃ q msg, Parser.parse env.opt (s.core.code.text = []) tk s.core.parser = .ok (q, msg) ∧
          t.core.ps.stack = q.stack ∧ t.core.caseInd = q.caseInd) s :=
      ensures_onCore.mpr (parse_sets_cases tk s.core)
    obtain ⟨q, msg, hq, hs, hind⟩ := hparse u t' hok
    have hcased : Parser.Cased env.opt s.core.parser := ⟨hplaces.1, hstacks.current⟩
    have hcased' := hcased.parse hq
    constructor
    · refine ⟨hs ▸ hcased'.stack, hlevel ▸ hstacks.level, fun i hi => ?_⟩
      rw [hsaved]
      exact hstacks.saved i (hlevel ▸ hi)
    · rw [placesCases_iff, hs, hind]
      exact hcased'.level

/-- A conditional line leaves `case_ind` alone, and the parser state unless it brings one back. -/
theorem leaves_conditional (lab : List UInt8) (s : Main) : Ensures (conditional env lab) (fun _ t =>
    t.core.caseInd = s.core.caseInd ∧
      ((Directive.of lab = .switches ∧ 0 < s.ifdefLevel) ∨ t.core.ps = s.core.ps)) s := by
  have hdiag : ∀ msg, Ensures (onCore (diag env true msg)) (fun _ t =>
      t.core.caseInd = s.core.caseInd ∧
        ((Directive.of lab = .switches ∧ 0 < s.ifdefLevel) ∨ t.core.ps = s.core.ps)) s := by
    intro msg
    refine ensures_onCore.mpr ((leaves_diag true msg s.core).mono fun _ t ht => ?_)
    obtain ⟨hps, hind⟩ := Prod.mk.inj ht
    exact ⟨hind, .inr hps⟩
  rw [conditional, ensures_bind, ensures_get]
  cases hd : Directive.of lab with
  | opens =>
    rw [hd] at hdiag
    dsimp only
    split
    · exact (ensures_set _ _ _).mpr ⟨rfl, .inr rfl⟩
    · exact hdiag _
  | switches =>
    rw [hd] at hdiag
    refine ensures_ite (fun _ => hdiag _) fun hpos => ?_
    split
    · exact (ensures_set _ _ _).mpr ⟨rfl, .inl ⟨rfl, by omega⟩⟩
    · exact ensures_throw _ _
  | closes =>
    rw [hd] at hdiag
    refine ensures_ite (fun _ => hdiag _) fun _ => ?_
    exact (ensures_set _ _ _).mpr ⟨rfl, .inr rfl⟩
  | other => exact (ensures_pure _ _ _).mpr ⟨rfl, .inr rfl⟩
  | unrecognized =>
    rw [hd] at hdiag
    exact hdiag _

/-- The saved stacks after a conditional line. -/
theorem Saves.caseStacks {d : Directive} {opt : Options} (h : Saves s t (.line d))
    (hstacks : CaseStacks opt s) (hcurrent : CaseStack opt t.core.ps.stack) : CaseStacks opt t := by
  have hlevel := hstacks.level
  cases d with
  | opens =>
    by_cases hroom : s.ifdefLevel < 5
    · simp only [Saves, hroom, dif_pos] at h
      refine ⟨hcurrent, by omega, fun i hi => ?_⟩
      rw [h.2]
      by_cases hlast : i = ⟨s.ifdefLevel, hroom⟩
      · rw [hlast, Function.update_self]
        exact hcurrent
      · rw [Function.update_of_ne hlast]
        have hne : (i : ℕ) ≠ s.ifdefLevel := fun heq => hlast (Fin.ext heq)
        exact hstacks.saved i (by omega)
    · simp only [Saves, hroom, dif_neg, not_false_eq_true] at h
      exact ⟨hcurrent, h.1 ▸ hlevel, fun i hi => h.2 ▸ hstacks.saved i (h.1 ▸ hi)⟩
  | switches => exact ⟨hcurrent, h.1 ▸ hlevel, fun i hi => h.2.1 ▸ hstacks.saved i (h.1 ▸ hi)⟩
  | closes =>
    obtain ⟨hl, hs⟩ := h
    exact ⟨hcurrent, by omega, fun i hi => hs ▸ hstacks.saved i (by omega)⟩
  | other | unrecognized =>
    exact ⟨hcurrent, h.1 ▸ hlevel, fun i hi => h.2 ▸ hstacks.saved i (h.1 ▸ hi)⟩

theorem after?_conditional {lab : List UInt8} (h : s.after? env (.conditional lab) = some t)
    (hstacks : CaseStacks env.opt s) (hplaces : PlacesCases env.opt s) :
    CaseStacks env.opt t ∧ (PlacesCases env.opt t ↔ SameSwitch env.opt s (.conditional lab)) := by
  rw [Main.after?] at h
  split at h
  case h_2 => cases h
  case h_1 u t' hok =>
    obtain rfl := Option.some.inj h
    have hsaves := saves_conditional lab s u t' hok
    obtain ⟨hind, hps⟩ := leaves_conditional lab s u t' hok
    by_cases hback : Directive.of lab = .switches ∧ 0 < s.ifdefLevel
    · have hlt : s.ifdefLevel - 1 < 5 := by
        have := hstacks.level
        omega
      have hrestored : t'.core.ps = s.stateStack ⟨s.ifdefLevel - 1, hlt⟩ := by
        rw [hback.1] at hsaves
        exact hsaves.2.2 hlt hback.2
      constructor
      · apply hsaves.caseStacks hstacks
        rw [hrestored]
        exact hstacks.saved _ (by simp only; omega)
      · rw [placesCases_iff, hind, hrestored, hplaces.1]
        exact ⟨fun heq _ _ _ => heq, fun hsame => hsame hback.1 hlt hback.2⟩
    · have hps := hps.resolve_left hback
      have hsame : SameSwitch env.opt s (.conditional lab) := fun hd _ hpos => (hback ⟨hd, hpos⟩).elim
      have hplaces' : PlacesCases env.opt t' := by
        rw [placesCases_iff, hind, hps]
        exact hplaces.1
      exact ⟨hsaves.caseStacks hstacks (hps ▸ hstacks.current), fun _ => hsame, fun _ => hplaces'⟩

theorem after?_step {e : StackEvent} (h : s.after? env e = some t) (hstacks : CaseStacks env.opt s)
    (hplaces : PlacesCases env.opt s) :
    CaseStacks env.opt t ∧ (PlacesCases env.opt t ↔ SameSwitch env.opt s e) := by
  cases e with
  | parse tk =>
    obtain ⟨hstacks', hplaces'⟩ := after?_parse h hstacks hplaces
    exact ⟨hstacks', fun _ => trivial, fun _ => hplaces'⟩
  | conditional lab => exact after?_conditional h hstacks hplaces
  | elsewhere core =>
    cases h
    refine ⟨⟨hstacks.current, hstacks.level, hstacks.saved⟩, fun _ => trivial, fun _ => ?_⟩
    rw [placesCases_iff]
    exact hplaces.1

end Events

theorem caseStacks_initial (env : Env) (input : List UInt8) : CaseStacks env.opt (.initial env input) := by
  refine ⟨⟨⟨nofun, nofun, trivial⟩, ?_⟩, Nat.zero_le 5, fun i hi => (Nat.not_lt_zero i hi).elim⟩
  rintro _ ⟨⟩
  nofun

/-- Along any calls of the parser and conditional lines, `case_ind` stays that of the innermost
`switch` just when every `#else` and `#elif` brings back a state in which that is the same. -/
theorem cases_follow_switch_iff (env : Env) (input : List UInt8) (t : Main) (events : List StackEvent)
    (hrun : Common.run (Main.after? env) (.initial env input) events = some t) :
    Throughout (Main.after? env) (PlacesCases env.opt) (.initial env input) events ↔
      StepsMeet (Main.after? env) (SameSwitch env.opt) (.initial env input) events := by
  have hstart : PlacesCases env.opt (.initial env input) := placesCases_iff.mpr rfl
  exact throughout_iff_stepsMeet
    (fun _ _ _ hstacks hplaces _ hstep => after?_step hstep hstacks hplaces)
    (caseStacks_initial env input) hstart (stepsMeet_true _ _ _) hrun

/-- Inside a `switch`, a group whose branches hold whole statements. -/
theorem cases_follow_switch_in_group :
    Throughout (Main.after? .plain) (PlacesCases Env.plain.opt) (.initial .plain [])
      [.parse .semicolon, .parse .lbrace, .parse .swstmt, .parse .lbrace, .conditional (bytes "#if A"),
        .parse .swstmt, .parse .lbrace, .parse .rbrace, .conditional (bytes "#else"), .parse .semicolon,
        .conditional (bytes "#endif"), .parse .rbrace] := by
  have hall : (Common.run (Main.after? .plain) (.initial .plain [])
      [.parse .semicolon, .parse .lbrace, .parse .swstmt, .parse .lbrace, .conditional (bytes "#if A"),
        .parse .swstmt, .parse .lbrace, .parse .rbrace, .conditional (bytes "#else"), .parse .semicolon,
        .conditional (bytes "#endif"), .parse .rbrace]).isSome ∧
      StepsMeet (Main.after? .plain) (SameSwitch Env.plain.opt) (.initial .plain [])
      [.parse .semicolon, .parse .lbrace, .parse .swstmt, .parse .lbrace, .conditional (bytes "#if A"),
        .parse .swstmt, .parse .lbrace, .parse .rbrace, .conditional (bytes "#else"), .parse .semicolon,
        .conditional (bytes "#endif"), .parse .rbrace] := by
    decide +kernel
  obtain ⟨t, ht⟩ := Option.isSome_iff_exists.mp hall.1
  exact (cases_follow_switch_iff .plain [] t _ ht).mpr hall.2

/-- A `switch` starts in the first branch of a group: after the `#else` no `switch` is on the stack,
but `case_ind` is still that of the one in the branch that was left. -/
theorem case_ind_left_behind : (Common.run (Main.after? .plain) (.initial .plain [])
    [.parse .semicolon, .parse .lbrace, .conditional (bytes "#if A"), .parse .swstmt,
      .conditional (bytes "#else")]).any (fun s =>
        s.core.ps.stack.all (fun f => f.code ≠ .swstmt) ∧ s.core.caseInd = 1) = true := by
  decide +kernel

end BsdAdditions.Indent
