import BsdAdditions.Common.Triples
import BsdAdditions.Indent.Conditionals
import BsdAdditions.Indent.DumpLine

/-! The tables of fixed size are never left. -/
namespace BsdAdditions.Indent
open Common Common.Prog Std.Do

set_option mvcgen.warning false

/-- The nesting is within the tables. -/
def ParserState.Bounded (ps : ParserState) : Prop :=
  ps.pLFollow < 20 ∧ ps.parenLevel < 20 ∧ ps.decNest < 20 ∧ ps.parenIndents.length = 20

def Indenter.Bounded (s : Indenter) : Prop :=
  s.ps.Bounded ∧ s.transientState.Bounded ∧ s.diStack.length = 20

/-- The reason for a stop is none of the tables that go with the nesting. -/
def Halt.InTables (e : Halt) : Prop := ∀ t, e = .range t → t = .scBuf

/-- Nor is it a division, except by a size that is zero. -/
def Halt.Allowed (opt : Options) (e : Halt) : Prop :=
  e.InTables ∧ (e = .divide → opt.tabsize = 0 ∨ opt.indSize = 0)

/-- The program keeps the nesting within the tables, and stops for a reason that is allowed only. -/
abbrev Safe {α : Type} (opt : Options) (m : Ind α) : Prop :=
  Upholds Indenter.Bounded (Halt.Allowed opt) m

/-! ### The code section -/

variable {α : Type} (env : Env) {opt : Options} (fuel : ℕ)

/-- An invariant that says nothing of the code section, nor of the blanks around a token. -/
structure Ignores (I : Indenter → Prop) : Prop where
  code : ∀ s code fresh, I s → I { s with code, fresh }
  blank : ∀ s b, I s → I { s with ps := { s.ps with wantBlank := b } }

section Ignores
variable {I : Indenter → Prop}

theorem upholds_orFault (opt : Options) (o : Option α) :
    Upholds I (Halt.Allowed opt) (orFault o) := by
  cases o with
  | none => exact upholds_throw ⟨nofun, nofun⟩
  | some a => exact upholds_pure a

theorem upholds_divisor {n : ℕ} (h : n = 0 → opt.tabsize = 0 ∨ opt.indSize = 0) :
    Upholds I (Halt.Allowed opt) (divisor n) := by
  unfold divisor
  split
  next hn => exact upholds_throw ⟨nofun, fun _ => h hn⟩
  next => exact upholds_pure ()

variable (opt) (hI : Ignores I)
include hI

theorem Ignores.putCode (c : UInt8) : Upholds I (Halt.Allowed opt) (putCode c) := by
  have hfault := upholds_orFault (I := I) (α := Buf) opt
  mvcgen [Indent.putCode, hfault]
  exact hI.code _ _ _ ‹_›

theorem Ignores.putsCode (cs : List UInt8) : Upholds I (Halt.Allowed opt) (putsCode cs) := by
  induction cs with
  | nil => exact upholds_pure ()
  | cons c cs ih =>
    have hput := hI.putCode opt
    mvcgen [Indent.putsCode, List.forM, hput, ih]

theorem Ignores.checkSizeCode (n : ℤ) : Upholds I (Halt.Allowed env.opt) (checkSizeCode env n) := by
  mvcgen [Indent.checkSizeCode, checkSize, allocate]
  all_goals
    have h := ‹I _›
    first | exact hI.code _ _ _ h | exact hI.code _ _ _ (hI.code _ _ _ h)

theorem Ignores.setWantBlank (b : Bool) : Upholds I (Halt.Allowed opt) (setWantBlank b) :=
  upholds_modify fun s => hI.blank s b

theorem Ignores.declTabs (curDecInd : ℤ) (n : ℕ) (pos : ℤ) :
    Upholds I (Halt.Allowed env.opt) (declTabs env curDecInd n pos) := by
  induction n generalizing pos with
  | zero => exact upholds_pure pos
  | succ n ih =>
    have hput := hI.putCode env.opt
    mvcgen [Indent.declTabs, hput, ih]

theorem Ignores.indentDeclaration (curDecInd : ℤ) (tabsToVar : Bool) :
    Upholds I (Halt.Allowed env.opt) (indentDeclaration env curDecInd tabsToVar) := by
  have hdiv := upholds_divisor (I := I) (fun h : env.opt.tabsize = 0 => Or.inl h)
  have hput := hI.putCode env.opt
  have hputs := hI.putsCode env.opt
  have hcheck := hI.checkSizeCode env
  have htabs := hI.declTabs env
  mvcgen [Indent.indentDeclaration, onlyIf, movedSince, modifyPs, hdiv, hput, hputs, hcheck, htabs]
  all_goals
    have h := ‹I _›
    exact hI.blank _ _ h

end Ignores

theorem ignores_bounded : Ignores Indenter.Bounded := ⟨fun _ _ _ h => h, fun _ _ h => h⟩

/-! ### Primitives -/

@[local spec] theorem safe_fault : Safe opt (fault : Ind α) := upholds_throw ⟨nofun, nofun⟩

@[local spec] theorem safe_outOfFuel : Safe opt (outOfFuel : Ind α) := upholds_throw ⟨nofun, nofun⟩

@[local spec] theorem safe_exit (message : String) : Safe opt (throw (.exit message) : Ind α) :=
  upholds_throw ⟨nofun, nofun⟩

@[local spec] theorem safe_scBuf (o : Option α) : Safe opt (orRange .scBuf o) := by
  cases o with
  | none => exact upholds_throw ⟨fun t ht => (Halt.range.inj ht).symm, nofun⟩
  | some a => exact upholds_pure a

@[local spec] theorem safe_within_scBuf (c : Prop) [Decidable c] : Safe opt (within .scBuf c) := by
  unfold within
  split
  · exact upholds_pure ()
  · exact upholds_throw ⟨fun t ht => (Halt.range.inj ht).symm, nofun⟩

@[local spec] theorem safe_orFault (o : Option α) : Safe opt (orFault o) := upholds_orFault opt o

theorem safe_orDivide {o : Option α} (h : o = none → opt.tabsize = 0) : Safe opt (orDivide o) := by
  cases o with
  | none => exact upholds_throw ⟨nofun, fun _ => Or.inl (h rfl)⟩
  | some a => exact upholds_pure a

theorem tabsize_eq_zero {cur : ℤ} (h : tabStop opt cur = none) : opt.tabsize = 0 := by
  unfold tabStop at h
  split at h
  · assumption
  · cases h

@[local spec] theorem safe_tabStop (cur : ℤ) : Safe opt (orDivide (tabStop opt cur)) :=
  safe_orDivide tabsize_eq_zero

@[local spec] theorem safe_countSpaces (cur : ℤ) (cs : List UInt8) :
    Safe opt (orDivide (countSpaces opt cur cs)) := by
  apply safe_orDivide
  intro h
  by_contra hne
  obtain ⟨col, hcol⟩ := exists_countSpaces (Nat.pos_of_ne_zero hne) cur cs
  rw [hcol] at h
  cases h

@[local spec] theorem safe_repeatWhile {cond : Ind Bool} {body : Ind Unit} (hcond : Safe opt cond)
    (hbody : Safe opt body) (fuel : ℕ) : Safe opt (repeatWhile cond body fuel) := by
  induction fuel with
  | zero => exact safe_outOfFuel
  | succ fuel ih => mvcgen [repeatWhile, hcond, hbody, ih]

@[local spec] theorem safe_forM {f : UInt8 → Ind Unit} (hf : ∀ c, Safe opt (f c)) (cs : List UInt8) :
    Safe opt (cs.forM f) := by
  induction cs with
  | nil => exact upholds_pure ()
  | cons c cs ih => mvcgen [List.forM, hf, ih]

@[local spec] theorem safe_allocate (n : ℕ) : Safe env.opt (allocate env n) := by
  mvcgen [allocate]

@[local spec] theorem safe_checkSize (b : Buf) (n : ℤ) : Safe env.opt (checkSize env b n) := by
  mvcgen [checkSize]

@[local spec] theorem safe_putCode (c : UInt8) : Safe opt (putCode c) := ignores_bounded.putCode opt c

@[local spec] theorem safe_putsCode (cs : List UInt8) :
    Safe opt (putsCode cs) := ignores_bounded.putsCode opt cs

@[local spec] theorem safe_checkSizeCode (n : ℤ) : Safe env.opt (checkSizeCode env n) :=
  ignores_bounded.checkSizeCode env n

@[local spec] theorem safe_closeCode : Safe opt closeCode := by
  mvcgen [closeCode]

@[local spec] theorem safe_putLab (c : UInt8) : Safe opt (putLab c) := by
  mvcgen [putLab]

@[local spec] theorem safe_checkSizeLab (n : ℤ) : Safe env.opt (checkSizeLab env n) := by
  mvcgen [checkSizeLab]

@[local spec] theorem safe_closeLab : Safe opt closeLab := by
  mvcgen [closeLab]

@[local spec] theorem safe_putCom (c : UInt8) : Safe opt (putCom c) := by
  mvcgen [putCom]

@[local spec] theorem safe_putToken (c : UInt8) : Safe opt (putToken c) := by
  mvcgen [putToken]

@[local spec] theorem safe_putc (c : UInt8) : Safe opt (putc c) := by
  mvcgen [putc]

@[local spec] theorem safe_puts (cs : List UInt8) : Safe opt (puts cs) := by
  mvcgen [puts]

@[local spec] theorem safe_say (text : List UInt8) : Safe env.opt (say env text) := by
  mvcgen [say]

@[local spec] theorem safe_diag (error : Bool) (msg : String) : Safe env.opt (diag env error msg) := by
  mvcgen [diag, onlyIf]

/-! ### Writing and reading lines -/

/-- The computation stops for a reason that is allowed only. -/
def Calm {β : Type} (opt : Options) (r : Except Halt β) : Prop := ∀ e, r = .error e → e.Allowed opt

theorem calm_pure {β : Type} (b : β) : Calm opt (pure b : Except Halt β) := nofun

theorem calm_throw {β : Type} {e : Halt} (he : e.Allowed opt) : Calm opt (throw e : Except Halt β) := by
  rintro e' ⟨⟩
  exact he

theorem calm_bind {β γ : Type} {r : Except Halt β} {f : β → Except Halt γ} (hr : Calm opt r)
    (hf : ∀ b, Calm opt (f b)) : Calm opt (r >>= f) := by
  cases r with
  | error e => exact calm_throw (hr e rfl)
  | ok b => exact hf b

theorem calm_fault {β : Type} : Calm opt (throw .fault : Except Halt β) := calm_throw ⟨nofun, nofun⟩

theorem calm_dropIndent (opt : Options) (target : ℤ) (cs : List UInt8) : Calm opt (dropIndent opt target cs) := by
  induction cs generalizing target with
  | nil =>
    unfold dropIndent
    split
    · exact calm_pure _
    · exact calm_fault
  | cons c cs ih =>
    unfold dropIndent
    split
    · exact calm_pure _
    · split
      · exact calm_bind (ih _) fun _ => calm_pure _
      · split
        · split
          · exact calm_bind (ih _) fun _ => calm_pure _
          next h =>
            apply calm_throw
            exact ⟨nofun, fun _ => Or.inl (tabsize_eq_zero h)⟩
        · exact calm_pure _

@[local spec] theorem safe_padTabs (target : ℤ) (n : ℕ) (curr : ℤ) :
    Safe opt (padTabs opt target n curr) := by
  induction n generalizing curr with
  | zero => exact upholds_pure curr
  | succ n ih => mvcgen [padTabs, ih]

@[local spec] theorem safe_padOutput (current target : ℤ) :
    Safe opt (padOutput opt current target) := by
  mvcgen [padOutput]

@[local spec] theorem safe_computeCodeTarget : Safe opt (computeCodeTarget opt) := by
  mvcgen [computeCodeTarget]

@[local spec] theorem safe_computeLabelTarget : Safe opt (computeLabelTarget opt) := by
  mvcgen [computeLabelTarget]

@[local spec] theorem safe_closeComment : Safe opt closeComment := by
  mvcgen [closeComment, onlyIf]

@[local spec] theorem safe_writeLab : Safe opt (writeLab opt) := by
  mvcgen [writeLab]

/-- An access to a table needs its index to be in range. -/
theorem safe_within {table : Table} {c : Prop} [Decidable c] (h : c) : Safe opt (within table c) := by
  unfold within
  rw [if_pos h]
  exact upholds_pure ()

theorem safe_orRange {table : Table} {o : Option α} (h : o.isSome = true) :
    Safe opt (orRange table o) := by
  obtain ⟨a, rfl⟩ := Option.isSome_iff_exists.mp h
  exact upholds_pure a

@[local spec] theorem safe_placeParens (targetCol : ℤ) :
    Safe opt (modifyPs (placeParens targetCol)) := by
  apply upholds_modify
  intro s ⟨⟨hfollow, hlevel, hnest, hindents⟩, hrest⟩
  exact ⟨⟨hfollow, hlevel, hnest, List.length_mapIdx.trans hindents⟩, hrest⟩

@[local spec] theorem safe_writeCode (curCol : ℤ) : Safe opt (writeCode opt curCol) := by
  mvcgen [writeCode, safe_within]
  rename_i h
  exact h.1.1.le

@[local spec] theorem safe_writeCom (curCol : ℤ) : Safe opt (writeCom opt curCol) := by
  have hdrop := fun target cs => triple_except_iff.mpr (calm_dropIndent opt target cs)
  mvcgen [writeCom, onlyIf, modifyPs, hdrop]

@[local spec] theorem safe_writeBlankLines : Safe opt (writeBlankLines opt) := by
  mvcgen [writeBlankLines]

@[local spec] theorem safe_writeLine : Safe opt (writeLine opt) := by
  mvcgen [writeLine, onlyIf, modifyPs]

@[local spec] theorem safe_finishLine : Safe opt finishLine := by
  mvcgen [finishLine, onlyIf, safe_orRange]
  case vc1.pre =>
    -- the level of the new line is the nesting at its end
    rename_i h _
    exact ⟨⟨h.1.1, h.1.1, h.1.2.2⟩, h.2⟩
  case vc3.h =>
    rename_i h hpos
    obtain ⟨-, hlevel, -, hlength⟩ := h.1
    rw [isSome_getElem?]
    omega

@[local spec] theorem safe_dumpLine : Safe env.opt (dumpLine env) := by
  mvcgen [dumpLine, onlyIf, modifyPs]

@[local spec] theorem safe_readBuffer : Safe env.opt (readBuffer env) := by
  mvcgen [readBuffer]

@[local spec] theorem safe_obeyControl (off : Bool) : Safe env.opt (obeyControl env off) := by
  mvcgen [obeyControl, onlyIf]

theorem safe_fillFromInput {again : Ind Unit} (hagain : Safe env.opt again) :
    Safe env.opt (fillFromInput env again) := by
  mvcgen [fillFromInput, onlyIf, hagain]

@[local spec] theorem safe_fillBuffer : Safe env.opt (fillBuffer env fuel) := by
  induction fuel with
  | zero => exact safe_outOfFuel
  | succ fuel ih =>
    have hfill := safe_fillFromInput env ih
    mvcgen [fillBuffer, onlyIf, hfill]

/-! ### Scanning -/

variable (transient : Bool)

@[local spec] theorem safe_peekAt (k : ℕ) : Safe opt (peekAt k) := by
  mvcgen [peekAt]

@[local spec] theorem safe_peek : Safe opt peek := safe_peekAt 0

@[local spec] theorem safe_advance : Safe opt advance := by
  mvcgen [advance]

@[local spec] theorem safe_refill : Safe env.opt (refill env fuel) := by
  mvcgen [refill, onlyIf]

@[local spec] theorem safe_next : Safe env.opt (next env fuel) := by
  mvcgen [next]

@[local spec] theorem safe_takeToken : Safe env.opt (takeToken env fuel) := by
  mvcgen [takeToken]

@[local spec] theorem safe_skipBlanks : Safe env.opt (skipBlanks env fuel) := by
  mvcgen [skipBlanks]

@[local spec] theorem safe_scanNumber (n : ℕ) (q : Char) : Safe env.opt (scanNumber env fuel n q) := by
  induction n generalizing q with
  | zero => exact safe_outOfFuel
  | succ n ih => mvcgen [scanNumber, ih]

@[local spec] theorem safe_scanName (n : ℕ) : Safe env.opt (scanName env fuel n) := by
  induction n with
  | zero => exact safe_outOfFuel
  | succ n ih => mvcgen [scanName, ih]

@[local spec] theorem safe_modifyState {f : ParserState → ParserState}
    (h : ∀ ps : ParserState, ps.Bounded → (f ps).Bounded) : Safe opt (modifyState transient f) := by
  apply upholds_modify
  intro s ⟨hps, htransient, hstack⟩
  cases transient with
  | false => exact ⟨h _ hps, htransient, hstack⟩
  | true => exact ⟨hps, h _ htransient, hstack⟩

theorem safe_state : Safe opt (state transient) := by
  mvcgen [state]

@[local spec] theorem safe_lexIdent : Safe opt (lexIdent transient) := by
  mvcgen [lexIdent, onlyIf, safe_state]
  all_goals exact fun _ h => h

/-- The state that the scanner works on is bounded too. -/
theorem state_bounded : ⦃fun s => ⌜s.Bounded⌝⦄ state transient
    ⦃post⟨fun ps s => ⌜s.Bounded ∧ ps.Bounded⌝, fun e => ⌜e.Allowed opt⌝⟩⦄ := by
  apply triple_iff.mpr
  intro s hs
  cases transient with
  | false => exact ⟨hs, hs.1⟩
  | true => exact ⟨hs, hs.2.1⟩

@[local spec] theorem safe_lexTypename (rw : Option ℕ) : Safe opt (lexTypename transient rw) := by
  mvcgen [lexTypename, onlyIf, state_bounded, safe_within]
  case vc2.h =>
    rename_i h _
    exact h.2.1
  case vc11 => exact fun _ _ _ h => h
  all_goals first | exact And.left ‹_› | exact fun _ h => h

attribute [local spec] safe_state

@[local spec] theorem safe_lexWordKind : Safe env.opt (lexWordKind env transient) := by
  mvcgen [lexWordKind]
  all_goals exact fun _ h => h

@[local spec] theorem safe_lexWord : Safe env.opt (lexWord env fuel transient) := by
  mvcgen [lexWord]

@[local spec] theorem safe_scanLiteral (qchar : UInt8) (n : ℕ) :
    Safe env.opt (scanLiteral env fuel qchar n) := by
  induction n with
  | zero => exact safe_outOfFuel
  | succ n ih => mvcgen [scanLiteral, onlyIf, ih]

@[local spec] theorem safe_takeLast : Safe opt takeLast := by
  mvcgen [takeLast]

@[local spec] theorem safe_lookAhead (n tp : ℕ) : Safe env.opt (lookAhead env fuel n tp) := by
  induction n generalizing tp with
  | zero => exact safe_outOfFuel
  | succ n ih => mvcgen [lookAhead, onlyIf, ih]

@[local spec] theorem safe_lexStar : Safe env.opt (lexStar env fuel transient) := by
  mvcgen [lexStar, onlyIf, modifyPs]

@[local spec] theorem safe_lexSign (c : UInt8) : Safe env.opt (lexSign env transient c) := by
  mvcgen [lexSign]
  all_goals exact fun _ h => h

@[local spec] theorem safe_lexDefault (c : UInt8) : Safe env.opt (lexDefault env fuel transient c) := by
  mvcgen [lexDefault]

@[local spec] theorem safe_lexSwitch (c : UInt8) : Safe env.opt (lexSwitch env fuel transient c) := by
  mvcgen [lexSwitch, onlyIf]
  all_goals exact fun _ h => h

@[local spec] theorem safe_lexOther : Safe env.opt (lexOther env fuel transient) := by
  mvcgen [lexOther]
  exact fun _ h => h

@[local spec] theorem safe_lexi : Safe env.opt (lexi env fuel transient) := by
  mvcgen [lexi]
  all_goals exact fun _ h => h

/-! ### Comments -/

@[local spec] theorem safe_checkSizeCom (n : ℕ) : Safe env.opt (checkSizeCom env n) := by
  mvcgen [checkSizeCom, onlyIf]

@[local spec] theorem safe_putsCom (cs : List UInt8) : Safe opt (putsCom cs) := by
  mvcgen [putsCom]

@[local spec] theorem safe_continueCom : Safe env.opt (continueCom env) := by
  mvcgen [continueCom, onlyIf]

@[local spec] theorem safe_setCom (f : Buf → Buf) : Safe opt (setCom f) := by
  mvcgen [setCom]

@[local spec] theorem safe_lineTarget : Safe env.opt (lineTarget env) := by
  mvcgen [lineTarget]

@[local spec] theorem safe_alignComment : Safe env.opt (alignComment env) := by
  mvcgen [alignComment, onlyIf, modifyPs]

@[local spec] theorem safe_skipBlanksHere : Safe opt (skipBlanksHere fuel) := by
  mvcgen [skipBlanksHere]

@[local spec] theorem safe_openComment : Safe env.opt (openComment env fuel) := by
  mvcgen [openComment, onlyIf, modifyPs]

@[local spec] theorem safe_fitsOnLine (adjMaxCol : ℤ) : Safe env.opt (fitsOnLine env adjMaxCol) := by
  mvcgen [fitsOnLine]

@[local spec] theorem safe_breakDelimiter : Safe env.opt (breakDelimiter env) := by
  mvcgen [breakDelimiter, onlyIf]

@[local spec] theorem safe_endComment (breakDelim : Bool) (l : ℤ) :
    Safe env.opt (endComment env fuel breakDelim l) := by
  mvcgen [endComment, onlyIf, modifyPs]

@[local spec] theorem safe_skipLineStart (n : ℕ) (nstar : ℤ) :
    Safe env.opt (skipLineStart env fuel n nstar) := by
  induction n generalizing nstar with
  | zero => exact safe_outOfFuel
  | succ n ih => mvcgen [skipLineStart, ih]

@[local spec] theorem safe_copyRun (adjMaxCol : ℤ) (n : ℕ) (nowCol : ℤ) (lastBl : Option ℕ) :
    Safe env.opt (copyRun env fuel adjMaxCol n nowCol lastBl) := by
  induction n generalizing nowCol lastBl with
  | zero => exact safe_outOfFuel
  | succ n ih => mvcgen [copyRun, ih]

@[local spec] theorem safe_moveUp (n t : ℕ) (lastBl : Option ℕ) : Safe opt (moveUp n t lastBl) := by
  induction n generalizing t lastBl with
  | zero => exact safe_outOfFuel
  | succ n ih => mvcgen [moveUp, ih]

@[local spec] theorem safe_breakComment (lastBl : ℕ) : Safe env.opt (breakComment env fuel lastBl) := by
  mvcgen [breakComment]

@[local spec] theorem safe_copyDefault (adjMaxCol : ℤ) (lastBl : Option ℕ) :
    Safe env.opt (copyDefault env fuel adjMaxCol lastBl) := by
  mvcgen [copyDefault, modifyPs]

@[local spec] theorem safe_copyFormFeed (lastBl : Option ℕ) :
    Safe env.opt (copyFormFeed env fuel lastBl) := by
  mvcgen [copyFormFeed, modifyPs]

@[local spec] theorem safe_copyNewline : Safe env.opt (copyNewline env fuel) := by
  mvcgen [copyNewline, onlyIf, modifyPs]

@[local spec] theorem safe_copyComment (adjMaxCol : ℤ) (breakDelim : Bool) (l : ℤ) (n : ℕ) (lastBl : Option ℕ) :
    Safe env.opt (copyComment env fuel adjMaxCol breakDelim l n lastBl) := by
  induction n generalizing lastBl with
  | zero => exact safe_outOfFuel
  | succ n ih => mvcgen [copyComment, ih]

@[local spec] theorem safe_prComment : Safe env.opt (prComment env fuel) := by
  mvcgen [prComment, modifyPs]

/-! ### The parser -/

theorem calm_reduceOnce (p : Parser) : Calm opt p.reduceOnce := by
  unfold Parser.reduceOnce
  split
  case h_1 => exact calm_fault
  case h_2 =>
    split
    · exact calm_fault
    · split
      case h_4 =>
        split
        · exact calm_fault
        · exact calm_pure _
      all_goals exact calm_pure _
  case h_3 =>
    split
    · exact calm_fault
    · split <;> exact calm_pure _
  case h_4 => exact calm_pure none

theorem calm_reduceFor (n : ℕ) (p : Parser) : Calm opt (Parser.reduceFor n p) := by
  induction n generalizing p with
  | zero => exact calm_pure p
  | succ n ih =>
    apply calm_bind (calm_reduceOnce p)
    intro q
    cases q with
    | none => exact calm_pure p
    | some q => exact ih q

theorem calm_endIfsFor (n : ℕ) (p : Parser) : Calm opt (Parser.endIfsFor n p) := by
  induction n generalizing p with
  | zero => exact calm_pure p
  | succ n ih =>
    unfold Parser.endIfsFor
    split
    · split
      · exact calm_bind (calm_reduceFor _ _) ih
      · exact calm_pure p
    · exact calm_fault

theorem calm_parse (opt : Options) (codeEmpty : Bool) (tk : Code) (p : Parser) :
    Calm opt (Parser.parse opt codeEmpty tk p) := by
  unfold Parser.parse
  extract_lets rest
  have hrest : ∀ p, Calm opt (rest p) := by
    intro p
    unfold rest
    split
    · exact calm_fault
    · split
      · exact calm_pure _
      · split
        · exact calm_throw ⟨nofun, nofun⟩
        · exact calm_bind (calm_reduceFor _ _) fun _ => calm_pure _
  split
  · exact hrest p
  · exact calm_bind (calm_endIfsFor _ p) hrest

@[local spec] theorem safe_parse (tk : Code) : Safe env.opt (parse env tk) := by
  have hparse := fun s : Indenter =>
    triple_except_iff.mpr (calm_parse env.opt (s.code.text = []) tk s.parser)
  mvcgen [parse, hparse]

/-! ### Looking for a brace -/

@[local spec] theorem safe_putSc (c : UInt8) : Safe opt (putSc c) := by
  mvcgen [putSc]

@[local spec] theorem safe_putsSc (cs : List UInt8) : Safe opt (putsSc cs) := by
  mvcgen [putsSc]

@[local spec] theorem safe_setSc (start stop : ℕ) : Safe opt (setSc start stop) := by
  mvcgen [setSc]

@[local spec] theorem safe_startSaving : Safe opt startSaving := by
  mvcgen [startSaving, onlyIf]

@[local spec] theorem safe_startSavingComment : Safe opt startSavingComment := by
  mvcgen [startSavingComment, onlyIf]

@[local spec] theorem safe_saveComment (n : ℕ) : Safe env.opt (saveComment env fuel n) := by
  induction n with
  | zero => exact safe_outOfFuel
  | succ n ih => mvcgen [saveComment, onlyIf, ih, -Spec.throw_MonadExcept]

@[local spec] theorem safe_switchBuffer : Safe opt switchBuffer := by
  mvcgen [switchBuffer, onlyIf]

@[local spec] theorem safe_skipToNewline (n : ℕ) : Safe env.opt (skipToNewline env fuel n) := by
  induction n with
  | zero => exact safe_outOfFuel
  | succ n ih => mvcgen [skipToNewline, onlyIf, ih]

@[local spec] theorem safe_removesNewlines (typeCode : Code) :
    Safe env.opt (removesNewlines env typeCode) := by
  mvcgen [removesNewlines]

@[local spec] theorem safe_trimSc (p : UInt8 → Bool) : Safe opt (trimSc p) := by
  mvcgen [trimSc]

@[local spec] theorem safe_endSearch (commentBuffered removeNewlines : Bool) :
    Safe env.opt (endSearch env commentBuffered removeNewlines) := by
  mvcgen [endSearch, onlyIf, modifyPs]

@[local spec] theorem safe_saveBlanks (n : ℕ) : Safe opt (saveBlanks n) := by
  induction n with
  | zero => exact safe_outOfFuel
  | succ n ih => mvcgen [saveBlanks, onlyIf, ih, -Spec.throw_MonadExcept]

/-- The look ahead works on a copy, which takes the place of the parser state at its end. -/
@[local spec] theorem safe_lookFurther : Safe env.opt (lookFurther env fuel) := by
  mvcgen [lookFurther, onlyIf]
  all_goals
    have h := ‹Indenter.Bounded _›
    first | exact ⟨h.1, h.1, h.2.2⟩ | exact ⟨h.2.1, h.2⟩

@[local spec] theorem safe_searchStep (typeCode : Code) (commentBuffered : Bool) :
    Safe env.opt (searchStep env fuel typeCode commentBuffered) := by
  mvcgen [searchStep, onlyIf, modifyPs]

@[local spec] theorem safe_searchBrace (n : ℕ) (typeCode : Code) (commentBuffered : Bool) :
    Safe env.opt (searchBrace env fuel n typeCode commentBuffered) := by
  induction n generalizing typeCode commentBuffered with
  | zero => exact safe_outOfFuel
  | succ n ih => mvcgen [searchBrace, ih]

/-! ### Tokens -/

@[local spec] theorem safe_indentDeclaration (curDecInd : ℤ) (tabsToVar : Bool) :
    Safe env.opt (indentDeclaration env curDecInd tabsToVar) :=
  ignores_bounded.indentDeclaration env curDecInd tabsToVar

@[local spec] theorem safe_setWantBlank (b : Bool) : Safe opt (setWantBlank b) :=
  ignores_bounded.setWantBlank opt b

@[local spec] theorem safe_putBlank : Safe opt putBlank := by
  mvcgen [putBlank, onlyIf]

@[local spec] theorem safe_breakLine : Safe env.opt (breakLine env) := by
  mvcgen [breakLine]

@[local spec] theorem safe_lineBroken : Safe env.opt (lineBroken env) := by
  mvcgen [lineBroken, onlyIf]

@[local spec] theorem safe_copyId (typeCode : Code) : Safe env.opt (copyId env typeCode) := by
  mvcgen [copyId, onlyIf]

@[local spec] theorem safe_tokenByte : Safe opt tokenByte := by
  mvcgen [tokenByte]

@[local spec] theorem safe_doNewline : Safe env.opt (doNewline env) := by
  mvcgen [doNewline, onlyIf]

@[local spec] theorem safe_endHead : Safe env.opt (endHead env) := by
  mvcgen [endHead]

/-- Inside of a parenthesis that is within the tables. -/
theorem ignores_nested : Ignores fun s => s.Bounded ∧ 0 < s.ps.pLFollow :=
  ⟨fun _ _ _ h => h, fun _ _ h => h⟩

/-- A message is of no concern to an invariant that does not mention messages. -/
theorem upholds_diag {I : Indenter → Prop} (hI : ∀ s foundErr output log, I s →
    I { s with foundErr, output, log }) (error : Bool) (msg : String) :
    Upholds I (Halt.Allowed env.opt) (diag env error msg) := by
  mvcgen [diag, onlyIf, puts, -safe_diag, -safe_puts]
  all_goals
    have h := ‹I _›
    first | exact hI _ _ _ _ h | exact hI _ _ _ _ (hI _ _ _ _ h)

/-- One more parenthesis, unless there are too many. -/
def countParen : Ind Unit := do
  modifyPs fun ps => { ps with pLFollow := ps.pLFollow + 1 }
  onlyIf ((← get).ps.pLFollow = 20) do
    diag env false "Reached internal limit of 20 unclosed parens"
    modifyPs fun ps => { ps with pLFollow := ps.pLFollow - 1 }

/-- What comes in front of a parenthesis. -/
def spaceParen (c : UInt8) : Ind Unit := do
  let s ← get
  if c = byte '[' then pure ()
  else if awaitsIndent s.ps && !s.ps.hasProcname then do
    indentDeclaration env s.decInd s.tabsToVar
    modifyPs fun ps => { ps with dumpedDeclIndent := true }
  else onlyIf (s.ps.wantBlank = true ∧
      (s.ps.lastToken ≠ .ident ∧ s.ps.lastToken ≠ .funcname ∨ env.opt.procCallsSpace = true ∨
        s.ps.keyword + (if env.opt.billShannon then 1 else 0) > 2)) (putCode 32)

/-- The column of a parenthesis is remembered. -/
def placeParen : Ind Unit := do
  let s ← get
  let col := toShort ((← orDivide (countSpaces env.opt 1 s.code.text)) - 1)
  within .parenIndents (0 < s.ps.pLFollow ∧ s.ps.pLFollow ≤ 20)
  modifyPs fun ps => { ps with parenIndents := ps.parenIndents.set (ps.pLFollow - 1) col }
  onlyIf (s.spSw = true ∧ s.ps.pLFollow = 1 ∧ env.opt.extraExpressionIndent = true ∧
      col < 2 * env.opt.indSize)
    (modifyPs fun ps => { ps with parenIndents := ps.parenIndents.set 0 (toShort (2 * env.opt.indSize)) })

/-- What the rest of the switch makes of a parenthesis. -/
def markParen (s : Indenter) (c : UInt8) : Ind Unit := do
  onlyIf (s.ps.inOrSt = true ∧ c = byte '(' ∧ s.ps.tos ≤ 2) do
    parse env .semicolon
    modifyPs fun ps => { ps with inOrSt := false }
  onlyIf (s.ps.keyword = 1 ∨ s.ps.keyword = 2) do
    within .castMask ((← get).ps.pLFollow < 20)
    modifyPs fun ps => { ps with notCastMask := ps.notCastMask ||| bit ps.pLFollow }

theorem doLparen_eq : doLparen env = (do
    countParen env
    let c ← tokenByte
    spaceParen env c
    setWantBlank false
    putCode c
    let s ← get
    placeParen env
    markParen env s c) := by
  simp only [doLparen, countParen, spaceParen, placeParen, markParen, bind_assoc]
  rfl

/-- Between counting a parenthesis and looking for the limit the nesting may be one too deep. -/
theorem nested_countParen : ⦃fun s => ⌜s.Bounded⌝⦄ countParen env
    ⦃post⟨fun _ s => ⌜s.Bounded ∧ 0 < s.ps.pLFollow⌝, fun e => ⌜e.Allowed env.opt⌝⟩⦄ := by
  have hdiag := upholds_diag env (I := fun s : Indenter => s.ps.pLFollow = 20 ∧
    Indenter.Bounded { s with ps := { s.ps with pLFollow := 19 } }) fun _ _ _ _ h => h
  mvcgen [countParen, onlyIf, modifyPs, hdiag, -safe_diag]
  case vc1.isTrue.pre =>
    rename_i h _ hfull
    exact ⟨hfull, ⟨⟨Nat.lt_succ_self 19, h.1.2⟩, h.2⟩⟩
  case vc2 =>
    rename_i s hs _
    obtain ⟨hfull, ⟨-, hnest⟩, hrest⟩ := hs
    have hlt : s.ps.pLFollow - 1 < 20 := by omega
    have hpos : 0 < s.ps.pLFollow - 1 := by omega
    exact ⟨⟨⟨hlt, hnest⟩, hrest⟩, hpos⟩
  case vc3 =>
    rename_i s hs _ hne
    have hlt : s.ps.pLFollow + 1 < 20 := Nat.lt_of_le_of_ne hs.1.1 hne
    exact ⟨⟨⟨hlt, hs.1.2⟩, hs.2⟩, Nat.succ_pos _⟩

theorem nested_spaceParen (c : UInt8) :
    Upholds (fun s => s.Bounded ∧ 0 < s.ps.pLFollow) (Halt.Allowed env.opt) (spaceParen env c) := by
  have hindent := ignores_nested.indentDeclaration env
  have hput := ignores_nested.putCode
  mvcgen [spaceParen, onlyIf, modifyPs, hindent, hput, -safe_indentDeclaration, -safe_putCode]

/-- Setting the column of a parenthesis does not change the size of the table. -/
theorem ParserState.Bounded.set {ps : ParserState} (h : ps.Bounded) (i : ℕ) (col : ℤ) :
    { ps with parenIndents := ps.parenIndents.set i col }.Bounded :=
  ⟨h.1, h.2.1, h.2.2.1, List.length_set.trans h.2.2.2⟩

theorem safe_placeParen : ⦃fun s => ⌜s.Bounded ∧ 0 < s.ps.pLFollow⌝⦄ placeParen env
    ⦃post⟨fun _ s => ⌜s.Bounded⌝, fun e => ⌜e.Allowed env.opt⌝⟩⦄ := by
  mvcgen [placeParen, onlyIf, modifyPs, safe_within]
  case vc1.pre => exact And.left ‹_›
  case vc2.h =>
    rename_i h _ _ _ _
    exact ⟨h.2, h.1.1.1.le⟩
  case vc4 =>
    have h := ‹Indenter.Bounded _›
    exact ⟨(h.1.set _ _).set _ _, h.2⟩
  case vc5 =>
    have h := ‹Indenter.Bounded _›
    exact ⟨h.1.set _ _, h.2⟩

theorem safe_markParen (s : Indenter) (c : UInt8) : Safe env.opt (markParen env s c) := by
  mvcgen [markParen, onlyIf, modifyPs, safe_within]
  all_goals exact (‹Indenter.Bounded _›).1.1

@[local spec] theorem safe_doLparen : Safe env.opt (doLparen env) := by
  have hblank := ignores_nested.setWantBlank
  have hput := ignores_nested.putCode
  have hbyte : Upholds (fun s => s.Bounded ∧ 0 < s.ps.pLFollow) (Halt.Allowed env.opt) tokenByte := by
    have hfault := upholds_orFault (I := fun s => s.Bounded ∧ 0 < s.ps.pLFollow) (α := UInt8)
    mvcgen [tokenByte, hfault, -safe_tokenByte, -safe_orFault]
  rw [doLparen_eq]
  mvcgen [nested_countParen, nested_spaceParen, safe_placeParen, safe_markParen, hblank, hput, hbyte,
    -safe_setWantBlank, -safe_putCode, -safe_tokenByte]

theorem ParserState.Bounded.ite {c : Prop} [Decidable c] {ps ps' : ParserState} (h : ps.Bounded)
    (h' : ps'.Bounded) : (if c then ps else ps').Bounded := by
  split
  · exact h
  · exact h'

@[local spec] theorem safe_doRparen : Safe env.opt (doRparen env) := by
  mvcgen [doRparen, onlyIf, modifyPs, safe_within]
  all_goals
    have h := ‹Indenter.Bounded _›
    have hlt := Nat.lt_of_le_of_lt (Nat.sub_le _ 1) h.1.1
  case vc1.h => exact h.1.1
  case vc3 => refine ⟨ParserState.Bounded.ite ?_ ?_, h.2⟩ <;> exact h.1
  case vc5 => exact ⟨⟨h.1.1, h.1.1, h.1.2.2⟩, h.2⟩
  case vc11 => exact ⟨⟨hlt, hlt, h.1.2.2⟩, h.2⟩
  case vc14 => exact ⟨⟨hlt, h.1.2⟩, h.2⟩

@[local spec] theorem safe_doUnaryOp : Safe env.opt (doUnaryOp env) := by
  mvcgen [doUnaryOp, modifyPs]

@[local spec] theorem safe_doBinaryOp : Safe env.opt (doBinaryOp env) := by
  mvcgen [doBinaryOp]

@[local spec] theorem safe_doPostop : Safe opt doPostop := by
  mvcgen [doPostop]

@[local spec] theorem safe_doQuestion : Safe opt doQuestion := by
  mvcgen [doQuestion]

@[local spec] theorem safe_doColon : Safe env.opt (doColon env) := by
  mvcgen [doColon, modifyPs]

/-- No parenthesis is open. -/
theorem Indenter.Bounded.close {s : Indenter} (h : s.Bounded) :
    Indenter.Bounded { s with ps := { s.ps with pLFollow := 0 } } :=
  ⟨⟨Nat.succ_pos 19, h.1.2⟩, h.2⟩

@[local spec] theorem safe_unbalanced {after : Ind Unit} (hafter : Safe env.opt after) :
    Safe env.opt (unbalanced env after) := by
  mvcgen [unbalanced, onlyIf, modifyPs, hafter]
  all_goals exact (‹Indenter.Bounded _›).close

@[local spec] theorem safe_doSemicolon : Safe env.opt (doSemicolon env) := by
  mvcgen [doSemicolon, onlyIf, modifyPs]

/-- A level of declarations more, unless there are too many. -/
@[local spec] theorem safe_enterDecl : Safe env.opt (enterDecl env) := by
  have hdiag := upholds_diag env (I := fun s : Indenter => s.ps.decNest = 20 ∧
    Indenter.Bounded { s with ps := { s.ps with decNest := 19 } }) fun _ _ _ _ h => h
  mvcgen [enterDecl, onlyIf, modifyPs, safe_within, hdiag, -safe_diag]
  case vc1.h => exact (‹Indenter.Bounded _›).1.2.2.1
  case vc3 =>
    rename_i s hs _ _ _ heq
    obtain ⟨⟨hfollow, hlevel, -, hindents⟩, htransient, hstack⟩ := hs
    refine ⟨congrArg Nat.succ heq, ⟨hfollow, hlevel, Nat.lt_succ_self 19, hindents⟩, htransient, ?_⟩
    exact List.length_set.trans hstack
  case vc4 =>
    rename_i s hs _
    obtain ⟨hfull, ⟨hfollow, hlevel, -, hindents⟩, hrest⟩ := hs
    have hlt : s.ps.decNest - 1 < 20 := by omega
    exact ⟨⟨hfollow, hlevel, hlt, hindents⟩, hrest⟩
  case vc5 =>
    rename_i s hs _ _ _ hne
    obtain ⟨⟨hfollow, hlevel, hnest, hindents⟩, htransient, hstack⟩ := hs
    have hlt : s.ps.decNest + 1 < 20 := by omega
    exact ⟨⟨hfollow, hlevel, hlt, hindents⟩, htransient, List.length_set.trans hstack⟩

@[local spec] theorem safe_enterBlock : Safe env.opt (enterBlock env) := by
  mvcgen [enterBlock, onlyIf, modifyPs]

@[local spec] theorem safe_braceOnLine : Safe env.opt (braceOnLine env) := by
  mvcgen [braceOnLine, onlyIf, modifyPs]

theorem Indenter.Bounded.ite {c : Prop} [Decidable c] {s s' : Indenter} (h : s.Bounded)
    (h' : s'.Bounded) : (if c then s else s').Bounded := by
  split
  · exact h
  · exact h'

@[local spec] theorem safe_doLbrace : Safe env.opt (doLbrace env) := by
  mvcgen [doLbrace, onlyIf, modifyPs]
  refine Indenter.Bounded.ite ?_ ?_ <;> exact ‹Indenter.Bounded _›

/-- One level of declarations less. -/
theorem Indenter.Bounded.leave {s : Indenter} (h : s.Bounded) :
    Indenter.Bounded { s with ps := { s.ps with decNest := s.ps.decNest - 1 } } :=
  ⟨⟨h.1.1, h.1.2.1, Nat.lt_of_le_of_lt (Nat.sub_le _ 1) h.1.2.2.1, h.1.2.2.2⟩, h.2⟩

theorem Indenter.Bounded.isSome_diStack {s : Indenter} (h : s.Bounded) :
    s.diStack[s.ps.decNest]?.isSome = true := by
  rw [isSome_getElem?, h.2.2]
  exact h.1.2.2.1

@[local spec] theorem safe_doRbrace : Safe env.opt (doRbrace env) := by
  mvcgen [doRbrace, onlyIf, modifyPs, safe_orRange]
  all_goals
    have h := ‹Indenter.Bounded _›
    first | exact h.close | exact h.leave | exact h.leave.isSome_diStack

@[local spec] theorem safe_doSpParen : Safe env.opt (doSpParen env) := by
  mvcgen [doSpParen]

@[local spec] theorem safe_doSpNparen : Safe env.opt (doSpNparen env) := by
  mvcgen [doSpNparen, onlyIf, modifyPs]

@[local spec] theorem safe_setDecInd (length : ℤ) : Safe env.opt (setDecInd env length) := by
  apply upholds_modify
  intro s hs
  refine Indenter.Bounded.ite ?_ ?_ <;> exact hs

@[local spec] theorem safe_doDecl (typeCode : Code) : Safe env.opt (doDecl env typeCode) := by
  mvcgen [doDecl, onlyIf, modifyPs]
  all_goals
    have h := ‹Indenter.Bounded _›
    refine ⟨ParserState.Bounded.ite ?_ ?_, h.2⟩ <;> exact h.1

@[local spec] theorem safe_doIdent (typeCode : Code) : Safe env.opt (doIdent env typeCode) := by
  mvcgen [doIdent, onlyIf, modifyPs]

@[local spec] theorem safe_doStrpfx : Safe env.opt (doStrpfx env) := by
  mvcgen [doStrpfx]

@[local spec] theorem safe_doPeriod : Safe opt doPeriod := by
  mvcgen [doPeriod]

@[local spec] theorem safe_doComma : Safe env.opt (doComma env) := by
  mvcgen [doComma, onlyIf, modifyPs]

/-! ### The loop -/

@[local spec] theorem safe_moveDirective (n : ℕ) (inComment : Bool) (comStart comEnd : ℕ) :
    Safe env.opt (moveDirective env fuel n inComment comStart comEnd) := by
  induction n generalizing inComment comStart comEnd with
  | zero => exact safe_outOfFuel
  | succ n ih => mvcgen [moveDirective, ih]

@[local spec] theorem safe_trimLab : Safe opt trimLab := by
  mvcgen [trimLab]

@[local spec] theorem safe_moveComment (comStart comEnd : ℕ) :
    Safe opt (moveComment comStart comEnd) := by
  mvcgen [moveComment, onlyIf, -Spec.throw_MonadExcept]

@[local spec] theorem safe_doPreesc : Safe env.opt (doPreesc env fuel) := by
  mvcgen [doPreesc, onlyIf, modifyPs]

@[local spec] theorem safe_beforeSwitch (typeCode : Code) : Safe env.opt (beforeSwitch env typeCode) := by
  mvcgen [beforeSwitch, onlyIf, modifyPs]

@[local spec] theorem safe_doToken (typeCode : Code) : Safe env.opt (doToken env fuel typeCode) := by
  cases typeCode <;> mvcgen [doToken, modifyPs]

@[local spec] theorem safe_afterSwitch (typeCode : Code) : Safe opt (afterSwitch typeCode) := by
  mvcgen [afterSwitch, onlyIf, modifyPs]

@[local spec] theorem safe_finish : Safe env.opt (finish env) := by
  mvcgen [finish, onlyIf]

@[local spec] theorem safe_nextToken : Safe env.opt (nextToken env fuel) := by
  mvcgen [nextToken]

@[local spec] theorem safe_blanklinesAround : Safe env.opt (blanklinesAround env) := by
  apply upholds_modify
  intro s hs
  refine Indenter.Bounded.ite ?_ ?_ <;> exact hs

@[local spec] theorem safe_start : Safe env.opt (start env fuel) := by
  have hdiv := upholds_divisor (I := Indenter.Bounded) (fun h : env.opt.indSize = 0 => Or.inr h)
  mvcgen [start, firstColumn, onlyIf, modifyPs, hdiv]

/-- The parser states that `#if` has saved are bounded as well. -/
def Main.Bounded (s : Main) : Prop := s.core.Bounded ∧ ∀ i, (s.stateStack i).Bounded

abbrev SafeMain {α : Type} (opt : Options) (m : MainM α) : Prop := Upholds Main.Bounded (Halt.Allowed opt) m

theorem safe_onCore {m : Ind α} (hm : Safe opt m) : SafeMain opt (onCore m) := by
  apply upholds_iff.mpr
  intro s hs
  have hcore := upholds_iff.mp hm s.core hs.1
  cases h : m s.core with
  | error e =>
    simp only [h] at hcore
    simpa [onCore, h, bind, Except.bind] using hcore
  | ok p =>
    simp only [h] at hcore
    simpa [onCore, h, bind, Except.bind, pure, Except.pure] using ⟨hcore, hs.2⟩

/-- Saving the parser state and bringing a saved one back. -/
@[local spec] theorem safe_conditional (lab : List UInt8) : SafeMain env.opt (conditional env lab) := by
  have hdiag := fun msg => safe_onCore (safe_diag env true msg)
  have hfault : SafeMain env.opt (throw .fault : MainM Unit) := upholds_throw ⟨nofun, nofun⟩
  mvcgen [conditional, hdiag, hfault, -Spec.throw_MonadExcept]
  all_goals have h := ‹Main.Bounded _›
  case vc1 =>
    refine ⟨h.1, fun i => ?_⟩
    dsimp only
    rw [Function.update_apply]
    split
    · exact h.1.1
    · exact h.2 i
  case vc4 => exact ⟨⟨h.2 _, h.1.2⟩, h.2⟩

@[local spec] theorem safe_directive : SafeMain env.opt (directive env fuel) := by
  have hpreesc := safe_onCore (safe_doPreesc env fuel)
  have haround := safe_onCore (safe_blanklinesAround env)
  mvcgen [directive, hpreesc, haround]

@[local spec] theorem safe_round : SafeMain env.opt (round env fuel) := by
  have hnext := safe_onCore (safe_nextToken env fuel)
  have hfinish := safe_onCore (safe_finish env)
  have hbefore := fun typeCode => safe_onCore (safe_beforeSwitch env typeCode)
  have hafter : ∀ typeCode, SafeMain env.opt (onCore (afterSwitch typeCode)) :=
    fun typeCode => safe_onCore (safe_afterSwitch typeCode)
  have htoken := fun typeCode => safe_onCore (safe_doToken env fuel typeCode)
  mvcgen [round, hnext, hfinish, hbefore, hafter, htoken]

theorem safe_mainLoop (n : ℕ) : SafeMain env.opt (mainLoop env fuel n) := by
  induction n with
  | zero => exact upholds_throw ⟨nofun, nofun⟩
  | succ n ih => mvcgen [mainLoop, ih]

theorem safe_main : SafeMain env.opt (main env fuel) := by
  have hstart := safe_onCore (safe_start env fuel)
  mvcgen [main, hstart, safe_mainLoop]

theorem bounded_initial (input : List UInt8) : (Main.initial env input).Bounded := by
  have hps : ParserState.initial.Bounded :=
    ⟨Nat.succ_pos 19, Nat.succ_pos 19, Nat.succ_pos 19, List.length_replicate⟩
  exact ⟨⟨hps, hps, List.length_replicate⟩, fun _ => hps⟩

theorem bounded_started {input : List UInt8} {s : Main} (h : Main.started env fuel input = some s) :
    s.Bounded := by
  have hstart := upholds_iff.mp (safe_onCore (safe_start env fuel)) _ (bounded_initial env input)
  unfold Main.started at h
  cases hrun : onCore (start env fuel) (.initial env input) with
  | error e => simp [hrun] at h
  | ok p =>
    simp only [hrun, Option.some.injEq] at h hstart
    exact h ▸ hstart

theorem Main.Bounded.next? {s s' : Main} {r : Round} (hs : s.Bounded)
    (h : s.next? env fuel r = some s') : s'.Bounded := by
  have hround := upholds_iff.mp (safe_round env fuel) s hs
  unfold Main.next? at h
  cases hrun : round env fuel s with
  | error e => simp [hrun] at h
  | ok p =>
    simp only [hrun, Option.ite_none_right_eq_some, Option.some.injEq] at h hround
    exact h.2 ▸ hround

end BsdAdditions.Indent
