import Mathlib.Data.List.Chain
import BsdAdditions.Common.Run
import BsdAdditions.Indent.Stacks

/-! Which accesses of the statement parser leave its arrays. -/
namespace BsdAdditions.Indent
open Common

namespace Parser

/-! ### Stacks on which nothing is left to reduce -/

/-- The two codes on top are reduced. -/
def Reducible (upper lower : Code) : Prop :=
  (upper = .stmt ∧ (joined lower).isSome) ∨ (upper = .whilestmt ∧ lower = .dohead)

instance (upper lower : Code) : Decidable (Reducible upper lower) := inferInstanceAs (Decidable (_ ∨ _))

def Settled (stack : List Frame) : Prop := stack.IsChain fun f g => ¬ Reducible f.code g.code

/-- A list of statements at the bottom. -/
def Grounded (stack : List Frame) : Prop := ∃ b, stack.getLast? = some b ∧ collects b.code

section Settled
variable {p q : Parser} {f g : Frame} {rest : List Frame}

theorem Grounded.ne_nil {stack : List Frame} (h : Grounded stack) : stack ≠ [] := by
  rintro rfl
  obtain ⟨b, hb, -⟩ := h
  cases hb

theorem grounded_cons (hne : rest ≠ []) : Grounded (f :: rest) ↔ Grounded rest := by
  obtain ⟨g, rest, rfl⟩ := List.exists_cons_of_ne_nil hne
  simp [Grounded, List.getLast?_cons_cons]

/-- What does not collect statements is not at the bottom. -/
theorem Grounded.tail (h : Grounded (f :: rest)) (hf : collects f.code = false) : Grounded rest := by
  cases rest with
  | nil =>
    obtain ⟨b, hb, hcol⟩ := h
    obtain rfl : f = b := Option.some.inj hb
    rw [hf] at hcol
    cases hcol
  | cons g rest => exact (grounded_cons (by simp)).mp h

theorem Grounded.exists_opener (h : Grounded rest) : ∃ g, rest.find? opensStatement = some g := by
  obtain ⟨b, hb, hcol⟩ := h
  have hmem : b ∈ rest := List.mem_of_getLast? hb
  cases hfind : rest.find? opensStatement with
  | some g => exact ⟨g, rfl⟩
  | none =>
    have := List.find?_eq_none.mp hfind b hmem
    exact absurd (opensStatement_of_collects hcol) this

theorem reduceOnce_of_irreducible (hs : p.stack = f :: g :: rest) (h : ¬ Reducible f.code g.code) :
    reduceOnce p = .ok none := by
  obtain ⟨fcode, fil, fc⟩ := f
  obtain ⟨gcode, gil, gc⟩ := g
  rw [reduceOnce, hs]
  cases fcode
  case stmt =>
    cases gcode
    all_goals first | rfl | exact (h (.inl ⟨rfl, rfl⟩)).elim
  case whilestmt =>
    have hg : gcode ≠ .dohead := fun hg => h (.inr ⟨rfl, hg⟩)
    show (if gcode = .dohead then _ else _) = _
    rw [if_neg hg]
    rfl
  all_goals rfl

/-- A statement is joined to what is below it. -/
theorem reduceOnce_of_joined (hs : p.stack = f :: g :: rest) (hf : f.code = .stmt) {c : Code}
    (hc : joined g.code = some c) (hground : Grounded (g :: rest)) :
    ∃ q, reduceOnce p = .ok (some q) ∧ q.stack = { g with code := c } :: rest := by
  obtain ⟨fcode, fil, fc⟩ := f
  obtain ⟨gcode, gil, gc⟩ := g
  obtain rfl : fcode = .stmt := hf
  rw [reduceOnce, hs]
  cases gcode
  case ifstmt =>
    obtain ⟨k, hk⟩ := (hground.tail rfl).exists_opener
    cases hc
    exact ⟨_, by simp only [hk]; rfl, rfl⟩
  all_goals first
    | (cases hc; exact ⟨_, rfl, rfl⟩)
    | cases hc

theorem settled_cons (h : Settled rest) (hf : f.code ≠ .stmt) (hf' : f.code ≠ .whilestmt) :
    Settled (f :: rest) := by
  cases rest with
  | nil => exact .singleton f
  | cons g rest =>
    refine List.isChain_cons_cons.mpr ⟨?_, h⟩
    rintro (⟨hstmt, -⟩ | ⟨hwhile, -⟩)
    · exact hf hstmt
    · exact hf' hwhile

/-- The one statement that the parser starts with. -/
def Bare (stack : List Frame) : Prop := ∃ b, stack = [b] ∧ b.code = .stmt

theorem Settled.reduceOnce (h : Settled p.stack) (hground : Grounded p.stack) (hbare : ¬ Bare p.stack) :
    reduceOnce p = .ok none := by
  cases hs : p.stack with
  | nil => exact (hground.ne_nil hs).elim
  | cons f rest =>
    rw [hs] at h hground hbare
    cases rest with
    | cons g rest => exact reduceOnce_of_irreducible hs (List.isChain_cons_cons.mp h).1
    | nil =>
      obtain ⟨b, hb, hcol⟩ := hground
      obtain rfl : f = b := Option.some.inj hb
      obtain ⟨code, il, c⟩ := f
      rw [Parser.reduceOnce, hs]
      cases code
      case stmt => exact (hbare ⟨_, rfl, rfl⟩).elim
      case stmtl => rfl
      all_goals cases hcol

/-- What `reduce` may find on top without looking below the bottom. -/
structure Reduces (f : Frame) (rest : List Frame) : Prop where
  settled : Settled rest
  grounded : Grounded (f :: rest)
  bare : ¬ Bare (f :: rest)
  bareLoop : f.code = .whilestmt → ∀ d, rest.head? = some d → d.code = .dohead → ¬ Bare rest.tail

theorem Reduces.join (h : Reduces f (g :: rest)) {c : Code} (hc : joined g.code = some c) :
    Reduces { g with code := c } rest := by
  have hground : Grounded (g :: rest) := (grounded_cons (List.cons_ne_nil g rest)).mp h.grounded
  have hwhile : c ≠ .whilestmt := by
    rintro rfl
    obtain ⟨code, il, cs⟩ := g
    cases code <;> cases hc
  cases rest with
  | nil =>
    -- the bottom is a list of statements and stays one
    have hcol : collects g.code := by
      obtain ⟨b, hb, hcol⟩ := hground
      obtain rfl : g = b := Option.some.inj hb
      exact hcol
    obtain rfl : c = .stmtl := by
      obtain ⟨code, il, cs⟩ := g
      cases code <;> first | (cases hc; rfl) | cases hcol
    refine ⟨.nil, ⟨_, rfl, rfl⟩, ?_, fun hf => (hwhile hf).elim⟩
    rintro ⟨b, hb, hbare⟩
    cases hb
    cases hbare
  | cons k rest =>
    refine ⟨h.settled.tail, ?_, ?_, fun hf => (hwhile hf).elim⟩
    · exact (grounded_cons (List.cons_ne_nil k rest)).mpr ((grounded_cons (List.cons_ne_nil k rest)).mp hground)
    · rintro ⟨b, hb, -⟩
      cases hb

theorem Reduces.exists_reduce (h : Reduces f rest) (hs : p.stack = f :: rest) :
    ∃ q, reduce p = .ok q ∧ Settled q.stack ∧ Grounded q.stack := by
  induction rest generalizing f p with
  | nil =>
    have hsettled : Settled p.stack := by rw [hs]; exact .singleton f
    have hground : Grounded p.stack := hs ▸ h.grounded
    have hbare : ¬ Bare p.stack := hs ▸ h.bare
    exact ⟨p, reduce_of_none (hsettled.reduceOnce hground hbare), hsettled, hground⟩
  | cons g rest ih =>
    have hground : Grounded (g :: rest) := (grounded_cons (List.cons_ne_nil g rest)).mp h.grounded
    by_cases hred : Reducible f.code g.code
    · rcases hred with ⟨hf, hj⟩ | ⟨hf, hd⟩
      · obtain ⟨c, hc⟩ := Option.isSome_iff_exists.mp hj
        obtain ⟨q, hq, hqs⟩ := reduceOnce_of_joined hs hf hc hground
        rw [reduce_of_some hq]
        exact ih (h.join hc) hqs
      · have honce : reduceOnce p = .ok (some { p with stack := rest }) := by
          obtain ⟨code, il, c⟩ := f
          obtain rfl : code = .whilestmt := hf
          rw [reduceOnce, hs]
          show (if g.code = .dohead then _ else _) = _
          rw [if_pos hd]
          rfl
        have hsettled : Settled rest := h.settled.tail
        have hground' : Grounded rest := hground.tail (by rw [hd]; rfl)
        rw [reduce_of_some honce]
        exact ⟨_, reduce_of_none (hsettled.reduceOnce hground' (h.bareLoop hf g rfl hd)), hsettled, hground'⟩
    · have hsettled : Settled p.stack := by
        rw [hs]
        exact List.isChain_cons_cons.mpr ⟨hred, h.settled⟩
      exact ⟨p, reduce_of_none (reduceOnce_of_irreducible hs hred), hsettled, hs ▸ h.grounded⟩

theorem exists_endIfsFor {n : ℕ} (hn : p.stack.length < n) (hsettled : Settled p.stack)
    (hground : Grounded p.stack) :
    ∃ q, endIfsFor n p = .ok q ∧ Settled q.stack ∧ Grounded q.stack := by
  induction n generalizing p with
  | zero => omega
  | succ n ih =>
    obtain ⟨f, rest, hs⟩ := List.exists_cons_of_ne_nil hground.ne_nil
    by_cases hf : f.code = .ifhead
    · rw [hs] at hsettled hground
      have hrest : Grounded rest := hground.tail (by rw [hf]; rfl)
      have hreduces : Reduces { f with code := .stmt } rest := by
        refine ⟨hsettled.tail, (grounded_cons hrest.ne_nil).mpr hrest, ?_, fun hf => by cases hf⟩
        rintro ⟨b, hb, -⟩
        exact hrest.ne_nil (List.cons.inj hb).2
      obtain ⟨q, hq, hsettled', hground'⟩ :=
        @hreduces.exists_reduce { p with stack := { f with code := .stmt } :: rest } _ _ rfl
      rw [endIfsFor, hs]
      simp only [hf, if_true, hq]
      show ∃ r, endIfsFor n q = .ok r ∧ _
      rcases length_reduceFor hq with rfl | hlt
      · exact ⟨_, endIfsFor_of_ne rfl (by simp), hsettled', hground'⟩
      · rw [hs] at hn
        simp only [List.length_cons] at hn hlt
        exact ih (by omega) hsettled' hground'
    · exact ⟨p, endIfsFor_of_ne hs hf, hsettled, hground⟩

theorem exists_endIfs (hsettled : Settled p.stack) (hground : Grounded p.stack) :
    ∃ q, endIfs p = .ok q ∧ Settled q.stack ∧ Grounded q.stack :=
  exists_endIfsFor (Nat.lt_succ_self _) hsettled hground

/-- The calls that make `reduce` look below the bottom, with the pending `if`s ended. -/
def Underflows (tk : Code) (stack : List Frame) : Prop :=
  (Bare stack ∧ (tk = .elselit ∨ tk = .rbrace)) ∨
    (tk = .whilestmt ∧ ∃ d, stack.head? = some d ∧ d.code = .dohead ∧ Bare stack.tail)

theorem reduces_push (hsettled : Settled rest) (hground : Grounded rest)
    (hf : f.code = .whilestmt → ∀ d, rest.head? = some d → d.code = .dohead → ¬ Bare rest.tail) :
    Reduces f rest := by
  refine ⟨hsettled, (grounded_cons hground.ne_nil).mpr hground, ?_, hf⟩
  rintro ⟨b, hb, -⟩
  exact hground.ne_nil (List.cons.inj hb).2

theorem reduces_top (hsettled : Settled (f :: rest)) (hground : Grounded (f :: rest))
    (hbare : ¬ Bare (f :: rest)) : Reduces f rest := by
  refine ⟨hsettled.tail, hground, hbare, fun hf d hd hdo => ?_⟩
  obtain ⟨rest', rfl⟩ : ∃ rest', rest = d :: rest' := by
    cases rest with
    | nil => cases hd
    | cons g rest => exact ⟨rest, by rw [Option.some.inj hd]⟩
  exact ((List.isChain_cons_cons.mp hsettled).1 (.inr ⟨hf, hdo⟩)).elim

/-- What a token leaves on top can be reduced within the stack. -/
theorem shift_reduces {opt : Options} {codeEmpty : Bool} {tk : Code} {msg : Option String}
    (hsettled : Settled p.stack) (hground : Grounded p.stack) (hs : p.stack = f :: rest)
    (hflow : ¬ Underflows tk p.stack) (h : shift opt codeEmpty tk f p = some (q, msg)) :
    ∃ g rest', q.stack = g :: rest' ∧ Reduces g rest' := by
  have hpush : ∀ g : Frame, g.code ≠ .whilestmt → Reduces g p.stack := fun g hg =>
    reduces_push hsettled hground fun h => (hg h).elim
  have hstay : ¬ Bare p.stack → ∃ g rest', p.stack = g :: rest' ∧ Reduces g rest' := by
    intro hbare
    rw [hs] at hsettled hground hbare
    exact ⟨f, rest, hs, reduces_top hsettled hground hbare⟩
  cases tk
  case decl =>
    cases h
    unfold shiftDecl
    split
    · split
      all_goals exact ⟨_, _, rfl, hpush _ (by simp)⟩
    case isFalse hdecl =>
      apply hstay
      rintro ⟨b, hb, hbare⟩
      cases hs.symm.trans hb
      rw [hbare] at hdecl
      exact hdecl (by simp)
  case ifstmt =>
    cases h
    unfold shiftIf
    split
    case isTrue helse =>
      rw [hs] at hsettled hground
      have hrest : Grounded rest := hground.tail (by rw [helse.1]; rfl)
      refine ⟨⟨.ifstmt, f.il, 0⟩, rest, ?_, reduces_push hsettled.tail hrest (by simp)⟩
      show _ :: p.stack.tail = _
      rw [hs]
      rfl
    · exact ⟨_, _, rfl, hpush _ (by simp)⟩
  case dolit | forstmt =>
    cases h
    exact ⟨_, _, rfl, hpush _ (by simp)⟩
  case lbrace =>
    cases h
    obtain ⟨il, il', hstack⟩ := shiftLbrace_stack opt codeEmpty f p
    refine ⟨_, _, hstack, reduces_push (settled_cons hsettled (by simp) (by simp)) ?_ (by simp)⟩
    exact (grounded_cons hground.ne_nil).mpr hground
  case whilestmt =>
    have hwhile : ∀ il c, Reduces ⟨.whilestmt, il, c⟩ p.stack := fun il c =>
      reduces_push hsettled hground fun _ d hd hdo hbare => hflow (.inr ⟨rfl, d, hd, hdo, hbare⟩)
    cases h
    unfold shiftWhile
    split <;> exact ⟨_, _, rfl, hwhile _ _⟩
  case elselit =>
    have hbare : ¬ Bare p.stack := fun hbare => hflow (.inl ⟨hbare, .inl rfl⟩)
    rw [shift] at h
    split at h
    · cases h
      exact hstay hbare
    case isFalse hif =>
      cases h
      rw [hs] at hsettled hground
      have hrest : Grounded rest := hground.tail (by rw [not_not.mp hif]; rfl)
      refine ⟨{ f with code := .elsehead }, rest, ?_, reduces_push hsettled.tail hrest (by simp)⟩
      show _ :: p.stack.tail = _
      rw [hs]
      rfl
  case rbrace =>
    have hbare : ¬ Bare p.stack := fun hbare => hflow (.inl ⟨hbare, .inr rfl⟩)
    rw [shift] at h
    split at h
    case h_1 il c rest' htail =>
      cases h
      rw [hs] at hsettled hground htail
      obtain rfl : rest = ⟨.lbrace, il, c⟩ :: rest' := htail
      have hrest : Grounded rest' := ((grounded_cons (by simp)).mp hground).tail rfl
      exact ⟨_, _, rfl, reduces_push hsettled.tail.tail hrest (by simp)⟩
    · cases h
      exact hstay hbare
  case swstmt =>
    cases h
    exact ⟨_, _, rfl, hpush _ (by simp)⟩
  case semicolon =>
    cases h
    exact ⟨_, _, rfl, hpush _ (by simp)⟩
  all_goals cases h

theorem exists_begin (tk : Code) (hsettled : Settled p.stack) (hground : Grounded p.stack) :
    ∃ q, begin tk p = .ok q ∧ Settled q.stack ∧ Grounded q.stack ∧ q.stack.length ≤ p.stack.length := by
  unfold begin
  split
  · exact ⟨p, rfl, hsettled, hground, le_rfl⟩
  · obtain ⟨q, hq, hsettled', hground'⟩ := exists_endIfs hsettled hground
    exact ⟨q, hq, hsettled', hground', length_endIfs_le hq⟩

/-- A token that does not make `reduce` look below the bottom is parsed or is one too many. -/
theorem exists_parse (opt : Options) (codeEmpty : Bool) {tk : Code} (hlen : p.stack.length < stacksize)
    (hsettled : Settled p.stack) (hground : Grounded p.stack)
    (hflow : ∀ q, begin tk p = .ok q → ¬ Underflows tk q.stack) :
    parse opt codeEmpty tk p = .error (.exit "Parser stack overflow") ∨
      ∃ q msg, parse opt codeEmpty tk p = .ok (q, msg) ∧ Settled q.stack ∧ Grounded q.stack ∧
        q.stack.length < stacksize := by
  obtain ⟨q, hq, hsettled', hground', hle⟩ := exists_begin tk hsettled hground
  obtain ⟨f, rest, hs⟩ := List.exists_cons_of_ne_nil hground'.ne_nil
  have heq : parse opt codeEmpty tk p = _ := parse_of_begin hq hs
  cases hshift : shift opt codeEmpty tk f q with
  | none =>
    rw [hshift] at heq
    exact .inr ⟨q, _, heq, hsettled', hground', by omega⟩
  | some r =>
    obtain ⟨r, msg⟩ := r
    rw [hshift] at heq
    by_cases hroom : r.stack.length ≥ stacksize
    · exact .inl (heq.trans (if_pos hroom))
    · obtain ⟨g, rest', hr, hreduces⟩ := shift_reduces hsettled' hground' hs (hflow q hq) hshift
      obtain ⟨u, hu, hsettled'', hground''⟩ := hreduces.exists_reduce hr
      have hle := length_reduce_le hu
      refine .inr ⟨u, msg, heq.trans ?_, hsettled'', hground'', by omega⟩
      show (if r.stack.length ≥ stacksize then _ else _) = _
      rw [if_neg hroom, hu]
      rfl

theorem reduce_bare (h : Bare p.stack) : reduce p = .error .fault := by
  obtain ⟨⟨code, il, c⟩, hb, hcode⟩ := h
  obtain rfl : code = .stmt := hcode
  apply reduce_of_error
  rw [reduceOnce, hb]
  rfl

theorem parse_underflow (opt : Options) (codeEmpty : Bool) {tk : Code} (hq : begin tk p = .ok q)
    (h : Underflows tk q.stack) : parse opt codeEmpty tk p = .error .fault := by
  rcases h with ⟨⟨b, hb, hcode⟩, htk⟩ | ⟨rfl, d, hd, hdo, hbare⟩
  · have hstay : shift opt codeEmpty tk b q = some (q, some (if tk = .elselit then "Unmatched 'else'"
        else "Statement nesting error")) := by
      rcases htk with rfl | rfl
      · rw [shift, if_pos (by simp [hcode])]
        rfl
      · rw [shift, hb]
        rfl
    rw [parse_of_begin hq hb, hstay]
    show (if q.stack.length ≥ stacksize then _ else _) = _
    rw [if_neg (by simp [hb, stacksize]), reduce_bare ⟨b, hb, hcode⟩]
    rfl
  · obtain ⟨rest, hs⟩ : ∃ rest, q.stack = d :: rest := List.head?_eq_some_iff.mp hd
    obtain ⟨b, hb, hcode⟩ := hbare
    rw [hs] at hb
    obtain rfl : rest = [b] := hb
    have hstack : (shiftWhile opt d q).stack = ⟨.whilestmt, d.il, 0⟩ :: d :: [b] := by
      rw [shiftWhile, if_pos hdo, ← hs]
      rfl
    have honce : reduceOnce (shiftWhile opt d q) = .ok (some { shiftWhile opt d q with stack := [b] }) := by
      rw [reduceOnce, hstack]
      show (if d.code = .dohead then _ else _) = _
      rw [if_pos hdo]
      rfl
    rw [parse_of_begin hq hs]
    show (if (shiftWhile opt d q).stack.length ≥ stacksize then _
      else (do pure (← reduce (shiftWhile opt d q), none))) = _
    rw [if_neg (by simp [hstack, stacksize]), reduce_of_some honce, reduce_bare ⟨b, rfl, hcode⟩]
    rfl

end Settled

end Parser

namespace Stacks

/-! ### What every call of the parser may touch -/

/-- One call: the token, whether there is code on the line, and the levels as `main` has set them
since the last call. -/
structure Call where
  tk : Code
  codeEmpty : Bool
  indLevel : ℤ
  iLFollow : ℤ

def atLevels (s : Stacks) (c : Call) : Stacks := { s with indLevel := c.indLevel, iLFollow := c.iLFollow }

def call (opt : Options) (s : Stacks) (c : Call) : Except Halt (Stacks × Option String) :=
  (s.atLevels c).parse opt c.codeEmpty c.tk

/-- The parser after a call that returns. -/
def next? (opt : Options) (s : Stacks) (c : Call) : Option Stacks :=
  match s.call opt c with
  | .ok (t, _) => some t
  | .error _ => none

/-- The parser as `main` starts it. -/
def initial : Stacks where
  pStack i := if i = 0 then .stmt else .eof
  il _ := 0
  cstk _ := 0
  tos := 0
  iLFollow := 0
  indLevel := 0
  searchBrace := false
  breakComma := false
  caseInd := 0

/-- No access is out of range: the call returns, or exits because the nesting is too deep. -/
def InRange : Except Halt (Stacks × Option String) → Prop
  | .ok _ => True
  | .error e => e = .exit "Parser stack overflow"

instance (r : Except Halt (Stacks × Option String)) : Decidable (InRange r) :=
  match r with
  | .ok _ => .isTrue trivial
  | .error e => inferInstanceAs (Decidable (e = _))

/-- The stacks with the pending `if`s ended, as the token needs them. -/
def begin (tk : Code) (s : Stacks) : Except Halt Stacks := if tk = .elselit then pure s else s.endIfs

/-- The two entries of a left brace find room, and the first statement has been parsed before an
unmatched `else`, an unmatched right brace or the `while` of a `do` comes. -/
def Fits (tk : Code) (s : Stacks) : Prop :=
  (tk = .lbrace → s.tos + 2 < stacksize) ∧
    ¬ (s.pStack 0 = .stmt ∧ ((s.tos = 0 ∧ (tk = .elselit ∨ tk = .rbrace)) ∨
      (s.tos = 1 ∧ s.pStack 1 = .dohead ∧ tk = .whilestmt)))

instance (tk : Code) (s : Stacks) : Decidable (Fits tk s) := inferInstanceAs (Decidable (_ ∧ _))

/-- The condition on a call, once the pending `if`s have ended. -/
def CallFits (s : Stacks) (c : Call) : Prop :=
  ∀ t, begin c.tk (s.atLevels c) = .ok t → Fits c.tk t

section Calls
variable {s t : Stacks} {p q : Parser} {opt : Options}

theorem Follows.bare_iff {fs : List Frame} {i : ℤ} (h : Holds s.pStack s.il s.cstk i fs) :
    Parser.Bare fs ↔ i = 0 ∧ s.pStack 0 = .stmt := by
  have hlen := h.length_eq
  constructor
  · rintro ⟨b, rfl, hb⟩
    obtain rfl : i = 0 := by simp at hlen; omega
    exact ⟨rfl, h.1 ▸ hb⟩
  · rintro ⟨rfl, hcode⟩
    obtain ⟨b, rfl⟩ := List.length_eq_one_iff.mp (by omega : fs.length = 1)
    exact ⟨b, rfl, h.1.trans hcode⟩

theorem Follows.underflows_iff (h : Follows s p) (tk : Code) : Parser.Underflows tk p.stack ↔
    s.pStack 0 = .stmt ∧ ((s.tos = 0 ∧ (tk = .elselit ∨ tk = .rbrace)) ∨
      (s.tos = 1 ∧ s.pStack 1 = .dohead ∧ tk = .whilestmt)) := by
  have hframes := h.frames
  rw [Parser.Underflows, Follows.bare_iff hframes]
  cases hs : p.stack with
  | nil =>
    have htos := h.tos_eq
    rw [hs] at htos
    simp only [List.length_nil] at htos
    simp
    omega
  | cons d rest =>
    rw [hs] at hframes
    have hrest := Follows.bare_iff hframes.2.2.2
    simp only [List.head?_cons, List.tail_cons, Option.some.injEq, exists_eq_left', hrest]
    have hone : s.tos - 1 = 0 ↔ s.tos = 1 := by omega
    rw [hframes.1, hone]
    constructor
    · rintro (⟨⟨h0, hb⟩, htk⟩ | ⟨htk, hd, h1, hb⟩)
      · exact ⟨hb, .inl ⟨h0, htk⟩⟩
      · rw [h1] at hd
        exact ⟨hb, .inr ⟨h1, hd, htk⟩⟩
    · rintro ⟨hb, ⟨h0, htk⟩ | ⟨h1, hd, htk⟩⟩
      · exact .inl ⟨⟨h0, hb⟩, htk⟩
      · rw [← h1] at hd
        exact .inr ⟨htk, hd, h1, hb⟩

theorem Follows.begin (h : Follows s p) (hlen : p.stack.length ≤ stacksize) (tk : Code) :
    Agree Follows (begin tk s) (p.begin tk) := by
  unfold Stacks.begin Parser.begin
  split
  · exact h
  · exact h.endIfs hlen

/-- The parsers that calls within range lead to. -/
def Sound (s : Stacks) : Prop :=
  ∃ p : Parser, Follows s p ∧ Parser.Settled p.stack ∧ Parser.Grounded p.stack ∧ p.stack.length < stacksize

theorem sound_initial : Sound initial := by
  refine ⟨⟨[⟨.stmt, 0, 0⟩], 0, 0, false, false, 0⟩, ⟨⟨rfl, rfl, nofun, rfl⟩, rfl, rfl, rfl, rfl, rfl⟩,
    .singleton _, ⟨_, rfl, rfl⟩, ?_⟩
  decide

theorem Sound.atLevels (h : Sound s) (c : Call) : Sound (s.atLevels c) := by
  obtain ⟨p, hp, hsettled, hground, hlen⟩ := h
  exact ⟨{ p with indLevel := c.indLevel, iLFollow := c.iLFollow },
    ⟨hp.frames, rfl, rfl, hp.searchBrace, hp.breakComma, hp.caseInd⟩, hsettled, hground, hlen⟩

theorem openBrace_tos (codeEmpty : Bool) (code : Code) : (openBrace opt codeEmpty code s).tos = s.tos := by
  unfold openBrace
  split
  · rfl
  · split <;> rfl

/-- A left brace without room is written past the end of the arrays. -/
theorem parse_lbrace_fault (codeEmpty : Bool) (hbegin : begin .lbrace s = .ok t) (htos : InArray t.tos)
    (hroom : ¬ t.tos + 2 < stacksize) : s.parse opt codeEmpty .lbrace = .error .fault := by
  have hshift : shiftLbrace opt codeEmpty t = .error .fault := by
    rw [shiftLbrace, read_eq htos]
    show (Stacks.push (openBrace opt codeEmpty (t.pStack t.tos) t) _ _ >>= _) = _
    generalize hu : openBrace opt codeEmpty (t.pStack t.tos) t = u
    have hutos : u.tos = t.tos := by rw [← hu, openBrace_tos]
    by_cases hone : InArray (u.tos + 1)
    · rw [push_eq hone]
      show (write _ (u.tos + 1 + 1) _ >>= _) >>= _ = _
      rw [write_fault (by rintro ⟨-, hlt⟩; omega)]
      rfl
    · rw [push, retop, write_fault hone]
      rfl
  rw [Stacks.parse]
  show (begin .lbrace s >>= fun s => shift opt codeEmpty .lbrace s >>= s.finish) = _
  rw [hbegin]
  show ((shiftLbrace opt codeEmpty t >>= _) >>= _) = _
  rw [hshift]
  rfl

theorem Sound.call_of_fits (h : Sound s) {c : Call} (hfits : CallFits s c) :
    s.call opt c = .error (.exit "Parser stack overflow") ∨ ∃ t msg, s.call opt c = .ok (t, msg) ∧ Sound t := by
  obtain ⟨p, hp, hsettled, hground, hlen⟩ := h.atLevels c
  have hbegin : ∀ q, p.begin c.tk = .ok q →
      ∃ t, Follows t q ∧ Fits c.tk t := by
    intro q hq
    have hagree := hp.begin hlen.le c.tk
    rw [hq] at hagree
    obtain ⟨t, ht, htq⟩ := hagree.of_ok
    exact ⟨t, htq, hfits t ht⟩
  have hbrace : c.tk = .lbrace → ∀ q, p.endIfs = .ok q → q.stack.length + 1 < stacksize := by
    intro hc q hq
    obtain ⟨t, htq, hfit⟩ := hbegin q (by rw [Parser.begin, hc, if_neg nofun, hq])
    have htos := htq.tos_eq
    have := hfit.1 hc
    omega
  have hflow : ∀ q, p.begin c.tk = .ok q → ¬ Parser.Underflows c.tk q.stack := by
    intro q hq
    obtain ⟨t, htq, hfit⟩ := hbegin q hq
    rw [htq.underflows_iff]
    exact hfit.2
  have hagree : Agree _ (s.call opt c) _ := hp.parse hground.ne_nil hlen c.codeEmpty hbrace
  rcases Parser.exists_parse opt c.codeEmpty hlen hsettled hground hflow with
    hexit | ⟨q, msg, hq, hsettled', hground', hlen'⟩
  · rw [hexit] at hagree
    exact .inl hagree.of_error
  · rw [hq] at hagree
    obtain ⟨⟨t, msg'⟩, ht, htq, -⟩ := hagree.of_ok
    exact .inr ⟨t, msg', ht, q, htq, hsettled', hground', hlen'⟩

theorem Sound.call_of_not_fits (h : Sound s) {c : Call} (hfits : ¬ CallFits s c) :
    s.call opt c = .error .fault := by
  obtain ⟨p, hp, hsettled, hground, hlen⟩ := h.atLevels c
  obtain ⟨t, ht, hnot⟩ : ∃ t, begin c.tk (s.atLevels c) = .ok t ∧ ¬ Fits c.tk t := by
    simpa [CallFits] using hfits
  obtain ⟨q, hq, hsettled', hground', hle⟩ := Parser.exists_begin c.tk hsettled hground
  have hagree := hp.begin hlen.le c.tk
  rw [ht, hq] at hagree
  have htq : Follows t q := hagree
  by_cases hroom : c.tk = .lbrace ∧ ¬ t.tos + 2 < stacksize
  · obtain ⟨f, rest, hs⟩ := List.exists_cons_of_ne_nil hground'.ne_nil
    have htos : InArray t.tos := by
      have := htq.tos_eq
      rw [hs, List.length_cons] at this hle
      constructor <;> omega
    rw [call, hroom.1]
    rw [hroom.1] at ht
    exact parse_lbrace_fault c.codeEmpty ht htos hroom.2
  · have hflow : Parser.Underflows c.tk q.stack := by
      rw [htq.underflows_iff]
      by_contra hno
      refine hnot ⟨fun hc => ?_, hno⟩
      by_contra hlt
      exact hroom ⟨hc, hlt⟩
    have hbrace : c.tk = .lbrace → ∀ q, p.endIfs = .ok q → q.stack.length + 1 < stacksize := by
      intro hc
      rw [hc] at hflow
      rcases hflow with ⟨-, h | h⟩ | ⟨h, -⟩ <;> cases h
    have hparse : Agree _ (s.call opt c) _ := hp.parse hground.ne_nil hlen c.codeEmpty hbrace
    rw [Parser.parse_underflow opt c.codeEmpty hq hflow] at hparse
    exact hparse.of_error

theorem Sound.inRange_iff (h : Sound s) (c : Call) : InRange (s.call opt c) ↔ CallFits s c := by
  constructor
  · intro hrange
    by_contra hfits
    rw [h.call_of_not_fits hfits] at hrange
    cases hrange
  · intro hfits
    rcases h.call_of_fits hfits with hexit | ⟨t, msg, ht, -⟩
    · rw [hexit]
      rfl
    · rw [ht]
      trivial

theorem Sound.next? (h : Sound s) {c : Call} (hc : InRange (s.call opt c))
    (hnext : s.next? opt c = some t) : Sound t := by
  rw [Stacks.next?] at hnext
  rcases h.call_of_fits ((h.inRange_iff c).mp hc) with hexit | ⟨u, msg, hu, hsound⟩
  · rw [hexit] at hnext
    cases hnext
  · rw [hu] at hnext
    cases hnext
    exact hsound

end Calls

/-- Along any sequence of calls, every access is within the arrays up to the first call that does
not fit. -/
theorem accesses_in_range_iff (opt : Options) (calls : List Call) :
    StepsMeet (next? opt) (fun s c => InRange (s.call opt c)) initial calls ↔
      StepsMeet (next? opt) CallFits initial calls :=
  stepsMeet_congr (fun _ _ _ hs hc hnext => hs.next? hc hnext) (fun _ c hs => hs.inRange_iff c) calls
    sound_initial

/-- The first statement, then 128 left braces: the last one finds `tos` at 254 and is written to the
entries 255 and 256. -/
theorem nested_braces_leave_arrays : ¬ StepsMeet (next? .default)
    (fun s c => InRange (s.call .default c)) initial
    (⟨.semicolon, true, 0, 0⟩ :: List.replicate 128 ⟨.lbrace, true, 0, 0⟩) := by
  decide +kernel

end Stacks

end BsdAdditions.Indent
