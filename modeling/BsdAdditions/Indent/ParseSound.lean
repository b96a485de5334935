import BsdAdditions.Indent.Io
import BsdAdditions.Indent.Parse

/-! The statement parser returns to where it started. -/
namespace BsdAdditions.Indent.Parser
open Common

/-! ### Reductions -/

/-- What a statement on top turns the code below it into. -/
def joined : Code → Option Code
  | .stmt | .stmtl => some .stmtl
  | .dolit => some .dohead
  | .ifstmt => some .ifhead
  | .swstmt | .decl | .elsehead | .forstmt | .whilestmt => some .stmt
  | _ => none

-- the equations of the two loops, for all the proofs below
attribute [local simp] reduceFor endIfsFor

/-- What one reduction does. -/
theorem reduceOnce_cases {p q : Parser} (h : reduceOnce p = .ok (some q)) :
    (∃ f g rest c level, p.stack = f :: g :: rest ∧ f.code = .stmt ∧ joined g.code = some c ∧
      q = { p with
        stack := { g with code := c } :: rest
        iLFollow := level
        caseInd := if g.code = .swstmt then g.cstk else p.caseInd }) ∨
    (∃ f g rest, p.stack = f :: g :: rest ∧ f.code = .whilestmt ∧ g.code = .dohead ∧
      q = { p with stack := rest }) := by
  unfold reduceOnce at h
  split at h
  · cases h
  case h_2 il c below hstack =>
    split at h
    · cases h
    case h_2 g rest =>
      obtain ⟨code, gil, gc⟩ := g
      cases code
      case ifstmt =>
        dsimp only at h
        split at h
        · cases h
        · cases h
          exact .inl ⟨_, _, _, _, _, hstack, rfl, rfl, rfl⟩
      all_goals first
        | (cases h; exact .inl ⟨_, _, _, _, _, hstack, rfl, rfl, rfl⟩)
        | cases h
  case h_3 il c below hstack =>
    split at h
    · cases h
    case h_2 g rest =>
      split at h
      case isTrue hg =>
        cases h
        exact .inr ⟨_, _, _, hstack, rfl, hg, rfl⟩
      · cases h
  · cases h

/-- A reduction takes one or two levels off the stack. -/
theorem length_reduceOnce {p q : Parser} (h : reduceOnce p = .ok (some q)) :
    q.stack.length < p.stack.length := by
  rcases reduceOnce_cases h with ⟨f, g, rest, c, level, hs, -, -, rfl⟩ | ⟨f, g, rest, hs, -, -, rfl⟩
  · simp [hs]
  · simp only [hs, List.length_cons]
    omega

/-- More rounds than levels make no difference. -/
theorem reduceFor_eq {n m : ℕ} {p : Parser} (hn : p.stack.length < n) (hm : p.stack.length < m) :
    reduceFor n p = reduceFor m p := by
  induction n generalizing m p with
  | zero => omega
  | succ n ih =>
    obtain ⟨m, rfl⟩ : ∃ k, m = k + 1 := ⟨m - 1, by omega⟩
    rw [reduceFor, reduceFor]
    cases h : reduceOnce p with
    | error e => rfl
    | ok r =>
      cases r with
      | none => rfl
      | some q =>
        have := length_reduceOnce h
        exact ih (by omega) (by omega)

theorem reduce_of_none {p : Parser} (h : reduceOnce p = .ok none) : reduce p = .ok p := by
  rw [reduce, reduceFor, h]
  rfl

theorem reduce_of_error {p : Parser} {e : Halt} (h : reduceOnce p = .error e) : reduce p = .error e := by
  rw [reduce, reduceFor, h]
  rfl

theorem reduce_of_some {p q : Parser} (h : reduceOnce p = .ok (some q)) : reduce p = reduce q := by
  have hlen := length_reduceOnce h
  rw [reduce, reduceFor, h, reduce]
  exact reduceFor_eq hlen (Nat.lt_succ_self _)

/-- What a reduction keeps, `reduce` keeps. -/
theorem reduceFor_keeps {P : Parser → Prop} (honce : ∀ p q, P p → reduceOnce p = .ok (some q) → P q)
    {n : ℕ} {p q : Parser} (hp : P p) (h : reduceFor n p = .ok q) : P q := by
  induction n generalizing p with
  | zero =>
    cases h
    exact hp
  | succ n ih =>
    rw [reduceFor] at h
    cases hr : reduceOnce p with
    | error e =>
      rw [hr] at h
      cases h
    | ok r =>
      rw [hr] at h
      cases r with
      | none =>
        cases h
        exact hp
      | some r => exact ih (honce p r hp hr) h

theorem reduce_keeps {P : Parser → Prop} (honce : ∀ p q, P p → reduceOnce p = .ok (some q) → P q)
    {p q : Parser} (hp : P p) (h : reduce p = .ok q) : P q :=
  reduceFor_keeps honce hp h

theorem length_reduceFor {n : ℕ} {p q : Parser} (h : reduceFor n p = .ok q) :
    q = p ∨ q.stack.length < p.stack.length := by
  induction n generalizing p with
  | zero =>
    cases h
    exact .inl rfl
  | succ n ih =>
    rw [reduceFor] at h
    cases hp : reduceOnce p with
    | error e =>
      rw [hp] at h
      cases h
    | ok r =>
      rw [hp] at h
      cases r with
      | none =>
        cases h
        exact .inl rfl
      | some r =>
        have hlen := length_reduceOnce hp
        rcases ih h with rfl | hlt
        · exact .inr hlen
        · exact .inr (by omega)

theorem endIfsFor_of_ne {n : ℕ} {p : Parser} {f : Frame} {rest : List Frame} (hs : p.stack = f :: rest)
    (hf : f.code ≠ .ifhead) : endIfsFor n p = .ok p := by
  cases n with
  | zero => rfl
  | succ n => rw [endIfsFor, hs]; simp [hf]; rfl

theorem endIfs_of_ne {p : Parser} {f : Frame} {rest : List Frame} (hs : p.stack = f :: rest)
    (hf : f.code ≠ .ifhead) : endIfs p = .ok p :=
  endIfsFor_of_ne hs hf

/-- The pending `if`s, one at a time. -/
theorem endIfsFor_eq {n m : ℕ} {p : Parser} (hn : p.stack.length < n) (hm : p.stack.length < m) :
    endIfsFor n p = endIfsFor m p := by
  induction n generalizing m p with
  | zero => omega
  | succ n ih =>
    obtain ⟨m, rfl⟩ : ∃ k, m = k + 1 := ⟨m - 1, by omega⟩
    rw [endIfsFor, endIfsFor]
    split
    case h_1 f rest hs =>
      split
      case isTrue hf =>
        cases hr : reduce { p with stack := { f with code := .stmt } :: rest } with
        | error e => rfl
        | ok q =>
          show endIfsFor n q = endIfsFor m q
          rcases length_reduceFor hr with rfl | hlt
          · rw [endIfsFor_of_ne rfl (by simp), endIfsFor_of_ne rfl (by simp)]
          · rw [hs] at hn hm
            simp only [List.length_cons] at hn hm hlt
            exact ih (by omega) (by omega)
      case isFalse => rfl
    case h_2 => rfl

theorem endIfs_of_ifhead {p q : Parser} {f : Frame} {rest : List Frame} (hs : p.stack = f :: rest)
    (hf : f.code = .ifhead) (hr : reduce { p with stack := { f with code := .stmt } :: rest } = .ok q) :
    endIfs p = endIfs q := by
  rw [endIfs, endIfsFor, hs]
  simp only [hf, if_true, hr]
  show endIfsFor (f :: rest).length q = endIfs q
  rcases length_reduceFor hr with rfl | hlt
  · rw [endIfsFor_of_ne rfl (by simp), endIfs_of_ne rfl (by simp)]
  · exact endIfsFor_eq (by simpa using hlt) (Nat.lt_succ_self _)

theorem endIfs_eq_bind {p : Parser} {f : Frame} {rest : List Frame} (hs : p.stack = f :: rest)
    (hf : f.code = .ifhead) :
    endIfs p = reduce { p with stack := { f with code := .stmt } :: rest } >>= endIfs := by
  cases hr : reduce { p with stack := { f with code := .stmt } :: rest } with
  | error e =>
    rw [endIfs, endIfsFor, hs]
    simp only [hf, if_true, hr]
    rfl
  | ok q => exact endIfs_of_ifhead hs hf hr

/-- What a reduction keeps, and the end of an `if` without `else`, the loop over these keeps. -/
theorem endIfs_keeps {P : Parser → Prop} (honce : ∀ p q, P p → reduceOnce p = .ok (some q) → P q)
    (hend : ∀ p f rest, P p → p.stack = f :: rest → f.code = .ifhead →
      P { p with stack := { f with code := .stmt } :: rest })
    {p q : Parser} (hp : P p) (h : endIfs p = .ok q) : P q := by
  rw [endIfs] at h
  generalize p.stack.length + 1 = n at h
  induction n generalizing p with
  | zero =>
    cases h
    exact hp
  | succ n ih =>
    cases hs : p.stack with
    | nil =>
      rw [endIfsFor, hs] at h
      cases h
    | cons f rest =>
      by_cases hf : f.code = .ifhead
      · rw [endIfsFor, hs] at h
        simp only [hf, if_true] at h
        cases hr : reduce { p with stack := { f with code := .stmt } :: rest } with
        | error e =>
          rw [hr] at h
          cases h
        | ok r =>
          rw [hr] at h
          exact ih (reduce_keeps honce (hend p f rest hp hs hf) hr) h
      · rw [endIfsFor_of_ne hs hf] at h
        cases h
        exact hp

theorem length_reduce_le {p q : Parser} (h : reduce p = .ok q) : q.stack.length ≤ p.stack.length :=
  reduce_keeps (P := fun r => r.stack.length ≤ p.stack.length)
    (fun _ _ hle honce => (length_reduceOnce honce).le.trans hle) le_rfl h

theorem length_endIfs_le {p q : Parser} (h : endIfs p = .ok q) : q.stack.length ≤ p.stack.length := by
  apply endIfs_keeps (P := fun r => r.stack.length ≤ p.stack.length) _ _ le_rfl h
  · exact fun _ _ hle honce => (length_reduceOnce honce).le.trans hle
  · intro r f rest hle hs _
    rw [hs] at hle
    exact hle

theorem endIfsFor_ne_nil {n : ℕ} {p q : Parser} (hn : p.stack.length < n) (h : endIfsFor n p = .ok q) :
    q.stack ≠ [] := by
  induction n generalizing p with
  | zero => omega
  | succ n ih =>
    cases hs : p.stack with
    | nil =>
      rw [endIfsFor, hs] at h
      cases h
    | cons f rest =>
      by_cases hf : f.code = .ifhead
      · rw [endIfsFor, hs] at h
        simp only [hf, if_true] at h
        cases hr : reduce { p with stack := { f with code := .stmt } :: rest } with
        | error e =>
          rw [hr] at h
          cases h
        | ok r =>
          rw [hr] at h
          rcases length_reduceFor hr with rfl | hlt
          · have hr : endIfsFor n { p with stack := { f with code := .stmt } :: rest } = .ok q := h
            rw [endIfsFor_of_ne rfl (by simp)] at hr
            cases hr
            simp
          · rw [hs] at hn
            simp only [List.length_cons] at hn hlt
            exact ih (by omega) h
      · rw [endIfsFor_of_ne hs hf] at h
        cases h
        rw [hs]
        simp

theorem endIfs_ne_nil {p q : Parser} (h : endIfs p = .ok q) : q.stack ≠ [] :=
  endIfsFor_ne_nil (Nat.lt_succ_self _) h

theorem shiftLbrace_stack (opt : Options) (codeEmpty : Bool) (top : Frame) (p : Parser) :
    ∃ il il', (shiftLbrace opt codeEmpty top p).stack = ⟨.stmt, il, 0⟩ :: ⟨.lbrace, il', 0⟩ :: p.stack := by
  unfold shiftLbrace
  split
  · exact ⟨_, _, rfl⟩
  · split <;> exact ⟨_, _, rfl⟩

/-! ### The level of the line does not matter to reductions -/

/-- The parser on a line that is at another level. -/
def atLevel (p : Parser) (x : ℤ) : Parser := { p with indLevel := x }

theorem reduceOnce_atLevel (p : Parser) (x : ℤ) :
    reduceOnce (p.atLevel x) = (reduceOnce p).map fun r => r.map (·.atLevel x) := by
  obtain ⟨stack, iLFollow, indLevel, searchBrace, breakComma, caseInd⟩ := p
  rcases stack with _ | ⟨⟨code, il, c⟩, below⟩
  · rfl
  cases code
  case stmt =>
    rcases below with _ | ⟨⟨code, il', c'⟩, rest⟩
    · rfl
    cases code
    case ifstmt =>
      simp only [reduceOnce, atLevel]
      cases rest.find? opensStatement <;> rfl
    all_goals rfl
  case whilestmt =>
    rcases below with _ | ⟨⟨code, il', c'⟩, rest⟩
    · rfl
    cases code <;> rfl
  all_goals rfl

theorem reduceFor_atLevel (n : ℕ) (p : Parser) (x : ℤ) :
    reduceFor n (p.atLevel x) = (reduceFor n p).map (·.atLevel x) := by
  induction n generalizing p with
  | zero => rfl
  | succ n ih =>
    rw [reduceFor, reduceFor, reduceOnce_atLevel]
    cases reduceOnce p with
    | error e => rfl
    | ok r =>
      cases r with
      | none => rfl
      | some q => exact ih q

theorem reduce_atLevel (p : Parser) (x : ℤ) : reduce (p.atLevel x) = (reduce p).map (·.atLevel x) :=
  reduceFor_atLevel _ p x

theorem endIfsFor_atLevel (n : ℕ) (p : Parser) (x : ℤ) :
    endIfsFor n (p.atLevel x) = (endIfsFor n p).map (·.atLevel x) := by
  induction n generalizing p with
  | zero => rfl
  | succ n ih =>
    rw [endIfsFor, endIfsFor]
    simp only [atLevel]
    split
    case h_1 f rest hs =>
      split
      case isTrue hf =>
        have hr := reduce_atLevel { p with stack := { f with code := .stmt } :: rest } x
        simp only [atLevel] at hr
        rw [hr]
        cases reduce { p with stack := { f with code := .stmt } :: rest } with
        | error e => rfl
        | ok q => exact ih q
      case isFalse => rfl
    case h_2 => rfl

theorem endIfs_atLevel (p : Parser) (x : ℤ) : endIfs (p.atLevel x) = (endIfs p).map (·.atLevel x) :=
  endIfsFor_atLevel _ p x

/-! ### A statement on top of the stack -/

/-- Nothing on the stack is left to reduce. -/
def Quiet (stack : List Frame) : Prop := ∀ p : Parser, p.stack = stack → reduceOnce p = .ok none

/-- Codes under which statements are collected. -/
def collects : Code → Bool
  | .stmt | .stmtl => true
  | _ => false

/-- Codes that wait for one statement, their body. -/
def isHead : Code → Bool
  | .ifstmt | .elsehead | .whilestmt | .forstmt | .dolit | .swstmt => true
  | _ => false

theorem collects_of_isHead {code : Code} (h : isHead code) : collects code = false := by
  cases code <;> first | rfl | cases h

/-- The stacks, with the level of the next line, on which a statement may start: heads that wait
for their body, each with the level of the statement it belongs to, above a list of statements. -/
inductive Context : List Frame → ℤ → Prop where
  | list {f : Frame} {rest : List Frame} (hf : collects f.code) (hquiet : Quiet (f :: rest)) :
    Context (f :: rest) f.il
  | head {h : Frame} {stack : List Frame} {level : ℤ} (hh : isHead h.code) (hstack : Context stack h.il) :
    Context (h :: stack) level

theorem Context.of_head {h : Frame} {stack : List Frame} {level : ℤ} (hctx : Context (h :: stack) level)
    (hh : isHead h.code) : Context stack h.il := by
  cases hctx with
  | list hc _ =>
    rw [collects_of_isHead hh] at hc
    cases hc
  | head _ hstack => exact hstack

theorem Context.exists_top {stack : List Frame} {level : ℤ} (h : Context stack level) :
    ∃ f rest, stack = f :: rest ∧ (collects f.code ∨ isHead f.code) := by
  cases h with
  | list hf _ => exact ⟨_, _, rfl, .inl hf⟩
  | head hh _ => exact ⟨_, _, rfl, .inr hh⟩

theorem ne_of_top {code code' : Code} (h : collects code ∨ isHead code) (hc : collects code' = false)
    (hh : isHead code' = false) : code ≠ code' := by
  rintro rfl
  simp [hc, hh] at h

theorem Context.quiet {stack : List Frame} {level : ℤ} (h : Context stack level) : Quiet stack := by
  cases h with
  | list _ hquiet => exact hquiet
  | @head h stack _ hh hstack =>
    intro p hp
    obtain ⟨code, il, c⟩ := h
    obtain ⟨⟨code', il', c'⟩, rest, rfl, htop⟩ := hstack.exists_top
    rw [reduceOnce, hp]
    cases code
    case whilestmt =>
      have hne : code' ≠ .dohead := ne_of_top htop rfl rfl
      simp only [hne, if_false]
      rfl
    all_goals first | rfl | cases hh

theorem opensStatement_of_collects {f : Frame} (hf : collects f.code) : opensStatement f = true := by
  obtain ⟨code, il, c⟩ := f
  cases code <;> first | rfl | cases hf

theorem opensStatement_of_isHead {f : Frame} (hf : isHead f.code) : opensStatement f = false := by
  obtain ⟨code, il, c⟩ := f
  cases code <;> first | rfl | cases hf

theorem find?_head {h : Frame} {stack : List Frame} (hh : isHead h.code) :
    (h :: stack).find? opensStatement = stack.find? opensStatement :=
  List.find?_cons_of_neg (by simp [opensStatement_of_isHead hh])

theorem find?_list {f : Frame} {rest : List Frame} (hf : collects f.code) :
    (f :: rest).find? opensStatement = some f :=
  List.find?_cons_of_pos (opensStatement_of_collects hf)

/-- The list of statements at the bottom of a context. -/
theorem Context.exists_opener {stack : List Frame} {level : ℤ} (h : Context stack level) :
    ∃ g, stack.find? opensStatement = some g := by
  induction h with
  | list hf _ => exact ⟨_, find?_list hf⟩
  | head hh _ ih => exact (find?_head hh).symm ▸ ih

/-- The next reduction, when a statement has ended in the context. -/
def afterStatement (q : Parser) (h : Frame) (stack : List Frame) : Parser :=
  { q with
    stack := { h with code := .stmt } :: stack
    iLFollow := h.il
    caseInd := if h.code = .swstmt then h.cstk else q.caseInd }

section Statement
variable {q : Parser} {f h : Frame} {rest : List Frame} {il : ℤ} {c : ℚ}

theorem reduce_list (hs : q.stack = ⟨.stmt, il, c⟩ :: f :: rest) (hf : collects f.code) :
    reduce q = .ok { q with stack := { f with code := .stmtl } :: rest } := by
  have honce : reduceOnce q = .ok (some { q with stack := { f with code := .stmtl } :: rest }) := by
    rw [reduceOnce, hs]
    obtain ⟨code, il, c⟩ := f
    cases code <;> first | rfl | cases hf
  rw [reduce_of_some honce]
  exact reduce_of_none rfl

theorem reduce_dolit (hs : q.stack = ⟨.stmt, il, c⟩ :: h :: rest) (hh : h.code = .dolit) :
    reduce q = .ok { q with stack := { h with code := .dohead } :: rest, iLFollow := h.il } := by
  have honce : reduceOnce q =
      .ok (some { q with stack := { h with code := .dohead } :: rest, iLFollow := h.il }) := by
    rw [reduceOnce, hs]
    simp only [hh]
    rfl
  rw [reduce_of_some honce]
  exact reduce_of_none rfl

theorem reduce_ifstmt {g : Frame} (hs : q.stack = ⟨.stmt, il, c⟩ :: h :: rest) (hh : h.code = .ifstmt)
    (hg : rest.find? opensStatement = some g) :
    reduce q = .ok { q with stack := { h with code := .ifhead } :: rest, iLFollow := g.il } := by
  have honce : reduceOnce q =
      .ok (some { q with stack := { h with code := .ifhead } :: rest, iLFollow := g.il }) := by
    rw [reduceOnce, hs]
    simp only [hh, hg]
    rfl
  rw [reduce_of_some honce]
  exact reduce_of_none rfl

/-- The other heads are done with their body, and are statements in turn. -/
def endsWithBody : Code → Bool
  | .decl | .elsehead | .forstmt | .whilestmt | .swstmt => true
  | _ => false

theorem reduce_head (hs : q.stack = ⟨.stmt, il, c⟩ :: h :: rest) (hh : endsWithBody h.code) :
    reduce q = reduce (q.afterStatement h rest) := by
  refine reduce_of_some ?_
  rw [reduceOnce, hs, afterStatement]
  obtain ⟨code, il, c⟩ := h
  cases code <;> first | rfl | cases hh

end Statement

/-- In a context, the end of a statement is never beyond the parser. -/
theorem Context.exists_reduce {stack : List Frame} {level : ℤ} (h : Context stack level) {q : Parser}
    {il : ℤ} {c : ℚ} (hs : q.stack = ⟨.stmt, il, c⟩ :: stack) : ∃ r, reduce q = .ok r := by
  induction h generalizing q il c with
  | list hf _ => exact ⟨_, reduce_list hs hf⟩
  | @head h stack _ hh hstack ih =>
    by_cases hdo : h.code = .dolit
    · exact ⟨_, reduce_dolit hs hdo⟩
    by_cases hif : h.code = .ifstmt
    · obtain ⟨g, hg⟩ := hstack.exists_opener
      exact ⟨_, reduce_ifstmt hs hif hg⟩
    have hbody : endsWithBody h.code := by
      obtain ⟨code, il, c⟩ := h
      cases code <;> first | rfl | exact absurd rfl hdo | exact absurd rfl hif | cases hh
    rw [reduce_head hs hbody]
    exact ih rfl

/-- The statement goes to a list of statements. -/
def collecting : List Frame → Bool
  | f :: _ => collects f.code
  | [] => false

theorem Context.opener_il {stack : List Frame} {level : ℤ} {g : Frame} (h : Context stack level)
    (hg : stack.find? opensStatement = some g) (hc : collecting stack) : g.il = level := by
  cases h with
  | list hf _ => rw [← Option.some.inj ((find?_list hf).symm.trans hg)]
  | @head h _ _ hh _ =>
    rw [collecting, collects_of_isHead hh] at hc
    cases hc

/-- What is on the top of the stack, and the level it has left, do not matter to what comes of it,
other than the level to a list of statements. -/
theorem Context.reduce_congr {stack : List Frame} {level : ℤ} (h : Context stack level) {q : Parser}
    {il il' x : ℤ} {c c' : ℚ} (hs : q.stack = ⟨.stmt, il, c⟩ :: stack)
    (hx : collecting stack → x = q.iLFollow) :
    reduce { q with stack := ⟨.stmt, il', c'⟩ :: stack, iLFollow := x } = reduce q := by
  cases h with
  | list hf _ => rw [reduce_list hs hf, reduce_list rfl hf, hx hf]
  | @head h stack _ hh hstack =>
    by_cases hdo : h.code = .dolit
    · rw [reduce_dolit hs hdo, reduce_dolit rfl hdo]
    by_cases hif : h.code = .ifstmt
    · obtain ⟨g, hg⟩ := hstack.exists_opener
      rw [reduce_ifstmt hs hif hg, reduce_ifstmt rfl hif hg]
    have hbody : endsWithBody h.code := by
      obtain ⟨code, il, c⟩ := h
      cases code <;> first | rfl | exact absurd rfl hdo | exact absurd rfl hif | cases hh
    rw [reduce_head hs hbody, reduce_head rfl hbody]
    rfl

/-! ### The end of a statement -/

/-- The parser reaches `r` when a statement that started at `p` has ended. -/
structure Ends (p q r : Parser) : Prop where
  stack : ∃ il c, q.stack = ⟨.stmt, il, c⟩ :: p.stack
  caseInd : q.caseInd = p.caseInd
  level : collecting p.stack → q.iLFollow = p.iLFollow
  reduce : reduce q = .ok r

/-- After the last token of a statement that started at `p`. A statement that an `else` may still
follow is left as it is. -/
def Completes (closed : Bool) (p p' : Parser) : Prop :=
  ∃ q r, Ends p q r ∧
    if closed then p' = r
    else endIfs p' = endIfs r ∧ ∀ g, p.stack.find? opensStatement = some g → p'.iLFollow = g.il

theorem Completes.mono {closed : Bool} {p pb p' : Parser} (h : Completes closed pb p')
    (hfind : p.stack.find? opensStatement = pb.stack.find? opensStatement)
    (hends : ∀ q r, Ends pb q r → ∃ q', Ends p q' r) : Completes closed p p' := by
  obtain ⟨q, r, hqr, hp'⟩ := h
  obtain ⟨q', hqr'⟩ := hends q r hqr
  refine ⟨q', r, hqr', ?_⟩
  cases closed with
  | true => exact hp'
  | false => exact ⟨hp'.1, fun g hg => hp'.2 g (hfind.symm.trans hg)⟩

section Body
variable {closed : Bool} {p pb p' : Parser} {h : Frame}

/-- The body of a loop, of a `switch` or of an `else` ends the whole statement. -/
theorem Completes.of_body (hb : Completes closed pb p') (hs : pb.stack = h :: p.stack)
    (hh : isHead h.code) (hends : endsWithBody h.code) (hil : h.il = p.iLFollow)
    (hcase : (if h.code = .swstmt then h.cstk else pb.caseInd) = p.caseInd) : Completes closed p p' := by
  refine hb.mono ((hs ▸ find?_head hh).symm) fun q r hqr => ?_
  obtain ⟨il, c, hq⟩ := hqr.stack
  refine ⟨q.afterStatement h p.stack, ⟨_, _, rfl⟩, ?_, fun _ => hil, ?_⟩
  · rw [← hcase, ← hqr.caseInd]
    rfl
  · rw [← reduce_head (hs ▸ hq) hends, hqr.reduce]

/-- So does the branch of an `if`, once it is clear that no `else` follows. -/
theorem Completes.of_ifThen (hb : Completes closed pb p') (hs : pb.stack = h :: p.stack)
    (hh : h.code = .ifstmt) (hp : Context p.stack p.iLFollow) (hcase : pb.caseInd = p.caseInd) :
    Completes false p p' := by
  obtain ⟨qb, rb, hqr, hp'⟩ := hb
  obtain ⟨il, c, hq⟩ := hqr.stack
  obtain ⟨g, hg⟩ := hp.exists_opener
  have hfind : pb.stack.find? opensStatement = some g := by
    rw [hs, find?_head (by rw [hh]; rfl), hg]
  have hrb := (reduce_ifstmt (hs ▸ hq) hh hg).symm.trans hqr.reduce
  obtain rfl := Except.ok.inj hrb
  obtain ⟨r, hr⟩ := hp.exists_reduce (q := { qb with
    stack := { h with code := .stmt } :: p.stack, iLFollow := g.il }) rfl
  have hend : endIfs { qb with stack := { h with code := .ifhead } :: p.stack, iLFollow := g.il } =
      endIfs r := endIfs_of_ifhead rfl rfl hr
  refine ⟨{ qb with stack := { h with code := .stmt } :: p.stack, iLFollow := g.il }, r,
    ⟨⟨_, _, rfl⟩, hqr.caseInd.trans hcase, fun hc => hp.opener_il hg hc, hr⟩, ?_⟩
  cases closed with
  | true =>
    obtain rfl : p' = _ := hp'
    refine ⟨hend, fun g' hg' => ?_⟩
    rw [← Option.some.inj (hg.symm.trans hg')]
  | false =>
    refine ⟨hp'.1.trans hend, fun g' hg' => hp'.2 g' (hfind.trans (hg.symm.trans hg'))⟩

/-- With `else if` on one level, the `else` is dropped and the `if` takes its place. -/
theorem Completes.of_elseIf {stack : List Frame}
    (hb : Completes closed { p with stack := stack, iLFollow := h.il } p') (hs : p.stack = h :: stack)
    (hh : h.code = .elsehead) (hstack : Context stack h.il) : Completes closed p p' := by
  have hhead : isHead h.code := by rw [hh]; rfl
  refine hb.mono (hs ▸ find?_head hhead) fun q r hqr => ?_
  obtain ⟨il, c, hq⟩ := hqr.stack
  refine ⟨{ q with stack := ⟨.stmt, il, c⟩ :: p.stack }, ⟨_, _, rfl⟩, hqr.caseInd, fun hc => ?_, ?_⟩
  · simp [hs, collecting, hh, collects] at hc
  · have hq' : (⟨.stmt, il, c⟩ :: p.stack : List Frame) = ⟨.stmt, il, c⟩ :: h :: stack := by rw [hs]
    rw [reduce_head hq' (by rw [hh]; rfl), ← hqr.reduce, afterStatement]
    simp only [hh, reduceCtorEq, if_false]
    exact hstack.reduce_congr hq fun hc => (hqr.level hc).symm

end Body

/-! ### The tokens of statements -/

/-- What has happened since the last token: `dump_line` has run, or there is code on the line. -/
inductive Gap where
  | dumped
  | onLine
  deriving DecidableEq

def lineLevel (p : Parser) : Gap → ℤ
  | .dumped => p.iLFollow
  | .onLine => p.indLevel

def feedOne (opt : Options) (p : Parser) (t : Gap × Code) : Except Halt Parser := do
  let (q, _) ← parse opt (t.1 = .dumped) t.2 (p.atLevel (p.lineLevel t.1))
  pure q

def feed (opt : Options) (p : Parser) (ts : List (Gap × Code)) : Except Halt Parser :=
  ts.foldlM (feedOne opt) p

/-- The parser gives up only when its stack is full. -/
def Outcome (r : Except Halt Parser) (post : Parser → Prop) : Prop :=
  r = .error (.exit "Parser stack overflow") ∨ ∃ p, r = .ok p ∧ post p

theorem Outcome.bind {r : Except Halt Parser} {k : Parser → Except Halt Parser}
    {mid post : Parser → Prop} (h : Outcome r mid) (hk : ∀ p, mid p → Outcome (k p) post) :
    Outcome (r >>= k) post := by
  rcases h with rfl | ⟨p, rfl, hp⟩
  · exact .inl rfl
  · exact hk p hp

theorem Outcome.mono {r : Except Halt Parser} {post post' : Parser → Prop} (h : Outcome r post)
    (hpost : ∀ p, post p → post' p) : Outcome r post' :=
  h.imp_right fun ⟨p, hr, hp⟩ => ⟨p, hr, hpost p hp⟩

theorem parse_eq (opt : Options) (codeEmpty : Bool) (tk : Code) (p : Parser) :
    parse opt codeEmpty tk p = ((if tk = .elselit then pure p else endIfs p) >>= fun p =>
      match p.stack with
      | [] => throw .fault
      | top :: _ =>
        match shift opt codeEmpty tk top p with
        | none => pure (p, some "Unknown code to parser")
        | some (q, msg) =>
          if q.stack.length ≥ stacksize then throw (.exit "Parser stack overflow")
          else (do pure (← reduce q, msg))) := by
  unfold parse
  split <;> rfl

/-- The parser with the pending `if`s ended, as the token needs it. -/
def begin (tk : Code) (p : Parser) : Except Halt Parser := if tk = .elselit then pure p else endIfs p

theorem parse_of_begin {p q : Parser} {f : Frame} {rest : List Frame} {opt : Options}
    {codeEmpty : Bool} {tk : Code} (hq : begin tk p = .ok q)
    (hs : q.stack = f :: rest) : parse opt codeEmpty tk p =
      match shift opt codeEmpty tk f q with
      | none => pure (q, some "Unknown code to parser")
      | some (r, msg) =>
        if r.stack.length ≥ stacksize then throw (.exit "Parser stack overflow")
        else (do pure (← reduce r, msg)) := by
  rw [parse_eq]
  show (begin tk p >>= fun p => _) = _
  rw [hq]
  show (match q.stack with
    | [] => _
    | top :: _ => _) = _
  rw [hs]

/-- What a call that returns has done. -/
theorem parse_cases {p q : Parser} {opt : Options} {codeEmpty : Bool} {tk : Code} {msg : Option String}
    (h : parse opt codeEmpty tk p = .ok (q, msg)) : ∃ r top rest, begin tk p = .ok r ∧
      r.stack = top :: rest ∧ ((shift opt codeEmpty tk top r = none ∧ q = r) ∨
        ∃ u, shift opt codeEmpty tk top r = some (u, msg) ∧ reduce u = .ok q) := by
  cases hr : begin tk p with
  | error e =>
    rw [parse_eq] at h
    replace h : (begin tk p >>= _) = _ := h
    rw [hr] at h
    cases h
  | ok r =>
    cases hs : r.stack with
    | nil =>
      rw [parse_eq] at h
      replace h : (begin tk p >>= _) = _ := h
      rw [hr] at h
      simp [bind, Except.bind, hs] at h
    | cons top rest =>
      refine ⟨r, top, rest, rfl, hs, ?_⟩
      rw [parse_of_begin hr hs] at h
      cases hshift : shift opt codeEmpty tk top r with
      | none =>
        rw [hshift] at h
        cases h
        exact .inl ⟨rfl, rfl⟩
      | some u =>
        obtain ⟨u, msg'⟩ := u
        rw [hshift] at h
        replace h : (if u.stack.length ≥ stacksize then _ else _) = _ := h
        split at h
        · cases h
        · cases hu : reduce u with
          | error e =>
            rw [hu] at h
            cases h
          | ok v =>
            rw [hu] at h
            cases h
            exact .inr ⟨u, rfl, hu⟩

section Feed
variable {opt : Options} {p₀ p q r : Parser} {t : Gap × Code} {ts us : List (Gap × Code)}
  {mid post : Parser → Prop}

theorem Outcome.cons (h : Outcome (feedOne opt p t) mid)
    (hts : ∀ q, mid q → Outcome (feed opt q ts) post) : Outcome (feed opt p (t :: ts)) post := by
  rw [feed, List.foldlM_cons]
  exact h.bind hts

theorem Outcome.append (h : Outcome (feed opt p ts) mid)
    (hus : ∀ q, mid q → Outcome (feed opt q us) post) : Outcome (feed opt p (ts ++ us)) post := by
  rw [feed, List.foldlM_append]
  exact h.bind hus

theorem Outcome.single (h : Outcome (feedOne opt p t) post) : Outcome (feed opt p [t]) post :=
  h.cons fun q hq => .inr ⟨q, rfl, hq⟩

/-- What the parser works on at a token: it ends the pending `if`s first, unless the token is an
`else`. -/
def Settles (tk : Code) (p₀ p : Parser) : Prop :=
  tk = .elselit ∧ p₀ = p ∨ tk ≠ .elselit ∧ endIfs p₀ = .ok p

theorem Settles.atLevel {tk : Code} (h : Settles tk p₀ p) (x : ℤ) :
    (if tk = .elselit then pure (p₀.atLevel x) else endIfs (p₀.atLevel x)) = .ok (p.atLevel x) := by
  rcases h with ⟨htk, rfl⟩ | ⟨htk, hend⟩
  · rw [if_pos htk]
    rfl
  · rw [if_neg htk, endIfs_atLevel, hend]
    rfl

/-- A token that fits. -/
theorem outcome_shift {g : Gap} {tk : Code} {top : Frame} {rest : List Frame} {msg : Option String}
    (hset : Settles tk p₀ p) (hs : p.stack = top :: rest)
    (hshift : shift opt (g = .dumped) tk top (p.atLevel (p₀.lineLevel g)) = some (q, msg))
    (hr : reduce q = .ok r) : Outcome (feedOne opt p₀ (g, tk)) (· = r) := by
  have hparse : parse opt (g = .dumped) tk (p₀.atLevel (p₀.lineLevel g)) =
      if q.stack.length ≥ stacksize then throw (.exit "Parser stack overflow") else .ok (r, msg) := by
    have hs' : (p.atLevel (p₀.lineLevel g)).stack = top :: rest := hs
    rw [parse_eq, hset.atLevel]
    simp only [bind, Except.bind, hs', hshift, hr]
    rfl
  unfold feedOne
  rw [hparse]
  by_cases hfull : q.stack.length ≥ stacksize
  · rw [if_pos hfull]
    exact .inl rfl
  · rw [if_neg hfull]
    exact .inr ⟨r, rfl, rfl⟩

end Feed

/-! ### Each shape of statement -/

/-- The tokens make up a statement: fed to the parser in any context, they complete one. The
parser may still have `if`s to end before. A statement is a body or it is one of a list. -/
def Parses (opt : Options) (body closed : Bool) (ts : List (Gap × Code)) : Prop :=
  ∀ ⦃p₀ p : Parser⦄, endIfs p₀ = .ok p → p₀.iLFollow = p.iLFollow → Context p.stack p.iLFollow →
    collecting p.stack = !body → Outcome (feed opt p₀ ts) (Completes closed p)

/-- Between two statements of a list, once the pending `if`s have ended. -/
structure Collected (il : ℤ) (c : ℚ) (rest : List Frame) (caseInd : ℚ) (p₀ p : Parser) : Prop where
  pending : endIfs p₀ = .ok p
  stack : ∃ code, collects code ∧ p.stack = ⟨code, il, c⟩ :: rest
  quiet : Quiet p.stack
  pendingLevel : p₀.iLFollow = il
  level : p.iLFollow = il
  caseInd : p.caseInd = caseInd

def ParsesItems (opt : Options) (ts : List (Gap × Code)) : Prop :=
  ∀ ⦃il c rest k p₀ p⦄, Collected il c rest k p₀ p →
    Outcome (feed opt p₀ ts) fun p₀' => ∃ p', Collected il c rest k p₀' p'

theorem Context.endIfs {p : Parser} {level : ℤ} (h : Context p.stack level) : endIfs p = .ok p := by
  obtain ⟨f, rest, hs, hf⟩ := h.exists_top
  exact endIfs_of_ne hs (ne_of_top hf rfl rfl)

theorem Completes.exists_endIfs {closed : Bool} {p p' : Parser} (h : Completes closed p p') :
    ∃ q r, Ends p q r ∧ Parser.endIfs p' = Parser.endIfs r := by
  obtain ⟨q, r, hqr, hp'⟩ := h
  refine ⟨q, r, hqr, ?_⟩
  cases closed with
  | true => exact congrArg _ hp'
  | false => exact hp'.1

section Shapes
variable {opt : Options} {body closed : Bool} {p₀ p : Parser} {g g' : Gap}
  {ts us : List (Gap × Code)}

/-- Once its head is on the stack, the body follows. -/
theorem Parses.after_head {tk : Code} {top h : Frame} {rest : List Frame} {pb : Parser}
    (hts : Parses opt true closed ts)
    (hset : Settles tk p₀ p) (hs : p.stack = top :: rest)
    (hshift : shift opt (g = .dumped) tk top (p.atLevel (p₀.lineLevel g)) = some (pb, none))
    {s : List Frame} (hpb : pb.stack = h :: s) (hh : isHead h.code) (hs' : Context s h.il) :
    Outcome (feed opt p₀ ((g, tk) :: ts)) (Completes closed pb) := by
  have hctx : Context pb.stack pb.iLFollow := hpb ▸ .head hh hs'
  refine (outcome_shift hset hs hshift (reduce_of_none (hctx.quiet pb rfl))).cons ?_
  rintro q rfl
  refine hts hctx.endIfs rfl hctx ?_
  rw [hpb]
  exact collects_of_isHead hh

theorem Parses.simple : Parses opt body true [(g, .semicolon)] := by
  intro p₀ p hend _ hctx _
  obtain ⟨top, rest, hs, -⟩ := hctx.exists_top
  obtain ⟨r, hr⟩ := hctx.exists_reduce
    (q := { (p.atLevel (p₀.lineLevel g)).push .stmt (p₀.lineLevel g) with breakComma := false }) rfl
  refine (outcome_shift (.inr ⟨by decide, hend⟩) hs rfl hr).single.mono ?_
  rintro _ rfl
  refine ⟨{ (p.atLevel (p₀.lineLevel g)).push .stmt (p₀.lineLevel g) with breakComma := false }, _,
    ?_, rfl⟩
  exact ⟨⟨_, _, rfl⟩, rfl, fun _ => rfl, hr⟩

theorem Parses.loop {tk : Code} (htk : tk = .whilestmt ∨ tk = .forstmt)
    (hts : Parses opt true closed ts) : Parses opt body closed ((g, tk) :: ts) := by
  intro p₀ p hend _ hctx _
  obtain ⟨top, rest, hs, htop⟩ := hctx.exists_top
  have hne : top.code ≠ .dohead := ne_of_top htop rfl rfl
  rcases htk with rfl | rfl
  · refine (hts.after_head (.inr ⟨by decide, hend⟩) hs rfl (h := ⟨.whilestmt, p.iLFollow, 0⟩) (s := p.stack) ?_ rfl
      hctx).mono fun p' hp' => ?_
    · rw [shiftWhile, if_neg hne]
      rfl
    · refine hp'.of_body (h := ⟨.whilestmt, p.iLFollow, 0⟩) ?_ rfl rfl rfl ?_ <;>
        (rw [shiftWhile, if_neg hne]; rfl)
  · refine (hts.after_head (.inr ⟨by decide, hend⟩) hs rfl rfl rfl hctx).mono fun p' hp' => ?_
    exact hp'.of_body (h := ⟨.forstmt, p.iLFollow, 0⟩) rfl rfl rfl rfl rfl

theorem Parses.switch (hts : Parses opt true closed ts) :
    Parses opt body closed ((g, .swstmt) :: ts) := by
  intro p₀ p hend _ hctx _
  obtain ⟨top, rest, hs, -⟩ := hctx.exists_top
  refine (hts.after_head (.inr ⟨by decide, hend⟩) hs rfl rfl rfl hctx).mono fun p' hp' => ?_
  exact hp'.of_body (h := ⟨.swstmt, p.iLFollow, p.caseInd⟩) rfl rfl rfl rfl rfl

/-- The `if` after an `else` may stand for the whole of it. -/
theorem exists_shiftIf (opt : Options) {top : Frame} {rest : List Frame} (hs : p.stack = top :: rest)
    (hctx : Context p.stack p.iLFollow) (x : ℤ) :
    ∃ q : Parser, shiftIf opt top (p.atLevel x) = pushHead opt .ifstmt q ∧ Context q.stack q.iLFollow ∧
      ∀ closed p', Completes closed q p' → Completes closed p p' := by
  by_cases hpop : top.code = .elsehead ∧ opt.elseIf
  · have hstack : Context rest top.il := (hs ▸ hctx).of_head (by rw [hpop.1]; rfl)
    refine ⟨{ p.atLevel x with stack := rest, iLFollow := top.il }, ?_, hstack, ?_⟩
    · rw [shiftIf, if_pos hpop]
      simp only [atLevel, hs, List.tail_cons]
    · intro closed p' hp'
      exact (Completes.of_elseIf (p := p.atLevel x) hp' hs hpop.1 hstack).mono rfl
        fun q r hqr => ⟨q, hqr.stack, hqr.caseInd, hqr.level, hqr.reduce⟩
  · refine ⟨p.atLevel x, ?_, hctx, ?_⟩
    · rw [shiftIf, if_neg hpop]
    · exact fun closed p' hp' => hp'.mono rfl
        fun q r hqr => ⟨q, hqr.stack, hqr.caseInd, hqr.level, hqr.reduce⟩

theorem Parses.ifThen (hts : Parses opt true closed ts) :
    Parses opt body false ((g, .ifstmt) :: ts) := by
  intro p₀ p hend _ hctx _
  obtain ⟨top, rest, hs, -⟩ := hctx.exists_top
  obtain ⟨q, hif, hq, hp⟩ := exists_shiftIf opt hs hctx (p₀.lineLevel g)
  have hshift : shift opt (g = .dumped) .ifstmt top (p.atLevel (p₀.lineLevel g)) =
      some (pushHead opt .ifstmt q, none) := congrArg (fun r => some (r, none)) hif
  refine (hts.after_head (.inr ⟨by decide, hend⟩) hs hshift rfl rfl hq).mono fun p' hp' => ?_
  exact hp _ _ (hp'.of_ifThen (h := ⟨.ifstmt, q.iLFollow, 0⟩) rfl rfl hq rfl)

/-- The `else` finds its `if` where the branch before it has been left. -/
theorem Parses.ifElse (hts : Parses opt true true ts) (hus : Parses opt true closed us) :
    Parses opt body closed ((g, .ifstmt) :: ts ++ (g', .elselit) :: us) := by
  intro p₀ p hend _ hctx _
  obtain ⟨top, rest, hs, -⟩ := hctx.exists_top
  obtain ⟨q, hif, hq, hp⟩ := exists_shiftIf opt hs hctx (p₀.lineLevel g)
  have hshift : shift opt (g = .dumped) .ifstmt top (p.atLevel (p₀.lineLevel g)) =
      some (pushHead opt .ifstmt q, none) := congrArg (fun r => some (r, none)) hif
  refine (hts.after_head (.inr ⟨by decide, hend⟩) hs hshift rfl rfl hq).append ?_
  rintro p₁ ⟨qb, rb, hqr, rfl⟩
  obtain ⟨il, c, hqb⟩ := hqr.stack
  obtain ⟨f, hf⟩ := hq.exists_opener
  obtain rfl := Except.ok.inj ((reduce_ifstmt hqb rfl hf).symm.trans hqr.reduce)
  refine (hus.after_head (.inl ⟨rfl, rfl⟩) rfl rfl rfl rfl hq).mono fun p' hp' => ?_
  refine hp _ _ (hp'.of_body (h := ⟨.elsehead, q.iLFollow, 0⟩) rfl rfl rfl rfl ?_)
  exact hqr.caseInd

/-- A `while` that finds its `do` on the stack ends it. -/
theorem outcome_while_of_do {il : ℤ} {c : ℚ} {stack : List Frame} (hend : Parser.endIfs p₀ = .ok p)
    (hs : p.stack = ⟨.dohead, il, c⟩ :: stack) (hstack : Quiet stack) :
    Outcome (feedOne opt p₀ (g, .whilestmt))
      (· = { p with stack := stack, iLFollow := il, indLevel := il }) := by
  let q : Parser := { p with
    stack := ⟨.whilestmt, il, 0⟩ :: ⟨.dohead, il, c⟩ :: stack, iLFollow := il, indLevel := il }
  have hshift : shift opt (g = .dumped) .whilestmt ⟨.dohead, il, c⟩ (p.atLevel (p₀.lineLevel g)) =
      some (q, none) := by
    simp [shift, shiftWhile, push, atLevel, hs, q]
  have honce : reduceOnce q = .ok (some { q with stack := stack }) := by
    simp only [reduceOnce, q]
    rfl
  refine outcome_shift (.inr ⟨by decide, hend⟩) hs hshift ?_
  rw [reduce_of_some honce]
  exact reduce_of_none (hstack _ rfl)

theorem Parses.doWhile {g₁ g₂ : Gap} (hts : Parses opt true closed ts) :
    Parses opt body true ((g, .dolit) :: ts ++ [(g₁, .whilestmt), (g₂, .semicolon)]) := by
  intro p₀ p hend _ hctx _
  obtain ⟨top, rest, hs, -⟩ := hctx.exists_top
  refine (hts.after_head (.inr ⟨by decide, hend⟩) hs rfl rfl rfl hctx).append fun p₁ hp₁ => ?_
  obtain ⟨qb, rb, hqr, hend₁⟩ := hp₁.exists_endIfs
  obtain ⟨il, c, hqb⟩ := hqr.stack
  obtain rfl := Except.ok.inj ((reduce_dolit hqb rfl).symm.trans hqr.reduce)
  replace hend₁ := hend₁.trans (endIfs_of_ne rfl (by simp))
  refine (outcome_while_of_do hend₁ rfl hctx.quiet).cons ?_
  intro p₂ hp₂
  have hs₂ : p₂.stack = p.stack := by subst hp₂; rfl
  have hlevel₂ : p₂.iLFollow = p.iLFollow := by subst hp₂; rfl
  have hcase₂ : p₂.caseInd = p.caseInd := by subst hp₂; exact hqr.caseInd
  have hctx₂ : Context p₂.stack p₂.iLFollow := by rwa [hs₂, hlevel₂]
  have hsemi : Parses opt (!collecting p₂.stack) true [(g₂, .semicolon)] := Parses.simple
  refine (hsemi hctx₂.endIfs rfl hctx₂ (Bool.not_not _).symm).mono fun p' hp' => ?_
  refine hp'.mono (by rw [hs₂]) fun q r hq => ⟨q, hs₂ ▸ hq.stack, hq.caseInd.trans hcase₂, ?_, hq.reduce⟩
  exact fun hc => (hq.level (hs₂ ▸ hc)).trans hlevel₂

/-- A declaration is on the stack once, however many of its words are types. -/
theorem outcome_decls (gs : List Gap) (hend : Parser.endIfs p₀ = .ok p) {top : Frame}
    {rest : List Frame} (hs : p.stack = top :: rest) (htop : top.code ≠ .decl) :
    Outcome (feed opt p₀ ((g, .decl) :: gs.map (·, .decl))) fun q =>
      q.stack = ⟨.decl, p.iLFollow, 0⟩ :: p.stack ∧ q.caseInd = p.caseInd := by
  have hquiet : Quiet (⟨.decl, p.iLFollow, 0⟩ :: p.stack) := fun q hq => by
    rw [reduceOnce, hq]
    rfl
  have hfirst : (shiftDecl opt top (p.atLevel (p₀.lineLevel g))).stack =
      ⟨.decl, p.iLFollow, 0⟩ :: p.stack ∧
      (shiftDecl opt top (p.atLevel (p₀.lineLevel g))).caseInd = p.caseInd := by
    simp only [shiftDecl, if_pos htop]
    split <;> exact ⟨rfl, rfl⟩
  refine (outcome_shift (.inr ⟨by decide, hend⟩) hs rfl (reduce_of_none (hquiet _ hfirst.1))).cons ?_
  rintro q rfl
  generalize shiftDecl opt top (p.atLevel (p₀.lineLevel g)) = q at hfirst
  induction gs generalizing q with
  | nil => exact .inr ⟨q, rfl, hfirst⟩
  | cons g' gs ih =>
    have hnext : shiftDecl opt ⟨.decl, p.iLFollow, 0⟩ (q.atLevel (q.lineLevel g')) =
        { q.atLevel (q.lineLevel g') with searchBrace := opt.btype2 } := by
      rw [shiftDecl, if_neg (by simp)]
    have hshift : shift opt (g' = .dumped) .decl ⟨.decl, p.iLFollow, 0⟩ (q.atLevel (q.lineLevel g')) =
        some ({ q.atLevel (q.lineLevel g') with searchBrace := opt.btype2 }, none) :=
      congrArg (fun r => some (r, none)) hnext
    refine (outcome_shift (.inr ⟨by decide, endIfs_of_ne hfirst.1 (by simp)⟩) hfirst.1 hshift
      (reduce_of_none (hquiet _ hfirst.1))).cons ?_
    rintro q' rfl
    exact ih _ hfirst

theorem Parses.decl (gs : List Gap) :
    Parses opt body true ((g, .decl) :: gs.map (·, .decl) ++ [(g', .semicolon)]) := by
  intro p₀ p hend _ hctx _
  obtain ⟨top, rest, hs, htop⟩ := hctx.exists_top
  have hne : top.code ≠ .decl := ne_of_top htop rfl rfl
  refine (outcome_decls gs hend hs hne).append ?_
  rintro q ⟨hq, hcase⟩
  let q' : Parser := { (q.atLevel (q.lineLevel g')).push .stmt (q.lineLevel g') with breakComma := false }
  have hq' : q'.stack = ⟨.stmt, q.lineLevel g', 0⟩ :: ⟨.decl, p.iLFollow, 0⟩ :: p.stack := by
    rw [← hq]
    rfl
  have hdecl := reduce_head hq' rfl
  obtain ⟨r, hr⟩ := hctx.exists_reduce (q := q'.afterStatement ⟨.decl, p.iLFollow, 0⟩ p.stack) rfl
  refine (outcome_shift (.inr ⟨by decide, endIfs_of_ne hq (by simp)⟩) hq rfl
    (hdecl.trans hr)).single.mono ?_
  rintro _ rfl
  exact ⟨q'.afterStatement ⟨.decl, p.iLFollow, 0⟩ p.stack, _, ⟨⟨_, _, rfl⟩, hcase, fun _ => rfl, hr⟩, rfl⟩

/-- The brace raises the level in a list of statements and in a declaration, and what is in the
braces is a list of its own. -/
theorem shiftLbrace_spec (opt : Options) (codeEmpty : Bool) (top : Frame) (p : Parser) :
    ∃ il level, (shiftLbrace opt codeEmpty top p).stack = ⟨.stmt, level, 0⟩ :: ⟨.lbrace, il, 0⟩ :: p.stack ∧
      (shiftLbrace opt codeEmpty top p).iLFollow = level ∧
      (shiftLbrace opt codeEmpty top p).caseInd = p.caseInd ∧ (collects top.code → il = p.indLevel) := by
  by_cases hlist : top.code = .stmt ∨ top.code = .decl ∨ top.code = .stmtl
  · refine ⟨p.indLevel, p.iLFollow + 1, ?_⟩
    simp only [shiftLbrace, if_pos hlist, push]
    exact ⟨trivial, trivial, trivial, fun _ => trivial⟩
  · have htop : ¬ collects top.code := by
      intro hc
      refine hlist ?_
      cases hcode : top.code <;> rw [hcode] at hc <;> simp_all [collects]
    simp only [shiftLbrace, if_neg hlist, push]
    split
    all_goals exact ⟨_, _, rfl, rfl, rfl, fun hc => absurd hc htop⟩

/-- A list of statements in braces becomes one statement. -/
theorem ParsesItems.braces (hts : ParsesItems opt ts) (hend : Parser.endIfs p₀ = .ok p) {top : Frame}
    {rest : List Frame} (hs : p.stack = top :: rest)
    (hr : ∀ (q : Parser) il, q.stack = ⟨.stmt, il, 0⟩ :: p.stack → ∃ r, reduce q = .ok r) :
    Outcome (feed opt p₀ ((g, .lbrace) :: ts ++ [(g', .rbrace)])) fun p' =>
      ∃ q, (q.stack = ⟨.stmt, q.iLFollow, 0⟩ :: p.stack) ∧ q.caseInd = p.caseInd ∧
        (collects top.code → q.iLFollow = p₀.lineLevel g) ∧ reduce q = .ok p' := by
  obtain ⟨il, level, hq, hlevel, hcase, hil⟩ :=
    shiftLbrace_spec opt (g = .dumped) top (p.atLevel (p₀.lineLevel g))
  have hquiet : Quiet (⟨.stmt, level, 0⟩ :: ⟨.lbrace, il, 0⟩ :: p.stack) := fun q hq => by
    rw [reduceOnce, hq]
    rfl
  refine (outcome_shift (.inr ⟨by decide, hend⟩) hs rfl (reduce_of_none (hquiet _ hq))).cons ?_
  rintro q rfl
  have hin : Collected level 0 (⟨.lbrace, il, 0⟩ :: p.stack) p.caseInd
      (shiftLbrace opt (g = .dumped) top (p.atLevel (p₀.lineLevel g)))
      (shiftLbrace opt (g = .dumped) top (p.atLevel (p₀.lineLevel g))) :=
    ⟨endIfs_of_ne hq (by simp), ⟨.stmt, rfl, hq⟩, hq ▸ hquiet, hlevel, hlevel, hcase⟩
  refine (hts hin).append ?_
  rintro p₁ ⟨p₁', hp₁⟩
  obtain ⟨code, -, hs₁⟩ := hp₁.stack
  obtain ⟨r, hr⟩ := hr { p₁' with indLevel := il, iLFollow := il, stack := ⟨.stmt, il, 0⟩ :: p.stack }
    il rfl
  have hshift : shift opt (g' = .dumped) .rbrace ⟨code, level, 0⟩ (p₁'.atLevel (p₁.lineLevel g')) =
      some ({ p₁' with indLevel := il, iLFollow := il, stack := ⟨.stmt, il, 0⟩ :: p.stack }, none) := by
    simp only [shift, atLevel, hs₁, List.tail_cons]
  refine (outcome_shift (.inr ⟨by decide, hp₁.pending⟩) hs₁ hshift hr).single.mono ?_
  rintro _ rfl
  exact ⟨{ p₁' with indLevel := il, iLFollow := il, stack := ⟨.stmt, il, 0⟩ :: p.stack }, rfl,
    hp₁.caseInd, hil, hr⟩

theorem Parses.block (hg : body = false → g = .dumped) (hts : ParsesItems opt ts) :
    Parses opt body true ((g, .lbrace) :: ts ++ [(g', .rbrace)]) := by
  intro p₀ p hend hlevel hctx hbody
  obtain ⟨top, rest, hs, -⟩ := hctx.exists_top
  refine (hts.braces hend hs fun q il hq => hctx.exists_reduce hq).mono ?_
  rintro p' ⟨q, hq, hcase, hil, hr⟩
  refine ⟨q, p', ⟨⟨_, _, hq⟩, hcase, fun hc => ?_, hr⟩, rfl⟩
  obtain rfl : g = .dumped := hg (by simpa [hc] using hbody)
  rw [hil (by rw [hs] at hc; exact hc), ← hlevel]
  rfl

/-- The members of a structure. -/
theorem Parses.struct (gs : List Gap) {g₁ g₂ : Gap} (hts : ParsesItems opt ts) :
    Parses opt body true
      ((g, .decl) :: gs.map (·, .decl) ++ ((g₁, .lbrace) :: ts ++ [(g₂, .rbrace)])) := by
  intro p₀ p hend _ hctx _
  obtain ⟨top, rest, hs, htop⟩ := hctx.exists_top
  have hne : top.code ≠ .decl := ne_of_top htop rfl rfl
  refine (outcome_decls gs hend hs hne).append ?_
  rintro q ⟨hq, hcase⟩
  have hr : ∀ (q' : Parser) il, q'.stack = ⟨.stmt, il, 0⟩ :: q.stack → ∃ r, reduce q' = .ok r := by
    intro q' il hq'
    rw [hq] at hq'
    rw [reduce_head hq' rfl]
    exact hctx.exists_reduce rfl
  refine (hts.braces (endIfs_of_ne hq (by simp)) hq hr).mono ?_
  rintro p' ⟨q', hq', hcase', -, hr'⟩
  rw [hq] at hq'
  refine ⟨q'.afterStatement ⟨.decl, p.iLFollow, 0⟩ p.stack, p', ⟨⟨_, _, rfl⟩, ?_, fun _ => rfl, ?_⟩, rfl⟩
  · exact hcase'.trans hcase
  · rw [← reduce_head hq' rfl, hr']

theorem ParsesItems.nil : ParsesItems opt [] :=
  fun _ _ _ _ p₀ p hp => .inr ⟨p₀, rfl, p, hp⟩

/-- A statement of a list leaves the list as it was, but for the code on its top. -/
theorem Completes.collected {p' : Parser} {f : Frame} {rest : List Frame} (h : Completes closed p p')
    (hs : p.stack = f :: rest) (hf : collects f.code) (hil : f.il = p.iLFollow) :
    ∃ r, Collected f.il f.cstk rest p.caseInd p' r ∧ r.stack = { f with code := .stmtl } :: rest := by
  obtain ⟨q, r, hqr, hp'⟩ := h
  obtain ⟨il, c, hq⟩ := hqr.stack
  rw [hs] at hq
  obtain rfl := Except.ok.inj ((reduce_list hq hf).symm.trans hqr.reduce)
  have hlevel : q.iLFollow = f.il := (hqr.level (by rw [hs]; exact hf)).trans hil.symm
  have hquiet : Quiet ({ f with code := .stmtl } :: rest) := fun p hp => by
    rw [reduceOnce, hp]
    rfl
  refine ⟨{ q with stack := { f with code := .stmtl } :: rest }, ?_, rfl⟩
  refine ⟨?_, ⟨.stmtl, rfl, rfl⟩, hquiet, ?_, hlevel, hqr.caseInd⟩
  · cases closed with
    | true =>
      obtain rfl : p' = _ := hp'
      exact endIfs_of_ne rfl (by simp)
    | false => exact hp'.1.trans (endIfs_of_ne rfl (by simp))
  · cases closed with
    | true =>
      obtain rfl : p' = _ := hp'
      exact hlevel
    | false => exact hp'.2 f (by rw [hs, find?_list hf])

theorem ParsesItems.cons (hts : Parses opt false closed ts) (hus : ParsesItems opt us) :
    ParsesItems opt (ts ++ us) := by
  intro il c rest k p₀ p hp
  obtain ⟨code, hcode, hs⟩ := hp.stack
  have hctx : Context p.stack p.iLFollow := by
    rw [hs, hp.level]
    exact .list hcode (hs ▸ hp.quiet)
  refine (hts hp.pending (hp.pendingLevel.trans hp.level.symm) hctx (by rw [hs]; exact hcode)).append ?_
  intro p₁ hp₁
  obtain ⟨r, hr, -⟩ := hp₁.collected hs hcode hp.level.symm
  exact hus (hp.caseInd ▸ hr)

end Shapes

/-! ### The grammar of statements -/

/-- Lists of statements, and statements: whether it is a body, and whether an `else` after it cannot
belong to one of its own `if`s. -/
inductive Kind where
  | items
  | statement (body closed : Bool)

/-- The codes of the tokens that the parser sees of a statement. The brace of a block that is no
body starts a line. A structure ends at its brace; the declarator after it is a statement by
itself to the parser. -/
inductive Derives : Kind → List (Gap × Code) → Prop where
  | nil : Derives .items []
  | cons {closed : Bool} {ts us : List (Gap × Code)} : Derives (.statement false closed) ts →
    Derives .items us → Derives .items (ts ++ us)
  | simple {body : Bool} (g : Gap) : Derives (.statement body true) [(g, .semicolon)]
  | decl {body : Bool} (g : Gap) (gs : List Gap) (g' : Gap) :
    Derives (.statement body true) ((g, .decl) :: gs.map (·, .decl) ++ [(g', .semicolon)])
  | struct {body : Bool} {ts : List (Gap × Code)} (g : Gap) (gs : List Gap) (g₁ g₂ : Gap) :
    Derives .items ts → Derives (.statement body true)
      ((g, .decl) :: gs.map (·, .decl) ++ ((g₁, .lbrace) :: ts ++ [(g₂, .rbrace)]))
  | block {body : Bool} {ts : List (Gap × Code)} {g : Gap} (hg : body = false → g = .dumped)
    (g' : Gap) : Derives .items ts →
    Derives (.statement body true) ((g, .lbrace) :: ts ++ [(g', .rbrace)])
  | ifThen {body closed : Bool} {ts : List (Gap × Code)} (g : Gap) :
    Derives (.statement true closed) ts → Derives (.statement body false) ((g, .ifstmt) :: ts)
  | ifElse {body closed : Bool} {ts us : List (Gap × Code)} (g g' : Gap) :
    Derives (.statement true true) ts → Derives (.statement true closed) us →
    Derives (.statement body closed) ((g, .ifstmt) :: ts ++ (g', .elselit) :: us)
  | whileLoop {body closed : Bool} {ts : List (Gap × Code)} (g : Gap) :
    Derives (.statement true closed) ts → Derives (.statement body closed) ((g, .whilestmt) :: ts)
  | forLoop {body closed : Bool} {ts : List (Gap × Code)} (g : Gap) :
    Derives (.statement true closed) ts → Derives (.statement body closed) ((g, .forstmt) :: ts)
  | switch {body closed : Bool} {ts : List (Gap × Code)} (g : Gap) :
    Derives (.statement true closed) ts → Derives (.statement body closed) ((g, .swstmt) :: ts)
  | doWhile {body closed : Bool} {ts : List (Gap × Code)} (g g₁ g₂ : Gap) :
    Derives (.statement true closed) ts →
    Derives (.statement body true) ((g, .dolit) :: ts ++ [(g₁, .whilestmt), (g₂, .semicolon)])

def Kind.Parsed (opt : Options) : Kind → List (Gap × Code) → Prop
  | .items, ts => ParsesItems opt ts
  | .statement body closed, ts => Parses opt body closed ts

theorem Derives.parsed (opt : Options) {k : Kind} {ts : List (Gap × Code)} (h : Derives k ts) :
    k.Parsed opt ts := by
  induction h with
  | nil => exact ParsesItems.nil
  | cons _ _ ih ih' => exact ParsesItems.cons ih ih'
  | simple g => exact Parses.simple
  | decl g gs g' => exact Parses.decl gs
  | struct g gs g₁ g₂ _ ih => exact Parses.struct gs ih
  | block hg g' _ ih => exact Parses.block hg ih
  | ifThen g _ ih => exact Parses.ifThen ih
  | ifElse g g' _ _ ih ih' => exact Parses.ifElse ih ih'
  | whileLoop g _ ih => exact Parses.loop (.inl rfl) ih
  | forLoop g _ ih => exact Parses.loop (.inr rfl) ih
  | switch g _ ih => exact Parses.switch ih
  | doWhile g g₁ g₂ _ ih => exact Parses.doWhile ih

/-- Whether there is something to reduce is seen from the stack alone. -/
theorem quiet_of_reduceOnce {p : Parser} (h : reduceOnce p = .ok none) : Quiet p.stack := by
  intro q hq
  rw [reduceOnce] at h ⊢
  rw [hq]
  generalize p.stack = stack at h
  rcases stack with _ | ⟨⟨code, il, c⟩, below⟩
  · cases h
  cases code
  case stmt =>
    rcases below with _ | ⟨⟨code, il', c'⟩, rest⟩
    · cases h
    cases code
    case ifstmt =>
      simp only at h
      split at h <;> cases h
    all_goals first | rfl | cases h
  case whilestmt =>
    rcases below with _ | ⟨f, rest⟩
    · cases h
    simp only at h ⊢
    split at h
    · cases h
    · rename_i hf
      rw [if_neg hf]
      rfl
  all_goals rfl

/-- A statement, once it is clear that no `else` follows, leaves the stack with a list of statements
on its top and everything else as it was, and the next line starts at the old level. -/
theorem statement_returns (opt : Options) {closed : Bool} {ts : List (Gap × Code)}
    (hts : Derives (.statement false closed) ts) {p : Parser} {f : Frame} {rest : List Frame} {L : ℤ}
    (hs : p.stack = f :: rest) (hf : f.code = .stmt ∨ f.code = .stmtl) (hil : f.il = L)
    (hlevel : p.iLFollow = L) (hquiet : reduceOnce p = .ok none) :
    feed opt p ts = .error (.exit "Parser stack overflow") ∨
    ∃ p', feed opt p ts = .ok p' ∧ (∀ s : Indenter, (s.setParser p').ps.newLine.indLevel = L) ∧
      ∃ r, endIfs p' = .ok r ∧ r.stack = { f with code := .stmtl } :: rest ∧ r.iLFollow = L ∧
        r.caseInd = p.caseInd ∧ reduceOnce r = .ok none := by
  subst hil
  have hcollects : collects f.code := by rcases hf with hf | hf <;> rw [hf] <;> rfl
  have hctx : Context p.stack p.iLFollow := by
    rw [hs, hlevel]
    exact .list hcollects (hs ▸ quiet_of_reduceOnce hquiet)
  have hparsed : Parses opt false closed ts := hts.parsed opt
  refine (hparsed hctx.endIfs rfl hctx (by rw [hs]; exact hcollects)).imp_right ?_
  rintro ⟨p', hp', hdone⟩
  obtain ⟨r, hr, hstack⟩ := hdone.collected hs hcollects hlevel.symm
  exact ⟨p', hp', fun s => hr.pendingLevel, r, hr.pending, hstack, hr.level, hr.caseInd, hr.quiet r rfl⟩

/-- An `if` around an `if` with an `else`, whose block starts on the line of the `else`. -/
theorem nested_if_returns :
    ∃ p', feed .default ⟨[⟨.stmtl, 0, 0⟩], 0, 0, false, false, 0⟩
        [(.dumped, .ifstmt), (.onLine, .ifstmt), (.dumped, .semicolon), (.dumped, .elselit),
          (.onLine, .lbrace), (.dumped, .semicolon), (.dumped, .rbrace)] = .ok p' ∧
      ∃ r, endIfs p' = .ok r ∧ r.stack = [⟨.stmtl, 0, 0⟩] ∧ r.iLFollow = 0 := by
  have hblock : Derives (.statement true true)
      [(.onLine, .lbrace), (.dumped, .semicolon), (.dumped, .rbrace)] :=
    .block (by simp) .dumped (.cons (.simple .dumped) .nil)
  have hif : Derives (.statement false false)
      [(.dumped, .ifstmt), (.onLine, .ifstmt), (.dumped, .semicolon), (.dumped, .elselit),
        (.onLine, .lbrace), (.dumped, .semicolon), (.dumped, .rbrace)] :=
    .ifThen .dumped (.ifElse .onLine .dumped (.simple .dumped) hblock)
  have hok : (feed .default ⟨[⟨.stmtl, 0, 0⟩], 0, 0, false, false, 0⟩
      [(.dumped, .ifstmt), (.onLine, .ifstmt), (.dumped, .semicolon), (.dumped, .elselit),
        (.onLine, .lbrace), (.dumped, .semicolon), (.dumped, .rbrace)]).toOption.isSome = true := by
    decide
  rcases statement_returns .default hif (p := ⟨[⟨.stmtl, 0, 0⟩], 0, 0, false, false, 0⟩) rfl
    (.inr rfl) rfl rfl rfl with herr | ⟨p', hp', -, r, hr⟩
  · rw [herr] at hok
    cases hok
  · exact ⟨p', hp', r, hr.1, hr.2.1, hr.2.2.1⟩

end BsdAdditions.Indent.Parser
