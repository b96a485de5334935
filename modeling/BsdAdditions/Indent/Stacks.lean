import BsdAdditions.Indent.ParseSound

/-! The statement parser on the arrays of the source, every access checked, and how it follows the
parser on a list of frames. -/
namespace BsdAdditions.Indent
open Common

/-- The parser as the source lays it out: `p_stack`, `il` and `cstk` with the index of their top. -/
structure Stacks where
  pStack : ℤ → Code
  il : ℤ → ℤ
  cstk : ℤ → ℚ
  tos : ℤ
  iLFollow : ℤ
  indLevel : ℤ
  searchBrace : Bool
  breakComma : Bool
  caseInd : ℚ

namespace Stacks

abbrev stacksize : ℕ := Parser.stacksize

/-- The index of an element of the arrays. -/
def InArray (i : ℤ) : Prop := 0 ≤ i ∧ i < stacksize

instance (i : ℤ) : Decidable (InArray i) := inferInstanceAs (Decidable (_ ∧ _))

section Access
variable {α : Type}

def read (a : ℤ → α) (i : ℤ) : Except Halt α := if InArray i then pure (a i) else throw .fault

def write (a : ℤ → α) (i : ℤ) (x : α) : Except Halt (ℤ → α) :=
  if InArray i then pure (Function.update a i x) else throw .fault

theorem read_eq {a : ℤ → α} {i : ℤ} (h : InArray i) : read a i = .ok (a i) := if_pos h

theorem write_eq {a : ℤ → α} {i : ℤ} {x : α} (h : InArray i) :
    write a i x = .ok (Function.update a i x) := if_pos h

theorem read_fault {a : ℤ → α} {i : ℤ} (h : ¬ InArray i) : read a i = .error .fault := if_neg h

theorem write_fault {a : ℤ → α} {i : ℤ} {x : α} (h : ¬ InArray i) : write a i x = .error .fault :=
  if_neg h

end Access

/-- `p_stack[i] = code`, with `i` the new top. -/
def retop (s : Stacks) (i : ℤ) (code : Code) : Except Halt Stacks := do
  pure { s with tos := i, pStack := ← write s.pStack i code }

/-- `p_stack[++tos] = code; il[tos] = level`. -/
def push (s : Stacks) (code : Code) (level : ℤ) : Except Halt Stacks := do
  let s ← s.retop (s.tos + 1) code
  pure { s with il := ← write s.il s.tos level }

/-- The scan after an `if`, downward for what its statement stands in. -/
def scan (pStack : ℤ → Code) : ℕ → ℤ → Except Halt ℤ
  | 0, _ => throw .fuel
  | n + 1, i => do
    let code ← read pStack i
    if code ≠ .stmt ∧ code ≠ .stmtl ∧ code ≠ .lbrace then scan pStack n (i - 1) else pure i

/-- One round of `reduce`; `none` when it returns. -/
def reduceOnce (s : Stacks) : Except Halt (Option Stacks) := do
  match ← read s.pStack s.tos with
  | .stmt =>
    match ← read s.pStack (s.tos - 1) with
    | .stmt | .stmtl => pure (some (← s.retop (s.tos - 1) .stmtl))
    | .dolit =>
      let s ← s.retop (s.tos - 1) .dohead
      pure (some { s with iLFollow := ← read s.il s.tos })
    | .ifstmt =>
      let s ← s.retop (s.tos - 1) .ifhead
      let i ← scan s.pStack (stacksize + 1) (s.tos - 1)
      pure (some { s with iLFollow := ← read s.il i })
    | .swstmt =>
      let s := { s with caseInd := ← read s.cstk (s.tos - 1) }
      let s ← s.retop (s.tos - 1) .stmt
      pure (some { s with iLFollow := ← read s.il s.tos })
    | .decl | .elsehead | .forstmt | .whilestmt =>
      let s ← s.retop (s.tos - 1) .stmt
      pure (some { s with iLFollow := ← read s.il s.tos })
    | _ => pure none
  | .whilestmt =>
    let below ← read s.pStack (s.tos - 1)
    if below = .dohead then pure (some { s with tos := s.tos - 2 }) else pure none
  | _ => pure none

def reduceFor : ℕ → Stacks → Except Halt Stacks
  | 0, _ => throw .fuel
  | n + 1, s => do
    match ← reduceOnce s with
    | none => pure s
    | some s => reduceFor n s

/-- Each round lowers the top, which is below `stacksize`. -/
def reduce (s : Stacks) : Except Halt Stacks := reduceFor (stacksize + 1) s

def endIfsFor : ℕ → Stacks → Except Halt Stacks
  | 0, _ => throw .fuel
  | n + 1, s => do
    let code ← read s.pStack s.tos
    if code = .ifhead then endIfsFor n (← reduce (← s.retop s.tos .stmt)) else pure s

/-- The loop at the start of `parse`. -/
def endIfs (s : Stacks) : Except Halt Stacks := endIfsFor (stacksize + 1) s

/-- The number of declarations from index `n` down to 1. -/
def decls (pStack : ℤ → Code) : ℕ → Except Halt ℤ
  | 0 => pure 0
  | n + 1 => do
    let code ← read pStack (n + 1)
    let k ← decls pStack n
    pure (if code = .decl then k + 1 else k)

def shiftDecl (opt : Options) (s : Stacks) : Except Halt Stacks := do
  let code ← read s.pStack s.tos
  if code ≠ .decl then
    let t ← s.push .decl s.iLFollow
    let t := { t with searchBrace := opt.btype2, breakComma := true }
    if opt.ljustDecl then
      let depth ← decls t.pStack (t.tos - 1).toNat
      pure { t with indLevel := depth, iLFollow := depth }
    else pure t
  else pure { s with searchBrace := opt.btype2 }

def pushHead (opt : Options) (tk : Code) (s : Stacks) : Except Halt Stacks := do
  let t ← s.push tk s.iLFollow
  pure { t with indLevel := s.iLFollow, iLFollow := s.iLFollow + 1, searchBrace := opt.btype2 }

def shiftIf (opt : Options) (s : Stacks) : Except Halt Stacks := do
  let code ← read s.pStack s.tos
  if code = .elsehead ∧ opt.elseIf then
    let level ← read s.il s.tos
    pushHead opt .ifstmt { s with iLFollow := level, tos := s.tos - 1 }
  else pushHead opt .ifstmt s

/-- What a left brace does to the levels before it is pushed. -/
def openBrace (opt : Options) (codeEmpty : Bool) (code : Code) (s : Stacks) : Stacks :=
  let s := { s with breakComma := false }
  if code = .stmt ∨ code = .decl ∨ code = .stmtl then { s with iLFollow := s.iLFollow + 1 }
  else if codeEmpty then
    { s with indLevel := s.indLevel - if code = .swstmt ∧ opt.caseIndent ≥ 1 then 2 else 1 }
  else s

def shiftLbrace (opt : Options) (codeEmpty : Bool) (s : Stacks) : Except Halt Stacks := do
  let code ← read s.pStack s.tos
  let s := openBrace opt codeEmpty code s
  let s ← s.push .lbrace s.indLevel
  s.push .stmt s.iLFollow

def shiftWhile (opt : Options) (s : Stacks) : Except Halt Stacks := do
  let code ← read s.pStack s.tos
  if code = .dohead then
    let level ← read s.il s.tos
    Stacks.push { s with indLevel := level, iLFollow := level } .whilestmt level
  else
    let t ← s.push .whilestmt s.iLFollow
    pure { t with iLFollow := s.iLFollow + 1, searchBrace := opt.btype2 }

def shiftElse (opt : Options) (s : Stacks) : Except Halt (Stacks × Option String) := do
  let code ← read s.pStack s.tos
  if code ≠ .ifhead then pure (s, some "Unmatched 'else'")
  else
    let level ← read s.il s.tos
    let t ← s.retop s.tos .elsehead
    pure ({ t with
      indLevel := level, iLFollow := level + 1, searchBrace := opt.btype2 || opt.elseIf }, none)

/-- The entry below the top is looked at only when there is one. -/
def shiftRbrace (s : Stacks) : Except Halt (Stacks × Option String) :=
  if s.tos > 0 then do
    let code ← read s.pStack (s.tos - 1)
    if code = .lbrace then
      let level ← read s.il (s.tos - 1)
      let t ← s.retop (s.tos - 1) .stmt
      pure ({ t with indLevel := level, iLFollow := level }, none)
    else pure (s, some "Statement nesting error")
  else pure (s, some "Statement nesting error")

def shiftSwitch (opt : Options) (s : Stacks) : Except Halt Stacks := do
  let t ← s.push .swstmt s.iLFollow
  pure { t with
    cstk := ← write t.cstk t.tos s.caseInd
    caseInd := s.iLFollow + opt.caseIndent
    iLFollow := truncate (s.iLFollow + (opt.caseIndent + 1))
    searchBrace := opt.btype2 }

/-- The cases of `parse`; `none` for a code that is no token of the parser. -/
def shift (opt : Options) (codeEmpty : Bool) (tk : Code) (s : Stacks) :
    Except Halt (Option (Stacks × Option String)) :=
  match tk with
  | .decl => do pure (some (← shiftDecl opt s, none))
  | .ifstmt => do pure (some (← shiftIf opt s, none))
  | .dolit | .forstmt => do pure (some (← pushHead opt tk s, none))
  | .lbrace => do pure (some (← shiftLbrace opt codeEmpty s, none))
  | .whilestmt => do pure (some (← shiftWhile opt s, none))
  | .elselit => do pure (some (← shiftElse opt s))
  | .rbrace => do pure (some (← shiftRbrace s))
  | .swstmt => do pure (some (← shiftSwitch opt s, none))
  | .semicolon => do
    pure (some (← Stacks.push { s with breakComma := false } .stmt s.indLevel, none))
  | _ => pure none

/-- The rest of `parse`, with what the cases have done. -/
def finish (s : Stacks) : Option (Stacks × Option String) → Except Halt (Stacks × Option String)
  | none => pure (s, some "Unknown code to parser")
  | some (t, msg) =>
    if t.tos ≥ stacksize - 1 then throw (.exit "Parser stack overflow")
    else do pure (← reduce t, msg)

def parse (opt : Options) (codeEmpty : Bool) (tk : Code) (s : Stacks) :
    Except Halt (Stacks × Option String) :=
  (if tk = .elselit then pure s else endIfs s) >>= fun s =>
    shift opt codeEmpty tk s >>= s.finish

/-! ### The frames that the arrays hold -/

/-- The frames from index `i` down to the bottom; `cstk` has a meaning for a `switch` only. -/
def Holds (code : ℤ → Code) (il : ℤ → ℤ) (cstk : ℤ → ℚ) : ℤ → List Frame → Prop
  | i, [] => i = -1
  | i, f :: rest =>
    f.code = code i ∧ f.il = il i ∧ (f.code = .swstmt → f.cstk = cstk i) ∧ Holds code il cstk (i - 1) rest

section Holds
variable {code code' : ℤ → Code} {il il' : ℤ → ℤ} {cstk cstk' : ℤ → ℚ} {i : ℤ} {fs rest : List Frame}
  {f : Frame}

theorem Holds.length_eq (h : Holds code il cstk i fs) : (fs.length : ℤ) = i + 1 := by
  induction fs generalizing i with
  | nil =>
    have hi : i = -1 := h
    simp [hi]
  | cons f rest ih =>
    have hrest := ih h.2.2.2
    simp only [List.length_cons]
    omega

/-- Entries above the top do not matter. -/
theorem Holds.frame (h : Holds code il cstk i fs) (hcode : ∀ j ≤ i, code' j = code j)
    (hil : ∀ j ≤ i, il' j = il j) (hcstk : ∀ j ≤ i, cstk' j = cstk j) :
    Holds code' il' cstk' i fs := by
  induction fs generalizing i with
  | nil => exact h
  | cons f rest ih =>
    obtain ⟨h₁, h₂, h₃, h₄⟩ := h
    refine ⟨by rw [h₁, hcode i (Int.le_refl i)], by rw [h₂, hil i (Int.le_refl i)], fun hf => ?_, ?_⟩
    · rw [h₃ hf, hcstk i (Int.le_refl i)]
    · exact ih h₄ (fun j hj => hcode j (by omega)) (fun j hj => hil j (by omega))
        fun j hj => hcstk j (by omega)

theorem Holds.update_code (h : Holds code il cstk i fs) {j : ℤ} (hj : i < j) (c : Code) :
    Holds (Function.update code j c) il cstk i fs :=
  h.frame (fun k hk => Function.update_of_ne (by omega) _ _) (fun _ _ => rfl) fun _ _ => rfl

theorem Holds.update_il (h : Holds code il cstk i fs) {j : ℤ} (hj : i < j) (x : ℤ) :
    Holds code (Function.update il j x) cstk i fs :=
  h.frame (fun _ _ => rfl) (fun k hk => Function.update_of_ne (by omega) _ _) fun _ _ => rfl

theorem Holds.update_cstk (h : Holds code il cstk i fs) {j : ℤ} (hj : i < j) (x : ℚ) :
    Holds code il (Function.update cstk j x) i fs :=
  h.frame (fun _ _ => rfl) (fun _ _ => rfl) fun k hk => Function.update_of_ne (by omega) _ _

/-- The top gets another code, that of a `switch` apart. -/
theorem Holds.retop (h : Holds code il cstk i (f :: rest)) {c : Code} (hc : c ≠ .swstmt) :
    Holds (Function.update code i c) il cstk i ({ f with code := c } :: rest) := by
  refine ⟨(Function.update_self i c code).symm, h.2.1, fun hf => absurd hf hc, ?_⟩
  exact h.2.2.2.update_code (by omega) c

theorem Holds.push (h : Holds code il cstk i fs) {c : Code} (hc : c ≠ .swstmt) {level level' : ℤ}
    (hlevel : level = level') :
    Holds (Function.update code (i + 1) c) (Function.update il (i + 1) level) cstk (i + 1)
      (⟨c, level', 0⟩ :: fs) := by
  subst hlevel
  refine ⟨(Function.update_self _ c code).symm, (Function.update_self _ level il).symm,
    fun hf => absurd hf hc, ?_⟩
  rw [Int.add_sub_cancel]
  exact (h.update_code (by omega) c).update_il (by omega) level

theorem Holds.pushSwitch (h : Holds code il cstk i fs) {level level' : ℤ} {x x' : ℚ}
    (hlevel : level = level') (hx : x = x') :
    Holds (Function.update code (i + 1) .swstmt) (Function.update il (i + 1) level)
      (Function.update cstk (i + 1) x) (i + 1) (⟨.swstmt, level', x'⟩ :: fs) := by
  subst hlevel hx
  refine ⟨(Function.update_self _ Code.swstmt code).symm, (Function.update_self _ level il).symm,
    fun _ => (Function.update_self _ x cstk).symm, ?_⟩
  rw [Int.add_sub_cancel]
  exact ((h.update_code (by omega) .swstmt).update_il (by omega) level).update_cstk (by omega) x

theorem Holds.inArray (h : Holds code il cstk i (f :: rest)) (hlen : rest.length < stacksize) :
    InArray i := by
  have hi := h.length_eq
  simp only [List.length_cons] at hi
  constructor <;> omega

end Holds

/-- The arrays and the list describe the same parser. -/
structure Follows (s : Stacks) (p : Parser) : Prop where
  frames : Holds s.pStack s.il s.cstk s.tos p.stack
  iLFollow : s.iLFollow = p.iLFollow
  indLevel : s.indLevel = p.indLevel
  searchBrace : s.searchBrace = p.searchBrace
  breakComma : s.breakComma = p.breakComma
  caseInd : s.caseInd = p.caseInd

/-- Two computations stop in the same way or return related results. -/
def Agree {α β : Type} (R : α → β → Prop) : Except Halt α → Except Halt β → Prop
  | .ok a, .ok b => R a b
  | .error e, .error e' => e = e'
  | _, _ => False

theorem Agree.bind {α β α' β' : Type} {R : α → β → Prop} {R' : α' → β' → Prop} {x : Except Halt α}
    {y : Except Halt β} {f : α → Except Halt α'} {g : β → Except Halt β'} (h : Agree R x y)
    (hfg : ∀ a b, R a b → Agree R' (f a) (g b)) : Agree R' (x >>= f) (y >>= g) := by
  cases x with
  | error e =>
    cases y with
    | error e' => exact h
    | ok b => exact h.elim
  | ok a =>
    cases y with
    | error e' => exact h.elim
    | ok b => exact hfg a b h

theorem Agree.of_error {α β : Type} {R : α → β → Prop} {x : Except Halt α} {e : Halt}
    (h : Agree R x (.error e)) : x = .error e := by
  cases x with
  | error e' => exact congrArg Except.error h
  | ok a => exact h.elim

theorem Agree.of_ok {α β : Type} {R : α → β → Prop} {x : Except Halt α} {b : β}
    (h : Agree R x (.ok b)) : ∃ a, x = .ok a ∧ R a b := by
  cases x with
  | error e => exact h.elim
  | ok a => exact ⟨a, rfl, h⟩

/-- The scan finds the frame that the search on the list finds. -/
theorem agree_scan {code : ℤ → Code} {il : ℤ → ℤ} {cstk : ℤ → ℚ} {i : ℤ} {fs : List Frame} {n : ℕ}
    (h : Holds code il cstk i fs) (hlen : fs.length ≤ stacksize) (hn : fs.length < n) :
    Agree (fun j g => InArray j ∧ il j = g.il) (scan code n i)
      (match fs.find? Parser.opensStatement with
        | none => throw .fault
        | some g => pure g) := by
  induction fs generalizing i n with
  | nil =>
    obtain ⟨n, rfl⟩ := Nat.exists_eq_succ_of_ne_zero (by omega : n ≠ 0)
    have hi : ¬ InArray i := by
      have : i = -1 := h
      rintro ⟨h0, -⟩
      omega
    rw [scan, read_fault hi]
    rfl
  | cons f rest ih =>
    obtain ⟨n, rfl⟩ := Nat.exists_eq_succ_of_ne_zero (by omega : n ≠ 0)
    simp only [List.length_cons] at hlen hn
    have hi : InArray i := h.inArray (by omega)
    rw [scan, read_eq hi, ← h.1]
    by_cases hf : Parser.opensStatement f = true
    · rw [List.find?_cons_of_pos hf]
      have hcode : ¬ (f.code ≠ .stmt ∧ f.code ≠ .stmtl ∧ f.code ≠ .lbrace) := by
        simp only [Parser.opensStatement, Bool.or_eq_true, decide_eq_true_eq] at hf
        tauto
      show Agree _ (if _ then _ else _) _
      rw [if_neg hcode]
      exact ⟨hi, h.2.1.symm⟩
    · rw [List.find?_cons_of_neg hf]
      have hcode : f.code ≠ .stmt ∧ f.code ≠ .stmtl ∧ f.code ≠ .lbrace := by
        simp only [Parser.opensStatement, Bool.or_eq_true, decide_eq_true_eq] at hf
        tauto
      show Agree _ (if _ then _ else _) _
      rw [if_pos hcode]
      exact ih h.2.2.2 (by omega) (by omega)

section Reduce
variable {s t : Stacks} {p q : Parser} {f g : Frame} {rest : List Frame}

theorem retop_eq {i : ℤ} {c : Code} (h : InArray i) :
    s.retop i c = .ok { s with tos := i, pStack := Function.update s.pStack i c } := by
  rw [retop, write_eq h]
  rfl

/-- The top goes and the frame below it gets another code. -/
theorem Follows.lower (h : Follows s p) (hs : p.stack = f :: g :: rest) {c : Code} (hc : c ≠ .swstmt)
    {level level' : ℤ} {ind ind' : ℚ} (hlevel : level = level') (hind : ind = ind') :
    Follows { s with
        tos := s.tos - 1, pStack := Function.update s.pStack (s.tos - 1) c, iLFollow := level, caseInd := ind }
      { p with stack := { g with code := c } :: rest, iLFollow := level', caseInd := ind' } := by
  have hframes := h.frames
  rw [hs] at hframes
  exact ⟨hframes.2.2.2.retop hc, hlevel, h.indLevel, h.searchBrace, h.breakComma, hind⟩

theorem Follows.read_top (h : Follows s p) (hs : p.stack = f :: rest) (hlen : rest.length < stacksize) :
    read s.pStack s.tos = .ok f.code := by
  have hframes := h.frames
  rw [hs] at hframes
  rw [read_eq (hframes.inArray hlen), ← hframes.1]

theorem Follows.tos_eq (h : Follows s p) : s.tos = p.stack.length - 1 := by
  have := h.frames.length_eq
  omega

theorem Follows.read_bottom (h : Follows s p) (hs : p.stack = []) :
    read s.pStack s.tos = .error .fault := by
  have htos := h.tos_eq
  rw [hs, List.length_nil] at htos
  apply read_fault
  rintro ⟨h0, -⟩
  omega

/-- What `reduce` does with a statement on top. -/
theorem Follows.reduceOnce_stmt (h : Follows s p) {il : ℤ} {c : ℚ} (hs : p.stack = ⟨.stmt, il, c⟩ :: rest)
    (hlen : rest.length < stacksize) : Agree (Option.Rel Follows) s.reduceOnce p.reduceOnce := by
  have hframes := h.frames
  have htos := h.tos_eq
  rw [hs] at hframes htos
  simp only [List.length_cons] at htos
  rw [Stacks.reduceOnce, Parser.reduceOnce, h.read_top hs hlen, hs]
  cases rest with
  | nil =>
    have hbelow : ¬ InArray (s.tos - 1) := by
      rintro ⟨h0, -⟩
      simp only [List.length_nil] at htos
      omega
    show Agree _ (read s.pStack (s.tos - 1) >>= _) _
    rw [read_fault hbelow]
    rfl
  | cons g rest =>
    obtain ⟨code, gil, gc⟩ := g
    simp only [List.length_cons] at htos hlen
    obtain ⟨hg, hil, hcstk, hrest⟩ := hframes.2.2.2
    have hbelow : InArray (s.tos - 1) := hframes.2.2.2.inArray (by omega)
    show Agree _ (read s.pStack (s.tos - 1) >>= _) _
    rw [read_eq hbelow, ← hg]
    cases code
    case stmt | stmtl =>
      show Agree _ (s.retop (s.tos - 1) .stmtl >>= _) (pure (some _))
      rw [retop_eq hbelow]
      exact .some (h.lower hs (by decide) h.iLFollow h.caseInd)
    case dolit =>
      show Agree _ (s.retop (s.tos - 1) .dohead >>= _) (pure (some _))
      rw [retop_eq hbelow]
      show Agree _ (read s.il (s.tos - 1) >>= _) (pure (some _))
      rw [read_eq hbelow]
      exact .some (h.lower hs (by decide) hil.symm h.caseInd)
    case ifstmt =>
      show Agree _ (s.retop (s.tos - 1) .ifhead >>= _) _
      rw [retop_eq hbelow]
      have hscan := agree_scan (hrest.update_code (by omega : s.tos - 1 - 1 < s.tos - 1) .ifhead)
        (by omega) (by omega : rest.length < stacksize + 1)
      show Agree _ (scan _ (stacksize + 1) (s.tos - 1 - 1) >>= _)
        (match rest.find? Parser.opensStatement with
          | none => throw .fault
          | some g => pure (some _))
      cases hfind : rest.find? Parser.opensStatement with
      | none =>
        rw [hfind] at hscan
        rw [hscan.of_error]
        rfl
      | some k =>
        rw [hfind] at hscan
        obtain ⟨j, hj, hin, hjk⟩ := hscan.of_ok
        rw [hj]
        show Agree _ (read s.il j >>= _) _
        rw [read_eq hin]
        exact .some (h.lower hs (by decide) hjk h.caseInd)
    case swstmt =>
      show Agree _ (read s.cstk (s.tos - 1) >>= _) (pure (some _))
      rw [read_eq hbelow]
      show Agree _ (retop _ (s.tos - 1) .stmt >>= _) (pure (some _))
      rw [retop_eq hbelow]
      show Agree _ (read s.il (s.tos - 1) >>= _) (pure (some _))
      rw [read_eq hbelow]
      exact .some (h.lower hs (by decide) hil.symm (hcstk rfl).symm)
    case decl | elsehead | forstmt | whilestmt =>
      show Agree _ (s.retop (s.tos - 1) .stmt >>= _) (pure (some _))
      rw [retop_eq hbelow]
      show Agree _ (read s.il (s.tos - 1) >>= _) (pure (some _))
      rw [read_eq hbelow]
      exact .some (h.lower hs (by decide) hil.symm h.caseInd)
    all_goals exact Option.Rel.none

theorem Follows.reduceOnce_while (h : Follows s p) {il : ℤ} {c : ℚ}
    (hs : p.stack = ⟨.whilestmt, il, c⟩ :: rest) (hlen : rest.length < stacksize) :
    Agree (Option.Rel Follows) s.reduceOnce p.reduceOnce := by
  have hframes := h.frames
  have htos := h.tos_eq
  rw [hs] at hframes htos
  simp only [List.length_cons] at htos
  rw [Stacks.reduceOnce, Parser.reduceOnce, h.read_top hs hlen, hs]
  cases rest with
  | nil =>
    have hbelow : ¬ InArray (s.tos - 1) := by
      rintro ⟨h0, -⟩
      simp only [List.length_nil] at htos
      omega
    show Agree _ (read s.pStack (s.tos - 1) >>= _) _
    rw [read_fault hbelow]
    rfl
  | cons g rest =>
    simp only [List.length_cons] at hlen
    obtain ⟨hg, -, -, hrest⟩ := hframes.2.2.2
    have hbelow : InArray (s.tos - 1) := hframes.2.2.2.inArray (by omega)
    show Agree _ (read s.pStack (s.tos - 1) >>= _) _
    rw [read_eq hbelow, ← hg]
    show Agree _ (if g.code = .dohead then _ else _) (if g.code = .dohead then _ else _)
    split
    · rw [show s.tos - 1 - 1 = s.tos - 2 by omega] at hrest
      exact .some ⟨hrest, h.iLFollow, h.indLevel, h.searchBrace, h.breakComma, h.caseInd⟩
    · exact Option.Rel.none

theorem Follows.reduceOnce (h : Follows s p) (hlen : p.stack.length ≤ stacksize) :
    Agree (Option.Rel Follows) s.reduceOnce p.reduceOnce := by
  cases hs : p.stack with
  | nil =>
    rw [Stacks.reduceOnce, Parser.reduceOnce, hs, h.read_bottom hs]
    rfl
  | cons f rest =>
    rw [hs, List.length_cons] at hlen
    obtain ⟨code, il, c⟩ := f
    by_cases hstmt : code = .stmt
    · subst hstmt
      exact h.reduceOnce_stmt hs hlen
    · by_cases hwhile : code = .whilestmt
      · subst hwhile
        exact h.reduceOnce_while hs hlen
      · rw [Stacks.reduceOnce, Parser.reduceOnce, h.read_top hs hlen, hs]
        cases code
        case stmt => exact (hstmt rfl).elim
        case whilestmt => exact (hwhile rfl).elim
        all_goals exact Option.Rel.none

theorem Follows.reduceFor {n : ℕ} (h : Follows s p) (hlen : p.stack.length ≤ stacksize)
    (hn : p.stack.length < n) : Agree Follows (reduceFor n s) p.reduce := by
  induction n generalizing s p with
  | zero => omega
  | succ n ih =>
    have honce := h.reduceOnce hlen
    rw [Stacks.reduceFor]
    cases hp : p.reduceOnce with
    | error e =>
      rw [hp] at honce
      rw [honce.of_error, Parser.reduce_of_error hp]
      rfl
    | ok r =>
      rw [hp] at honce
      obtain ⟨r', hr', hrel⟩ := honce.of_ok
      rw [hr']
      cases hrel with
      | none =>
        rw [Parser.reduce_of_none hp]
        exact h
      | some hab =>
        have hlt := Parser.length_reduceOnce hp
        rw [Parser.reduce_of_some hp]
        exact ih hab (by omega) (by omega)

theorem Follows.reduce (h : Follows s p) (hlen : p.stack.length ≤ stacksize) :
    Agree Follows s.reduce p.reduce :=
  h.reduceFor hlen (by omega)

/-- An `if` without an `else` has ended. -/
theorem Follows.retop_stmt (h : Follows s p) (hs : p.stack = f :: rest) :
    Follows { s with tos := s.tos, pStack := Function.update s.pStack s.tos .stmt }
      { p with stack := { f with code := .stmt } :: rest } := by
  have hframes := h.frames
  rw [hs] at hframes
  exact ⟨hframes.retop (by decide), h.iLFollow, h.indLevel, h.searchBrace, h.breakComma, h.caseInd⟩

theorem Follows.endIfsFor {n : ℕ} (h : Follows s p) (hlen : p.stack.length ≤ stacksize)
    (hn : p.stack.length < n) : Agree Follows (endIfsFor n s) p.endIfs := by
  induction n generalizing s p with
  | zero => omega
  | succ n ih =>
    cases hs : p.stack with
    | nil =>
      rw [Stacks.endIfsFor, h.read_bottom hs, Parser.endIfs, Parser.endIfsFor, hs]
      rfl
    | cons f rest =>
      have hframes := h.frames
      rw [hs, List.length_cons] at hlen hn
      rw [hs] at hframes
      rw [Stacks.endIfsFor, h.read_top hs hlen]
      show Agree _ (if f.code = .ifhead then _ else _) _
      by_cases hf : f.code = .ifhead
      · rw [if_pos hf, retop_eq (hframes.inArray hlen), Parser.endIfs_eq_bind hs hf]
        have hred := (h.retop_stmt hs).reduce (by simpa using hlen)
        show Agree _ (Stacks.reduce _ >>= Stacks.endIfsFor n) _
        cases hq : Parser.reduce { p with stack := { f with code := .stmt } :: rest } with
        | error e =>
          rw [hq] at hred
          rw [hred.of_error]
          rfl
        | ok q =>
          rw [hq] at hred
          obtain ⟨t, ht, htq⟩ := hred.of_ok
          rw [ht]
          show Agree _ (Stacks.endIfsFor n t) q.endIfs
          -- nothing was reduced, and the loop ends, or the stack is shorter now
          rcases Parser.length_reduceFor hq with rfl | hlt
          · obtain ⟨n, rfl⟩ := Nat.exists_eq_succ_of_ne_zero (by omega : n ≠ 0)
            rw [Stacks.endIfsFor, htq.read_top rfl hlen, Parser.endIfs_of_ne rfl (by simp)]
            exact htq
          · simp only [List.length_cons] at hlt
            exact ih htq (by omega) (by omega)
      · rw [if_neg hf, Parser.endIfs_of_ne hs hf]
        exact h

theorem Follows.endIfs (h : Follows s p) (hlen : p.stack.length ≤ stacksize) :
    Agree Follows s.endIfs p.endIfs :=
  h.endIfsFor hlen (by omega)

end Reduce

section Shift
variable {s t : Stacks} {p q : Parser} {top : Frame} {rest : List Frame} {opt : Options}

theorem push_eq {c : Code} {level : ℤ} (h : InArray (s.tos + 1)) :
    s.push c level = .ok { s with
      tos := s.tos + 1
      pStack := Function.update s.pStack (s.tos + 1) c
      il := Function.update s.il (s.tos + 1) level } := by
  rw [push, retop_eq h]
  show write s.il (s.tos + 1) level >>= _ = _
  rw [write_eq h]
  rfl

theorem Follows.inArray_succ (h : Follows s p) (hlen : p.stack.length < stacksize) :
    InArray (s.tos + 1) := by
  have htos := h.tos_eq
  constructor <;> omega

theorem Follows.push (h : Follows s p) (hlen : p.stack.length < stacksize) {c : Code}
    (hc : c ≠ .swstmt) {level level' : ℤ} (hlevel : level = level') :
    Agree Follows (s.push c level) (.ok (p.push c level')) := by
  rw [push_eq (h.inArray_succ hlen)]
  exact ⟨h.frames.push hc hlevel, h.iLFollow, h.indLevel, h.searchBrace, h.breakComma, h.caseInd⟩

theorem Follows.pushHead (h : Follows s p) (hlen : p.stack.length < stacksize) {tk : Code}
    (htk : tk ≠ .swstmt) : Agree Follows (pushHead opt tk s) (.ok (Parser.pushHead opt tk p)) := by
  obtain ⟨t, ht, htq⟩ := (h.push hlen htk h.iLFollow).of_ok
  rw [Stacks.pushHead, ht]
  exact ⟨htq.frames, congrArg (· + 1) h.iLFollow, h.iLFollow, rfl, htq.breakComma, htq.caseInd⟩

theorem decls_eq {code : ℤ → Code} {il : ℤ → ℤ} {cstk : ℤ → ℚ} {n : ℕ} {fs : List Frame}
    (h : Holds code il cstk n fs) (hn : n < stacksize) :
    decls code n = .ok ((fs.dropLast.filter (·.code = .decl)).length : ℤ) := by
  induction n generalizing fs with
  | zero =>
    have hlen := h.length_eq
    obtain ⟨f, rfl⟩ : ∃ f, fs = [f] := List.length_eq_one_iff.mp (by omega)
    rfl
  | succ n ih =>
    have hlen := h.length_eq
    cases fs with
    | nil => simp at hlen; omega
    | cons f rest =>
      have hrest : Holds code il cstk n rest := by
        have := h.2.2.2
        rwa [Int.natCast_add, Int.natCast_one, Int.add_sub_cancel] at this
      have hne : rest ≠ [] := by
        rintro rfl
        simp at hlen
        omega
      have hin : InArray (n + 1) := by constructor <;> omega
      rw [decls, read_eq hin, ih hrest (by omega), List.dropLast_cons_of_ne_nil hne, List.filter_cons]
      have hcode : f.code = code (n + 1) := h.1
      rw [← hcode]
      show Except.ok (if f.code = .decl then _ else _) = _
      by_cases hf : f.code = .decl
      · simp [hf]
      · simp [hf]

theorem Follows.shiftDecl (h : Follows s p) (hs : p.stack = top :: rest) (hlen : p.stack.length < stacksize) :
    Agree Follows (shiftDecl opt s) (.ok (Parser.shiftDecl opt top p)) := by
  have htos := h.tos_eq
  have hlen' : rest.length < stacksize := by rw [hs, List.length_cons] at hlen; omega
  rw [Stacks.shiftDecl, Parser.shiftDecl, h.read_top hs hlen']
  show Agree _ (if top.code ≠ .decl then _ else _) _
  by_cases htop : top.code = .decl
  · rw [if_neg (not_not.mpr htop), if_neg (not_not.mpr htop)]
    exact ⟨h.frames, h.iLFollow, h.indLevel, rfl, h.breakComma, h.caseInd⟩
  · rw [if_pos htop, if_pos htop, push_eq (h.inArray_succ hlen)]
    have hframes := h.frames.push (by decide : Code.decl ≠ .swstmt) h.iLFollow
    show Agree _ (if opt.ljustDecl then _ else _) (.ok (if opt.ljustDecl then _ else _))
    cases opt.ljustDecl with
    | false => exact ⟨hframes, h.iLFollow, h.indLevel, rfl, rfl, h.caseInd⟩
    | true =>
      have hn : (s.tos.toNat : ℤ) = s.tos := by
        rw [hs, List.length_cons] at htos
        omega
      have hbelow := h.frames.update_code (by omega : s.tos < s.tos + 1) .decl
      rw [← hn] at hbelow
      have hdepth := decls_eq hbelow (by omega)
      show Agree _ (decls _ (s.tos + 1 - 1).toNat >>= _) _
      rw [Int.add_sub_cancel, ← hn, Int.toNat_natCast, hdepth]
      rw [← hn] at hframes
      exact ⟨hframes, rfl, rfl, rfl, rfl, h.caseInd⟩

theorem Follows.shiftIf (h : Follows s p) (hs : p.stack = top :: rest) (hlen : p.stack.length < stacksize) :
    Agree Follows (shiftIf opt s) (.ok (Parser.shiftIf opt top p)) := by
  have hframes := h.frames
  rw [hs] at hframes
  have hlen' : rest.length < stacksize := by rw [hs, List.length_cons] at hlen; omega
  rw [Stacks.shiftIf, Parser.shiftIf, h.read_top hs hlen']
  show Agree _ (if top.code = .elsehead ∧ opt.elseIf then _ else _) _
  split
  · rw [read_eq (hframes.inArray hlen'), ← hframes.2.1]
    have hpopped : Follows { s with iLFollow := top.il, tos := s.tos - 1 }
        { p with stack := p.stack.tail, iLFollow := top.il } := by
      rw [hs]
      exact ⟨hframes.2.2.2, rfl, h.indLevel, h.searchBrace, h.breakComma, h.caseInd⟩
    exact hpopped.pushHead (by rw [hs]; exact hlen') (by decide)
  · exact h.pushHead hlen (by decide)

theorem Follows.shiftLbrace (h : Follows s p) (hs : p.stack = top :: rest)
    (hlen : p.stack.length + 1 < stacksize) (codeEmpty : Bool) :
    Agree Follows (shiftLbrace opt codeEmpty s) (.ok (Parser.shiftLbrace opt codeEmpty top p)) := by
  have hlen' : rest.length < stacksize := by rw [hs, List.length_cons] at hlen; omega
  -- what the brace does to the levels, on both sides
  have hopen : ∀ r : Parser, Follows (openBrace opt codeEmpty top.code s) r → r.stack = p.stack →
      Agree Follows (do
          let t ← (openBrace opt codeEmpty top.code s).push .lbrace
            (openBrace opt codeEmpty top.code s).indLevel
          t.push .stmt t.iLFollow)
        (.ok ((r.push .lbrace r.indLevel).push .stmt r.iLFollow)) := by
    intro r hr hstack
    obtain ⟨t, ht, htq⟩ := (hr.push (by rw [hstack]; omega) (by decide : Code.lbrace ≠ .swstmt)
      hr.indLevel).of_ok
    rw [ht]
    exact htq.push (by simpa [Parser.push, hstack] using hlen) (by decide) htq.iLFollow
  rw [Stacks.shiftLbrace, Parser.shiftLbrace, h.read_top hs hlen']
  apply hopen
  · unfold openBrace
    split
    · exact ⟨h.frames, congrArg (· + 1) h.iLFollow, h.indLevel, h.searchBrace, rfl, h.caseInd⟩
    · split
      · exact ⟨h.frames, h.iLFollow, congrArg (· - _) h.indLevel, h.searchBrace, rfl, h.caseInd⟩
      · exact ⟨h.frames, h.iLFollow, h.indLevel, h.searchBrace, rfl, h.caseInd⟩
  · split
    · rfl
    · split <;> rfl

theorem Follows.shiftWhile (h : Follows s p) (hs : p.stack = top :: rest) (hlen : p.stack.length < stacksize) :
    Agree Follows (shiftWhile opt s) (.ok (Parser.shiftWhile opt top p)) := by
  have hframes := h.frames
  rw [hs] at hframes
  have hlen' : rest.length < stacksize := by rw [hs, List.length_cons] at hlen; omega
  rw [Stacks.shiftWhile, Parser.shiftWhile, h.read_top hs hlen']
  show Agree _ (if top.code = .dohead then _ else _) _
  split
  · rw [read_eq (hframes.inArray hlen'), ← hframes.2.1]
    have hlevel : Follows { s with indLevel := top.il, iLFollow := top.il }
        { p with indLevel := top.il, iLFollow := top.il } :=
      ⟨h.frames, rfl, rfl, h.searchBrace, h.breakComma, h.caseInd⟩
    exact hlevel.push hlen (by decide) rfl
  · obtain ⟨t, ht, htq⟩ := (h.push hlen (by decide : Code.whilestmt ≠ .swstmt) h.iLFollow).of_ok
    rw [ht]
    exact ⟨htq.frames, congrArg (· + 1) h.iLFollow, htq.indLevel, rfl, htq.breakComma, htq.caseInd⟩

theorem Follows.shiftSwitch (h : Follows s p) (hlen : p.stack.length < stacksize) :
    Agree Follows (shiftSwitch opt s) (.ok (Parser.shiftSwitch opt p)) := by
  have hin := h.inArray_succ hlen
  rw [Stacks.shiftSwitch, push_eq hin]
  show Agree _ (write s.cstk (s.tos + 1) s.caseInd >>= _) _
  rw [write_eq hin]
  refine ⟨h.frames.pushSwitch h.iLFollow h.caseInd, ?_, h.indLevel, rfl, h.breakComma, ?_⟩
  · exact congrArg (fun x : ℤ => truncate (x + (opt.caseIndent + 1))) h.iLFollow
  · exact congrArg (fun x : ℤ => (x : ℚ) + opt.caseIndent) h.iLFollow

theorem Follows.shiftElse (h : Follows s p) (hs : p.stack = top :: rest) (hlen : p.stack.length < stacksize)
    (codeEmpty : Bool) :
    Agree (Option.Rel fun a b => Follows a.1 b.1 ∧ a.2 = b.2) (shift opt codeEmpty .elselit s)
      (.ok (Parser.shift opt codeEmpty .elselit top p)) := by
  have hframes := h.frames
  rw [hs] at hframes
  have hlen' : rest.length < stacksize := by rw [hs, List.length_cons] at hlen; omega
  have hin := hframes.inArray hlen'
  rw [Stacks.shift, Parser.shift, Stacks.shiftElse, h.read_top hs hlen']
  show Agree _ ((if top.code ≠ .ifhead then _ else _) >>= _) _
  split
  · exact .some ⟨h, rfl⟩
  · rw [read_eq hin, ← hframes.2.1, retop_eq hin, Parser.shiftElse, hs]
    exact .some ⟨⟨hframes.retop (by decide), rfl, rfl, rfl, h.breakComma, h.caseInd⟩, rfl⟩

theorem Follows.shiftRbrace (h : Follows s p) (hs : p.stack = top :: rest) (hlen : p.stack.length < stacksize)
    (codeEmpty : Bool) :
    Agree (Option.Rel fun a b => Follows a.1 b.1 ∧ a.2 = b.2) (shift opt codeEmpty .rbrace s)
      (.ok (Parser.shift opt codeEmpty .rbrace top p)) := by
  have hframes := h.frames
  have htos := h.tos_eq
  rw [hs] at hframes
  rw [Stacks.shift, Parser.shift, Stacks.shiftRbrace, hs]
  cases rest with
  | nil =>
    rw [hs] at htos
    rw [if_neg (by simp at htos; omega)]
    exact .some ⟨h, rfl⟩
  | cons g rest =>
    rw [hs] at htos hlen
    simp only [List.length_cons] at htos hlen
    have hbelow : InArray (s.tos - 1) := hframes.2.2.2.inArray (by omega)
    obtain ⟨code, il, c⟩ := g
    obtain ⟨hg, hil, -, -⟩ := hframes.2.2.2
    rw [if_pos (by omega), read_eq hbelow, ← hg]
    show Agree _ ((if code = .lbrace then _ else _) >>= _) _
    by_cases hcode : code = .lbrace
    · subst hcode
      rw [if_pos rfl, read_eq hbelow, ← hil, retop_eq hbelow]
      exact .some ⟨⟨hframes.2.2.2.retop (by decide), rfl, rfl, h.searchBrace, h.breakComma, h.caseInd⟩, rfl⟩
    · rw [if_neg hcode]
      cases code
      case lbrace => exact (hcode rfl).elim
      all_goals exact .some ⟨h, rfl⟩

theorem agree_token {x : Except Halt Stacks} {q : Parser} (h : Agree Follows x (.ok q)) :
    Agree (Option.Rel fun a b => Follows a.1 b.1 ∧ a.2 = b.2)
      (do pure (some (← x, (none : Option String)))) (.ok (some (q, none))) := by
  obtain ⟨t, rfl, htq⟩ := h.of_ok
  exact .some ⟨htq, rfl⟩

theorem Follows.shift (h : Follows s p) (hs : p.stack = top :: rest) (hlen : p.stack.length < stacksize)
    (codeEmpty : Bool) {tk : Code} (hbrace : tk = .lbrace → p.stack.length + 1 < stacksize) :
    Agree (Option.Rel fun a b => Follows a.1 b.1 ∧ a.2 = b.2) (shift opt codeEmpty tk s)
      (.ok (Parser.shift opt codeEmpty tk top p)) := by
  cases tk
  case decl => exact agree_token (h.shiftDecl hs hlen)
  case ifstmt => exact agree_token (h.shiftIf hs hlen)
  case dolit | forstmt => exact agree_token (h.pushHead hlen (by decide))
  case lbrace => exact agree_token (h.shiftLbrace hs (hbrace rfl) codeEmpty)
  case whilestmt => exact agree_token (h.shiftWhile hs hlen)
  case elselit => exact h.shiftElse hs hlen codeEmpty
  case rbrace => exact h.shiftRbrace hs hlen codeEmpty
  case swstmt => exact agree_token (h.shiftSwitch hlen)
  case semicolon =>
    have hcomma : Follows { s with breakComma := false } { p with breakComma := false } :=
      ⟨h.frames, h.iLFollow, h.indLevel, h.searchBrace, rfl, h.caseInd⟩
    exact agree_token (hcomma.push hlen (by decide : Code.stmt ≠ .swstmt) h.indLevel)
  all_goals exact Option.Rel.none

theorem Follows.finish (h : Follows s p) (msg : Option String) :
    Agree (fun a b => Follows a.1 b.1 ∧ a.2 = b.2) (t.finish (some (s, msg)))
      (if p.stack.length ≥ Parser.stacksize then throw (.exit "Parser stack overflow")
        else (do pure (← p.reduce, msg))) := by
  have htos := h.tos_eq
  rw [Stacks.finish]
  by_cases hlen : p.stack.length ≥ stacksize
  · rw [if_pos (by omega), if_pos hlen]
    rfl
  · rw [if_neg (by omega), if_neg hlen]
    exact (h.reduce (by omega)).bind fun a b hab => ⟨hab, rfl⟩

/-- The arrays do what the list does as long as a left brace finds room for its two entries. -/
theorem Follows.parse (h : Follows s p) (hne : p.stack ≠ []) (hlen : p.stack.length < stacksize)
    (codeEmpty : Bool) {tk : Code}
    (hbrace : tk = .lbrace → ∀ q, p.endIfs = .ok q → q.stack.length + 1 < stacksize) :
    Agree (fun a b => Follows a.1 b.1 ∧ a.2 = b.2) (s.parse opt codeEmpty tk)
      (p.parse opt codeEmpty tk) := by
  rw [Stacks.parse, Parser.parse_eq]
  have hstart : Agree (fun t q => Follows t q ∧ q.stack ≠ [] ∧ q.stack.length < stacksize ∧
        (tk = .lbrace → q.stack.length + 1 < stacksize))
      (if tk = .elselit then pure s else s.endIfs) (if tk = .elselit then pure p else p.endIfs) := by
    by_cases htk : tk = .elselit
    · rw [if_pos htk, if_pos htk]
      exact ⟨h, hne, hlen, fun hl => by rw [htk] at hl; cases hl⟩
    · rw [if_neg htk, if_neg htk]
      have hends := h.endIfs hlen.le
      cases hq : p.endIfs with
      | error e =>
        rw [hq] at hends
        rw [hends.of_error]
        rfl
      | ok q =>
        rw [hq] at hends
        obtain ⟨t, ht, htq⟩ := hends.of_ok
        rw [ht]
        exact ⟨htq, Parser.endIfs_ne_nil hq, lt_of_le_of_lt (Parser.length_endIfs_le hq) hlen, fun hl => hbrace hl q hq⟩
  refine hstart.bind fun t q htq => ?_
  obtain ⟨htq, hne, hlen, hbrace⟩ := htq
  obtain ⟨top, rest, hs⟩ := List.exists_cons_of_ne_nil hne
  have hshift : Agree _ (Stacks.shift opt codeEmpty tk t) _ := htq.shift hs hlen codeEmpty hbrace
  rw [hs]
  obtain ⟨r, hr, hrel⟩ := hshift.of_ok
  rw [hr]
  change Agree _ (t.finish r) _
  dsimp only
  generalize Parser.shift opt codeEmpty tk top q = r' at hrel
  cases hrel with
  | none => exact ⟨htq, rfl⟩
  | @some a b hab =>
    obtain ⟨u, msg⟩ := a
    obtain ⟨v, msg'⟩ := b
    obtain ⟨huv, rfl⟩ : Follows u v ∧ msg = msg' := hab
    exact huv.finish msg

end Shift

end Stacks
end BsdAdditions.Indent
