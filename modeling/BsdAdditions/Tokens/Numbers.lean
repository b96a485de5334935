import BsdAdditions.Common.Regular
import BsdAdditions.Indent.Main

/-! The automaton for numeric constants and the grammar written above its table. -/
namespace BsdAdditions.Indent
open Common Common.Prog RegularExpression

/-! ### The grammar -/

abbrev Re := RegularExpression UInt8

/-- One of the bytes of the text. -/
def oneOf (s : String) : Re := (bytes s).foldr (fun c P => char c + P) 0

def optional (P : Re) : Re := P + 1

def oneOrMore (P : Re) : Re := P * P.star

namespace Constant

def O : Re := oneOf "01234567"
def D : Re := oneOf "0123456789"
def NZ : Re := oneOf "123456789"
def H : Re := oneOf "abcdefABCDEF0123456789"
def B : Re := oneOf "01"
def HP : Re := oneOf "0" * oneOf "xX"
def BP : Re := oneOf "0" * oneOf "bB"
def E : Re := oneOf "eE" * (optional (oneOf "+-") * oneOrMore D)
def P : Re := oneOf "pP" * (optional (oneOf "+-") * oneOrMore D)
def FS : Re := oneOf "flFL"

/-- `l`, `L`, `ll` or `LL`. -/
def long : Re := oneOf "l" + (oneOf "L" + (oneOf "l" * oneOf "l" + oneOf "L" * oneOf "L"))

def IS : Re := oneOf "uU" * optional long + long * optional (oneOf "uU")

def dot : Re := oneOf "."

/-- The rules for floating constants. The last one asks for a suffix. -/
def floating : List Re :=
  [oneOrMore D * (E * optional FS),
    D.star * (dot * (oneOrMore D * (optional E * optional FS))),
    oneOrMore D * (dot * (optional E * optional FS)),
    HP * (oneOrMore H * (P * optional FS)),
    HP * (H.star * (dot * (oneOrMore H * (P * optional FS)))),
    HP * (oneOrMore H * (dot * (P * FS)))]

def integer : List Re :=
  [HP * (oneOrMore H * optional IS),
    NZ * (D.star * optional IS),
    oneOf "0" * (O.star * optional IS),
    BP * (oneOrMore B * optional IS)]

end Constant

/-! ### The automaton -/

/-- The transition that the scanner makes on a byte; it stops in a final state. -/
def transition (state : Char) (c : UInt8) : Option Char :=
  if isFinal state then none
  else (tableRow c).bind fun row => if entry row state = ' ' then none else some (entry row state)

/-- The kind of constant that the state stands for. -/
def kindOf (state : Char) : Char := if isFinal state then state else entry tableKinds state

/-- The bytes on which the table has a row, that of the kinds apart. -/
def constantBytes : List UInt8 := bytes "0123456789abcdefABCDEFuUxXpPLl+-."

namespace Constant

/-- What is left of a floating constant in each state. -/
def floatingLeft : List (Char × List Re) :=
  let decimal := [D.star * (E * optional FS), D.star * (dot * (oneOrMore D * (optional E * optional FS))),
    D.star * (dot * (optional E * optional FS))]
  let hex := [oneOrMore H * (P * optional FS), H.star * (dot * (oneOrMore H * (P * optional FS))),
    oneOrMore H * (dot * (P * FS))]
  [('A', floating), ('B', [oneOrMore D * (optional E * optional FS)]),
    ('C', decimal ++ hex.map (oneOf "xX" * ·)), ('D', decimal), ('I', decimal), ('J', decimal),
    -- The fraction has begun, or the point has digits in front of it and may be the last.
    ('E', [D.star * (optional E * optional FS)]),
    ('E', [oneOrMore D * (optional E * optional FS), optional E * optional FS]),
    ('F', [(optional (oneOf "+-") * oneOrMore D) * optional FS]), ('G', [oneOrMore D * optional FS]),
    ('H', [D.star * optional FS]), ('f', [1]), ('N', hex),
    ('U', [H.star * (P * optional FS), H.star * (dot * (oneOrMore H * (P * optional FS))),
      H.star * (dot * (P * FS))]),
    ('T', [oneOrMore H * (P * optional FS)]), ('V', [H.star * (P * optional FS)]),
    ('W', [oneOrMore H * (P * optional FS), P * FS]), ('X', [(optional (oneOf "+-") * oneOrMore D) * FS]),
    ('Y', [oneOrMore D * FS]), ('Z', [D.star * FS])] ++
  ['K', 'L', 'M', 'O', 'P', 'Q', 'R', 'S', 'i'].map (·, [])

/-- What is left of an integer constant in each state. -/
def integerLeft : List (Char × List Re) :=
  [('A', integer), ('C', [oneOf "xX" * (oneOrMore H * optional IS), O.star * optional IS,
      oneOf "bB" * (oneOrMore B * optional IS)]),
    ('D', [D.star * optional IS]), ('I', [O.star * optional IS]), ('N', [oneOrMore H * optional IS]),
    ('U', [H.star * optional IS]), ('K', [oneOrMore B * optional IS]), ('Q', [B.star * optional IS]),
    ('M', [optional long]), ('O', [optional (oneOf "uU"), oneOf "l" * optional (oneOf "uU")]),
    ('L', [optional (oneOf "uU"), oneOf "L" * optional (oneOf "uU")]), ('P', [optional (oneOf "uU")]),
    ('S', [1, oneOf "l"]), ('R', [1, oneOf "L"]), ('i', [1])] ++
  ['B', 'E', 'F', 'G', 'H', 'J', 'T', 'V', 'W', 'X', 'Y', 'Z', 'f'].map (·, [])

end Constant

/-- The table has rows for the bytes of constants, and goes along with the grammar of both kinds of
constants through states of known kinds. -/
theorem constants_simulated :
    (∀ n : Fin 256, (tableRow (UInt8.ofNat n)).isSome → UInt8.ofNat n = 0 ∨ UInt8.ofNat n ∈ constantBytes) ∧
    simulates transition (fun q => kindOf q = 'f') constantBytes Constant.floatingLeft = true ∧
    simulates transition (fun q => kindOf q = 'i') constantBytes Constant.integerLeft = true ∧
    Constant.integerLeft.all (fun p => kindOf p.1 ∈ ['f', 'i', 'u']) = true :=
  -- one evaluation for each part, so that no part is kept while the next one is evaluated
  ⟨by decide +kernel, by decide +kernel, by decide +kernel, by decide +kernel⟩

theorem mem_constantBytes {state state' : Char} {c : UInt8} (h : transition state c = some state')
    (hc : c ≠ 0) : c ∈ constantBytes := by
  have hrow : (tableRow c).isSome := by
    unfold transition at h
    cases hr : tableRow c with
    | some row => rfl
    | none =>
      rw [hr] at h
      split at h <;> cases h
  have hbytes := constants_simulated.1 ⟨c.toNat, c.toNat_lt⟩
  rw [UInt8.ofNat_toNat] at hbytes
  exact (hbytes hrow).resolve_left hc

theorem mem_constantBytes_of_run {w : List UInt8} {state state' : Char}
    (hrun : Common.run transition state w = some state') (hw : 0 ∉ w) : ∀ c ∈ w, c ∈ constantBytes := by
  induction w generalizing state with
  | nil => nofun
  | cons a w ih =>
    obtain ⟨u, hu, hrest⟩ := run_cons_eq_some.mp hrun
    have ha : a ≠ 0 := fun h => hw (h ▸ List.mem_cons_self)
    intro c hc
    rcases List.mem_cons.mp hc with rfl | hc
    · exact mem_constantBytes hu ha
    · exact ih hrest (fun h => hw (List.mem_cons_of_mem a h)) c hc

/-- The kind of the state that a word leads to tells which language the word is in. -/
theorem kindOf_run {w : List UInt8} {q : Char} (hrun : Common.run transition 'A' w = some q) (hw : 0 ∉ w) :
    (kindOf q = 'f' ↔ InAny Constant.floating w) ∧ (kindOf q = 'i' ↔ InAny Constant.integer w) ∧
      (kindOf q = 'u' ↔ ¬ InAny Constant.floating w ∧ ¬ InAny Constant.integer w) := by
  obtain ⟨-, hfs, his, hkinds⟩ := constants_simulated
  have hf : ('A', Constant.floating) ∈ Constant.floatingLeft := List.mem_cons_self
  have hi : ('A', Constant.integer) ∈ Constant.integerLeft := List.mem_cons_self
  have hletters := mem_constantBytes_of_run hrun hw
  have hfloat : kindOf q = 'f' ↔ InAny Constant.floating w := by
    simpa using recognizes_of_simulates hfs hletters hf hrun
  have hint : kindOf q = 'i' ↔ InAny Constant.integer w := by
    simpa using recognizes_of_simulates his hletters hi hrun
  obtain ⟨p, hp, hpq⟩ := List.mem_map.mp (mem_of_simulates his hletters hi hrun)
  have hkind : kindOf q ∈ ['f', 'i', 'u'] := by
    rw [← hpq]
    exact of_decide_eq_true (List.all_eq_true.mp hkinds p hp)
  refine ⟨hfloat, hint, ?_⟩
  rw [← hfloat, ← hint]
  simp only [List.mem_cons, List.not_mem_nil, or_false] at hkind
  rcases hkind with h | h | h <;> simp [h]

/-! ### The scanner -/

/-- The state after the scanner has moved the bytes `w` to the token. -/
def Indenter.took (s : Indenter) (w rest : List UInt8) : Indenter :=
  { s with token := s.token ++ w, src := { s.src with before := s.src.before ++ w, rest } }

section Scanner
variable {env : Env} {fuel : ℕ} {s : Indenter} {c : UInt8} {rest : List UInt8}

theorem peek_eq (hrest : s.src.rest = c :: rest) : peek s = .ok (c, s) := by
  rw [peek, peekAt, bind_of_ok rfl, hrest]
  rfl

/-- A byte goes to the token; the line is not used up. -/
theorem takeToken_eq (hrest : s.src.rest = c :: rest) (hne : rest ≠ []) :
    takeToken env fuel s = .ok ((), s.took [c] rest) := by
  have hput : putToken c s = .ok ((), { s with token := s.token ++ [c] }) := rfl
  have hadvance : advance { s with token := s.token ++ [c] } = .ok ((), s.took [c] rest) := by
    rw [advance, bind_of_ok rfl]
    simp only [hrest]
    rfl
  have hrefill : refill env fuel (s.took [c] rest) = .ok ((), s.took [c] rest) := by
    rw [refill, bind_of_ok rfl, onlyIf, if_neg (by exact hne)]
    rfl
  rw [takeToken, bind_of_ok (peek_eq hrest), bind_of_ok hput, next, bind_of_ok hadvance, hrefill]

theorem took_took (w w' : List UInt8) (rest' : List UInt8) :
    (s.took w rest).took w' rest' = s.took (w ++ w') rest' := by
  simp [Indenter.took]

theorem transition_final {state : Char} (h : isFinal state = true) : transition state c = none := by
  rw [transition, if_pos h]

theorem scanNumber_stop {n : ℕ} {state : Char} (hrest : s.src.rest = c :: rest)
    (h : transition state c = none) : scanNumber env fuel (n + 1) state s = .ok (kindOf state, s) := by
  rw [scanNumber, kindOf]
  rw [transition] at h
  split
  · rfl
  case isFalse hfinal =>
    rw [if_neg hfinal] at h
    rw [bind_of_ok (peek_eq hrest)]
    cases hrow : tableRow c with
    | none => rfl
    | some row =>
      rw [hrow, Option.bind_some] at h
      have hentry : entry row state = ' ' := by
        by_contra hne
        rw [if_neg hne] at h
        cases h
      simp only [hentry, if_true]
      rfl

theorem scanNumber_go {n : ℕ} {state q : Char} (hrest : s.src.rest = c :: rest) (hne : rest ≠ [])
    (h : transition state c = some q) :
    scanNumber env fuel (n + 1) state s = scanNumber env fuel n q (s.took [c] rest) := by
  rw [scanNumber]
  rw [transition] at h
  split
  case isTrue hfinal =>
    rw [if_pos hfinal] at h
    cases h
  case isFalse hfinal =>
    rw [if_neg hfinal] at h
    rw [bind_of_ok (peek_eq hrest)]
    cases hrow : tableRow c with
    | none =>
      rw [hrow] at h
      cases h
    | some row =>
      rw [hrow, Option.bind_some] at h
      split at h
      · cases h
      case isFalse hentry =>
        obtain rfl := Option.some.inj h
        simp only [hentry, if_false]
        rw [bind_of_ok (takeToken_eq hrest hne)]

theorem transition_newline (state : Char) : transition state 10 = none := by
  have hrow : tableRow 10 = none := by decide
  rw [transition, hrow]
  split <;> rfl

/-- The scanner goes along the table as far as it can. -/
theorem scanNumber_eq {n : ℕ} {state : Char} {line : List UInt8} (hrest : s.src.rest = line ++ 10 :: rest)
    (hn : line.length < n) :
    ∃ w r q, line = w ++ r ∧ Common.run transition state w = some q ∧
      (∀ c ∈ r.head?, transition q c = none) ∧
      scanNumber env fuel n state s = .ok (kindOf q, s.took w (r ++ 10 :: rest)) := by
  have hstay : s.took [] s.src.rest = s := by simp [Indenter.took]
  induction line generalizing n state s with
  | nil =>
    obtain ⟨n, rfl⟩ := Nat.exists_eq_succ_of_ne_zero (by omega : n ≠ 0)
    refine ⟨[], [], state, rfl, rfl, nofun, ?_⟩
    rw [scanNumber_stop hrest (transition_newline state), ← hrest, hstay]
  | cons c line ih =>
    obtain ⟨n, rfl⟩ := Nat.exists_eq_succ_of_ne_zero (by omega : n ≠ 0)
    cases hq : transition state c with
    | none =>
      refine ⟨[], c :: line, state, rfl, rfl, ?_, ?_⟩
      · rintro _ ⟨⟩
        exact hq
      · rw [scanNumber_stop hrest hq, ← hrest, hstay]
    | some q =>
      have hne : line ++ 10 :: rest ≠ [] := by simp
      obtain ⟨w, r, q', hline, hrun, hstop, hscan⟩ :=
        @ih (s.took [c] (line ++ 10 :: rest)) n q rfl (by simpa using hn) (by simp [Indenter.took])
      refine ⟨c :: w, r, q', by rw [hline]; rfl, run_cons_eq_some.mpr ⟨q, hq, hrun⟩, hstop, ?_⟩
      rw [List.cons_append] at hrest
      rw [scanNumber_go hrest hne hq, hscan, took_took]
      rfl

/-- No longer part of the line has a path through the table. -/
theorem length_le_of_stop {w r w' line : List UInt8} {q state : Char} (hline : line = w ++ r)
    (hrun : Common.run transition state w = some q) (hstop : ∀ c ∈ r.head?, transition q c = none)
    (hw' : w' <+: line) (hrun' : (Common.run transition state w').isSome) : w'.length ≤ w.length := by
  by_contra hlt
  have hpre : w <+: w' := List.prefix_of_prefix_length_le ⟨r, hline.symm⟩ hw' (by omega)
  obtain ⟨u, rfl⟩ := hpre
  cases u with
  | nil => simp at hlt
  | cons c u =>
    obtain ⟨q', hq'⟩ := Option.isSome_iff_exists.mp hrun'
    obtain ⟨q₁, h₁, h₂⟩ := run_append.mp hq'
    obtain rfl := Option.some.inj (hrun.symm.trans h₁)
    obtain ⟨q₂, hc, -⟩ := run_cons_eq_some.mp h₂
    obtain ⟨v, hv⟩ := hw'
    have hr : r = c :: (u ++ v) := by
      rw [hline, List.append_assoc] at hv
      simpa using (List.append_cancel_left hv).symm
    rw [hstop c (by rw [hr]; rfl)] at hc
    cases hc

end Scanner

/-- A line that starts with a hexadecimal floating constant. -/
def hexLine : Indenter :=
  { Indenter.initial .plain [] with src := ⟨[], bytes "0x1p3L;\n", []⟩ }

end BsdAdditions.Indent
