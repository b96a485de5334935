import Mathlib.Data.List.TakeWhile
import Mathlib.Logic.Relation
import BsdAdditions.Curse.InfoOut

/-! When the terminfo interpreter stays inside its text and its arrays. -/
namespace BsdAdditions.Curse
open Common

/-! ### One operator -/

/-- The text of an operator does not end before the operator does. -/
def Complete : List UInt8 → Prop
  | [112] | [80] | [103] | [39] | [39, _] => False
  | 123 :: rest => 125 ∈ rest
  | _ => True

theorem dropWhile_eq_nil_iff {b : UInt8} {l : List UInt8} : l.dropWhile (· ≠ b) = [] ↔ b ∉ l := by
  rw [List.dropWhile_eq_nil_iff]
  constructor
  · intro h hb
    simpa using h b hb
  · intro h x hx
    simpa using fun he : x = b => h (he ▸ hx)

/-- What is complete is read, and what is left of the text is a part of it. -/
theorem scan_spec (text : List UInt8) :
    scan text = none ∧ ¬ Complete text ∨
      ∃ op rest, scan text = some (op, rest) ∧ Complete text ∧ rest.length ≤ text.length := by
  fun_cases scan text
  case case26 rest x rest' h =>
    have hdrop := (List.dropWhile_suffix (· ≠ (125 : UInt8)) (l := rest)).length_le
    have hmem : 125 ∈ rest := by
      by_contra hnot
      rw [dropWhile_eq_nil_iff.mpr hnot] at h
      cases h
    rw [h, List.length_cons] at hdrop
    exact .inr ⟨_, _, rfl, hmem, by rw [List.length_cons]; omega⟩
  case case27 rest h => exact .inl ⟨rfl, dropWhile_eq_nil_iff.mp h⟩
  case case33 hbrace hp hP hg hquote hquote' =>
    -- no operator starts here: the text is none of those that are cut off
    refine .inr ⟨_, _, rfl, ?_, Nat.le_refl _⟩
    unfold Complete
    split
    · exact hp rfl
    · exact hP rfl
    · exact hg rfl
    · exact hquote rfl
    · exact hquote' _ rfl
    · exact (hbrace _ rfl).elim
    · trivial
  case case28 | case29 | case30 | case31 | case32 => exact .inl ⟨rfl, not_false⟩
  all_goals exact .inr ⟨_, _, rfl, trivial, by simp only [List.length_cons]; omega⟩

theorem scan_eq_none_iff (text : List UInt8) : scan text = none ↔ ¬ Complete text := by
  rcases scan_spec text with ⟨hnone, hnot⟩ | ⟨op, rest, hsome, hcomplete, -⟩
  · exact iff_of_true hnone hnot
  · exact iff_of_false (hsome ▸ Option.some_ne_none _) (not_not_intro hcomplete)

theorem complete_of_scan {text : List UInt8} {r : Option Operator × List UInt8} (h : scan text = some r) :
    Complete text := by
  rcases scan_spec text with ⟨hnone, -⟩ | ⟨-, -, -, hcomplete, -⟩
  · cases hnone.symm.trans h
  · exact hcomplete

theorem length_scan_le {text rest : List UInt8} {op : Option Operator} (h : scan text = some (op, rest)) :
    rest.length ≤ text.length := by
  rcases scan_spec text with ⟨hnone, -⟩ | ⟨op', rest', hsome, -, hle⟩
  · cases hnone.symm.trans h
  · cases hsome.symm.trans h
    exact hle

/-- The stack and the arrays allow the operator. -/
def Operator.Allowed : Operator → List Int32 → Prop
  | print _, stack => 1 ≤ stack.length
  | binary op, stack => 2 ≤ stack.length ∧ (op = .div ∨ op = .mod → stack[1]? ≠ some 0)
  | putc, stack => 1 ≤ stack.length
  | inc, _ => True
  | percent, _ => True
  | unary _, stack => 1 ≤ stack.length
  | p letter, stack => (48 ≤ letter ∧ letter ≤ 57) ∧ stack.length < 128
  | P letter, stack => (97 ≤ letter ∧ letter ≤ 123) ∧ stack.length < 128
  | g letter, stack => (97 ≤ letter ∧ letter ≤ 123) ∧ 1 ≤ stack.length
  | push _, stack => stack.length < 128

theorem Binary.apply_eq_none_iff (op : Binary) (x y : Int32) :
    op.apply x y = none ↔ (op = .div ∨ op = .mod) ∧ y = 0 := by
  cases op <;> simp [apply]

theorem pushOn_eq_none_iff (v : Int32) (stack : List Int32) : pushOn v stack = none ↔ ¬ stack.length < 128 := by
  simp [pushOn]

/-- The letters that name one of `n` cells. -/
theorem indexOf_lt_iff {n : ℕ} {base top letter : UInt8} (htop : top < 128) (hn : top.toNat + 1 = base.toNat + n) :
    (∃ i, indexOf base letter = some i ∧ i < n) ↔ base ≤ letter ∧ letter ≤ top := by
  have h128 : (128 : UInt8).toNat = 128 := rfl
  rw [UInt8.lt_iff_toNat_lt, h128] at htop
  simp only [indexOf, UInt8.le_iff_toNat_le, UInt8.lt_iff_toNat_lt, h128]
  split
  next h =>
    constructor
    · rintro ⟨_, ⟨⟩, hi⟩
      omega
    · intro hle
      exact ⟨_, rfl, by omega⟩
  next h =>
    constructor
    · rintro ⟨_, ⟨⟩, _⟩
    · omega

/-- An operator that puts a cell of an array on the stack. -/
theorem cell_push_eq_none_iff {α : Type} {n : ℕ} (t : α) (array : Vector Int32 n) {base top letter : UInt8}
    (htop : top < 128) (hn : top.toNat + 1 = base.toNat + n) (stack : List Int32) :
    (do
      let v ← array[← indexOf base letter]?
      some (t, ← pushOn v stack)) = none ↔ ¬ ((base ≤ letter ∧ letter ≤ top) ∧ stack.length < 128) := by
  rw [← indexOf_lt_iff htop hn]
  cases hi : indexOf base letter with
  | none => simp
  | some i =>
    by_cases hlt : i < n
    · simp [hlt, pushOn]
    · simp [hlt]

/-- An operator that takes one value off the stack. -/
theorem eq_none_iff_of_pop {α : Type} {m : List Int32 → Option α} (hnil : m [] = none)
    (hcons : ∀ v stack, (m (v :: stack)).isSome = true) (stack : List Int32) :
    m stack = none ↔ ¬ 1 ≤ stack.length := by
  cases stack with
  | nil => exact iff_of_true hnil (Nat.not_succ_le_zero 0)
  | cons v stack =>
    apply iff_of_false
    · exact Option.isSome_iff_ne_none.mp (hcons v stack)
    · exact not_not.mpr (Nat.le_add_left 1 _)

theorem Operator.exec_binary_eq_none_iff (t : Tty) (op : Binary) (stack : List Int32) :
    (binary op).exec t stack = none ↔ ¬ (binary op).Allowed stack := by
  match stack with
  | [] => exact iff_of_true rfl fun h => absurd h.1 (by simp)
  | [_] => exact iff_of_true rfl fun h => absurd h.1 (by simp)
  | x :: y :: stack =>
    have hnone := op.apply_eq_none_iff x y
    change ((op.apply x y).bind fun v => some (t, v :: stack)) = none ↔ _
    cases happly : op.apply x y with
    | none => simp_all [Allowed]
    | some v => simp_all [Allowed]

theorem Operator.exec_g_eq_none_iff (t : Tty) (letter : UInt8) (stack : List Int32) :
    (g letter).exec t stack = none ↔ ¬ (g letter).Allowed stack := by
  cases stack with
  | nil => exact iff_of_true rfl fun h => absurd h.2 (by simp)
  | cons v stack =>
    have hcell : (∃ i, indexOf 97 letter = some i ∧ i < 27) ↔ 97 ≤ letter ∧ letter ≤ 123 :=
      indexOf_lt_iff (by decide) rfl
    change ((indexOf 97 letter).bind fun i => (store t.vars i v).bind fun vars => some ({ t with vars }, stack)) =
      none ↔ _
    rw [Allowed, ← hcell]
    cases hi : indexOf 97 letter with
    | none => simp
    | some i =>
      by_cases hlt : i < 27
      · simp [store, hlt]
      · simp [store, hlt]

theorem Operator.exec_eq_none_iff (t : Tty) (op : Operator) (stack : List Int32) :
    op.exec t stack = none ↔ ¬ op.Allowed stack := by
  cases op with
  | print f => exact eq_none_iff_of_pop rfl (fun _ _ => rfl) stack
  | binary op => exact exec_binary_eq_none_iff t op stack
  | putc => exact eq_none_iff_of_pop rfl (fun _ _ => rfl) stack
  | inc => exact iff_of_false (Option.some_ne_none _) (not_not.mpr trivial)
  | percent => exact iff_of_false (Option.some_ne_none _) (not_not.mpr trivial)
  | unary op => exact eq_none_iff_of_pop rfl (fun _ _ => rfl) stack
  | p letter => exact cell_push_eq_none_iff t t.p (by decide) rfl stack
  | P letter => exact cell_push_eq_none_iff t t.vars (by decide) rfl stack
  | g letter => exact exec_g_eq_none_iff t letter stack
  | push v =>
    change ((pushOn v stack).bind fun stack' => some (t, stack')) = none ↔ _
    simp [Allowed, pushOn]

/-- The operator at the text is complete, and the stack and the arrays allow it. -/
def OperationAllowed (text : List UInt8) (stack : List Int32) : Prop :=
  Complete text ∧ ∀ op rest, scan text = some (some op, rest) → op.Allowed stack

theorem operation_eq_none_iff (t : Tty) (text : List UInt8) (stack : List Int32) :
    operation t text stack = none ↔ ¬ OperationAllowed text stack := by
  unfold operation OperationAllowed
  match hs : scan text with
  | none =>
    have hcomplete := (scan_eq_none_iff text).mp hs
    simp [hcomplete]
  | some (none, rest) => simp [complete_of_scan hs]
  | some (some op, rest) =>
    have hcomplete := complete_of_scan hs
    have hexec := op.exec_eq_none_iff t stack
    cases he : op.exec t stack with
    | none => simp_all
    | some r => simp_all

/-! ### One round -/

/-- What a round of the interpreter needs. In a condition: it does not end with the text where it
is true, and elsewhere the operator is allowed on the stack for conditions. Outside: an operator
that is no mark is allowed on the stack, and a delay is closed. -/
def Machine.Guard (m : Machine) : Prop :=
  match m.eval, m.rest with
  | true, [] => ∀ v ∈ m.condStack.head?, v = 0
  | true, c :: rest => ¬ (c = 37 ∧ rest.head? = some 116) → OperationAllowed rest m.condStack
  | false, [] => True
  | false, 37 :: rest => rest.head? ∉ [some 63, some 116, some 101, some 59] → OperationAllowed rest m.stack
  | false, 36 :: 60 :: rest => 62 ∈ rest
  | false, _ :: _ => True

theorem Machine.test_eq_none_iff (m : Machine) :
    m.test = none ↔ m.rest.length < 2 ∧ ∃ v ∈ m.condStack.head?, v ≠ 0 := by
  unfold test
  split
  next v stack hstack =>
    rw [hstack]
    split
    next hv =>
      split
      next hrest => simp [hrest]
      next hrest =>
        have hshort : m.rest.length < 2 := by
          match hm : m.rest with
          | [] => exact Nat.zero_lt_two
          | [_] => exact Nat.one_lt_two
          | a :: b :: r => exact absurd hm (hrest a b r)
        simp [hshort, hv]
    next hv => simp_all
  next hstack => simp [hstack]

theorem Machine.evalStep_eq_none_iff (m : Machine) (heval : m.eval = true) : m.evalStep = none ↔ ¬ m.Guard := by
  unfold evalStep Guard
  rw [heval]
  match hm : m.rest with
  | [] => simp [test_eq_none_iff, hm]
  | c :: rest =>
    dsimp only
    by_cases hmark : c = 37 ∧ rest.head? = some 116
    · have hlong : ¬ m.rest.length < 2 := by
        rw [hm]
        match rest, hmark.2 with
        | _ :: _, _ => simp
      rw [if_pos hmark, test_eq_none_iff]
      simp [hlong, hmark]
    · rw [if_neg hmark]
      have hop := operation_eq_none_iff m.tty rest m.condStack
      cases ho : operation m.tty rest m.condStack with
      | none => simp_all
      | some r => simp_all

theorem Machine.delay_eq_none_iff (line : Line) (m : Machine) (rest : List UInt8) :
    m.delay line rest = none ↔ 62 ∉ rest := by
  rw [← dropWhile_eq_nil_iff, delay]
  split
  next h => simp_all
  next h => simp_all

theorem Machine.mainStep_eq_none_iff (line : Line) (m : Machine) (heval : m.eval = false) {c : UInt8} {rest : List UInt8}
    (hm : m.rest = c :: rest) : m.mainStep line c rest = none ↔ ¬ m.Guard := by
  unfold mainStep Guard
  rw [heval, hm]
  by_cases hc : c = 37
  · subst hc
    rw [if_pos rfl]
    dsimp only
    split
    case h_5 h63 h116 h101 h59 =>
      have hnomark : rest.head? ∉ [some 63, some 116, some 101, some 59] := by
        match rest with
        | [] => decide
        | b :: r =>
          have h1 : b ≠ 63 := fun h => h63 r (h ▸ rfl)
          have h2 : b ≠ 116 := fun h => h116 r (h ▸ rfl)
          have h3 : b ≠ 101 := fun h => h101 r (h ▸ rfl)
          have h4 : b ≠ 59 := fun h => h59 r (h ▸ rfl)
          simp [h1, h2, h3, h4]
      have hop := operation_eq_none_iff m.tty rest m.stack
      cases ho : operation m.tty rest m.stack with
      | none => simp_all
      | some r => simp_all
    all_goals simp
  · rw [if_neg hc]
    by_cases hdelay : c = 36 ∧ rest.head? = some 60
    · rw [if_pos hdelay, delay_eq_none_iff]
      match rest, hdelay.2 with
      | b :: r, hb =>
        obtain rfl : b = 60 := Option.some.inj hb
        obtain rfl := hdelay.1
        rfl
    · rw [if_neg hdelay]
      split
      all_goals simp_all

theorem Machine.step_eq_none_iff (line : Line) (m : Machine) : m.step line = none ↔ ¬ m.Guard := by
  unfold step
  cases heval : m.eval with
  | true => simpa using m.evalStep_eq_none_iff heval
  | false =>
    match hm : m.rest with
    | [] => simp [Guard, heval, hm]
    | c :: rest => simpa using m.mainStep_eq_none_iff line heval hm

/-! ### Whole runs -/

/-- One round leads from the one machine to the other. -/
def Machine.Step (line : Line) (m m' : Machine) : Prop := m.step line = some (some m')

/-- The rounds that are left at most. -/
def Machine.size (m : Machine) : ℕ := 2 * m.rest.length + m.eval.toNat

theorem length_skipTo_le (marks text : List UInt8) : (skipTo marks text).length ≤ text.length := by
  fun_induction skipTo marks text with
  | case1 => exact Nat.le_refl _
  | case2 => exact Nat.zero_le _
  | case3 a b rest h => exact Nat.le_refl _
  | case4 a b rest h ih => exact Nat.le_succ_of_le ih

theorem length_operation_le {t t' : Tty} {text rest : List UInt8} {stack stack' : List Int32}
    (h : operation t text stack = some (t', rest, stack')) : rest.length ≤ text.length := by
  unfold operation at h
  match hs : scan text with
  | none => simp [hs] at h
  | some (none, r) =>
    simp [hs] at h
    exact h.2.1 ▸ length_scan_le hs
  | some (some op, r) =>
    cases he : op.exec t stack with
    | none => simp [hs, he] at h
    | some q =>
      simp [hs, he] at h
      exact h.2.1 ▸ length_scan_le hs

theorem Machine.size_of_eval {m : Machine} (h : m.eval = true) : m.size = 2 * m.rest.length + 1 := by
  rw [size, h]
  rfl

theorem Machine.size_le (m : Machine) : m.size ≤ 2 * m.rest.length + 1 := by
  have := Bool.toNat_le m.eval
  unfold size
  omega

theorem Machine.otherwise_size (m : Machine) (heval : m.eval = true) : m.otherwise.size < m.size := by
  have hfirst := length_skipTo_le [101, 59] m.rest
  rw [size_of_eval heval, otherwise]
  split
  next rest hrest =>
    rw [hrest] at hfirst
    simp only [List.length_cons] at hfirst
    split
    all_goals
      refine Nat.lt_of_le_of_lt (size_le _) ?_
      simp only [List.length_nil]
      omega
  next rest hrest =>
    rw [hrest] at hfirst
    simp only [List.length_cons] at hfirst
    refine Nat.lt_of_le_of_lt (size_le _) ?_
    simp only
    omega
  next =>
    rw [size]
    simp only [List.length_nil, Bool.toNat_false]
    omega

theorem Machine.evalStep_size {m m' : Machine} (heval : m.eval = true) (h : m.evalStep = some m') : m'.size < m.size := by
  have htest : ∀ m', m.test = some m' → m'.size < m.size := by
    intro m' h
    unfold test at h
    split at h
    next v stack hstack =>
      split at h
      next hv =>
        split at h
        next a b rest hrest =>
          cases h
          rw [size_of_eval heval, hrest]
          refine Nat.lt_of_le_of_lt (size_le _) ?_
          simp only [List.length_cons]
          omega
        next => cases h
      next => exact Option.some.inj h ▸ m.otherwise_size heval
    next => exact Option.some.inj h ▸ m.otherwise_size heval
  unfold evalStep at h
  split at h
  next => exact htest m' h
  next c rest hrest =>
    split at h
    next => exact htest m' h
    next =>
      obtain ⟨⟨t, r, st⟩, hop, h⟩ := Option.bind_eq_some_iff.mp h
      have hlen := length_operation_le hop
      cases h
      rw [size_of_eval heval, hrest]
      refine Nat.lt_of_le_of_lt (size_le _) ?_
      simp only [List.length_cons]
      omega

theorem Machine.mainStep_size {line : Line} {m m' : Machine} (heval : m.eval = false) {c : UInt8} {rest : List UInt8}
    (hm : m.rest = c :: rest) (h : m.mainStep line c rest = some m') : m'.size < m.size := by
  have hsize : m.size = 2 * rest.length + 2 := by
    rw [size, heval, hm]
    simp only [List.length_cons, Bool.toNat_false]
    omega
  have hend : ∀ r : List UInt8, (m.endPart r).rest.length ≤ r.length := by
    intro r
    have hskip := length_skipTo_le [59] r
    unfold endPart
    split
    all_goals
      simp only [List.length_drop]
      omega
  have hshorter : m'.rest.length ≤ rest.length := by
    unfold mainStep at h
    split at h
    next =>
      split at h
      next r =>
        cases h
        simp
      next r =>
        cases h
        exact Nat.le_succ_of_le (hend r)
      next r =>
        cases h
        exact Nat.le_succ_of_le (hend r)
      next r =>
        cases h
        exact Nat.le_succ_of_le (hend r)
      next =>
        obtain ⟨⟨t, r, st⟩, hop, h⟩ := Option.bind_eq_some_iff.mp h
        cases h
        exact length_operation_le hop
    next =>
      split at h
      next =>
        unfold delay at h
        split at h
        next b r hr =>
          cases h
          have hdrop := (List.dropWhile_suffix (· ≠ (62 : UInt8)) (l := rest.drop 1)).length_le
          rw [hr] at hdrop
          simp only [List.length_cons, List.length_drop] at hdrop
          dsimp only
          omega
        next => cases h
      next =>
        cases h
        exact Nat.le_refl _
  have := m'.size_le
  omega

theorem Machine.Step.size_lt {line : Line} {m m' : Machine} (h : m.Step line m') : m'.size < m.size := by
  unfold Step step at h
  split at h
  next heval =>
    obtain ⟨_, hs, ⟨⟩⟩ := Option.map_eq_some_iff.mp h
    exact evalStep_size heval hs
  next heval =>
    split at h
    next => cases h
    next c rest hm =>
      obtain ⟨_, hs, ⟨⟩⟩ := Option.map_eq_some_iff.mp h
      exact mainStep_size (Bool.eq_false_iff.mpr heval) hm hs

/-- With enough fuel the interpreter returns exactly if every round that is reached has what it
needs. -/
theorem Machine.run_ok_iff {line : Line} {fuel : ℕ} {m : Machine} (hfuel : m.size < fuel) :
    (∃ m', m.run line fuel = .ok m') ↔ ∀ m', Relation.ReflTransGen (Step line) m m' → m'.Guard := by
  induction fuel generalizing m with
  | zero => omega
  | succ fuel ih =>
    have hguard := m.step_eq_none_iff line
    unfold run
    split
    next hnone =>
      refine iff_of_false ?_ fun h => hguard.mp hnone (h m .refl)
      rintro ⟨_, ⟨⟩⟩
    next hhalt =>
      refine iff_of_true ⟨m, rfl⟩ fun m' h => ?_
      obtain rfl | ⟨m₁, h₁, _⟩ := Relation.ReflTransGen.cases_head h
      · exact not_not.mp fun hg => by simp [hguard.mpr hg] at hhalt
      · simp [Step, hhalt] at h₁
    next m₁ hnext =>
      have hstep : Step line m m₁ := hnext
      rw [ih (by have := hstep.size_lt; omega)]
      constructor
      · intro h m' hm'
        obtain rfl | ⟨m₂, h₂, hrest⟩ := Relation.ReflTransGen.cases_head hm'
        · exact not_not.mp fun hg => by simp [hguard.mpr hg] at hnext
        · obtain rfl : m₁ = m₂ := Option.some.inj (Option.some.inj (hnext.symm.trans h₂))
          exact h m' hrest
      · exact fun h m' hm' => h m' (.head hstep hm')

theorem exists_loadParams {pList : List Int32} (h : pList.length ≤ 9) : ∃ p, loadParams pList = some p := by
  have hlen : (0 :: pList.reverse).length ≤ 10 := by
    rw [List.length_cons, List.length_reverse]
    omega
  exact ⟨_, dif_pos hlen⟩

/-- A line on which a delay is nothing. -/
def Line.immediate : Line where
  padding _ := 0
  padChar := 0

end BsdAdditions.Curse
