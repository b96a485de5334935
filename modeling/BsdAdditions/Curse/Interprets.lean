import BsdAdditions.Curse.InfoOutSafe
import BsdAdditions.Curse.Language
import BsdAdditions.Ee.ConfigRoundTrip

/-! Where the terminfo interpreter gives a program its meaning. -/
namespace BsdAdditions.Curse
open Common

/-! ### Single commands -/

/-- The operator that `Operation` finds for a command. -/
def Cmd.operator : Cmd → Option Operator
  | lit _ _ => none
  | percent => some .percent
  | param i => some (.p (UInt8.ofNat (49 + i)))
  | const n _ => some (.push (Int32.ofNat n))
  | char c _ => some (.push (Int32.ofInt (charValue c)))
  | inc => some .inc
  | binary op => some (.binary op)
  | unary op => some (.unary op)
  | setVar x => some (.P (UInt8.ofNat (97 + x)))
  | getVar x => some (.g (UInt8.ofNat (97 + x)))
  | print f _ => some (.print f)
  | putc => some .putc

theorem atoi_decimal_natCast (n : ℕ) (rest : List UInt8) : Ee.atoi (Ee.decimal n ++ 125 :: rest) = n := by
  obtain rfl | hn := Nat.eq_zero_or_pos n
  · rfl
  · refine Ee.atoi_decimal_append (by omega) ?_
    rintro b ⟨⟩
    rfl

theorem not_mem_decimal (n : ℕ) : ∀ b ∈ Ee.decimal n, b ≠ 125 := by
  obtain rfl | hn := Nat.eq_zero_or_pos n
  · intro b hb
    obtain rfl : b = 48 := List.mem_singleton.mp hb
    decide
  · rintro b hb rfl
    exact absurd (Ee.isDigit_decimal (by omega) _ hb) (by decide)

/-- Behind the percent sign `Operation` finds the command's operator. -/
theorem Cmd.scan_body (c : Cmd) (hc : c.operator ≠ none) (rest : List UInt8) :
    scan (c.body ++ rest) = some (c.operator, rest) := by
  cases c with
  | lit b h => exact absurd rfl hc
  | const n h =>
    have hdrop : (Ee.decimal n ++ 125 :: rest).dropWhile (· ≠ 125) = 125 :: rest := by
      rw [List.dropWhile_append_of_pos fun b hb => decide_eq_true (not_mem_decimal n b hb)]
      rfl
    have htext : (const n h).body ++ rest = 123 :: (Ee.decimal n ++ 125 :: rest) := by
      simp [body]
    rw [htext, scan, hdrop]
    dsimp only
    rw [atoi_decimal_natCast]
    rfl
  | binary op => cases op <;> rfl
  | unary op => cases op <;> rfl
  | print f h => cases f <;> rfl
  | _ => rfl

/-- Where a command finds its operands in the order that `Operation` takes them. -/
def Cmd.Agrees : Cmd → List Int32 → Prop
  | binary op, y :: x :: _ => op.apply y x = op.apply x y
  | setVar _, _ => False
  | getVar _, _ => False
  | char c _, _ => c < 128
  | _, _ => True

theorem indexOf_param (i : Fin 9) : indexOf 48 (UInt8.ofNat (49 + i)) = some (i.val + 1) := by
  decide +revert

theorem charValue_of_lt {c : UInt8} (h : c < 128) : charValue c = c.toNat := if_pos h

/-- There the operator does what the command means. -/
theorem Cmd.exec_operator {c : Cmd} {op : Operator} (hop : c.operator = some op) {t : Tty} {stack : List Int32}
    (hagrees : c.Agrees stack) {r : Tty × List Int32} (heval : c.eval 128 t stack = some r) :
    op.exec t stack = some r := by
  cases c with
  | lit b h => cases hop
  | percent =>
    cases hop
    exact heval
  | param i =>
    cases hop
    obtain ⟨stack', hpush, rfl⟩ := Option.map_eq_some_iff.mp heval
    have hi : i.val + 1 < 10 := by omega
    refine Option.bind_eq_some_iff.mpr ⟨i.val + 1, indexOf_param i, ?_⟩
    refine Option.bind_eq_some_iff.mpr ⟨t.p[i.val + 1], Vector.getElem?_eq_getElem hi, ?_⟩
    exact Option.bind_eq_some_iff.mpr ⟨stack', hpush, rfl⟩
  | const n h =>
    cases hop
    obtain ⟨stack', hpush, rfl⟩ := Option.map_eq_some_iff.mp heval
    exact Option.bind_eq_some_iff.mpr ⟨stack', hpush, rfl⟩
  | char c h =>
    cases hop
    obtain ⟨stack', hpush, rfl⟩ := Option.map_eq_some_iff.mp heval
    rw [charValue_of_lt hagrees]
    exact Option.bind_eq_some_iff.mpr ⟨stack', hpush, rfl⟩
  | inc =>
    cases hop
    exact heval
  | binary op =>
    cases hop
    cases stack with
    | nil => cases heval
    | cons y stack =>
      cases stack with
      | nil => cases heval
      | cons x stack =>
        obtain ⟨v, happly, rfl⟩ := Option.map_eq_some_iff.mp heval
        have hswap : op.apply y x = op.apply x y := hagrees
        exact Option.bind_eq_some_iff.mpr ⟨v, hswap.trans happly, rfl⟩
  | unary op =>
    cases hop
    cases stack with
    | nil => cases heval
    | cons x stack => exact heval
  | setVar x => exact hagrees.elim
  | getVar x => exact hagrees.elim
  | print f h =>
    cases hop
    cases stack with
    | nil => cases heval
    | cons x stack => exact heval
  | putc =>
    cases hop
    cases stack with
    | nil => cases heval
    | cons x stack => exact heval

/-! ### A base under the stack -/

theorem Cmd.eval_append {limit : ℕ} {c : Cmd} {t t' : Tty} {stack stack' : List Int32}
    (h : c.eval limit t stack = some (t', stack')) (base : List Int32) {limit' : ℕ}
    (hlimit : limit + base.length ≤ limit') :
    c.eval limit' t (stack ++ base) = some (t', stack' ++ base) := by
  have hpush : ∀ {v : Int32} {u : List Int32}, pushWithin limit v stack = some u →
      pushWithin limit' v (stack ++ base) = some (u ++ base) := by
    intro v u hu
    unfold pushWithin at hu ⊢
    split at hu
    next hlt =>
      cases hu
      exact if_pos (by rw [List.length_append]; omega)
    next => cases hu
  have hmap : ∀ {v : Int32}, (pushWithin limit v stack).map (t, ·) = some (t', stack') →
      (pushWithin limit' v (stack ++ base)).map (t, ·) = some (t', stack' ++ base) := by
    intro v hv
    obtain ⟨u, hu, ⟨⟩⟩ := Option.map_eq_some_iff.mp hv
    exact Option.map_eq_some_iff.mpr ⟨_, hpush hu, rfl⟩
  cases c with
  | lit b _ =>
    cases h
    rfl
  | percent =>
    cases h
    rfl
  | inc =>
    cases h
    rfl
  | param i => exact hmap h
  | const n _ => exact hmap h
  | char c _ => exact hmap h
  | getVar x => exact hmap h
  | binary op =>
    match stack with
    | [] => cases h
    | [_] => cases h
    | y :: x :: stack =>
      obtain ⟨v, happly, ⟨⟩⟩ := Option.map_eq_some_iff.mp h
      exact Option.map_eq_some_iff.mpr ⟨v, happly, rfl⟩
  | unary op =>
    cases stack with
    | nil => cases h
    | cons x stack =>
      cases h
      rfl
  | setVar x =>
    cases stack with
    | nil => cases h
    | cons v stack =>
      cases h
      rfl
  | print f _ =>
    cases stack with
    | nil => cases h
    | cons v stack =>
      cases h
      rfl
  | putc =>
    cases stack with
    | nil => cases h
    | cons v stack =>
      cases h
      rfl

theorem evalAll_append {limit limit' : ℕ} {cs : List Cmd} {t t' : Tty} {stack stack' : List Int32}
    (h : evalAll limit cs t stack = some (t', stack')) (base : List Int32) (hlimit : limit + base.length ≤ limit') :
    evalAll limit' cs t (stack ++ base) = some (t', stack' ++ base) := by
  induction cs generalizing t stack with
  | nil =>
    cases h
    rfl
  | cons c cs ih =>
    obtain ⟨r, hr, hrest⟩ := Option.bind_eq_some_iff.mp h
    exact Option.bind_eq_some_iff.mpr ⟨_, c.eval_append hr base hlimit, ih hrest⟩

theorem Cmd.agrees_append {limit : ℕ} {c : Cmd} {t : Tty} {stack : List Int32} {r : Tty × List Int32}
    (heval : c.eval limit t stack = some r) (h : c.Agrees stack) (base : List Int32) : c.Agrees (stack ++ base) := by
  cases c with
  | binary op =>
    match stack with
    | [] => cases heval
    | [_] => cases heval
    | y :: x :: stack => exact h
  | _ => exact h

/-- Each of the commands, as it is reached, finds its operands as `Operation` takes them. -/
def AllAgree (limit : ℕ) : List Cmd → Tty → List Int32 → Prop
  | [], _, _ => True
  | c :: cs, t, stack => c.Agrees stack ∧ ∀ t' stack', c.eval limit t stack = some (t', stack') → AllAgree limit cs t' stack'

theorem AllAgree.append {limit limit' : ℕ} {cs : List Cmd} {t t' : Tty} {stack stack' : List Int32}
    (hagree : AllAgree limit cs t stack) (h : evalAll limit cs t stack = some (t', stack')) (base : List Int32)
    (hlimit : limit + base.length ≤ limit') : AllAgree limit' cs t (stack ++ base) := by
  induction cs generalizing t stack with
  | nil => trivial
  | cons c cs ih =>
    obtain ⟨⟨t₁, stack₁⟩, hr, hrest⟩ := Option.bind_eq_some_iff.mp h
    refine ⟨c.agrees_append hr hagree.1 base, fun t₂ stack₂ h₂ => ?_⟩
    rw [c.eval_append hr base hlimit] at h₂
    cases h₂
    exact ih (hagree.2 _ _ hr) hrest

/-! ### Marks in the text -/

theorem skipTo_cons_of_ne {marks : List UInt8} {a : UInt8} (ha : a ≠ 37) (text : List UInt8) :
    skipTo marks (a :: text) = skipTo marks text := by
  cases text with
  | nil => rfl
  | cons b rest => exact if_neg fun h => ha h.1

/-- A mark that is not looked for. -/
theorem skipTo_mark {marks : List UInt8} {b : UInt8} (hb : b ∉ marks) (h37 : b ≠ 37) (text : List UInt8) :
    skipTo marks (37 :: b :: text) = skipTo marks text := by
  rw [skipTo, if_neg fun h => hb h.2, skipTo_cons_of_ne h37]

theorem skipTo_found {marks : List UInt8} {b : UInt8} (hb : b ∈ marks) (text : List UInt8) :
    skipTo marks (37 :: b :: text) = 37 :: b :: text := if_pos ⟨rfl, hb⟩

/-- The text has none of the marks in it. -/
def MarkFree (marks text : List UInt8) : Prop := ∀ b ∈ marks, ¬ [37, b] <:+: text

/-- A text without marks is skipped up to whatever starts with a percent sign. -/
theorem MarkFree.skipTo_append {marks text : List UInt8} (h : MarkFree marks text) (h37 : 37 ∉ marks)
    (rest : List UInt8) : skipTo marks (text ++ 37 :: rest) = skipTo marks (37 :: rest) := by
  induction text with
  | nil => rfl
  | cons a text ih =>
    have htail : MarkFree marks text := fun b hb hin => h b hb (hin.trans (List.suffix_cons a text).isInfix)
    have hstep : skipTo marks (a :: (text ++ 37 :: rest)) = skipTo marks (text ++ 37 :: rest) := by
      cases text with
      | nil => exact if_neg fun hmark => h37 hmark.2
      | cons b text =>
        refine if_neg fun hmark => h b hmark.2 ?_
        rw [hmark.1]
        exact (List.prefix_append [37, b] text).isInfix
    rw [List.cons_append, hstep, ih htail]

/-! ### Rounds for commands -/

section Rounds
variable {line : Line} {t t' : Tty} {stack stack' condStack condStack' : List Int32}

theorem Cmd.text_of_operator {c : Cmd} (h : c.operator ≠ none) : c.text = 37 :: c.body := by
  cases c with
  | lit b _ => exact absurd rfl h
  | _ => rfl

theorem Cmd.operation_body {c : Cmd} (hop : c.operator ≠ none) (hagrees : c.Agrees stack)
    (heval : c.eval 128 t stack = some (t', stack')) (rest : List UInt8) :
    operation t (c.body ++ rest) stack = some (t', rest, stack') := by
  obtain ⟨op, hsome⟩ := Option.ne_none_iff_exists'.mp hop
  have hscan := c.scan_body hop rest
  rw [hsome] at hscan
  have hexec := Cmd.exec_operator hsome hagrees heval
  simp [operation, hscan, hexec]

/-- What stands behind the percent sign is no mark. -/
theorem Cmd.mainStep_body {c : Cmd} (hop : c.operator ≠ none) (m : Machine) (rest : List UInt8) :
    m.mainStep line 37 (c.body ++ rest) = (do
      let (tty, rest, stack) ← operation m.tty (c.body ++ rest) m.stack
      some { m with tty, rest, stack }) := by
  cases c with
  | lit b _ => exact absurd rfl hop
  | binary op => cases op <;> rfl
  | unary op => cases op <;> rfl
  | print f _ => cases f <;> rfl
  | _ => rfl

theorem Cmd.head?_body_ne {c : Cmd} (hop : c.operator ≠ none) (rest : List UInt8) :
    (c.body ++ rest).head? ≠ some 116 := by
  cases c with
  | lit b _ => exact absurd rfl hop
  | binary op => cases op <;> simp [body, Binary.letter]
  | unary op => cases op <;> simp [body, Unary.letter]
  | print f _ => cases f <;> simp [body, Format.text]
  | _ => simp [body]

/-- The text has no delay in it. -/
def NoDelay (text : List UInt8) : Prop := ¬ [36, 60] <:+: text

theorem NoDelay.of_append {text rest : List UInt8} (h : NoDelay (text ++ rest)) : NoDelay rest :=
  fun hin => h (hin.trans (List.suffix_append text rest).isInfix)

theorem NoDelay.of_cons {a : UInt8} {rest : List UInt8} (h : NoDelay (a :: rest)) : NoDelay rest :=
  fun hin => h (hin.trans (List.suffix_cons a rest).isInfix)

theorem Cmd.step {c : Cmd} (hagrees : c.Agrees stack) (heval : c.eval 128 t stack = some (t', stack'))
    {rest : List UInt8} (hdelay : NoDelay (c.text ++ rest)) :
    Machine.Step line ⟨t, c.text ++ rest, stack, condStack, false⟩ ⟨t', rest, stack', condStack, false⟩ := by
  by_cases hop : c.operator = none
  · cases c with
    | lit b hb =>
      cases heval
      have hno : ¬ (b = 36 ∧ rest.head? = some 60) := by
        rintro ⟨rfl, hhead⟩
        cases rest with
        | nil => cases hhead
        | cons a r =>
          obtain rfl : a = 60 := Option.some.inj hhead
          exact hdelay (List.prefix_append [36, 60] r).isInfix
      have hmain : Machine.mainStep line ⟨t, b :: rest, stack, condStack, false⟩ b rest =
          some ⟨t.put [b], rest, stack, condStack, false⟩ := by
        unfold Machine.mainStep
        rw [if_neg hb.2, if_neg hno]
      exact congrArg (Option.map some) hmain
    | _ => cases hop
  · have hmain : Machine.mainStep line ⟨t, c.text ++ rest, stack, condStack, false⟩ 37 (c.body ++ rest) =
        some ⟨t', rest, stack', condStack, false⟩ := by
      rw [Cmd.mainStep_body hop, Cmd.operation_body hop hagrees heval]
      rfl
    rw [Cmd.text_of_operator hop] at hmain ⊢
    exact congrArg (Option.map some) hmain

/-- Commands outside of a condition. -/
theorem reaches_textOf {cs : List Cmd} (hagree : AllAgree 128 cs t stack)
    (heval : evalAll 128 cs t stack = some (t', stack')) {rest : List UInt8} (hdelay : NoDelay (textOf cs ++ rest)) :
    Relation.ReflTransGen (Machine.Step line) ⟨t, textOf cs ++ rest, stack, condStack, false⟩
      ⟨t', rest, stack', condStack, false⟩ := by
  induction cs generalizing t stack with
  | nil =>
    cases heval
    exact .refl
  | cons c cs ih =>
    obtain ⟨⟨t₁, stack₁⟩, hfirst, hrest⟩ := Option.bind_eq_some_iff.mp heval
    have htext : textOf (c :: cs) ++ rest = c.text ++ (textOf cs ++ rest) := by
      rw [textOf, List.flatMap_cons, List.append_assoc]
      rfl
    rw [htext] at hdelay ⊢
    exact .head (c.step hagree.1 hfirst hdelay) (ih (hagree.2 _ _ hfirst) hrest hdelay.of_append)

/-- Commands in a condition, where no literal may stand. -/
theorem reaches_condition {cs : List Cmd} (hops : ∀ c ∈ cs, c.operator ≠ none) (hagree : AllAgree 128 cs t condStack)
    (heval : evalAll 128 cs t condStack = some (t', condStack')) (rest : List UInt8) :
    Relation.ReflTransGen (Machine.Step line) ⟨t, textOf cs ++ rest, stack, condStack, true⟩
      ⟨t', rest, stack, condStack', true⟩ := by
  induction cs generalizing t condStack with
  | nil =>
    cases heval
    exact .refl
  | cons c cs ih =>
    obtain ⟨⟨t₁, stack₁⟩, hfirst, hrest⟩ := Option.bind_eq_some_iff.mp heval
    have hop := hops c List.mem_cons_self
    have htext : textOf (c :: cs) ++ rest = 37 :: (c.body ++ (textOf cs ++ rest)) := by
      rw [textOf, List.flatMap_cons, List.append_assoc, Cmd.text_of_operator hop]
      rfl
    have hstep : Machine.Step line ⟨t, 37 :: (c.body ++ (textOf cs ++ rest)), stack, condStack, true⟩
        ⟨t₁, textOf cs ++ rest, stack, stack₁, true⟩ := by
      have hround : Machine.evalStep ⟨t, 37 :: (c.body ++ (textOf cs ++ rest)), stack, condStack, true⟩ =
          some ⟨t₁, textOf cs ++ rest, stack, stack₁, true⟩ := by
        rw [Machine.evalStep]
        dsimp only
        rw [if_neg fun h => Cmd.head?_body_ne hop _ h.2, Cmd.operation_body hop hagree.1 hfirst]
        rfl
      exact congrArg (Option.map some) hround
    rw [htext]
    exact .head hstep (ih (fun c' hc' => hops c' (List.mem_cons_of_mem c hc')) (hagree.2 _ _ hfirst) hrest)

/-! ### Conditionals -/

/-- How the parts of a conditional must be written: the conditions without literals, and nothing
that looks like a mark or, at the start of the last part, like the rest of one. -/
structure Clean (els : Option (List Cmd)) (branches : List (List Cmd × List Cmd)) : Prop where
  ops : ∀ b ∈ branches, ∀ c ∈ b.1, c.operator ≠ none
  conditions : ∀ b ∈ branches, MarkFree [116, 101, 59] (textOf b.1)
  parts : ∀ b ∈ branches, MarkFree [116, 101, 59] (textOf b.2)
  last : ∀ cs ∈ els, MarkFree [116, 101, 59] (textOf cs) ∧ (textOf cs).head? ≠ some 59

theorem MarkFree.mono {marks marks' text : List UInt8} (h : MarkFree marks text) (hsub : marks' ⊆ marks) :
    MarkFree marks' text := fun b hb => h b (hsub hb)

theorem Clean.tail {els : Option (List Cmd)} {b : List Cmd × List Cmd} {bs : List (List Cmd × List Cmd)}
    (h : Clean els (b :: bs)) : Clean els bs where
  ops b' hb' := h.ops b' (List.mem_cons_of_mem b hb')
  conditions b' hb' := h.conditions b' (List.mem_cons_of_mem b hb')
  parts b' hb' := h.parts b' (List.mem_cons_of_mem b hb')
  last := h.last

theorem exists_elseText (els : Option (List Cmd)) (bs : List (List Cmd × List Cmd)) :
    ∃ r, elseText els bs = 37 :: r := by
  match els, bs with
  | none, [] => exact ⟨_, rfl⟩
  | some cs, [] => exact ⟨_, rfl⟩
  | els, (c, b) :: bs => exact ⟨_, rfl⟩

/-- The end mark is found behind all the further parts. -/
theorem Clean.skipTo_elseText {els : Option (List Cmd)} {bs : List (List Cmd × List Cmd)} (h : Clean els bs)
    (rest : List UInt8) : skipTo [59] (elseText els bs ++ rest) = 37 :: 59 :: rest := by
  induction bs with
  | nil =>
    cases els with
    | none => exact skipTo_found (by decide) rest
    | some cs =>
      have hfree := (h.last cs rfl).1.mono (show [59] ⊆ [116, 101, 59] by decide)
      have htext : elseText (some cs) [] ++ rest = 37 :: 101 :: (textOf cs ++ 37 :: 59 :: rest) := by
        simp [elseText]
      rw [htext, skipTo_mark (by decide) (by decide), hfree.skipTo_append (by decide), skipTo_found (by decide)]
  | cons b bs ih =>
    obtain ⟨c, b⟩ := b
    have hc := (h.conditions _ List.mem_cons_self).mono (show [59] ⊆ [116, 101, 59] by decide)
    have hb := (h.parts _ List.mem_cons_self).mono (show [59] ⊆ [116, 101, 59] by decide)
    have htext : elseText els ((c, b) :: bs) ++ rest =
        37 :: 101 :: (textOf c ++ 37 :: 116 :: (textOf b ++ (elseText els bs ++ rest))) := by
      simp [elseText]
    have hrest := ih h.tail
    obtain ⟨r, hr⟩ := exists_elseText els bs
    rw [htext, skipTo_mark (by decide) (by decide), hc.skipTo_append (by decide),
      skipTo_mark (by decide) (by decide)]
    rw [hr, List.cons_append] at hrest ⊢
    rw [hb.skipTo_append (by decide), hrest]

/-- A text of operators starts with a percent sign. -/
theorem head?_textOf {cs : List Cmd} (hops : ∀ c ∈ cs, c.operator ≠ none) (rest : List UInt8) :
    (textOf cs ++ 37 :: rest).head? = some 37 := by
  cases cs with
  | nil => rfl
  | cons c cs =>
    rw [textOf, List.flatMap_cons, Cmd.text_of_operator (hops c List.mem_cons_self)]
    rfl

/-- At the end of a part that has been carried out. With nothing behind the conditional it does not
matter that the mark of its end is passed over. -/
theorem Clean.step_endPart {els : Option (List Cmd)} {bs : List (List Cmd × List Cmd)} (h : Clean els bs)
    {rest : List UInt8} (hlast : bs = [] → els = none → rest = []) :
    Machine.Step line ⟨t, elseText els bs ++ rest, stack, condStack, false⟩ ⟨t, rest, stack, condStack, false⟩ := by
  have hmark : ∀ r : List UInt8, r.head? ≠ some 59 → skipTo [59] r = 37 :: 59 :: rest →
      Machine.Step line ⟨t, 37 :: 101 :: r, stack, condStack, false⟩ ⟨t, rest, stack, condStack, false⟩ := by
    intro r hhead hskip
    have hend : Machine.endPart ⟨t, 37 :: 101 :: r, stack, condStack, false⟩ r = ⟨t, rest, stack, condStack, false⟩ := by
      rw [Machine.endPart, if_pos hhead, hskip]
      rfl
    exact congrArg (fun m => some (some m)) hend
  have hskip := h.skipTo_elseText rest
  match els, bs with
  | none, [] =>
    obtain rfl := hlast rfl rfl
    rfl
  | some cs, [] =>
    have htext : elseText (some cs) [] ++ rest = 37 :: 101 :: (textOf cs ++ 37 :: 59 :: rest) := by
      simp [elseText]
    have hhead : (textOf cs ++ 37 :: 59 :: rest).head? ≠ some 59 := by
      have := (h.last cs rfl).2
      cases hcs : textOf cs with
      | nil => simp
      | cons a r => simpa [hcs] using this
    rw [htext, skipTo_mark (by decide) (by decide)] at hskip
    rw [htext]
    exact hmark _ hhead hskip
  | els, (c, b) :: bs =>
    have htext : elseText els ((c, b) :: bs) ++ rest =
        37 :: 101 :: (textOf c ++ 37 :: 116 :: (textOf b ++ (elseText els bs ++ rest))) := by
      simp [elseText]
    have hhead : (textOf c ++ 37 :: 116 :: (textOf b ++ (elseText els bs ++ rest))).head? ≠ some 59 := by
      rw [head?_textOf (h.ops _ List.mem_cons_self)]
      decide
    rw [htext, skipTo_mark (by decide) (by decide)] at hskip
    rw [htext]
    exact hmark _ hhead hskip

/-- The commands of the conditions and parts that are carried out agree, each condition leaves one
value on a stack of its own, with room for `k` values of earlier conditions, and where the part before
the end mark is carried out nothing follows. -/
def BranchesAgree (els : Option (List Cmd)) (last : Prop) : ℕ → List (List Cmd × List Cmd) → Tty → List Int32 → Prop
  | _, [], t, stack => (els ≠ none → last) ∧ AllAgree 128 (els.getD []) t stack
  | k, (c, b) :: bs, t, stack => k ≤ 128 ∧ AllAgree (128 - k) c t [] ∧
    match evalAll (128 - k) c t [] with
    | some (t', [v]) =>
      if v ≠ 0 then (bs = [] → els = none → last) ∧ AllAgree 128 b t' stack
      else BranchesAgree els last (k + 1) bs t' stack
    | _ => False

/-- The condition has been found true. -/
theorem step_test_true {v : Int32} (hv : v ≠ 0) (rest : List UInt8) :
    Machine.Step line ⟨t, 37 :: 116 :: rest, stack, v :: condStack, true⟩ ⟨t, rest, stack, v :: condStack, false⟩ := by
  have htest : Machine.test ⟨t, 37 :: 116 :: rest, stack, v :: condStack, true⟩ =
      some ⟨t, rest, stack, v :: condStack, false⟩ := if_pos hv
  exact congrArg (Option.map some) htest

/-- The condition has been found false. -/
theorem step_test_false (rest : List UInt8) :
    Machine.Step line ⟨t, 37 :: 116 :: rest, stack, 0 :: condStack, true⟩
      (Machine.otherwise ⟨t, 37 :: 116 :: rest, stack, 0 :: condStack, true⟩) := by
  have htest : Machine.test ⟨t, 37 :: 116 :: rest, stack, 0 :: condStack, true⟩ =
      some (Machine.otherwise ⟨t, 37 :: 116 :: rest, stack, 0 :: condStack, true⟩) := by
    simp [Machine.test]
  exact congrArg (Option.map some) htest

section Otherwise
variable {b : List Cmd} (hb : MarkFree [116, 101, 59] (textOf b)) (rest : List UInt8)
include hb

theorem otherwise_end :
    Machine.otherwise ⟨t, 37 :: 116 :: (textOf b ++ 37 :: 59 :: rest), stack, condStack, true⟩ =
      ⟨t, rest, stack, condStack, false⟩ := by
  have hskip : skipTo [101, 59] (37 :: 116 :: (textOf b ++ 37 :: 59 :: rest)) = 37 :: 59 :: rest := by
    rw [skipTo_mark (by decide) (by decide), (hb.mono (by decide)).skipTo_append (by decide), skipTo_found (by decide)]
  unfold Machine.otherwise
  rw [hskip]
  rfl

theorem otherwise_else {cs : List Cmd} (hcs : MarkFree [116, 101, 59] (textOf cs)) :
    Machine.otherwise ⟨t, 37 :: 116 :: (textOf b ++ 37 :: 101 :: (textOf cs ++ 37 :: 59 :: rest)), stack, condStack, true⟩ =
      ⟨t, textOf cs ++ 37 :: 59 :: rest, stack, condStack, false⟩ := by
  have hskip : skipTo [101, 59] (37 :: 116 :: (textOf b ++ 37 :: 101 :: (textOf cs ++ 37 :: 59 :: rest))) =
      37 :: 101 :: (textOf cs ++ 37 :: 59 :: rest) := by
    rw [skipTo_mark (by decide) (by decide), (hb.mono (by decide)).skipTo_append (by decide), skipTo_found (by decide)]
  have hinner : skipTo [116, 59] (textOf cs ++ 37 :: 59 :: rest) = 37 :: 59 :: rest := by
    rw [(hcs.mono (by decide)).skipTo_append (by decide), skipTo_found (by decide)]
  simp [Machine.otherwise, hskip, hinner]

theorem otherwise_elif {c : List Cmd} (hc : MarkFree [116, 101, 59] (textOf c)) :
    Machine.otherwise ⟨t, 37 :: 116 :: (textOf b ++ 37 :: 101 :: (textOf c ++ 37 :: 116 :: rest)), stack, condStack, true⟩ =
      ⟨t, textOf c ++ 37 :: 116 :: rest, stack, condStack, true⟩ := by
  have hskip : skipTo [101, 59] (37 :: 116 :: (textOf b ++ 37 :: 101 :: (textOf c ++ 37 :: 116 :: rest))) =
      37 :: 101 :: (textOf c ++ 37 :: 116 :: rest) := by
    rw [skipTo_mark (by decide) (by decide), (hb.mono (by decide)).skipTo_append (by decide), skipTo_found (by decide)]
  have hinner : skipTo [116, 59] (textOf c ++ 37 :: 116 :: rest) = 37 :: 116 :: rest := by
    rw [(hc.mono (by decide)).skipTo_append (by decide), skipTo_found (by decide)]
  simp [Machine.otherwise, hskip, hinner]

end Otherwise

/-- What a condition leaves on a stack of its own it leaves on any stack with room for it. -/
theorem evalAll_on_base {limit : ℕ} {c : List Cmd} {v : Int32} {base : List Int32} {r : Tty × List Int32}
    (hown : evalAll limit c t [] = some (t', [v])) (hbase : evalAll 128 c t base = some r) : r = (t', v :: base) := by
  obtain ⟨t₁, stack₁⟩ := r
  have h₁ : evalAll (limit + 128 + base.length) c t ([] ++ base) = some (t', [v] ++ base) :=
    evalAll_append hown base (by omega)
  have h₂ : evalAll (limit + 128 + base.length) c t (base ++ []) = some (t₁, stack₁ ++ []) :=
    evalAll_append hbase [] (by rw [List.length_nil]; omega)
  rw [List.append_nil, List.append_nil] at h₂
  exact Option.some.inj (h₂.symm.trans h₁)

/-- Up to the test of a condition, and what holds there. -/
theorem BranchesAgree.reaches_test {els : Option (List Cmd)} {bs : List (List Cmd × List Cmd)} {c b : List Cmd} {k : ℕ}
    {last : Prop} (hops : ∀ x ∈ c, x.operator ≠ none) (hk : condStack.length ≤ k)
    (hagree : BranchesAgree els last k ((c, b) :: bs) t stack)
    (heval : evalBranches 128 els ((c, b) :: bs) t stack = some (t', stack')) (rest : List UInt8) :
    ∃ t₁ v, Relation.ReflTransGen (Machine.Step line) ⟨t, textOf c ++ rest, stack, condStack, true⟩
        ⟨t₁, rest, stack, v :: condStack, true⟩ ∧
      (v ≠ 0 → (bs = [] → els = none → last) ∧ AllAgree 128 b t₁ stack ∧ evalAll 128 b t₁ stack = some (t', stack')) ∧
      (v = 0 → BranchesAgree els last (k + 1) bs t₁ stack ∧ evalBranches 128 els bs t₁ stack = some (t', stack')) := by
  obtain ⟨hk128, hall, hcond⟩ := hagree
  split at hcond
  next t₁ v hown =>
    refine ⟨t₁, v, ?_, ?_⟩
    · have hroom : 128 - k + condStack.length ≤ 128 := by omega
      exact reaches_condition hops (hall.append hown condStack hroom) (evalAll_append hown condStack hroom) rest
    · unfold evalBranches at heval
      split at heval
      next t₂ v₂ stack₂ hbase =>
        cases evalAll_on_base hown hbase
        constructor
        · intro hv
          rw [if_pos hv] at hcond heval
          exact ⟨hcond.1, hcond.2, heval⟩
        · intro hv
          rw [if_neg (not_not.mpr hv)] at hcond heval
          exact ⟨hcond, heval⟩
      next => cases heval
  next => exact hcond.elim

/-- A part that is carried out, up to behind its conditional. -/
theorem Clean.reaches_part {els : Option (List Cmd)} {bs : List (List Cmd × List Cmd)} (h : Clean els bs) {b : List Cmd}
    {rest : List UInt8} (hlast : bs = [] → els = none → rest = []) (hagree : AllAgree 128 b t stack)
    (heval : evalAll 128 b t stack = some (t', stack')) (hdelay : NoDelay (textOf b ++ (elseText els bs ++ rest))) :
    Relation.ReflTransGen (Machine.Step line) ⟨t, textOf b ++ (elseText els bs ++ rest), stack, condStack, false⟩
      ⟨t', rest, stack', condStack, false⟩ :=
  (reaches_textOf hagree heval hdelay).tail (h.step_endPart hlast)

theorem NoDelay.part {c b rest : List UInt8} (h : NoDelay (c ++ 37 :: 116 :: (b ++ rest))) : NoDelay (b ++ rest) :=
  h.of_append.of_cons.of_cons

variable (line) in
theorem reaches_branches {els : Option (List Cmd)} {bs : List (List Cmd × List Cmd)} {c b : List Cmd} {k : ℕ} {last : Prop}
    {rest : List UInt8} (hclean : Clean els ((c, b) :: bs)) (hlast : last → rest = []) (hk : condStack.length ≤ k)
    (hagree : BranchesAgree els last k ((c, b) :: bs) t stack)
    (heval : evalBranches 128 els ((c, b) :: bs) t stack = some (t', stack'))
    (hdelay : NoDelay (textOf c ++ 37 :: 116 :: (textOf b ++ (elseText els bs ++ rest)))) :
    ∃ condStack', condStack'.length ≤ k + (bs.length + 1) ∧ Relation.ReflTransGen (Machine.Step line)
      ⟨t, textOf c ++ 37 :: 116 :: (textOf b ++ (elseText els bs ++ rest)), stack, condStack, true⟩
      ⟨t', rest, stack', condStack', false⟩ := by
  -- the conditions are tried in turn, each over what the earlier ones have left
  induction bs generalizing c b t k condStack with
  | nil =>
    obtain ⟨t₁, v, hreach, htrue, hfalse⟩ := hagree.reaches_test (hclean.ops _ List.mem_cons_self) hk heval
      (37 :: 116 :: (textOf b ++ (elseText els [] ++ rest)))
    refine ⟨v :: condStack, by simpa using hk, hreach.trans ?_⟩
    by_cases hv : v = 0
    · subst hv
      obtain ⟨⟨helse, hall⟩, heval'⟩ := hfalse rfl
      have hb := hclean.parts _ List.mem_cons_self
      cases els with
      | none =>
        cases heval'
        have hstep : Machine.Step line ⟨t', 37 :: 116 :: (textOf b ++ 37 :: 59 :: rest), stack, 0 :: condStack, true⟩
            (Machine.otherwise _) := step_test_false _
        rw [otherwise_end hb] at hstep
        exact .single hstep
      | some cs =>
        have htext : elseText (some cs) [] ++ rest = 37 :: 101 :: (textOf cs ++ 37 :: 59 :: rest) := by
          simp [elseText]
        have hstep : Machine.Step line ⟨t₁, 37 :: 116 :: (textOf b ++ 37 :: 101 :: (textOf cs ++ 37 :: 59 :: rest)), stack,
            0 :: condStack, true⟩ (Machine.otherwise _) := step_test_false _
        rw [otherwise_else hb rest (hclean.last cs rfl).1] at hstep
        rw [htext] at hdelay ⊢
        have hempty : Clean none [] := ⟨nofun, nofun, nofun, nofun⟩
        have hpart : NoDelay (textOf cs ++ (elseText none [] ++ rest)) :=
          hdelay.part.of_append.of_cons.of_cons
        exact .head hstep (hempty.reaches_part (fun _ _ => hlast (helse (by simp))) hall heval' hpart)
    · obtain ⟨hend, hall, heval'⟩ := htrue hv
      exact .head (step_test_true hv _) (hclean.tail.reaches_part (fun h h' => hlast (hend h h')) hall heval' hdelay.part)
  | cons next bs ih =>
    obtain ⟨c₂, b₂⟩ := next
    obtain ⟨t₁, v, hreach, htrue, hfalse⟩ := hagree.reaches_test (hclean.ops _ List.mem_cons_self) hk heval
      (37 :: 116 :: (textOf b ++ (elseText els ((c₂, b₂) :: bs) ++ rest)))
    by_cases hv : v = 0
    · subst hv
      obtain ⟨hagree', heval'⟩ := hfalse rfl
      have hb := hclean.parts _ List.mem_cons_self
      have hc₂ := hclean.tail.conditions _ List.mem_cons_self
      have htext : elseText els ((c₂, b₂) :: bs) ++ rest =
          37 :: 101 :: (textOf c₂ ++ 37 :: 116 :: (textOf b₂ ++ (elseText els bs ++ rest))) := by
        simp [elseText]
      rw [htext] at hdelay hreach ⊢
      have hstep : Machine.Step line ⟨t₁, 37 :: 116 :: (textOf b ++ 37 :: 101 :: (textOf c₂ ++ 37 :: 116 ::
          (textOf b₂ ++ (elseText els bs ++ rest)))), stack, 0 :: condStack, true⟩ (Machine.otherwise _) := step_test_false _
      rw [otherwise_elif hb _ hc₂] at hstep
      obtain ⟨condStack', hlen, hrest⟩ := ih hclean.tail (show (0 :: condStack).length ≤ k + 1 from Nat.succ_le_succ hk) hagree' heval'
        hdelay.part.of_append.of_cons.of_cons
      refine ⟨condStack', ?_, hreach.trans (.head hstep hrest)⟩
      rw [List.length_cons]
      omega
    · obtain ⟨_, hall, heval'⟩ := htrue hv
      refine ⟨v :: condStack, ?_, hreach.trans (.head (step_test_true hv _) ?_)⟩
      · simp only [List.length_cons]
        omega
      · exact hclean.tail.reaches_part nofun hall heval' hdelay.part

/-! ### Whole programs -/

/-- The commands that are carried out agree, and the conditionals are written and placed so that the
search for their marks ends where they do; `k` bounds the conditions evaluated before. -/
def ProgramAgrees : ℕ → List Item → Tty → List Int32 → Prop
  | _, [], _, _ => True
  | k, .cmd c :: items, t, stack => c.Agrees stack ∧
    ∀ t' stack', c.eval 128 t stack = some (t', stack') → ProgramAgrees k items t' stack'
  | k, .cond branch elifs els :: items, t, stack => Clean els (branch :: elifs) ∧
    BranchesAgree els (items = []) k (branch :: elifs) t stack ∧
    ∀ t' stack', evalBranches 128 els (branch :: elifs) t stack = some (t', stack') →
      ProgramAgrees (k + (elifs.length + 1)) items t' stack'

variable (line) in
theorem reaches_program {items : List Item} {k : ℕ} (hk : condStack.length ≤ k) (hagree : ProgramAgrees k items t stack)
    (heval : evalProgram 128 items t stack = some (t', stack')) (hdelay : NoDelay (programText items)) :
    ∃ condStack', Relation.ReflTransGen (Machine.Step line) ⟨t, programText items, stack, condStack, false⟩
      ⟨t', [], stack', condStack', false⟩ := by
  induction items generalizing t stack condStack k with
  | nil =>
    cases heval
    exact ⟨condStack, .refl⟩
  | cons item items ih =>
    obtain ⟨⟨t₁, stack₁⟩, hfirst, hrest⟩ := Option.bind_eq_some_iff.mp heval
    rw [programText, List.flatMap_cons] at hdelay ⊢
    cases item with
    | cmd c =>
      obtain ⟨hc, hitems⟩ := hagree
      obtain ⟨condStack', hreach⟩ := ih hk (hitems _ _ hfirst) hrest hdelay.of_append
      exact ⟨condStack', .head (c.step hc hfirst hdelay) hreach⟩
    | cond branch elifs els =>
      obtain ⟨c, b⟩ := branch
      obtain ⟨hclean, hbranches, hitems⟩ := hagree
      have htext : Item.text (.cond (c, b) elifs els) ++ items.flatMap Item.text =
          37 :: 63 :: (textOf c ++ 37 :: 116 :: (textOf b ++ (elseText els elifs ++ programText items))) := by
        simp [Item.text, programText]
      rw [htext] at hdelay ⊢
      obtain ⟨condStack₁, hlen, hcond⟩ := reaches_branches line hclean
        (fun hnil => show programText items = [] by rw [hnil]; rfl) hk hbranches hfirst hdelay.of_cons.of_cons
      obtain ⟨condStack', hreach⟩ := ih hlen (hitems _ _ hfirst) hrest
        hdelay.of_cons.of_cons.part.of_append.of_append
      have hopen : Machine.Step line
          ⟨t, 37 :: 63 :: (textOf c ++ 37 :: 116 :: (textOf b ++ (elseText els elifs ++ programText items))), stack,
            condStack, false⟩
          ⟨t, textOf c ++ 37 :: 116 :: (textOf b ++ (elseText els elifs ++ programText items)), stack, condStack, true⟩ := rfl
      exact ⟨condStack', .head hopen (hcond.trans hreach)⟩

/-- A run that comes to the end of its text returns there. -/
theorem Machine.run_of_reaches {m m' : Machine} {fuel : ℕ} (h : Relation.ReflTransGen (Step line) m m')
    (heval : m'.eval = false) (hrest : m'.rest = []) (hfuel : m.size < fuel) : m.run line fuel = .ok m' := by
  induction h using Relation.ReflTransGen.head_induction_on generalizing fuel with
  | refl =>
    obtain ⟨fuel, rfl⟩ : ∃ f, fuel = f + 1 := ⟨fuel - 1, by omega⟩
    simp [run, step, heval, hrest]
  | head hstep _ ih =>
    obtain ⟨fuel, rfl⟩ : ∃ f, fuel = f + 1 := ⟨fuel - 1, by omega⟩
    have hsmaller := hstep.size_lt
    rw [run, show _ = _ from hstep]
    exact ih (by omega)

end Rounds

/-- `\E[%i%p1%d;%p2%dH`, which moves the cursor. -/
def cursorAddress : List Item :=
  [.cmd (.lit 27 (by decide)), .cmd (.lit 91 (by decide)), .cmd .inc, .cmd (.param 0), .cmd (.print .d (by decide)),
    .cmd (.lit 59 (by decide)), .cmd (.param 1), .cmd (.print .d (by decide)), .cmd (.lit 72 (by decide))]

/-- `%p1%p2%-%d`. -/
def difference : List Item := [.cmd (.param 0), .cmd (.param 1), .cmd (.binary .sub), .cmd (.print .d (by decide))]

end BsdAdditions.Curse
