import Mathlib.Logic.Basic
import BsdAdditions.Ee.ConfigRoundTrip

/-! What is typed at the command prompt, and what it sets off. -/
namespace BsdAdditions.Ee

/-- What `command` sets off; behind `<` and `>` another command. -/
inductive Action where
  | help
  | write (name : List UInt8)
  | read (name : List UInt8)
  | line
  | file
  | gotoLine (cmdStr : List UInt8)
  | character
  | redraw
  | resequence
  | author
  | version
  | case (sensitive : Bool)
  | expand (tabs : Bool)
  | exit
  | chinese (on : Bool)
  | quit
  | shell (cmdStr : List UInt8)
  | input (a : Action)
  | output (a : Action)
  | unknown

def action (loc : Locale) : ℕ → Bool → Bool → List UInt8 → Action
  | 0, _, _, _ => .unknown
  | depth + 1, inPipe, outPipe, cmdStr =>
    let is := compare loc false cmdStr
    if is (literal "HELP") then .help
    else if is (literal "WRITE") then .write (nextWord cmdStr)
    else if is (literal "READ") then .read (nextWord cmdStr)
    else if is (literal "LINE") then .line
    else if is (literal "FILE") then .file
    else if cmdStr.head?.any isDigit then .gotoLine cmdStr
    else if is (literal "CHARACTER") then .character
    else if is (literal "REDRAW") then .redraw
    else if is (literal "RESEQUENCE") then .resequence
    else if is (literal "AUTHOR") then .author
    else if is (literal "VERSION") then .version
    else if is InitString.case.text then .case true
    else if is InitString.nocase.text then .case false
    else if is InitString.expand.text then .expand true
    else if is InitString.noexpand.text then .expand false
    else if is (literal "EXIT") then .exit
    else if is InitString.chinese.text then .chinese true
    else if is InitString.nochinese.text then .chinese false
    else if is (literal "QUIT") then .quit
    else if cmdStr.head? = some 33 then .shell (behindPipe cmdStr.tail)
    else if cmdStr.head? = some 60 ∧ inPipe = false then
      .input (action loc depth true outPipe (behindPipe cmdStr.tail))
    else if cmdStr.head? = some 62 ∧ outPipe = false then
      .output (action loc depth inPipe true (behindPipe cmdStr.tail))
    else .unknown

/-- `command_prompt`: what is set off, if the answer names one command. -/
def promptAction (loc : Locale) (cmdStr : List UInt8) : Option Action :=
  if uniqueTest loc cmdStr commands ≠ 1 then none else some (action loc 3 false false cmdStr)

/-- What an action does to the settings. -/
def Action.apply (s : Settings) : Action → Settings
  | case sensitive => { s with caseSen := sensitive }
  | expand tabs => { s with expandTabs := tabs }
  | chinese on => { s with eeChinese := on }
  | input a => a.apply s
  | output a => a.apply s
  | _ => s

/-- The settings follow the action. -/
theorem command_eq_apply (loc : Locale) (depth : ℕ) (inPipe outPipe : Bool) (cmdStr : List UInt8) (s : Settings) :
    command loc depth inPipe outPipe cmdStr s = (action loc depth inPipe outPipe cmdStr).apply s := by
  induction depth generalizing inPipe outPipe cmdStr with
  | zero => rfl
  | succ depth ih =>
    -- the same tests in the same order, but for the one for a shell command
    simp only [command, action, apply_ite (Action.apply s), Action.apply, ← ih, Bool.or_eq_true, ite_or]
    iterate 19 refine if_congr Iff.rfl rfl ?_
    by_cases hshell : cmdStr.head? = some 33
    · simp [hshell]
    · rw [if_neg hshell]

/-! ### Numbers -/

section Numbers
variable {loc : Locale} {d b : UInt8} {ds bs : List UInt8}

theorem toupper_eq_digit (hd : isDigit d = true) : loc.toupper d = loc.toupper b ↔ d = b := by
  constructor
  · intro h
    rw [loc.toupper_digit d hd] at h
    have hb : isDigit b = true := loc.isDigit_of_toupper b (h ▸ hd)
    rw [h, loc.toupper_digit b hb]
  · rintro rfl
    rfl

theorem compare_digit_of_ne (hd : isDigit d = true) (h : d ≠ b) : compare loc false (d :: ds) (b :: bs) = false := by
  rw [compare, if_neg]
  intro heq
  exact h ((toupper_eq_digit hd).mp (by simpa using heq))

theorem compare_digit_self (hds : ∀ x ∈ ds, isDigit x = true) :
    compare loc false (d :: ds) (d :: bs) =
      (ds.isEmpty || bs.isEmpty || decide (bs.head? = some 32) || compare loc false ds bs) := by
  have hblank : ds.head? ≠ some 32 := by
    intro h
    exact absurd (hds 32 (List.mem_of_mem_head? h)) (by decide)
  rw [compare, if_pos (by simp)]
  cases ds <;> cases bs <;> simp_all

def digitBytes : List UInt8 := [48, 49, 50, 51, 52, 53, 54, 55, 56, 57]

theorem mem_digitBytes (hd : isDigit d = true) : d ∈ digitBytes := by
  obtain ⟨hlow, hhigh⟩ : 48 ≤ d ∧ d ≤ 57 := by simpa [isDigit] using hd
  simp only [UInt8.le_iff_toNat_le] at hlow hhigh
  have hcases : ∃ n, (48 ≤ n ∧ n ≤ 57) ∧ UInt8.ofNat n = d := ⟨d.toNat, ⟨hlow, hhigh⟩, UInt8.ofNat_toNat⟩
  obtain ⟨n, hn, rfl⟩ := hcases
  have hall : ∀ m < 58, 48 ≤ m → UInt8.ofNat m ∈ digitBytes := by decide
  exact hall n (by omega) hn.1

theorem compare_nondigit (hd : isDigit d = true) {e : List UInt8} (h : e.head?.any isDigit = false) :
    compare loc false (d :: ds) e = false := by
  cases e with
  | nil => rfl
  | cons c e =>
    refine compare_digit_of_ne hd ?_
    rintro rfl
    exact absurd (hd.symm.trans h) (by decide)

theorem countP_nondigit (hd : isDigit d = true) {entries : List (List UInt8)}
    (h : (entries.any fun e => e.head?.any isDigit) = false) :
    entries.countP (compare loc false (d :: ds)) = 0 := by
  rw [List.countP_eq_zero]
  intro e he
  rw [compare_nondigit hd (Bool.eq_false_iff.mpr (List.any_eq_false.mp h e he))]
  exact Bool.false_ne_true

/-- Of the entries with one digit a number names the one it starts with. -/
theorem countP_digits (hd : isDigit d = true) (hds : ∀ x ∈ ds, isDigit x = true) :
    (digitBytes.map fun k => [k]).countP (compare loc false (d :: ds)) = 1 := by
  have hentry : ∀ k, compare loc false (d :: ds) [k] = (k == d) := by
    intro k
    by_cases hk : d = k
    · subst hk
      rw [compare_digit_self hds]
      simp
    · rw [compare_digit_of_ne hd hk]
      exact (beq_eq_false_iff_ne.mpr (Ne.symm hk)).symm
  have hcount : digitBytes.countP (· == d) = 1 := by
    have hall : (digitBytes.all fun x => digitBytes.countP (· == x) == 1) = true := by decide
    exact eq_of_beq (List.all_eq_true.mp hall d (mem_digitBytes hd))
  rw [List.countP_map, ← hcount]
  exact List.countP_congr fun k _ => by simp [hentry]

variable (loc) in
theorem compare_chinese_iff (hd : isDigit d = true) (hds : ∀ x ∈ ds, isDigit x = true) :
    compare loc false (d :: ds) InitString.chinese.text = true ↔ d :: ds = [49] ∨ d :: ds = [49, 54] := by
  have htext : InitString.chinese.text = [49, 54, 66, 73, 84] := by decide
  rw [htext]
  by_cases h : d = 49
  · subst h
    rw [compare_digit_self hds]
    cases ds with
    | nil => simp
    | cons e es =>
      have hes : ∀ x ∈ es, isDigit x = true := fun x hx => hds x (List.mem_cons_of_mem e hx)
      by_cases he : e = 54
      · subst he
        rw [compare_digit_self hes]
        cases es with
        | nil => simp
        | cons f fs =>
          -- no digit is the next letter of the name
          have hf : f ≠ 66 := by
            rintro rfl
            exact absurd (hes 66 List.mem_cons_self) (by decide)
          rw [compare_digit_of_ne (hes f List.mem_cons_self) hf]
          simp
      · rw [compare_digit_of_ne (hds e List.mem_cons_self) he]
        simp [he]
  · rw [compare_digit_of_ne hd h]
    simp [h]

variable (loc) in
/-- A number names the entry with its first digit, and `1` and `16` also abbreviate `16BIT`. -/
theorem uniqueTest_digits (hd : isDigit d = true) (hds : ∀ x ∈ ds, isDigit x = true) :
    uniqueTest loc (d :: ds) commands = 1 ↔ d :: ds ≠ [49] ∧ d :: ds ≠ [49, 54] := by
  have hsplit : commands = commands.take 18 ++ ((digitBytes.map fun k => [k]) ++
      ([literal "CHARACTER"] ++ ([InitString.chinese.text] ++ [InitString.nochinese.text]))) := by decide
  have hnames : (commands.take 18).countP (compare loc false (d :: ds)) = 0 := countP_nondigit hd (by decide)
  have hchar : [literal "CHARACTER"].countP (compare loc false (d :: ds)) = 0 := countP_nondigit hd (by decide)
  have hno : [InitString.nochinese.text].countP (compare loc false (d :: ds)) = 0 := countP_nondigit hd (by decide)
  rw [uniqueTest, hsplit, List.countP_append, List.countP_append, List.countP_append, List.countP_append, hnames, hchar, hno,
    countP_digits hd hds, List.countP_singleton, ← not_or, ← compare_chinese_iff loc hd hds]
  split
  next h => simp [h]
  next h => simp [h]

/-- A number that is typed at the prompt goes to `goto_line`, unless it is `1` or `16`. -/
theorem promptAction_digits_iff (loc : Locale) {cmdStr : List UInt8} (hne : cmdStr ≠ [])
    (hdigits : ∀ b ∈ cmdStr, isDigit b = true) :
    (uniqueTest loc cmdStr commands = 1 ∧ promptAction loc cmdStr = some (.gotoLine cmdStr)) ↔
      cmdStr ≠ literal "1" ∧ cmdStr ≠ literal "16" := by
  obtain ⟨d, ds, rfl⟩ := List.exists_cons_of_ne_nil hne
  have hd := hdigits d List.mem_cons_self
  have hunique := uniqueTest_digits loc hd fun x hx => hdigits x (List.mem_cons_of_mem d hx)
  have hone : literal "1" = [49] := by decide
  have hsixteen : literal "16" = [49, 54] := by decide
  rw [hone, hsixteen, ← hunique]
  constructor
  · exact fun h => h.1
  · intro h
    have hhelp : compare loc false (d :: ds) (literal "HELP") = false := compare_nondigit hd (by decide)
    have hwrite : compare loc false (d :: ds) (literal "WRITE") = false := compare_nondigit hd (by decide)
    have hread : compare loc false (d :: ds) (literal "READ") = false := compare_nondigit hd (by decide)
    have hline : compare loc false (d :: ds) (literal "LINE") = false := compare_nondigit hd (by decide)
    have hfile : compare loc false (d :: ds) (literal "FILE") = false := compare_nondigit hd (by decide)
    refine ⟨h, ?_⟩
    rw [promptAction, if_neg (not_not.mpr h)]
    simp [action, hhelp, hwrite, hread, hline, hfile, hd]

theorem promptAction_fifteen :
    (literal "15" ≠ literal "1" ∧ literal "15" ≠ literal "16") ∧
      promptAction .posix (literal "15") = some (.gotoLine (literal "15")) :=
  ⟨by decide, ((promptAction_digits_iff .posix (by decide) (List.all_eq_true.mp rfl)).mpr (by decide)).2⟩

/-- The name `16BIT` starts with `1`. -/
theorem promptAction_one :
    uniqueTest .posix (literal "1") commands = 2 ∧ promptAction .posix (literal "1") = none := by
  decide

end Numbers

end BsdAdditions.Ee
