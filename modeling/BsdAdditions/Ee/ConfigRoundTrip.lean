import Mathlib.Data.List.TakeWhile
import Mathlib.Data.Nat.Digits.Lemmas
import BsdAdditions.Ee.Config

/-! Settings that are saved and read again. -/
namespace BsdAdditions.Ee

/-! ### Names -/

/-- The comparison of texts without lower case. -/
def Locale.plain : Locale := ⟨id, fun _ _ _ => rfl, fun _ _ => rfl, fun _ h => h⟩

section Names
variable (loc : Locale)

/-- Names in upper case are compared as they are, up to the end of the first word. -/
theorem compare_append {as bs rest : List UInt8} (has : ∀ a ∈ as, loc.toupper a = a)
    (hbs : ∀ b ∈ bs, loc.toupper b = b) (hne : as ≠ [])
    (hrest : rest.head? = none ∨ rest.head? = some 32) :
    compare loc false (as ++ rest) bs = compare .plain false as bs := by
  induction as generalizing bs with
  | nil => exact absurd rfl hne
  | cons a as ih =>
    cases bs with
    | nil => rfl
    | cons b bs =>
      have hab : (loc.toupper a = loc.toupper b) = (Locale.plain.toupper a = Locale.plain.toupper b) := by
        rw [has a (by simp), hbs b (by simp)]
        rfl
      simp only [List.cons_append, compare, Bool.false_eq_true, if_false, hab]
      cases as with
      | nil =>
        have hstop : ([] ++ rest).head? = none ∨ bs.head? = none ∨ ([] ++ rest).head? = some 32 ∨
            bs.head? = some 32 := by
          rcases hrest with h | h
          · exact .inl h
          · exact .inr (.inr (.inl h))
        rw [if_pos hstop]
        simp
      | cons a' as =>
        rw [ih (fun x hx => has x (by simp [hx])) (fun x hx => hbs x (by simp [hx])) (by simp)]
        rfl

theorem mem_initStrings (i : InitString) : i ∈ initStrings := by
  cases i <;> decide

theorem text_upper : ∀ i ∈ initStrings, ∀ b ∈ i.text, (65 ≤ b ∧ b ≤ 90) ∨ isDigit b := by
  -- only the bytes of the texts are gone through, not all that there are
  have hall : initStrings.all (fun i => i.text.all fun b => decide ((65 ≤ b ∧ b ≤ 90) ∨ isDigit b)) = true := by
    decide
  intro i hi b hb
  exact of_decide_eq_true (List.all_eq_true.mp (List.all_eq_true.mp hall i hi) b hb)

theorem toupper_text (i : InitString) : ∀ b ∈ i.text, loc.toupper b = b := by
  intro b hb
  rcases text_upper i (mem_initStrings i) b hb with h | h
  · exact loc.toupper_upper b h.1 h.2
  · exact loc.toupper_digit b h

theorem text_ne_nil : ∀ i ∈ initStrings, i.text ≠ [] := by
  decide

theorem compare_plain :
    ∀ i ∈ initStrings, ∀ j ∈ initStrings, compare .plain false i.text j.text = decide (i = j) := by
  decide +kernel

theorem compare_text (i j : InitString) {rest : List UInt8}
    (hrest : rest.head? = none ∨ rest.head? = some 32) :
    compare loc false (i.text ++ rest) j.text = decide (i = j) := by
  have hi := mem_initStrings i
  have hj := mem_initStrings j
  rw [compare_append loc (toupper_text loc i) (toupper_text loc j) (text_ne_nil i hi) hrest,
    compare_plain i hi j hj]

/-- A line that starts with a name is about that name. -/
theorem initLine_text (i : InitString) (s : Settings) {rest : List UInt8}
    (hrest : rest.head? = none ∨ rest.head? = some 32) :
    initLine loc s (i.text ++ rest) = i.apply (i.text ++ rest) s := by
  have hcompare : (fun j : InitString => compare loc false (i.text ++ rest) j.text) =
      fun j => decide (i = j) := funext fun j => compare_text loc i j hrest
  have hunique : uniqueTest loc (i.text ++ rest) (initStrings.map InitString.text) = 1 := by
    have hcount : ∀ i ∈ initStrings, initStrings.countP (fun j => decide (i = j)) = 1 := by decide
    rw [uniqueTest, List.countP_map]
    exact (congrArg (List.countP · initStrings) hcompare).trans (hcount i (mem_initStrings i))
  have hfind : ∀ i ∈ initStrings, initStrings.find? (fun j => decide (i = j)) = some i := by decide
  rw [initLine, if_neg (by simp [hunique]), hcompare, hfind i (mem_initStrings i)]

/-- A line that passes the test for one name is about that name. -/
theorem exists_find?_of_unique {line : List UInt8}
    (h : uniqueTest loc line (initStrings.map InitString.text) = 1) :
    ∃ j, (initStrings.find? fun i => compare loc false line i.text) = some j ∧
      ∀ i : InitString, compare loc false line i.text = true ↔ i = j := by
  rw [uniqueTest, List.countP_map, List.countP_eq_length_filter] at h
  obtain ⟨j, hj⟩ := List.length_eq_one_iff.mp h
  refine ⟨j, ?_, fun i => ?_⟩
  · have hhead := congrArg List.head? hj
    rw [List.head?_filter] at hhead
    exact hhead
  · have hmem : i ∈ initStrings.filter (compare loc false line ∘ InitString.text) ↔ i = j := by
      rw [hj, List.mem_singleton]
    rw [← hmem, List.mem_filter]
    exact (and_iff_right (mem_initStrings i)).symm

/-- What the writer keeps of an old file says nothing to the reader. -/
theorem initLine_of_keepsLine {line : List UInt8} (h : keepsLine loc line) (s : Settings) :
    initLine loc s line = s := by
  by_cases hunique : uniqueTest loc line (initStrings.map InitString.text) = 1
  · have hecho : compare loc false line InitString.echo.text := by
      simpa [keepsLine, hunique] using h
    obtain ⟨j, hfind, hname⟩ := exists_find?_of_unique loc hunique
    obtain rfl := (hname .echo).mp hecho
    rw [initLine, if_neg (by simp [hunique]), hfind]
    rfl
  · rw [initLine, if_pos hunique]

end Names

/-! ### Lines of a file -/

/-- A line that fits the buffers, without its newline. -/
structure Fits (line : List UInt8) : Prop where
  newline : 10 ∉ line
  short : line.length < 500

/-- A file of such lines. -/
def fileOf (lines : List (List UInt8)) : List UInt8 := lines.flatMap (· ++ [10])

theorem fileOf_cons (line : List UInt8) (lines : List (List UInt8)) :
    fileOf (line :: lines) = line ++ 10 :: fileOf lines := by
  simp [fileOf]

theorem takeWhile_line {line : List UInt8} (h : 10 ∉ line) (rest : List UInt8) :
    (line ++ 10 :: rest).takeWhile (· ≠ 10) = line := by
  have hne : ∀ b ∈ line, decide (b ≠ 10) = true := by
    intro b hb
    exact decide_eq_true fun h10 : b = 10 => h (h10 ▸ hb)
  rw [List.takeWhile_append_of_pos hne]
  simp

theorem fgets_line {line : List UInt8} (h : 10 ∉ line) (hshort : line.length < 511) (rest : List UInt8) :
    fgets 512 (line ++ 10 :: rest) = (line ++ [10], rest) := by
  have hmin : min (line.length + 1) (512 - 1) = line.length + 1 := by omega
  have hsplit : line ++ 10 :: rest = (line ++ [10]) ++ rest := by simp
  have hlen : line.length + 1 = (line ++ [10]).length := by simp
  simp only [fgets, takeWhile_line h, hmin]
  rw [hsplit, hlen, List.take_left, List.drop_left]

theorem Fits.fgets {line : List UInt8} (h : Fits line) (rest : List UInt8) :
    Ee.fgets 512 (line ++ 10 :: rest) = (line ++ [10], rest) :=
  fgets_line h.newline (Nat.lt_trans h.short (by decide)) rest

theorem length_le_fileOf (lines : List (List UInt8)) : lines.length ≤ (fileOf lines).length := by
  induction lines with
  | nil => simp
  | cons line lines ih =>
    simp only [fileOf_cons, List.length_append, List.length_cons]
    omega

/-- The reader goes through the lines one by one. -/
theorem readInit_fileOf (loc : Locale) {lines : List (List UInt8)} (h : ∀ l ∈ lines, Fits l)
    {fuel : ℕ} (hfuel : lines.length ≤ fuel) (s : Settings) :
    readInit loc fuel (fileOf lines) s = some ((lines.map cString).foldl (initLine loc) s) := by
  induction lines generalizing fuel s with
  | nil => cases fuel <;> simp [readInit, fileOf]
  | cons line lines ih =>
    obtain ⟨fuel, rfl⟩ : ∃ k, fuel = k + 1 := ⟨fuel - 1, by simp at hfuel; omega⟩
    have hline : Fits line := h line (by simp)
    rw [readInit, if_neg (by simp [fileOf_cons]), fileOf_cons, hline.fgets]
    simp only [takeWhile_line hline.newline, List.mem_append, List.mem_singleton, or_true, if_true]
    exact ih (fun l hl => h l (by simp [hl])) (by simpa using hfuel) _

/-- What the writer makes of an old line. -/
def stripped (line : List UInt8) : List UInt8 := (cString (line ++ [10])).dropLast

theorem cString_eq_nil_iff (line : List UInt8) : cString (line ++ [10]) = [] ↔ line.head? = some 0 := by
  cases line with
  | nil => decide
  | cons b line => by_cases hb : b = 0 <;> simp [cString, hb]

theorem stripped_isPrefix (line : List UInt8) : stripped line <+: line := by
  have h : cString (line ++ [10]) <+: line ++ [10] := List.takeWhile_prefix _
  rcases List.prefix_concat_iff.mp h with h | h
  · rw [stripped, h]
    simp
  · exact (List.dropLast_prefix _).trans h

theorem fits_stripped {line : List UInt8} (h : Fits line) : Fits (stripped line) :=
  ⟨fun h10 => h.newline ((stripped_isPrefix line).subset h10),
    (stripped_isPrefix line).length_le.trans_lt h.short⟩

theorem zero_notMem_cString (bs : List UInt8) : 0 ∉ cString bs := by
  intro h
  have hp := List.mem_takeWhile_imp h
  simp at hp

theorem cString_eq_self {bs : List UInt8} (h : 0 ∉ bs) : cString bs = bs := by
  apply List.takeWhile_eq_self_iff.mpr
  intro b hb
  exact decide_eq_true fun h0 => h (h0 ▸ hb)

theorem cString_stripped (line : List UInt8) : cString (stripped line) = stripped line :=
  cString_eq_self fun h => zero_notMem_cString _ (List.mem_of_mem_dropLast h)

/-- The writer goes through the old file line by line, unless a line starts with a NUL. -/
theorem copyOld_fileOf (loc : Locale) {lines : List (List UInt8)} (h : ∀ l ∈ lines, Fits l) {fuel : ℕ}
    (hfuel : lines.length ≤ fuel) :
    copyOld loc fuel (fileOf lines) =
      if ∀ l ∈ lines, l.head? ≠ some 0 then some (fileOf ((lines.map stripped).filter (keepsLine loc)))
      else none := by
  induction lines generalizing fuel with
  | nil => cases fuel <;> simp [copyOld, fileOf]
  | cons line lines ih =>
    obtain ⟨fuel, rfl⟩ : ∃ k, fuel = k + 1 := ⟨fuel - 1, by simp at hfuel; omega⟩
    have hrest := @ih (fun l hl => h l (by simp [hl])) fuel (by simpa using hfuel)
    rw [copyOld, if_neg (by simp [fileOf_cons]), fileOf_cons, (h line (by simp)).fgets]
    by_cases hnul : line.head? = some 0
    · have hall : ¬ ∀ l ∈ line :: lines, l.head? ≠ some 0 := fun hall => hall line (by simp) hnul
      simp only [cString_eq_nil_iff, hnul, if_true, if_neg hall]
    · simp only [cString_eq_nil_iff, hnul, if_false, hrest, List.forall_mem_cons, ne_eq,
        not_false_eq_true, true_and]
      split
      · rw [← stripped, List.map_cons, List.filter_cons]
        by_cases hkeep : keepsLine loc (stripped line)
        · simp [hkeep, fileOf_cons]
        · simp [hkeep]
      · rfl

/-! ### The argument of a setting -/

theorem nextWord_text (i : InitString) {arg : List UInt8} (hzero : 0 ∉ arg)
    (hblank : arg.head?.any isBlank = false) : nextWord (i.text ++ 32 :: arg) = arg := by
  have hupper := text_upper i (mem_initStrings i)
  have hnonzero : 0 ∉ i.text ++ 32 :: arg := by
    intro h
    rcases List.mem_append.mp h with h | h
    · exact absurd (hupper 0 h) (by decide)
    · rcases List.mem_cons.mp h with h | h
      · exact absurd h (by decide)
      · exact hzero h
  have hword : ∀ b ∈ i.text, (!isBlank b) = true := by
    intro b hb
    have hne : b ≠ 32 ∧ b ≠ 9 := by
      constructor
      · rintro rfl
        exact absurd (hupper 32 hb) (by decide)
      · rintro rfl
        exact absurd (hupper 9 hb) (by decide)
    simp [isBlank, hne.1, hne.2]
  rw [nextWord, cString_eq_self hnonzero, List.dropWhile_append_of_pos hword]
  cases arg with
  | nil => rfl
  | cons b arg => simp_all [isBlank]

section Decimal
variable {n : ℤ}

theorem decimal_of_pos (hn : 0 < n) :
    decimal n = (Nat.digits 10 n.natAbs).reverse.map fun d => UInt8.ofNat (48 + d) := by
  have h0 : n ≠ 0 := by omega
  have hneg : ¬ n < 0 := by omega
  simp only [decimal, if_neg h0, if_neg hneg]

theorem toNat_digit {d : ℕ} (hd : d < 10) : (UInt8.ofNat (48 + d)).toNat = 48 + d :=
  UInt8.toNat_ofNat_of_lt' (show 48 + d < 256 by omega)

theorem isDigit_digit {d : ℕ} (hd : d < 10) : isDigit (UInt8.ofNat (48 + d)) = true := by
  have h := toNat_digit hd
  simp only [isDigit, Bool.and_eq_true, decide_eq_true_eq, UInt8.le_iff_toNat_le, h]
  constructor
  · exact Nat.le_add_right 48 d
  · show 48 + d ≤ 57
    omega

theorem isDigit_decimal (hn : 0 < n) : ∀ b ∈ decimal n, isDigit b = true := by
  intro b hb
  rw [decimal_of_pos hn] at hb
  obtain ⟨d, hd, rfl⟩ := List.mem_map.mp hb
  exact isDigit_digit (Nat.digits_lt_base (by omega) (List.mem_reverse.mp hd))

theorem foldr_digits {ds : List ℕ} (h : ∀ d ∈ ds, d < 10) :
    ds.foldr (fun d i => i * 10 + ((UInt8.ofNat (48 + d)).toNat - 48)) 0 = Nat.ofDigits 10 ds := by
  induction ds with
  | nil => rfl
  | cons d ds ih =>
    rw [List.foldr_cons, ih fun d hd => h d (by simp [hd]), toNat_digit (h d (by simp)),
      Nat.ofDigits_cons]
    omega

theorem digits_decimal (hn : 0 < n) : digits (decimal n) = n.natAbs := by
  have hall : (decimal n).takeWhile (fun b => 48 ≤ b && b ≤ 57) = decimal n :=
    List.takeWhile_eq_self_iff.mpr (isDigit_decimal hn)
  rw [digits, hall, decimal_of_pos hn, List.foldl_map, List.foldl_reverse,
    foldr_digits fun d hd => Nat.digits_lt_base (by omega) hd, Nat.ofDigits_digits]

theorem decimal_ne_nil (hn : 0 < n) : decimal n ≠ [] := by
  rw [decimal_of_pos hn]
  simp only [ne_eq, List.map_eq_nil_iff, List.reverse_eq_nil_iff, Nat.digits_eq_nil_iff_eq_zero]
  omega

theorem atoi_of_isDigit {b : UInt8} {rest : List UInt8} (hb : isDigit b = true) :
    atoi (b :: rest) = digits (b :: rest) := by
  have hspace : (b = 32 || (9 ≤ b && b ≤ 13)) = false := by
    have hne : b ≠ 32 := by
      rintro rfl
      exact absurd hb (by decide)
    have hhigh : ¬ b ≤ 13 := by
      intro hle
      simp only [isDigit, Bool.and_eq_true, decide_eq_true_eq] at hb
      exact absurd (UInt8.le_trans hb.1 hle) (by decide)
    simp [hne, hhigh]
  rw [atoi, List.dropWhile_cons_of_neg (by rw [hspace]; exact Bool.false_ne_true)]
  split
  · rename_i heq
    obtain ⟨rfl, -⟩ := List.cons.inj heq
    exact absurd hb (by decide)
  · rename_i heq
    obtain ⟨rfl, -⟩ := List.cons.inj heq
    exact absurd hb (by decide)
  · rfl

/-- What `%d` has written, `atoi` reads, up to whatever is no digit. -/
theorem atoi_decimal_append (hn : 0 < n) {rest : List UInt8} (hrest : ∀ b ∈ rest.head?, isDigit b = false) :
    atoi (decimal n ++ rest) = n := by
  have hdigits := digits_decimal hn
  have hall := isDigit_decimal hn
  have htake : rest.takeWhile isDigit = [] := by
    cases rest with
    | nil => rfl
    | cons b rest => exact List.takeWhile_cons_of_neg (Bool.eq_false_iff.mp (hrest b rfl))
  have happend : digits (decimal n ++ rest) = digits (decimal n) := by
    have hwhile : (decimal n ++ rest).takeWhile isDigit = (decimal n).takeWhile isDigit := by
      rw [List.takeWhile_append_of_pos hall, htake, List.append_nil, List.takeWhile_eq_self_iff.mpr hall]
    exact congrArg (List.foldl (fun i b => i * 10 + (b.toNat - 48)) 0) hwhile
  cases hd : decimal n with
  | nil => exact absurd hd (decimal_ne_nil hn)
  | cons b ds =>
    rw [hd] at happend hdigits hall
    rw [List.cons_append, atoi_of_isDigit (hall b List.mem_cons_self), ← List.cons_append, happend, hdigits]
    omega

theorem atoi_decimal (hn : 0 < n) : atoi (decimal n) = n := by
  have h : atoi (decimal n ++ []) = n := atoi_decimal_append hn nofun
  rwa [List.append_nil] at h

end Decimal

/-! ### Reading what was written -/

/-- The commands that can be saved. -/
structure Printable (printCommand : List UInt8) : Prop where
  nonempty : printCommand ≠ []
  short : printCommand.length ≤ 400
  newline : 10 ∉ printCommand
  zero : 0 ∉ printCommand
  blank : printCommand.head?.any isBlank = false

theorem initLine_name (loc : Locale) (i : InitString) (s : Settings) :
    initLine loc s i.text = i.apply i.text s := by
  have h := @initLine_text loc i s [] (.inl rfl)
  rwa [List.append_nil] at h

section Flags
variable (line : List UInt8) (b : Bool) (s : Settings)

/-! Of the two names of a setting, one switches it on and the other off. Three of them have an
effect on another setting. -/

theorem apply_case : (if b then InitString.case else .nocase).apply line s = { s with caseSen := b } := by
  cases b <;> rfl

theorem apply_expand :
    (if b then InitString.expand else .noexpand).apply line s = { s with expandTabs := b } := by
  cases b <;> rfl

theorem apply_info : (if b then InitString.info else .noinfo).apply line s = { s with infoWindow := b } := by
  cases b <;> rfl

theorem apply_margins :
    (if b then InitString.margins else .nomargins).apply line s = { s with observMargins := b } := by
  cases b <;> rfl

theorem apply_autoformat : (if b then InitString.autoformat else .noautoformat).apply line s =
    { s with autoFormat := b, observMargins := b || s.observMargins } := by
  cases b <;> rfl

theorem apply_highlight :
    (if b then InitString.nohighlight else .highlight).apply line s = { s with nohighlight := b } := by
  cases b <;> rfl

theorem apply_eightbit : (if b then InitString.eightbit else .noeightbit).apply line s =
    { s with eightbit := b, eeChinese := b && s.eeChinese } := by
  cases b <;> rfl

theorem apply_emacs :
    (if b then InitString.emacs else .noemacs).apply line s = { s with emacsKeysMode := b } := by
  cases b <;> rfl

theorem apply_chinese : (if b then InitString.chinese else .nochinese).apply line s =
    { s with eeChinese := b, eightbit := b || s.eightbit } := by
  cases b <;> rfl

end Flags

/-- Automatic formatting brings the margins with it, and 16 bit characters the eighth bit. -/
def Settings.reread (s : Settings) : Settings :=
  { s with observMargins := s.autoFormat || s.observMargins, eightbit := s.eeChinese || s.eightbit }

/-- Every setting is written, so nothing is left of those before. -/
theorem foldl_dump (loc : Locale) {s : Settings} (hmargin : 0 < s.rightMargin)
    (hprint : Printable s.printCommand) (t : Settings) : s.dump.foldl (initLine loc) t = s.reread := by
  have hdigit := isDigit_decimal hmargin
  have hword : nextWord (InitString.rightmargin.text ++ 32 :: decimal s.rightMargin) =
      decimal s.rightMargin := by
    apply nextWord_text
    · intro h0
      exact absurd (hdigit 0 h0) (by decide)
    · cases hd : decimal s.rightMargin with
      | nil => rfl
      | cons b rest =>
        have hb : isDigit b = true := hdigit b (by simp [hd])
        have hne : b ≠ 32 ∧ b ≠ 9 := by
          constructor <;> (rintro rfl; exact absurd hb (by decide))
        simp [isBlank, hne.1, hne.2]
  have hfirst : (decimal s.rightMargin).head?.any isDigit = true := by
    cases hd : decimal s.rightMargin with
    | nil => exact absurd hd (decimal_ne_nil hmargin)
    | cons b rest => exact hdigit b (by simp [hd])
  have hcmd := nextWord_text .printcommand hprint.zero hprint.blank
  have hspace (arg : List UInt8) : (32 :: arg).head? = none ∨ (32 :: arg).head? = some 32 := .inr rfl
  have hmarginLine (t : Settings) : InitString.rightmargin.apply
      (InitString.rightmargin.text ++ 32 :: decimal s.rightMargin) t =
        { t with rightMargin := s.rightMargin } := by
    simp only [InitString.apply, hword, hfirst, if_true, setMargin, atoi_decimal hmargin, if_pos hmargin]
  have hprintLine (t : Settings) : InitString.printcommand.apply
      (InitString.printcommand.text ++ 32 :: s.printCommand) t =
        { t with printCommand := s.printCommand } := by
    simp only [InitString.apply, hcmd]
  simp only [Settings.dump, List.foldl_cons, List.foldl_nil, initLine_name,
    initLine_text loc _ _ (hspace _)]
  simp only [apply_case, apply_expand, apply_info, apply_margins, apply_autoformat, hprintLine,
    hmarginLine, apply_highlight, apply_eightbit, apply_emacs, apply_chinese]
  rfl

/-- A line that `ee` writes itself. -/
theorem fits_text (i : InitString) {rest : List UInt8} (hnewline : 10 ∉ rest) (hzero : 0 ∉ rest)
    (hlen : rest.length < 480) : Fits (i.text ++ rest) ∧ 0 ∉ i.text ++ rest := by
  have hupper := text_upper i (mem_initStrings i)
  have hshort : ∀ i ∈ initStrings, i.text.length < 20 := by decide
  have hnotMem (b : UInt8) (hb : ¬ ((65 ≤ b ∧ b ≤ 90) ∨ isDigit b)) (hrest : b ∉ rest) :
      b ∉ i.text ++ rest := by
    intro h
    rcases List.mem_append.mp h with h | h
    · exact hb (hupper b h)
    · exact hrest h
  have hlt := hshort i (mem_initStrings i)
  refine ⟨⟨hnotMem 10 (by decide) hnewline, ?_⟩, hnotMem 0 (by decide) hzero⟩
  rw [List.length_append]
  omega

theorem fits_name (i : InitString) : Fits i.text ∧ 0 ∉ i.text := by
  have h := @fits_text i [] (by simp) (by simp) (by simp)
  rwa [List.append_nil] at h

theorem length_decimal {n : ℤ} (hn : 0 < n) (hint : n < 2 ^ 31) : (decimal n).length ≤ 10 := by
  rw [decimal_of_pos hn, List.length_map, List.length_reverse, Nat.digits_length_le_iff (by omega)]
  omega

theorem fits_dump {s : Settings} (hmargin : 0 < s.rightMargin) (hint : s.rightMargin < 2 ^ 31)
    (hprint : Printable s.printCommand) : ∀ l ∈ s.dump, Fits l ∧ 0 ∉ l := by
  have hdigit := isDigit_decimal hmargin
  have hlen := length_decimal hmargin hint
  have hshort := hprint.short
  have hprintLine : Fits (InitString.printcommand.text ++ 32 :: s.printCommand) ∧
      0 ∉ InitString.printcommand.text ++ 32 :: s.printCommand := by
    apply fits_text
    · simpa using hprint.newline
    · simpa using hprint.zero
    · rw [List.length_cons]
      omega
  have hmarginLine : Fits (InitString.rightmargin.text ++ 32 :: decimal s.rightMargin) ∧
      0 ∉ InitString.rightmargin.text ++ 32 :: decimal s.rightMargin := by
    have hnotMem (b : UInt8) (hb : isDigit b = false) : b ∉ decimal s.rightMargin := by
      intro h
      rw [hdigit b h] at hb
      cases hb
    apply fits_text
    · simpa using hnotMem 10 (by decide)
    · simpa using hnotMem 0 (by decide)
    · rw [List.length_cons]
      omega
  intro l hl
  simp only [Settings.dump, List.mem_cons, List.not_mem_nil, or_false] at hl
  rcases hl with rfl | rfl | rfl | rfl | rfl | rfl | rfl | rfl | rfl | rfl | rfl
  all_goals first | exact hprintLine | exact hmarginLine | exact fits_name _

/-! ### The settings a user can make -/

/-- From the start-up values, with the print command and the highlighting of the last session, the
margin that the terminal gives, and any number of changes. -/
inductive Reachable (loc : Locale) : Settings → Prop where
  | start (printCommand : List UInt8) (rightMargin : ℤ) (nohighlight : Bool) :
    Reachable loc { Settings.default with printCommand, rightMargin, nohighlight }
  | change {s : Settings} (h : Reachable loc s) (c : Change) : Reachable loc (c.apply loc s)

/-- 16 bit characters need the eighth bit. -/
def Settings.Wide (s : Settings) : Prop := s.eeChinese = true → s.eightbit = true

theorem wide_modesOp {s : Settings} (h : s.Wide) (item : ℕ) : (modesOp s item).Wide := by
  unfold modesOp
  split
  case h_5 => cases hb : s.eightbit <;> simp_all [Settings.Wide]
  case h_8 => cases hc : s.eeChinese <;> simp_all [Settings.Wide]
  all_goals exact h

/-- Nothing but a digit compares equal to the first byte of the name of 16 bit characters. -/
theorem compare_chinese {loc : Locale} {cmdStr : List UInt8} (h : compare loc false cmdStr InitString.chinese.text) :
    cmdStr.head?.any isDigit = true := by
  have htext : InitString.chinese.text = 49 :: literal "6BIT" := by decide
  rw [htext] at h
  cases cmdStr with
  | nil => cases h
  | cons b rest =>
    simp only [compare, Bool.false_eq_true, if_false] at h
    by_cases hb : loc.toupper b = loc.toupper 49
    · rw [loc.toupper_digit 49 (by decide)] at hb
      exact loc.isDigit_of_toupper b (by rw [hb]; decide)
    · rw [if_neg hb] at h
      cases h

theorem wide_ite {c : Prop} [Decidable c] {s t : Settings} (hs : s.Wide) (ht : ¬ c → t.Wide) :
    (if c then s else t).Wide := by
  by_cases hc : c
  · rwa [if_pos hc]
  · rw [if_neg hc]
    exact ht hc

theorem wide_command {loc : Locale} (depth : ℕ) (inPipe outPipe : Bool) (cmdStr : List UInt8)
    {s : Settings} (h : s.Wide) : (command loc depth inPipe outPipe cmdStr s).Wide := by
  induction depth generalizing inPipe outPipe cmdStr with
  | zero => exact h
  | succ depth ih =>
    rw [command]
    apply wide_ite h
    intro _
    apply wide_ite h
    intro hdigit
    apply wide_ite h
    intro _
    apply wide_ite (s := { s with caseSen := true }) h
    intro _
    apply wide_ite (s := { s with caseSen := false }) h
    intro _
    apply wide_ite (s := { s with expandTabs := true }) h
    intro _
    apply wide_ite (s := { s with expandTabs := false }) h
    intro _
    apply wide_ite h
    intro _
    rw [if_neg fun hchinese => hdigit (compare_chinese hchinese)]
    apply wide_ite (s := { s with eeChinese := false }) (fun hc => by cases hc)
    intro _
    apply wide_ite h
    intro _
    apply wide_ite (ih _ _ _)
    intro _
    exact wide_ite (ih _ _ _) fun _ => h

theorem wide_of_reachable {loc : Locale} {s : Settings} (h : Reachable loc s) : s.Wide := by
  induction h with
  | start => exact fun hc => by cases hc
  | change _ c ih =>
    cases c with
    | menu item => exact wide_modesOp ih item
    | margin answer =>
      rw [Change.apply, setMargin]
      split <;> exact ih
    | command cmdStr =>
      rw [Change.apply, commandPrompt]
      split
      · exact ih
      · exact wide_command 3 false false cmdStr ih

/-! ### The round trip -/

/-- Kept lines change nothing, whatever comes after them. -/
theorem foldl_kept (loc : Locale) {lines : List (List UInt8)} (h : ∀ l ∈ lines, keepsLine loc l)
    (s : Settings) : lines.foldl (initLine loc) s = s := by
  induction lines with
  | nil => rfl
  | cons line lines ih =>
    rw [List.foldl_cons, initLine_of_keepsLine loc (h line (by simp))]
    exact ih fun l hl => h l (by simp [hl])

/-- What is read back, given the old file's lines. -/
theorem reread_of_dump (loc : Locale) {lang : Option (List UInt8)}
    (hlang : lang ≠ some (literal "zh_TW.big5")) {lines : List (List UInt8)}
    (hlines : ∀ l ∈ lines, Fits l) {s : Settings} (hmargin : 0 < s.rightMargin)
    (hint : s.rightMargin < 2 ^ 31) (hprint : Printable s.printCommand) (t : Settings) :
    eeInit loc lang [fileOf ((lines.map stripped).filter (keepsLine loc)) ++ fileOf s.dump] t =
      some s.reread := by
  have hdump := fits_dump hmargin hint hprint
  have hfile : fileOf ((lines.map stripped).filter (keepsLine loc)) ++ fileOf s.dump =
      fileOf ((lines.map stripped).filter (keepsLine loc) ++ s.dump) := by
    simp [fileOf]
  have hfits : ∀ l ∈ (lines.map stripped).filter (keepsLine loc) ++ s.dump, Fits l ∧ cString l = l := by
    intro l hl
    rcases List.mem_append.mp hl with hl | hl
    · obtain ⟨line, hline, rfl⟩ := List.mem_map.mp (List.mem_of_mem_filter hl)
      exact ⟨fits_stripped (hlines line hline), cString_stripped line⟩
    · exact ⟨(hdump l hl).1, cString_eq_self (hdump l hl).2⟩
  have hcString : ((lines.map stripped).filter (keepsLine loc) ++ s.dump).map cString =
      (lines.map stripped).filter (keepsLine loc) ++ s.dump :=
    (List.map_congr_left fun l hl => (hfits l hl).2).trans (List.map_id _)
  have hread := readInit_fileOf loc (fun l hl => (hfits l hl).1) (length_le_fileOf _) t
  have hkept : ((lines.map stripped).filter (keepsLine loc)).foldl (initLine loc) t = t :=
    foldl_kept loc (fun l hl => (List.mem_filter.mp hl).2) t
  rw [hcString, List.foldl_append, hkept, foldl_dump loc hmargin hprint] at hread
  simp only [eeInit, hfile, List.foldlM_cons, hread, List.foldlM_nil]
  exact if_neg hlang

/-- Saving the settings and starting again gives them back just when automatic formatting is off
or the margins are observed, provided that no line of the old file starts with a NUL. -/
theorem settings_survive_iff (loc : Locale) {lang : Option (List UInt8)}
    (hlang : lang ≠ some (literal "zh_TW.big5")) {old : Option (List (List UInt8))}
    (hold : ∀ l ∈ old.getD [], Fits l) {s : Settings} (hs : Reachable loc s)
    (hmargin : 0 < s.rightMargin) (hint : s.rightMargin < 2 ^ 31) (hprint : Printable s.printCommand) :
    ((dumpEeConf loc (old.map fileOf) s).bind fun file => eeInit loc lang [file] .default) = some s ↔
      (s.autoFormat = true → s.observMargins = true) ∧ ∀ l ∈ old.getD [], l.head? ≠ some 0 := by
  have hdump : dumpEeConf loc (old.map fileOf) s =
      if ∀ l ∈ old.getD [], l.head? ≠ some 0 then
        some (fileOf (((old.getD []).map stripped).filter (keepsLine loc)) ++ fileOf s.dump)
      else none := by
    cases old with
    | none => simp [dumpEeConf, fileOf]
    | some lines =>
      rw [Option.getD_some] at hold
      simp only [dumpEeConf, Option.map_some, Option.elim_some,
        copyOld_fileOf loc hold (length_le_fileOf lines), Option.getD_some]
      split <;> rfl
  have hreread : s.reread = s ↔ (s.autoFormat = true → s.observMargins = true) := by
    have hwide : (s.eeChinese || s.eightbit) = s.eightbit := by
      have := wide_of_reachable hs
      cases hc : s.eeChinese <;> simp_all [Settings.Wide]
    rw [Settings.reread, hwide]
    constructor
    · intro h hauto
      have hmargins := congrArg Settings.observMargins h
      simpa [hauto] using hmargins
    · intro h
      have hmargins : (s.autoFormat || s.observMargins) = s.observMargins := by
        cases hauto : s.autoFormat with
        | false => rfl
        | true => rw [h hauto, Bool.or_true]
      rw [hmargins]
  by_cases hnul : ∀ l ∈ old.getD [], l.head? ≠ some 0
  · rw [hdump, if_pos hnul, Option.bind_some, reread_of_dump loc hlang hold hmargin hint hprint]
    rw [Option.some.injEq, hreread]
    exact (and_iff_left hnul).symm
  · rw [hdump, if_neg hnul]
    simp [hnul]

/-- Upper case in the C locale. -/
def Locale.posix : Locale where
  toupper b := if 97 ≤ b ∧ b ≤ 122 then b - 32 else b
  toupper_upper := by
    intro b _ h
    apply if_neg
    intro h'
    exact absurd (UInt8.le_trans h'.1 h) (by decide)
  toupper_digit := by
    intro b h
    apply if_neg
    intro h'
    simp only [isDigit, Bool.and_eq_true, decide_eq_true_eq] at h
    exact absurd (UInt8.le_trans h'.1 h.2) (by decide)
  isDigit_of_toupper := by
    intro b h
    split at h
    · rename_i hb
      have hsub := UInt8.toNat_sub_of_le b 32 (UInt8.le_trans (by decide) hb.1)
      simp only [isDigit, UInt8.le_iff_toNat_le, Bool.and_eq_true, decide_eq_true_eq, hsub] at h hb
      have hlow : b.toNat - 32 ≤ 57 := h.2
      have hhigh : 97 ≤ b.toNat := hb.1
      omega
    · exact h

/-- Everything but the margins switched, with an old file that has a line of its own. -/
theorem settings_survive_with_margins :
    ((dumpEeConf .posix (some (fileOf [literal "hello", literal "nocase"]))
        (modesOp (modesOp { Settings.default with rightMargin := 79 } 4) 2)).bind
      fun file => eeInit .posix none [file] .default) =
        some (modesOp (modesOp { Settings.default with rightMargin := 79 } 4) 2) := by
  have hold : ∀ l ∈ [literal "hello", literal "nocase"], Fits l ∧ l.head? ≠ some 0 := by
    simp only [List.forall_mem_cons, List.not_mem_nil, false_implies, implies_true, and_true]
    exact ⟨⟨⟨by decide, by decide +kernel⟩, by decide +kernel⟩,
      ⟨by decide, by decide +kernel⟩, by decide +kernel⟩
  have hreachable : Reachable .posix (modesOp (modesOp { Settings.default with rightMargin := 79 } 4) 2) :=
    ((Reachable.start (literal "lpr") 79 false).change (.menu 4)).change (.menu 2)
  have hprint : Printable (literal "lpr") :=
    ⟨by decide, by decide +kernel, by decide +kernel, by decide +kernel, by decide +kernel⟩
  have hfits : ∀ l ∈ (some [literal "hello", literal "nocase"]).getD [], Fits l := fun l hl => (hold l hl).1
  exact (settings_survive_iff .posix (by simp) hfits hreachable (by decide) (by decide) hprint).mpr
    ⟨fun _ => rfl, fun l hl => (hold l hl).2⟩

/-- Automatic formatting is switched on, which turns on the margins, and then the margins off: when
the settings are read again, the margins are on. -/
theorem margins_come_back :
    Reachable .posix (modesOp (modesOp { Settings.default with rightMargin := 79 } 4) 3) ∧
    (modesOp (modesOp { Settings.default with rightMargin := 79 } 4) 3).observMargins = false ∧
    ((dumpEeConf .posix none (modesOp (modesOp { Settings.default with rightMargin := 79 } 4) 3)).bind
      fun file => eeInit .posix none [file] .default).map Settings.observMargins = some true := by
  refine ⟨((Reachable.start (literal "lpr") 79 false).change (.menu 4)).change (.menu 3), rfl, ?_⟩
  decide +kernel

end BsdAdditions.Ee
