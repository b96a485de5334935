import BsdAdditions.Common.CString
import BsdAdditions.Ee.ConfigRoundTrip

/-! The initialization file as the program reads it, byte for byte. A pointer into the line buffer is
the list of the bytes that may be read from there on: the line up to its terminating NUL. -/
namespace BsdAdditions.Ee.InitFile
open Common

/-! ### The program -/

def compareLoop (loc : Locale) (sensitive : Bool) : List UInt8 → List UInt8 → Option Bool
  | a :: strng1, b :: strng2 => do
    let equal : Bool := if sensitive then a = b else loc.toupper a = loc.toupper b
    if (← strng1.head?) = 0 then pure equal
    else if (← strng2.head?) = 0 ∨ strng1.head? = some 32 ∨ strng2.head? = some 32 then pure equal
    else if equal then compareLoop loc sensitive strng1 strng2
    else pure false
  | _, _ => none

def compare (loc : Locale) (sensitive : Bool) (string1 string2 : List UInt8) : Option Bool := do
  if (← string1.head?) = 0 then pure false
  else if (← string2.head?) = 0 then pure false
  else compareLoop loc sensitive string1 string2

/-- The names are terminated strings as well. -/
def isName (loc : Locale) (string : List UInt8) (i : InitString) : Option Bool :=
  compare loc false string (i.text ++ [0])

def uniqueTest (loc : Locale) (string : List UInt8) (list : List InitString) : Option ℕ :=
  list.foldlM (fun numMatch i => do
    if ← isName loc string i then pure (numMatch + 1) else pure numMatch) 0

def nextWord (string : List UInt8) : Option (List UInt8) := do
  skipWhile isBlank (← skipWhile (fun b => !isBlank b) string)

/-- What a letter behind a backslash stands for. -/
def escape (b : UInt8) : Option UInt8 :=
  if b = 110 then some 10
  else if b = 116 then some 9
  else if b = 98 then some 8
  else if b = 114 then some 13
  else if b = 102 then some 12
  else if b = 101 ∨ b = 69 then some 27
  else if b = 92 then some 92
  else if b = 39 then some 39
  else none

/-- What is written to the terminal. Of a number in octal digits it is the low byte. -/
def echoString : List UInt8 → Option (List UInt8)
  | [] => none
  | b :: temp =>
    if b = 0 then some []
    else if b = 92 then
      match temp with
      | [] => none
      | c :: temp =>
        match escape c with
        | some x => (echoString temp).map (x :: ·)
        | none =>
          if isDigit c then
            let counter := ((c :: temp).takeWhile isDigit).foldl (fun k d => 8 * k + (d - 48)) 0
            (echoString (temp.dropWhile isDigit)).map (counter :: ·)
          else echoString temp
    else (echoString temp).map (b :: ·)
termination_by s => s.length
decreasing_by
  all_goals simp only [List.length_cons]
  · omega
  · have := (List.dropWhile_suffix isDigit (l := temp)).length_le
    omega
  · omega
  · omega

/-- What one of the names does, and what it writes to the terminal. -/
def obey (string : List UInt8) (s : Settings) : InitString → Option (Settings × List UInt8)
  | .echo => do
    let str1 ← nextWord string
    if (← str1.head?) ≠ 0 then pure (s, ← echoString str1) else pure (s, [])
  | .printcommand => do
    pure ({ s with printCommand := ← stringAt (← nextWord string) }, [])
  | .rightmargin => do
    let str1 ← nextWord string
    if isDigit (← str1.head?) then pure (setMargin (atoi (← stringAt str1)) s, []) else pure (s, [])
  | i => pure (i.apply [] s, [])

/-- The search for the newline, and the NUL in its place. -/
def endLine : List UInt8 → Option (List UInt8)
  | [] => none
  | b :: str2 => if b = 10 then some [0] else (endLine str2).map (b :: ·)

def initLine (loc : Locale) (string : List UInt8) (s : Settings) : Option (Settings × List UInt8) := do
  if (← uniqueTest loc string initStrings) ≠ 1 then pure (s, [])
  else
    match ← initStrings.findM? (isName loc string) with
    | some i => obey string s i
    | none => pure (s, [])

/-- The lines of one file. -/
def readFile (loc : Locale) (z : Settings × List UInt8) (file : List UInt8) :
    Option (Settings × List UInt8) :=
  if file = [] then some z
  else do
    let string ← endLine ((fgets 512 file).1 ++ [0])
    let (s, out) ← initLine loc string z.1
    readFile loc (s, z.2 ++ out) (fgets 512 file).2
termination_by file.length
decreasing_by
  rename_i hfile
  have := List.length_pos_iff.mpr hfile
  simp only [fgets, List.length_drop]
  omega

/-- The settings from the files that can be read and from the language, and what the terminal
shows. -/
def eeInit (loc : Locale) (lang : Option (List UInt8)) (files : List (List UInt8))
    (s : Settings) : Option (Settings × List UInt8) := do
  let (s, out) ← files.foldlM (readFile loc) (s, [])
  if lang = some (literal "zh_TW.big5") then pure ({ s with eeChinese := true, eightbit := true }, out)
  else pure (s, out)

/-! ### Reads that stay in the line -/

section Reads
variable {loc : Locale} {string : List UInt8}

theorem compareLoop_eq (sensitive : Bool) (a b : UInt8) {s t : List UInt8} (hs : 0 ∈ s) (ht : 0 ∉ t) :
    compareLoop loc sensitive (a :: s) (b :: (t ++ [0])) =
      some (Ee.compare loc sensitive (a :: cString s) (b :: t)) := by
  induction s generalizing a b t with
  | nil => exact absurd hs List.not_mem_nil
  | cons c s ih =>
    rw [compareLoop, Ee.compare, cString, List.takeWhile_cons]
    by_cases hc : c = 0
    · simp [hc]
    · have hmem : 0 ∈ s := (List.mem_cons.mp hs).resolve_left (Ne.symm hc)
      cases t with
      | nil => simp [hc]
      | cons d t =>
        have hd : d ≠ 0 := Ne.symm (List.ne_of_not_mem_cons ht)
        have hrec := ih c d hmem (List.not_mem_of_not_mem_cons ht)
        rw [cString] at hrec
        simp [hc, hd, hrec]
        grind

theorem compare_eq (sensitive : Bool) {t : List UInt8} (hs : 0 ∈ string) (ht : 0 ∉ t) :
    compare loc sensitive string (t ++ [0]) = some (Ee.compare loc sensitive (cString string) t) := by
  cases string with
  | nil => exact absurd hs List.not_mem_nil
  | cons a s =>
    rw [compare, cString, List.takeWhile_cons]
    by_cases ha : a = 0
    · simp [ha, Ee.compare]
    · have hmem : 0 ∈ s := (List.mem_cons.mp hs).resolve_left (Ne.symm ha)
      cases t with
      | nil => simp [ha, Ee.compare]
      | cons b t =>
        have hb : b ≠ 0 := Ne.symm (List.ne_of_not_mem_cons ht)
        have hloop := @compareLoop_eq loc sensitive a b s t hmem (List.not_mem_of_not_mem_cons ht)
        rw [cString] at hloop
        simp [ha, hb, hloop]

theorem zero_notMem_text (i : InitString) : 0 ∉ i.text := (fits_name i).2

theorem isName_eq (hs : 0 ∈ string) (i : InitString) :
    isName loc string i = some (Ee.compare loc false (cString string) i.text) :=
  compare_eq false hs (zero_notMem_text i)

theorem uniqueTest_eq (hs : 0 ∈ string) (list : List InitString) :
    uniqueTest loc string list = some (Ee.uniqueTest loc (cString string) (list.map InitString.text)) := by
  suffices h : ∀ k, list.foldlM (fun numMatch i => do
      if ← isName loc string i then pure (numMatch + 1) else pure numMatch) k =
        some (k + Ee.uniqueTest loc (cString string) (list.map InitString.text)) by
    rw [uniqueTest, h 0, Nat.zero_add]
  unfold Ee.uniqueTest
  induction list with
  | nil => exact fun k => rfl
  | cons i list ih =>
    intro k
    rw [List.foldlM_cons, isName_eq hs, List.map_cons, List.countP_cons]
    cases Ee.compare loc false (cString string) i.text with
    | false => exact ih k
    | true =>
      rw [if_pos rfl, ← Nat.add_assoc, Nat.add_right_comm]
      exact ih (k + 1)

theorem findM?_eq (hs : 0 ∈ string) (list : List InitString) :
    list.findM? (isName loc string) =
      some (list.find? fun i => Ee.compare loc false (cString string) i.text) := by
  induction list with
  | nil => rfl
  | cons i list ih =>
    rw [List.findM?, isName_eq hs, List.find?_cons]
    cases Ee.compare loc false (cString string) i.text with
    | false => simp [ih]
    | true => simp

/-- From where on a line with `ECHO` is echoed. -/
def argument (string : List UInt8) : List UInt8 :=
  (string.dropWhile fun b => b ≠ 0 && !isBlank b).dropWhile fun b => b ≠ 0 && isBlank b

theorem nextWord_eq (hs : 0 ∈ string) : nextWord string = some (argument string) := by
  rw [nextWord, skipWhile_of_mem _ hs]
  exact skipWhile_of_mem _ (zero_mem_dropWhile _ hs)

theorem zero_mem_argument (hs : 0 ∈ string) : 0 ∈ argument string :=
  zero_mem_dropWhile _ (zero_mem_dropWhile _ hs)

theorem cString_argument (string : List UInt8) : cString (argument string) = Ee.nextWord string := by
  rw [cString, argument, takeWhile_dropWhile_ne_zero, takeWhile_dropWhile_ne_zero]
  rfl

end Reads

/-! ### Where the echo stops -/

/-- Counts the backslashes at the end. -/
def slash (k : ℕ) (b : UInt8) : ℕ := if b = 92 then k + 1 else 0

/-- Somewhere a NUL is not taken for the letter behind a backslash. -/
def Stops (s : List UInt8) : Prop := ∃ u v, s = u ++ 0 :: v ∧ Even (u.foldl slash 0)

/-- Pairs of backslashes in front make no difference. -/
theorem even_foldl_slash {k k' : ℕ} (h : Even k ↔ Even k') (u : List UInt8) :
    Even (u.foldl slash k) ↔ Even (u.foldl slash k') := by
  induction u generalizing k k' with
  | nil => exact h
  | cons b u ih =>
    apply ih
    unfold slash
    split_ifs
    · rw [Nat.even_add_one, Nat.even_add_one, h]
    · exact Iff.rfl

theorem not_stops_nil : ¬ Stops [] := by
  rintro ⟨u, v, h, -⟩
  simp at h

theorem stops_zero (s : List UInt8) : Stops (0 :: s) := ⟨[], s, rfl, Even.zero⟩

theorem stops_cons {b : UInt8} (h0 : b ≠ 0) (s : List UInt8) : Stops (b :: s) ↔
    ∃ u v, s = u ++ 0 :: v ∧ Even (u.foldl slash (slash 0 b)) := by
  constructor
  · rintro ⟨u, v, hs, heven⟩
    cases u with
    | nil => exact absurd (List.cons_eq_cons.mp hs).1 h0
    | cons c u =>
      obtain ⟨rfl, rfl⟩ := List.cons_eq_cons.mp hs
      exact ⟨u, v, rfl, heven⟩
  · rintro ⟨u, v, rfl, heven⟩
    exact ⟨b :: u, v, rfl, heven⟩

theorem stops_plain {b : UInt8} (h0 : b ≠ 0) (hb : b ≠ 92) (s : List UInt8) : Stops (b :: s) ↔ Stops s := by
  rw [stops_cons h0, slash, if_neg hb, Stops]

/-- Whatever stands behind a backslash is gone over with it, a NUL as well. -/
theorem stops_escaped (c : UInt8) (s : List UInt8) : Stops (92 :: c :: s) ↔ Stops s := by
  have hslash : Even (slash (slash 0 92) c) ↔ Even 0 := by
    change Even (slash 1 c) ↔ Even 0
    unfold slash
    split_ifs <;> decide
  rw [stops_cons (by decide)]
  constructor
  · rintro ⟨u, v, hs, heven⟩
    cases u with
    | nil => exact absurd heven (by decide)
    | cons d u =>
      obtain ⟨rfl, rfl⟩ := List.cons_eq_cons.mp hs
      exact ⟨u, v, rfl, (even_foldl_slash hslash u).mp heven⟩
  · rintro ⟨u, v, rfl, heven⟩
    exact ⟨c :: u, v, rfl, (even_foldl_slash hslash u).mpr heven⟩

theorem stops_dropWhile_isDigit (s : List UInt8) : Stops (s.dropWhile isDigit) ↔ Stops s := by
  induction s with
  | nil => exact Iff.rfl
  | cons b s ih =>
    rw [List.dropWhile_cons]
    split_ifs with hb
    · have h0 : b ≠ 0 := by
        rintro rfl
        exact absurd hb (by decide)
      have h92 : b ≠ 92 := by
        rintro rfl
        exact absurd hb (by decide)
      rw [ih, stops_plain h0 h92]
    · exact Iff.rfl

/-- The echo stays in the line exactly if it stops. -/
theorem isSome_echoString (s : List UInt8) : (echoString s).isSome ↔ Stops s := by
  fun_induction echoString s with
  | case1 => exact iff_of_false Bool.false_ne_true not_stops_nil
  | case2 s => exact iff_of_true rfl (stops_zero s)
  | case3 =>
    refine iff_of_false Bool.false_ne_true ?_
    rw [stops_cons (by decide)]
    rintro ⟨u, v, h, -⟩
    simp at h
  | case4 _ c s x _ ih => rw [Option.isSome_map, ih, stops_escaped]
  | case5 _ c s _ _ _ ih => rw [Option.isSome_map, ih, stops_escaped, stops_dropWhile_isDigit]
  | case6 _ c s _ _ ih => rw [ih, stops_escaped]
  | case7 b s h0 hb ih => rw [Option.isSome_map, ih, stops_plain h0 hb]

example : echoString (literal "a\\n\\101\\\\" ++ [0]) = some (literal "a\nA\\") := by
  decide +kernel

/-! ### Lines and files -/

/-- A line that is echoed stops in the line. -/
def EchoStops (loc : Locale) (line : List UInt8) : Prop :=
  Ee.uniqueTest loc (cString line) (initStrings.map InitString.text) = 1 →
    Ee.compare loc false (cString line) InitString.echo.text → Stops (argument (line ++ [0]))

variable {loc : Locale}

theorem cString_append_zero (line : List UInt8) : cString (line ++ [0]) = cString line := by
  rw [cString, List.takeWhile_append]
  split_ifs with hall
  · rw [List.takeWhile_cons, if_neg (by simp), List.append_nil]
    exact ((List.takeWhile_sublist _).eq_of_length hall).symm
  · rfl

/-- Of all that a name can make the program do, only the echo can leave the line. -/
theorem obey_spec {string : List UInt8} (hs : 0 ∈ string) (s : Settings) (i : InitString) :
    ((obey string s i).isSome ↔ (i = .echo → Stops (argument string))) ∧
      ∀ r ∈ obey string s i, r.1 = i.apply (cString string) s := by
  have hword : Ee.nextWord (cString string) = cString (argument string) := by
    rw [cString_argument, Ee.nextWord, Ee.nextWord, cString_eq_self (zero_notMem_cString string)]
  have harg := zero_mem_argument hs
  obtain ⟨d, rest, hd⟩ := List.exists_cons_of_ne_nil (List.ne_nil_of_mem harg)
  cases i with
  | echo =>
    rw [obey, nextWord_eq hs, ← isSome_echoString]
    by_cases h0 : d = 0
    · have hstop : echoString (0 :: rest) = some [] := by
        rw [echoString.eq_def]
        rfl
      simp [hd, h0, hstop, InitString.apply]
    · cases hecho : echoString (d :: rest) <;> simp [hd, h0, hecho, InitString.apply]
  | printcommand =>
    have hcopy : stringAt (argument string) = some (cString (argument string)) := stringAt_of_mem harg
    rw [obey, nextWord_eq hs]
    simp [hcopy, InitString.apply, hword]
  | rightmargin =>
    rw [obey, nextWord_eq hs, InitString.apply, hword]
    by_cases h0 : d = 0
    · simp [hd, h0, cString, isDigit]
    · by_cases hdigit : isDigit d
      · simp [hd, h0, cString, hdigit, stringAt_of_mem (hd ▸ harg)]
      · simp [hd, h0, cString, hdigit]
  | _ => simp [obey, InitString.apply]

theorem initLine_spec (line : List UInt8) (s : Settings) :
    ((initLine loc (line ++ [0]) s).isSome ↔ EchoStops loc line) ∧
      ∀ r ∈ initLine loc (line ++ [0]) s, r.1 = Ee.initLine loc s (cString line) := by
  have hs : (0 : UInt8) ∈ line ++ [0] := by simp
  rw [initLine, uniqueTest_eq hs, findM?_eq hs, cString_append_zero, Ee.initLine]
  by_cases hunique : Ee.uniqueTest loc (cString line) (initStrings.map InitString.text) = 1
  · obtain ⟨j, hfind, hname⟩ := exists_find?_of_unique loc hunique
    have hecho : EchoStops loc line ↔ (j = .echo → Stops (argument (line ++ [0]))) := by
      rw [EchoStops, hname .echo]
      exact ⟨fun h hj => h hunique hj.symm, fun h _ hj => h hj.symm⟩
    have hobey := obey_spec hs s j
    rw [cString_append_zero, ← hecho] at hobey
    rw [if_neg (not_not_intro hunique), hfind]
    simpa [hunique] using hobey
  · simp [hunique, EchoStops]

theorem endLine_append (string : List UInt8) : endLine (string ++ [0]) =
    if 10 ∈ string then some (string.takeWhile (· ≠ 10) ++ [0]) else none := by
  induction string with
  | nil => rfl
  | cons b string ih =>
    rw [List.cons_append, endLine, ih, List.takeWhile_cons]
    by_cases hb : b = 10
    · simp [hb]
    · by_cases hmem : 10 ∈ string <;> simp [hb, Ne.symm hb, hmem]

/-- A line that is found, and read, without leaving it. -/
structure Readable (loc : Locale) (line : List UInt8) : Prop where
  newline : 10 ∉ line
  short : line.length < 511
  echo : EchoStops loc line

theorem exists_line_of_fgets {file : List UInt8} (h : 10 ∈ (fgets 512 file).1) :
    ∃ line rest, file = line ++ 10 :: rest ∧ 10 ∉ line ∧ line.length < 511 := by
  have hmem : 10 ∈ file := List.mem_of_mem_take h
  obtain ⟨line, rest, rfl, hline⟩ := List.eq_append_cons_of_mem hmem
  refine ⟨line, rest, rfl, hline, ?_⟩
  by_contra hlong
  have hmin : min (line.length + 1) (512 - 1) = 511 := by omega
  simp only [fgets, takeWhile_line hline, hmin] at h
  rw [List.take_append_of_le_length (by omega)] at h
  exact hline (List.mem_of_mem_take h)

theorem readFile_nil (z : Settings × List UInt8) : readFile loc z [] = some z := by
  rw [readFile, if_pos rfl]

theorem readFile_line {line : List UInt8} (hline : 10 ∉ line) (hshort : line.length < 511)
    (rest : List UInt8) (z : Settings × List UInt8) : readFile loc z (line ++ 10 :: rest) =
      (initLine loc (line ++ [0]) z.1).bind fun r => readFile loc (r.1, z.2 ++ r.2) rest := by
  rw [readFile, if_neg (by simp), fgets_line hline hshort, endLine_append, if_pos (by simp),
    takeWhile_line hline]
  rfl

/-- Without a newline in the buffer the search for it leaves the line. -/
theorem readFile_eq_none {file : List UInt8} (hfile : file ≠ []) (h : 10 ∉ (fgets 512 file).1)
    (z : Settings × List UInt8) : readFile loc z file = none := by
  rw [readFile, if_neg hfile, endLine_append, if_neg h]
  rfl

/-- A file of lines that are read within their bounds. -/
def ReadableFile (loc : Locale) (file : List UInt8) : Prop :=
  ∃ lines, file = fileOf lines ∧ ∀ line ∈ lines, Readable loc line

theorem readableFile_line_iff {line : List UInt8} (hline : 10 ∉ line) (rest : List UInt8) :
    ReadableFile loc (line ++ 10 :: rest) ↔ Readable loc line ∧ ReadableFile loc rest := by
  constructor
  · rintro ⟨lines, hfile, hlines⟩
    cases lines with
    | nil => simp [fileOf] at hfile
    | cons l lines =>
      obtain ⟨hl, hrest⟩ := List.forall_mem_cons.mp hlines
      rw [fileOf_cons] at hfile
      have htake := congrArg (List.takeWhile (· ≠ 10)) hfile
      rw [takeWhile_line hline, takeWhile_line hl.newline] at htake
      subst htake
      exact ⟨hl, lines, (List.cons_eq_cons.mp (List.append_cancel_left hfile)).2, hrest⟩
  · rintro ⟨hl, lines, rfl, hlines⟩
    exact ⟨line :: lines, (fileOf_cons line lines).symm, List.forall_mem_cons.mpr ⟨hl, hlines⟩⟩

/-- What is not an empty file has a first line, or no newline where it should be. -/
theorem ReadableFile.fgets {file : List UInt8} (h : ReadableFile loc file) (hfile : file ≠ []) :
    10 ∈ (Ee.fgets 512 file).1 := by
  obtain ⟨lines, rfl, hlines⟩ := h
  cases lines with
  | nil => exact absurd rfl hfile
  | cons line lines =>
    have hl := hlines line List.mem_cons_self
    rw [fileOf_cons, fgets_line hl.newline hl.short]
    simp

theorem isSome_readFile (loc : Locale) (z : Settings × List UInt8) (file : List UInt8) :
    (readFile loc z file).isSome ↔ ReadableFile loc file := by
  induction hn : file.length using Nat.strong_induction_on generalizing z file with
  | _ n ih =>
    by_cases hfile : file = []
    · subst hfile
      rw [readFile_nil]
      exact iff_of_true rfl ⟨[], rfl, by simp⟩
    by_cases hnewline : 10 ∈ (fgets 512 file).1
    · obtain ⟨line, rest, rfl, hline, hshort⟩ := exists_line_of_fgets hnewline
      have hinit : (initLine loc (line ++ [0]) z.1).isSome ↔ EchoStops loc line :=
        (initLine_spec line z.1).1
      rw [readFile_line hline hshort, readableFile_line_iff hline]
      cases hrun : initLine loc (line ++ [0]) z.1 with
      | none =>
        rw [hrun] at hinit
        exact iff_of_false Bool.false_ne_true fun h => absurd (hinit.mpr h.1.echo) Bool.false_ne_true
      | some r =>
        rw [hrun] at hinit
        have hread : Readable loc line := ⟨hline, hshort, hinit.mp rfl⟩
        rw [Option.bind_some, and_iff_right hread]
        refine ih rest.length ?_ _ rest rfl
        rw [← hn, List.length_append, List.length_cons]
        omega
    · rw [readFile_eq_none hfile hnewline]
      exact iff_of_false Bool.false_ne_true fun h => hnewline (h.fgets hfile)

/-- Where the lines are kept to, the settings are those of the reader of whole lines. -/
theorem readInit_of_readFile {z r : Settings × List UInt8} {file : List UInt8} {fuel : ℕ}
    (hfuel : file.length ≤ fuel) (h : readFile loc z file = some r) :
    readInit loc fuel file z.1 = some r.1 := by
  induction fuel generalizing z file with
  | zero =>
    obtain rfl := List.length_eq_zero_iff.mp (Nat.le_zero.mp hfuel)
    rw [readFile_nil] at h
    rw [readInit, Option.some.inj h]
  | succ fuel ih =>
    rw [readInit]
    by_cases hfile : file = []
    · subst hfile
      rw [readFile_nil] at h
      rw [if_pos rfl, Option.some.inj h]
    rw [if_neg hfile]
    by_cases hnewline : 10 ∈ (fgets 512 file).1
    · obtain ⟨line, rest, rfl, hline, hshort⟩ := exists_line_of_fgets hnewline
      rw [readFile_line hline hshort, Option.bind_eq_some_iff] at h
      obtain ⟨⟨s, out⟩, hrun, hrest⟩ := h
      have hs := (initLine_spec line z.1).2 _ hrun
      simp only [fgets_line hline hshort, takeWhile_line hline, List.mem_append, List.mem_singleton,
        or_true, if_true]
      rw [← hs]
      refine ih (z := (s, z.2 ++ out)) ?_ hrest
      rw [List.length_append, List.length_cons] at hfuel
      omega
    · rw [readFile_eq_none hfile hnewline] at h
      cases h

theorem isSome_foldlM_readFile (files : List (List UInt8)) (z : Settings × List UInt8) :
    (files.foldlM (readFile loc) z).isSome ↔ ∀ file ∈ files, ReadableFile loc file := by
  induction files generalizing z with
  | nil => simp
  | cons file files ih =>
    rw [List.foldlM_cons, List.forall_mem_cons, ← isSome_readFile loc z file]
    cases hread : readFile loc z file with
    | none => simp
    | some r => exact (ih r).trans (and_iff_right rfl).symm

/-- The files that there are, whatever their number, are read without leaving a line, and to their
end, exactly if each of them ends with a newline, its lines fit the buffer, and no echo ends with a
backslash that stands alone. -/
theorem isSome_eeInit_iff (loc : Locale) (lang : Option (List UInt8)) (files : List (List UInt8))
    (s : Settings) :
    (eeInit loc lang files s).isSome ↔ ∀ file ∈ files, ReadableFile loc file := by
  rw [← isSome_foldlM_readFile files (s, []), eeInit]
  cases files.foldlM (readFile loc) (s, []) with
  | none => rfl
  | some r =>
    rw [Option.bind_eq_bind, Option.bind_some]
    split_ifs <;> rfl

/-- A last line without newline, and a backslash at the end of what is echoed: behind the NUL that
ends the line the bytes of the buffer are read on. -/
theorem init_leaves_line : eeInit .posix none [literal "case"] .default = none ∧
    eeInit .posix none [literal "echo \\" ++ [10]] .default = none := by
  decide +kernel

theorem foldlM_readInit {files : List (List UInt8)} {z r : Settings × List UInt8}
    (h : files.foldlM (readFile loc) z = some r) :
    files.foldlM (fun s file => readInit loc file.length file s) z.1 = some r.1 := by
  induction files generalizing z with
  | nil => exact congrArg some (congrArg Prod.fst (Option.some.inj h))
  | cons file files ih =>
    rw [List.foldlM_cons, Option.bind_eq_bind, Option.bind_eq_some_iff] at h
    obtain ⟨z', hfile, hfiles⟩ := h
    rw [List.foldlM_cons, readInit_of_readFile (Nat.le_refl _) hfile]
    exact ih hfiles

/-- The settings that come out are those of the reader of whole lines. -/
theorem eeInit_settings {lang : Option (List UInt8)} {files : List (List UInt8)}
    {s : Settings} {r : Settings × List UInt8} (h : eeInit loc lang files s = some r) :
    Ee.eeInit loc lang files s = some r.1 := by
  rw [eeInit, Option.bind_eq_bind, Option.bind_eq_some_iff] at h
  obtain ⟨⟨s', out⟩, hfiles, hlang⟩ := h
  rw [Ee.eeInit, foldlM_readInit hfiles, Option.bind_eq_bind, Option.bind_some]
  dsimp only at hlang
  split_ifs at hlang ⊢
  · rw [← Option.some.inj hlang]
    rfl
  · rw [← Option.some.inj hlang]
    rfl

end BsdAdditions.Ee.InitFile
