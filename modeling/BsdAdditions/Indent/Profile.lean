import BsdAdditions.Indent.Args

/-! The profiles: the words that `scan_profile` finds in them, and where they are the words of the text
without its comments. -/
namespace BsdAdditions.Indent

/-! ### The words -/

/-- The text without its comments, if the last of them is ended; `true` is inside of one. -/
def deleteComments : Bool → List UInt8 → Option (List UInt8)
  | false, [] => some []
  | true, [] => none
  | false, 47 :: 42 :: text => deleteComments true text
  | false, c :: text => (deleteComments false text).map (c :: ·)
  | true, 42 :: 47 :: text => deleteComments false text
  | true, _ :: text => deleteComments true text

/-- The maximal runs of bytes that are not blank. -/
def words (text : List UInt8) : List (List UInt8) := (text.splitOnP isSpace).filter (· ≠ [])

/-- The words with which `scan_profile` calls `set_option`, as long as that returns; none if it writes
outside of its buffer. -/
def profileCalls : ℕ → List UInt8 → Option (List (List UInt8))
  | 0, _ => some []
  | n + 1, text =>
    (scanWord text [] 0).bind fun (word, rest) =>
      if word = [] then some []
      else (putByte word 0).bind fun _ => (profileCalls n rest).map (word :: ·)

/-- The profile is read as the words of what is left of it without comments, inside of the buffer. -/
structure ReadsProfile (text : List UInt8) : Prop where
  calls : 0 ∉ text → ∀ kept, deleteComments false text = some kept →
    profileCalls (text.length + 1) text = some (words kept)
  buffer : profileCalls (text.length + 1) text ≠ none

theorem words_of_forall {w : List UInt8} (hw : ∀ c ∈ w, isSpace c = false) :
    words w = if w = [] then [] else [w] := by
  rw [words, List.splitOnP_eq_singleton hw]
  by_cases h : w = [] <;> simp [h]

theorem words_append_blank {w rest : List UInt8} {c : UInt8} (hc : isSpace c) :
    words (w ++ c :: rest) = words w ++ words rest := by
  rw [words, List.splitOnP_append_cons w rest hc, List.filter_append]
  rfl

/-- `scan_profile` is the calls in turn. -/
theorem scanProfile_eq (lib : Library) {n : ℕ} {text : List UInt8} {st : Settings}
    {ws : List (List UInt8)} (h : profileCalls n text = some ws) : scanProfile lib n text st =
      ws.foldlM (fun st w => setOption lib (w.take 1 ++ (w.drop 1).takeWhile (· ≠ 0)) st) st := by
  induction n generalizing text st ws with
  | zero =>
    cases h
    rfl
  | succ n ih =>
    rw [profileCalls] at h
    rw [scanProfile]
    cases hscan : scanWord text [] 0 with
    | none => simp [hscan] at h
    | some r =>
      obtain ⟨word, rest⟩ := r
      rw [hscan, Option.bind_some] at h
      simp only at h ⊢
      split at h
      · next hnil =>
        cases h
        rw [if_pos hnil]
        rfl
      · next hnil =>
        cases hput : putByte word 0 with
        | none => simp [hput] at h
        | some buf =>
          rw [hput, Option.bind_some] at h
          obtain ⟨ws', hws, rfl⟩ := Option.map_eq_some_iff.mp h
          rw [if_neg hnil, if_neg (by simp), List.foldlM_cons]
          exact bind_congr fun st' => ih hws

/-! ### The scan as one recursion -/

/-- The end of a word, which an empty one has not. -/
def endWord (word : List UInt8) (ws : Option (List (List UInt8))) : Option (List (List UInt8)) :=
  if word = [] then some [] else (putByte word 0).bind fun _ => ws.map (word :: ·)

/-- The words from somewhere in a word on. -/
def callsFrom : List UInt8 → List UInt8 → ℕ → Option (List (List UInt8))
  | [], buf, _ => endWord buf (some [])
  | c :: cs, buf, comment =>
    if c = byte '*' ∧ comment = 0 ∧ buf.getLast? = some (byte '/') then
      (putByte buf c).bind fun buf' => callsFrom cs buf' buf.length
    else if c = byte '/' ∧ comment ≠ 0 ∧ buf.getLast? = some (byte '*') then
      callsFrom cs (buf.take (comment - 1)) 0
    else if isSpace c then
      if buf ≠ [] ∧ comment = 0 then endWord buf (callsFrom cs [] 0) else callsFrom cs buf comment
    else (putByte buf c).bind fun buf' => callsFrom cs buf' comment

theorem callsFrom_nil (buf : List UInt8) (comment : ℕ) : callsFrom [] buf comment = endWord buf (some []) := rfl

theorem callsFrom_cons (c : UInt8) (cs buf : List UInt8) (comment : ℕ) : callsFrom (c :: cs) buf comment =
    if c = byte '*' ∧ comment = 0 ∧ buf.getLast? = some (byte '/') then
      (putByte buf c).bind fun buf' => callsFrom cs buf' buf.length
    else if c = byte '/' ∧ comment ≠ 0 ∧ buf.getLast? = some (byte '*') then
      callsFrom cs (buf.take (comment - 1)) 0
    else if isSpace c then
      if buf ≠ [] ∧ comment = 0 then endWord buf (callsFrom cs [] 0) else callsFrom cs buf comment
    else (putByte buf c).bind fun buf' => callsFrom cs buf' comment := rfl

theorem profileCalls_nil (n : ℕ) : profileCalls n [] = some [] := by
  cases n <;> rfl

/-- Every word takes a byte of the text at least, so that there are as many rounds as are needed. -/
theorem scanWord_bind_eq {n : ℕ} {text : List UInt8} (hn : text.length ≤ n) (buf : List UInt8) (comment : ℕ) :
    ((scanWord text buf comment).bind fun r => endWord r.1 (profileCalls n r.2)) =
      callsFrom text buf comment := by
  induction text generalizing n buf comment with
  | nil =>
    rw [scanWord, Option.bind_some, profileCalls_nil]
    rfl
  | cons c cs ih =>
    rw [List.length_cons] at hn
    obtain ⟨m, rfl⟩ : ∃ m, n = m + 1 := ⟨n - 1, by omega⟩
    have hcs : cs.length ≤ m + 1 := by omega
    rw [scanWord, callsFrom_cons]
    split_ifs
    · rw [Option.bind_assoc]
      simp only [ih hcs]
    · exact ih hcs _ _
    · have hrest : profileCalls (m + 1) cs = callsFrom cs [] 0 := ih (Nat.le_of_succ_le_succ hn) [] 0
      rw [Option.bind_some, hrest]
    · exact ih hcs _ _
    · rw [Option.bind_assoc]
      simp only [ih hcs]

theorem profileCalls_eq (text : List UInt8) : profileCalls (text.length + 1) text = callsFrom text [] 0 :=
  scanWord_bind_eq le_rfl [] 0

/-! ### Where the comments are seen -/

/-- Where a scan is: `kept` is what there is of the word, `inside` the comment without its blanks. -/
inductive Spot where
  | text (kept : List UInt8)
  | comment (kept inside : List UInt8)

/-- In the text no star follows a slash with a deleted comment between them. In a comment no slash
follows a star, that of its start or one with blanks between them, unless it ends the comment. -/
def Tame : Spot → List UInt8 → Prop
  | _, [] => True
  | .text kept, 47 :: 42 :: text => Tame (.comment kept [47, 42]) text
  | .text kept, c :: text =>
    ¬ (c = 42 ∧ kept.getLast? = some 47) ∧ Tame (.text (if isSpace c then [] else kept ++ [c])) text
  | .comment kept _, 42 :: 47 :: text => Tame (.text kept) text
  | .comment kept inside, c :: text =>
    ¬ (c = 47 ∧ inside.getLast? = some 42) ∧
      Tame (.comment kept (if isSpace c then inside else inside ++ [c])) text

/-- Every word has room in the buffer, with the comments in it and the byte that ends it. -/
def Fits : Spot → List UInt8 → Prop
  | .text kept, [] => kept.length < BUFSIZ
  | .comment kept inside, [] => kept.length + inside.length < BUFSIZ
  | .text kept, 47 :: 42 :: text => kept.length + 1 < BUFSIZ ∧ Fits (.comment kept [47, 42]) text
  | .text kept, c :: text =>
    kept.length < BUFSIZ ∧ Fits (.text (if isSpace c then [] else kept ++ [c])) text
  | .comment kept inside, 42 :: 47 :: text =>
    kept.length + inside.length < BUFSIZ ∧ Fits (.text kept) text
  | .comment kept inside, c :: text =>
    (isSpace c ∨ kept.length + inside.length < BUFSIZ) ∧
      Fits (.comment kept (if isSpace c then inside else inside ++ [c])) text

def Spot.kept : Spot → List UInt8
  | .text kept => kept
  | .comment kept _ => kept

def Spot.inComment : Spot → Bool
  | .text _ => false
  | .comment _ _ => true

/-- The buffer of `scan_profile`. -/
def Spot.buf : Spot → List UInt8
  | .text kept => kept
  | .comment kept inside => kept ++ inside

/-- Its variable `comment`. -/
def Spot.mark : Spot → ℕ
  | .text _ => 0
  | .comment kept _ => kept.length + 1

/-! ### The steps of the scan -/

section Steps
variable {text buf kept inside : List UInt8} {c : UInt8} {comment : ℕ} {ws : List (List UInt8)}

theorem putByte_bind_eq_some_iff {f : List UInt8 → Option (List (List UInt8))} :
    (putByte buf c).bind f = some ws ↔ buf.length < BUFSIZ ∧ f (buf ++ [c]) = some ws := by
  unfold putByte
  by_cases h : buf.length < BUFSIZ <;> simp [h]

/-- The word that is ended, if it is one. -/
theorem endWord_eq_some_iff {rest : Option (List (List UInt8))} (hbuf : buf ≠ []) :
    endWord buf rest = some ws ↔ buf.length < BUFSIZ ∧ ∃ ws', rest = some ws' ∧ ws = buf :: ws' := by
  rw [endWord, if_neg hbuf, putByte_bind_eq_some_iff, Option.map_eq_some_iff]
  simp only [eq_comm]

theorem callsFrom_nil_eq_some_iff : callsFrom [] buf comment = some ws ↔
    buf.length < BUFSIZ ∧ ws = if buf = [] then [] else [buf] := by
  rw [callsFrom_nil]
  by_cases h : buf = []
  · simp [h, endWord, BUFSIZ, eq_comm]
  · rw [endWord_eq_some_iff h, if_neg h]
    simp

theorem callsFrom_open_eq_some_iff : callsFrom (47 :: 42 :: text) kept 0 = some ws ↔
    kept.length + 1 < BUFSIZ ∧ callsFrom text (kept ++ [47, 42]) (kept.length + 1) = some ws := by
  have hstar : (47 : UInt8) ≠ byte '*' := by decide
  have hblank : isSpace 47 = false := by decide
  rw [callsFrom_cons, if_neg (by simp [hstar]), if_neg (by simp), if_neg (by simp [hblank]),
    putByte_bind_eq_some_iff, callsFrom_cons, if_pos (by simp [byte]), putByte_bind_eq_some_iff,
    List.append_assoc, List.length_append]
  constructor
  · rintro ⟨-, hlen, h⟩
    exact ⟨hlen, h⟩
  · rintro ⟨hlen, h⟩
    exact ⟨by omega, hlen, h⟩

theorem callsFrom_text_eq_some_iff (hc : ¬ (c = 42 ∧ kept.getLast? = some 47)) (hblank : isSpace c = false) :
    callsFrom (c :: text) kept 0 = some ws ↔
      kept.length < BUFSIZ ∧ callsFrom text (kept ++ [c]) 0 = some ws := by
  rw [callsFrom_cons, if_neg (fun h => hc ⟨h.1, h.2.2⟩), if_neg (by simp), if_neg (by simp [hblank]),
    putByte_bind_eq_some_iff]

theorem callsFrom_blank_eq_some_iff (hblank : isSpace c) : callsFrom (c :: text) kept 0 = some ws ↔
    kept.length < BUFSIZ ∧ ∃ ws', callsFrom text [] 0 = some ws' ∧
      ws = (if kept = [] then [] else [kept]) ++ ws' := by
  have hstar : c ≠ byte '*' := by
    rintro rfl
    exact absurd hblank (by decide)
  rw [callsFrom_cons, if_neg (fun h => hstar h.1), if_neg (by simp), if_pos hblank]
  by_cases h : kept = []
  · simp [h, BUFSIZ]
  · rw [if_pos ⟨h, rfl⟩, if_neg h, endWord_eq_some_iff h]
    rfl

theorem callsFrom_close_eq_some_iff :
    callsFrom (42 :: 47 :: text) (kept ++ inside) (kept.length + 1) = some ws ↔
      kept.length + inside.length < BUFSIZ ∧ callsFrom text kept 0 = some ws := by
  have hslash : (42 : UInt8) ≠ byte '/' := by decide
  have hblank : isSpace 42 = false := by decide
  have hopen : (47 : UInt8) ≠ byte '*' := by decide
  rw [callsFrom_cons, if_neg (by simp), if_neg (by simp [hslash]), if_neg (by simp [hblank]),
    putByte_bind_eq_some_iff, callsFrom_cons, if_neg (by simp), if_pos (by simp [byte]), List.length_append,
    List.append_assoc, Nat.add_sub_cancel, List.take_left]

theorem callsFrom_comment_eq_some_iff (hne : inside ≠ []) (hc : ¬ (c = 47 ∧ inside.getLast? = some 42))
    (hblank : isSpace c = false) :
    callsFrom (c :: text) (kept ++ inside) (kept.length + 1) = some ws ↔
      kept.length + inside.length < BUFSIZ ∧
        callsFrom text (kept ++ (inside ++ [c])) (kept.length + 1) = some ws := by
  have hlast : (kept ++ inside).getLast? = inside.getLast? := by
    rw [List.getLast?_append, List.getLast?_eq_some_getLast hne, Option.some_or]
  rw [callsFrom_cons, if_neg (by simp), if_neg (fun h => hc ⟨h.1, hlast.symm.trans h.2.2⟩),
    if_neg (by simp [hblank]), putByte_bind_eq_some_iff, List.length_append, List.append_assoc]

theorem callsFrom_comment_blank (hblank : isSpace c) :
    callsFrom (c :: text) buf (comment + 1) = callsFrom text buf (comment + 1) := by
  have hslash : c ≠ byte '/' := by
    rintro rfl
    exact absurd hblank (by decide)
  rw [callsFrom_cons, if_neg (by simp), if_neg (fun h => hslash h.1), if_pos hblank, if_neg (by simp)]

end Steps

/-- No byte of the word is blank, and a comment has a start. -/
def Spot.Valid : Spot → Prop
  | .text kept => ∀ c ∈ kept, isSpace c = false
  | .comment kept inside => (∀ c ∈ kept, isSpace c = false) ∧ inside ≠ []

/-- The scan writes inside of the buffer as long as the words fit, and finds those of the text. -/
structure Scans (spot : Spot) (text : List UInt8) : Prop where
  fits : (∃ ws, callsFrom text spot.buf spot.mark = some ws) ↔ Fits spot text
  words : ∀ ws rest, callsFrom text spot.buf spot.mark = some ws →
    deleteComments spot.inComment text = some rest → ws = Indent.words (spot.kept ++ rest)

/-- A step that writes at most one byte of the word or of a comment. -/
theorem Scans.of_step {spot spot' : Spot} {text text' : List UInt8} {P : Prop}
    (h : Scans spot' text')
    (hcalls : ∀ ws, callsFrom text spot.buf spot.mark = some ws ↔
      P ∧ callsFrom text' spot'.buf spot'.mark = some ws)
    (hfits : Fits spot text ↔ P ∧ Fits spot' text')
    (hrest : ∀ rest, deleteComments spot.inComment text = some rest →
      ∃ rest', deleteComments spot'.inComment text' = some rest' ∧ spot'.kept ++ rest' = spot.kept ++ rest) :
    Scans spot text := by
  constructor
  · rw [hfits, ← h.fits]
    simp only [hcalls, exists_and_left]
  · intro ws rest hws hdel
    obtain ⟨rest', hdel', hkept⟩ := hrest rest hdel
    rw [← hkept]
    exact h.words ws rest' ((hcalls ws).mp hws).2 hdel'

theorem Scans.nil {spot : Spot} (hv : spot.Valid) : Scans spot [] := by
  cases spot with
  | text kept =>
    constructor
    · simp [callsFrom_nil_eq_some_iff, Fits, Spot.buf]
    · intro ws rest hws hdel
      cases hdel
      rw [List.append_nil, Spot.kept, words_of_forall hv]
      exact (callsFrom_nil_eq_some_iff.mp hws).2
  | comment kept inside =>
    constructor
    · simp [callsFrom_nil_eq_some_iff, Fits, Spot.buf]
    · intro ws rest hws hdel
      cases hdel

-- their equations, for all the proofs below
attribute [local simp] deleteComments Tame Fits

section Bytes
variable {kept inside text : List UInt8} {c : UInt8}

/-- A byte that is kept, since no comment starts at it. -/
theorem exists_of_deleteComments_text (hopen : ∀ text', c = 47 → text = 42 :: text' → False)
    {rest : List UInt8} (h : deleteComments false (c :: text) = some rest) :
    ∃ rest', deleteComments false text = some rest' ∧ rest = c :: rest' := by
  rw [deleteComments] at h
  · obtain ⟨rest', hrest', rfl⟩ := Option.map_eq_some_iff.mp h
    exact ⟨rest', hrest', rfl⟩
  · exact hopen

theorem fits_text_iff (hopen : ∀ text', c = 47 → text = 42 :: text' → False) :
    Fits (.text kept) (c :: text) ↔
      kept.length < BUFSIZ ∧ Fits (.text (if isSpace c then [] else kept ++ [c])) text := by
  rw [Fits]
  exact hopen

theorem fits_comment_iff (hclose : ∀ text', c = 42 → text = 47 :: text' → False) :
    Fits (.comment kept inside) (c :: text) ↔ (isSpace c ∨ kept.length + inside.length < BUFSIZ) ∧
      Fits (.comment kept (if isSpace c then inside else inside ++ [c])) text := by
  rw [Fits]
  exact hclose

theorem deleteComments_comment (hclose : ∀ text', c = 42 → text = 47 :: text' → False) :
    deleteComments true (c :: text) = deleteComments true text := by
  rw [deleteComments]
  exact hclose

end Bytes

/-- A blank ends the word. -/
theorem Scans.blank {kept text : List UInt8} {c : UInt8} (hv : (Spot.text kept).Valid) (hblank : isSpace c)
    (h : Scans (.text []) text) : Scans (.text kept) (c :: text) := by
  have hopen : ∀ text', c = 47 → text = 42 :: text' → False := by
    rintro text' rfl -
    exact absurd hblank (by decide)
  constructor
  · rw [fits_text_iff hopen, if_pos hblank, ← h.fits]
    simp [Spot.buf, Spot.mark, callsFrom_blank_eq_some_iff hblank]
  · intro ws rest hws hdel
    obtain ⟨-, ws', hws', rfl⟩ := (callsFrom_blank_eq_some_iff hblank).mp hws
    obtain ⟨rest', hdel', rfl⟩ := exists_of_deleteComments_text hopen hdel
    rw [Spot.kept, words_append_blank hblank, words_of_forall hv, h.words ws' rest' hws' hdel']
    rfl

theorem Tame.scans {spot : Spot} {text : List UInt8} (h : Tame spot text) (hv : spot.Valid) : Scans spot text := by
  fun_induction Tame spot text with
  | case1 spot => exact Scans.nil hv
  | case2 kept text ih =>
    apply (ih h ⟨hv, by simp⟩).of_step
    · intro ws
      exact callsFrom_open_eq_some_iff
    · rfl
    · intro rest hrest
      exact ⟨rest, hrest, rfl⟩
  | case3 kept c text hopen ih =>
    obtain ⟨hc, h⟩ := h
    cases hblank : isSpace c with
    | true =>
      rw [hblank, if_pos rfl] at h ih
      exact Scans.blank hv hblank (ih h nofun)
    | false =>
      rw [hblank, if_neg nofun] at h ih
      have hvalid : (Spot.text (kept ++ [c])).Valid := by
        intro b hb
        rcases List.mem_append.mp hb with hb | hb
        · exact hv b hb
        · rwa [List.mem_singleton.mp hb]
      apply (ih h hvalid).of_step
      · intro ws
        exact callsFrom_text_eq_some_iff hc hblank
      · rw [fits_text_iff hopen, hblank, if_neg nofun]
        rfl
      · intro rest hrest
        obtain ⟨rest', hrest', rfl⟩ := exists_of_deleteComments_text hopen hrest
        exact ⟨rest', hrest', by simp [Spot.kept]⟩
  | case4 kept inside text ih =>
    apply (ih h hv.1).of_step
    · intro ws
      exact callsFrom_close_eq_some_iff
    · rfl
    · intro rest hrest
      exact ⟨rest, hrest, rfl⟩
  | case5 kept inside c text hclose ih =>
    obtain ⟨hc, h⟩ := h
    have hrest : ∀ rest, deleteComments true (c :: text) = some rest →
        ∃ rest', deleteComments true text = some rest' ∧ kept ++ rest' = kept ++ rest := by
      intro rest hrest
      exact ⟨rest, (deleteComments_comment hclose).symm.trans hrest, rfl⟩
    cases hblank : isSpace c with
    | true =>
      rw [hblank, if_pos rfl] at h ih
      apply (ih h hv).of_step (P := True)
      · intro ws
        rw [true_and]
        exact Eq.congr_left (callsFrom_comment_blank hblank)
      · rw [fits_comment_iff hclose, hblank, if_pos rfl]
        simp
      · exact hrest
    | false =>
      rw [hblank, if_neg nofun] at h ih
      apply (ih h ⟨hv.1, by simp⟩).of_step
      · intro ws
        exact callsFrom_comment_eq_some_iff hv.2 hc hblank
      · rw [fits_comment_iff hclose, hblank, if_neg nofun]
        simp
      · exact hrest

/-- Where the scan and the text agree on the comments, the profile is read as its words if and only if
they have room in the buffer. -/
theorem readsProfile_iff_fits {text : List UInt8} (h : Tame (.text []) text) :
    ReadsProfile text ↔ Fits (.text []) text := by
  have hscans := h.scans nofun
  constructor
  · intro hread
    have hne := hread.buffer
    rw [profileCalls_eq] at hne
    exact hscans.fits.mp (Option.ne_none_iff_exists'.mp hne)
  · intro hfits
    obtain ⟨ws, hws⟩ := hscans.fits.mpr hfits
    have hcalls : profileCalls (text.length + 1) text = some ws := (profileCalls_eq text).trans hws
    constructor
    · intro _ kept hkept
      rw [hcalls, hscans.words ws kept hws hkept]
      rfl
    · rw [hcalls]
      exact Option.some_ne_none ws

theorem readsProfile_iff_fits_comment : Tame (.text []) (bytes "-v/* */ -bap") ∧
    (ReadsProfile (bytes "-v/* */ -bap") ↔ Fits (.text []) (bytes "-v/* */ -bap")) := by
  have h : Tame (.text []) (bytes "-v/* */ -bap") := by
    simp [bytes, isSpace]
  exact ⟨h, readsProfile_iff_fits h⟩

/-- A comment that a slash follows at once is ended by it, so that its text is read as words; the star
and the slash that end one may have a blank between them; the rest of a word before a comment and the
star behind it start another; and the buffer is too small for 1024 bytes. -/
theorem profile_misread :
    deleteComments false (bytes "/*/ -v */ -i4") = some (bytes " -i4") ∧
    profileCalls 14 (bytes "/*/ -v */ -i4") = some [bytes "-v", bytes "*/", bytes "-i4"] ∧
    deleteComments false (bytes "/* * / -v */") = some [] ∧
    profileCalls 13 (bytes "/* * / -v */") = some [bytes "-v", bytes "*/"] ∧
    deleteComments false (bytes "-//**/*v -i4") = some (bytes "-/*v -i4") ∧
    profileCalls 13 (bytes "-//**/*v -i4") = some [bytes "-/*v-i4"] ∧
    profileCalls 1025 (List.replicate 1024 120) = none ∧
    ¬ ReadsProfile (bytes "/*/ -v */ -i4") := by
  have hcalls : profileCalls 14 (bytes "/*/ -v */ -i4") = some [bytes "-v", bytes "*/", bytes "-i4"] := by
    decide +kernel
  refine ⟨by decide +kernel, hcalls, by decide +kernel, by decide +kernel, by decide +kernel,
    by decide +kernel, by decide +kernel, ?_⟩
  intro h
  have hwords := h.calls (by decide +kernel) (bytes " -i4") (by decide +kernel)
  exact absurd (hcalls.symm.trans hwords) (by decide +kernel)

end BsdAdditions.Indent
