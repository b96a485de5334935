import BsdAdditions.Common.CString
import BsdAdditions.Common.Overwrite
import BsdAdditions.Common.Prog

/-! Names of files with a home directory in front and with variables of the environment. -/
namespace BsdAdditions.Ee.ResolveName
open Common

/-! ### The program -/

/-- What the system knows of the user, of other users, and of the environment. -/
structure Host where
  home : Option CString
  homeOf : List UInt8 → Option CString
  getenv : List UInt8 → Option CString

/-- The name behind a home directory, or none where the name is given back as it is. -/
def withHome (host : Host) : List UInt8 → Option (List UInt8)
  | 126 :: 47 :: rest => host.home.map fun dir => dir.1 ++ 47 :: rest
  | 126 :: rest =>
    if 47 ∈ rest then
      (host.homeOf (rest.takeWhile (· ≠ 47))).map fun dir => dir.1 ++ rest.dropWhile (· ≠ 47)
    else none
  | name => some name

/-- The two buffers, and how much of the first one is in use. -/
structure Buffers where
  longBuffer : List UInt8
  shortBuffer : List UInt8
  index : ℕ

def store (buffer : List UInt8) (i : ℕ) (b : UInt8) : Except Stop (List UInt8) :=
  if i < buffer.length then .ok (buffer.set i b) else .error .fault

/-- The loops that copy bytes of the name, up to a byte of a kind and while there is room. -/
def copyWhile (stop : UInt8 → Bool) (limit : ℕ) (buffer : List UInt8) (i : ℕ) :
    List UInt8 → Except Stop (List UInt8 × ℕ × List UInt8)
  | [] => .ok (buffer, i, [])
  | b :: tmp =>
    if stop b = false ∧ i < limit then do copyWhile stop limit (← store buffer i b) (i + 1) tmp
    else .ok (buffer, i, b :: tmp)

def strcpy (buffer : List UInt8) (i : ℕ) : List UInt8 → Except Stop (List UInt8)
  | [] => store buffer i 0
  | b :: string => do strcpy (← store buffer i b) (i + 1) string

def stringIn (buffer : List UInt8) : Except Stop (List UInt8) :=
  (stringAt buffer).elim (.error .fault) .ok

def closes (b : UInt8) : Bool := b == 125

def endsName (b : UInt8) : Bool := b == 47 || b == 36

/-- The name of a variable goes to the short buffer. -/
def readName (shortBuffer : List UInt8) : List UInt8 → Except Stop (List UInt8 × ℕ × List UInt8)
  | 123 :: tmp => do
    let (shortBuffer, counter, tmp) ← copyWhile closes 128 shortBuffer 0 tmp
    pure (shortBuffer, counter, if tmp.head? = some 125 then tmp.tail else tmp)
  | tmp => copyWhile endsName 128 shortBuffer 0 tmp

/-- One variable, from its dollar sign on. -/
def substitute (getenv : List UInt8 → Option CString) (s : Buffers) (startOfVar : List UInt8) :
    Except Stop (Buffers × List UInt8) := do
  let (shortBuffer, counter, tmp) ← readName s.shortBuffer startOfVar.tail
  let shortBuffer ← store shortBuffer counter 0
  match getenv (← stringIn shortBuffer) with
  | some value =>
    let offset := value.1.length
    let longBuffer ← (if offset + s.index < 1024 then strcpy s.longBuffer s.index value.1
      else pure s.longBuffer)
    pure (⟨longBuffer, shortBuffer, s.index + offset⟩, tmp)
  | none =>
    let written := startOfVar.take (startOfVar.length - tmp.length)
    let (longBuffer, index, _) ← copyWhile (fun _ => false) 1024 s.longBuffer s.index written
    pure (⟨longBuffer, shortBuffer, index⟩, tmp)

def expandLoop (getenv : List UInt8 → Option CString) :
    ℕ → Buffers → List UInt8 → Except Stop Buffers
  | 0, _, _ => .error .fuel
  | fuel + 1, s, tmp =>
    if tmp ≠ [] ∧ s.index < 1024 then do
      let (longBuffer, index, tmp) ← copyWhile (· == 36) 1024 s.longBuffer s.index tmp
      let s := { s with longBuffer, index }
      let (s, tmp) ← (if tmp.head? = some 36 ∧ index < 1024 then substitute getenv s tmp
        else pure (s, tmp))
      expandLoop getenv fuel s tmp
    else .ok s

/-- The buffers are given with whatever they hold before. -/
def resolveName (host : Host) (fuel : ℕ) (longBuffer shortBuffer : List UInt8) (name : List UInt8) :
    Except Stop (List UInt8) :=
  match withHome host name with
  | none => .ok name
  | some buffer =>
    if 36 ∈ buffer then do
      let s ← expandLoop host.getenv fuel ⟨longBuffer, shortBuffer, 0⟩ buffer
      if s.index = 1024 then pure buffer
      else stringIn (← store s.longBuffer s.index 0)
    else .ok buffer

/-! ### What it is for -/

/-- A byte that stands for itself, or a variable as it is written and its name. -/
inductive Piece where
  | byte (b : UInt8)
  | var (written name : List UInt8)

/-- The name behind a dollar sign, and the number of bytes that it takes up with its braces. A brace
that is not closed goes to the end. -/
def variableAt : List UInt8 → List UInt8 × ℕ
  | 123 :: rest =>
    let name := rest.takeWhile fun b => !closes b
    (name, 1 + name.length + if name.length < rest.length then 1 else 0)
  | rest =>
    let name := rest.takeWhile fun b => !endsName b
    (name, name.length)

def pieces : List UInt8 → List Piece
  | [] => []
  | b :: rest =>
    if b = 36 then
      .var (36 :: rest.take (variableAt rest).2) (variableAt rest).1 :: pieces (rest.drop (variableAt rest).2)
    else .byte b :: pieces rest
termination_by name => name.length

def Piece.expand (getenv : List UInt8 → Option CString) : Piece → List UInt8
  | .byte b => [b]
  | .var written name => (getenv name).elim written (·.1)

def expanded (getenv : List UInt8 → Option CString) (name : List UInt8) : List UInt8 :=
  (pieces name).flatMap (Piece.expand getenv)

/-- What the name stands for, if it is short enough. -/
def resolved (getenv : List UInt8 → Option CString) (buffer : List UInt8) : List UInt8 :=
  if (expanded getenv buffer).length < 1024 then expanded getenv buffer else buffer

/-- A piece at an index of the long buffer: its name has room in the short one, and its value does
not go beyond the end. -/
def Piece.Fits (getenv : List UInt8 → Option CString) (i : ℕ) : Piece → Prop
  | .byte _ => True
  | .var _ name => name.length < 128 ∧ ∀ value ∈ getenv name, i + value.1.length ≤ 1024

/-- All pieces fit up to the one that fills the buffer. -/
def FitsFrom (getenv : List UInt8 → Option CString) : ℕ → List Piece → Prop
  | _, [] => True
  | i, p :: ps => i < 1024 → p.Fits getenv i ∧ FitsFrom getenv (i + (p.expand getenv).length) ps

/-! ### The loops -/

theorem store_of_lt {buffer : List UInt8} {i : ℕ} (h : i < buffer.length) (b : UInt8) :
    store buffer i b = .ok (buffer.set i b) := if_pos h

theorem set_eq_overwrite {buffer : List UInt8} {i : ℕ} (h : i < buffer.length) (b : UInt8) :
    buffer.set i b = overwrite buffer i [b] := by
  have hone : overwrite (buffer.set i b) (i + 1) [] = overwrite buffer i [b] := overwrite_set h
  rw [← hone, overwrite_nil]

/-- What such a loop copies. -/
def copied (stop : UInt8 → Bool) (room : ℕ) (tmp : List UInt8) : List UInt8 :=
  (tmp.takeWhile fun b => !stop b).take room

theorem copyWhile_eq (stop : UInt8 → Bool) {limit : ℕ} {buffer : List UInt8}
    (hlimit : limit ≤ buffer.length) (i : ℕ) (tmp : List UInt8) : copyWhile stop limit buffer i tmp =
      .ok (overwrite buffer i (copied stop (limit - i) tmp), i + (copied stop (limit - i) tmp).length,
        tmp.drop (copied stop (limit - i) tmp).length) := by
  induction tmp generalizing buffer i with
  | nil => simp [copyWhile, copied]
  | cons b tmp ih =>
    rw [copyWhile]
    by_cases h : stop b = false ∧ i < limit
    · have hcopied : copied stop (limit - i) (b :: tmp) = b :: copied stop (limit - (i + 1)) tmp := by
        rw [copied, List.takeWhile_cons, if_pos (by simp [h.1]),
          show limit - i = limit - (i + 1) + 1 by omega, List.take_succ_cons, copied]
      have hlen : (copied stop (limit - (i + 1)) tmp).length ≤ limit - (i + 1) :=
        List.length_take_le _ _
      rw [if_pos h, store_of_lt (by omega), hcopied, ← overwrite_set (by omega)]
      refine (ih (by simpa using hlimit) (i + 1)).trans ?_
      simp only [List.length_cons, List.drop_succ_cons, Nat.add_assoc, Nat.add_comm 1]
    · have hcopied : copied stop (limit - i) (b :: tmp) = [] := by
        rw [copied, List.takeWhile_cons]
        split_ifs with hb
        · have hfull : limit - i = 0 := by
            rw [Bool.not_eq_true'] at hb
            have := not_and.mp h hb
            omega
          rw [hfull, List.take_zero]
        · exact List.take_nil
      rw [if_neg h, hcopied, overwrite_nil]
      rfl

theorem strcpy_eq {buffer : List UInt8} {i : ℕ} {string : List UInt8}
    (h : i + string.length < buffer.length) :
    strcpy buffer i string = .ok (overwrite buffer i (string ++ [0])) := by
  induction string generalizing buffer i with
  | nil =>
    have hlt : i < buffer.length := h
    rw [strcpy, store_of_lt hlt, set_eq_overwrite hlt, List.nil_append]
  | cons b string ih =>
    rw [List.length_cons] at h
    rw [strcpy, store_of_lt (by omega), List.cons_append, ← overwrite_set (by simp; omega)]
    exact ih (by rw [List.length_set]; omega)

theorem drop_length_takeWhile (p : UInt8 → Bool) (l : List UInt8) :
    l.drop (l.takeWhile p).length = l.dropWhile p := by
  have hsplit := List.takeWhile_append_dropWhile (p := p) (l := l)
  calc l.drop (l.takeWhile p).length
      = (l.takeWhile p ++ l.dropWhile p).drop (l.takeWhile p).length := by rw [hsplit]
    _ = l.dropWhile p := List.drop_left

/-! ### The buffers -/

/-- The long buffer holds what has been made so far, unless that is too long. -/
structure Buffers.Holds (s : Buffers) (out : List UInt8) : Prop where
  long : s.longBuffer.length = 1024
  short : s.shortBuffer.length = 128
  index : s.index = min out.length 1024
  text : out.length < 1024 → s.longBuffer.take s.index = out

/-- More than the long buffer has room for is taken to be in it. -/
structure Buffers.Over (s : Buffers) : Prop where
  long : s.longBuffer.length = 1024
  index : 1024 < s.index

theorem Buffers.Holds.copyWhile {s : Buffers} {out : List UInt8} (h : s.Holds out) (stop : UInt8 → Bool)
    (tmp : List UInt8) : ∃ longBuffer index rest,
      ResolveName.copyWhile stop 1024 s.longBuffer s.index tmp = .ok (longBuffer, index, rest) ∧
      Holds ⟨longBuffer, s.shortBuffer, index⟩ (out ++ tmp.takeWhile fun b => !stop b) ∧
      (index < 1024 → rest = tmp.dropWhile fun b => !stop b) := by
  have hindex := h.index
  have hlen : (copied stop (1024 - s.index) tmp).length =
      min (1024 - s.index) (tmp.takeWhile fun b => !stop b).length := List.length_take
  refine ⟨_, _, _, copyWhile_eq stop (Nat.le_of_eq h.long.symm) s.index tmp, ⟨?_, h.short, ?_, ?_⟩, ?_⟩
  · rw [length_overwrite (by rw [h.long]; omega), h.long]
  · rw [List.length_append]
    dsimp only
    omega
  · intro hshort
    rw [List.length_append] at hshort
    have hall : copied stop (1024 - s.index) tmp = tmp.takeWhile fun b => !stop b :=
      List.take_of_length_le (by omega)
    have hroom : s.index + (copied stop (1024 - s.index) tmp).length ≤ s.longBuffer.length := by
      rw [h.long]
      omega
    have htake := take_overwrite hroom (Nat.le_refl _)
    rw [List.take_length, h.text (by omega)] at htake
    exact htake.trans (by rw [hall])
  · intro hlt
    have hall : copied stop (1024 - s.index) tmp = tmp.takeWhile fun b => !stop b :=
      List.take_of_length_le (by omega)
    rw [hall]
    exact drop_length_takeWhile _ tmp

theorem Buffers.Holds.store {s : Buffers} {out : List UInt8} (h : s.Holds out) {value : List UInt8}
    (hvalue : value.length + s.index < 1024) : ∃ longBuffer,
      strcpy s.longBuffer s.index value = .ok longBuffer ∧
      Holds ⟨longBuffer, s.shortBuffer, s.index + value.length⟩ (out ++ value) := by
  have hindex := h.index
  have hroom : s.index + (value ++ [0]).length ≤ s.longBuffer.length := by
    rw [h.long, List.length_append, List.length_singleton]
    omega
  refine ⟨_, strcpy_eq (by rw [h.long]; omega), ?_, h.short, ?_, ?_⟩
  · rw [length_overwrite hroom, h.long]
  · rw [List.length_append]
    dsimp only
    omega
  · intro hshort
    rw [List.length_append] at hshort
    have htake := take_overwrite hroom (m := value.length) (by simp)
    rw [h.text (by omega), List.take_left] at htake
    exact htake

/-! ### A variable -/

/-- What a name loop leaves in the short buffer. -/
theorem copyWhile_short {shortBuffer : List UInt8} (h : shortBuffer.length = 128) (stop : UInt8 → Bool)
    (tmp : List UInt8) : ∃ rest, copyWhile stop 128 shortBuffer 0 tmp =
        .ok (overwrite shortBuffer 0 ((tmp.takeWhile fun b => !stop b).take 128),
          min 128 (tmp.takeWhile fun b => !stop b).length, rest) ∧
      ((tmp.takeWhile fun b => !stop b).length < 128 → rest = tmp.dropWhile fun b => !stop b) := by
  refine ⟨tmp.drop (min 128 (tmp.takeWhile fun b => !stop b).length), ?_, fun hlt => ?_⟩
  · rw [copyWhile_eq stop (Nat.le_of_eq h.symm) 0 tmp, Nat.zero_add, copied, Nat.sub_zero, List.length_take]
  · rw [Nat.min_eq_right (Nat.le_of_lt hlt)]
    exact drop_length_takeWhile _ tmp

/-- The closing brace is gone over if there is one. -/
theorem drop_variableAt_brace (rest : List UInt8) :
    (if (rest.dropWhile fun b => !closes b).head? = some 125 then (rest.dropWhile fun b => !closes b).tail
      else rest.dropWhile fun b => !closes b) = (123 :: rest).drop (variableAt (123 :: rest)).2 := by
  have hdrop := drop_length_takeWhile (fun b => !closes b) rest
  have hlen := congrArg List.length hdrop
  rw [List.length_drop] at hlen
  rw [variableAt]
  dsimp only
  cases hrest : rest.dropWhile fun b => !closes b with
  | nil =>
    rw [hrest, List.length_nil] at hlen
    rw [if_neg (by simp), if_neg (by omega), Nat.add_zero, Nat.add_comm 1, List.drop_succ_cons, hdrop, hrest]
  | cons b tail =>
    have hb : b = 125 := by
      have hhead := List.head?_dropWhile_not (fun b => !closes b) rest
      rw [hrest] at hhead
      simpa [closes] using hhead
    rw [hrest, List.length_cons] at hlen
    rw [if_pos (by simp [hb]), if_pos (by omega), List.tail_cons, Nat.add_assoc, Nat.add_comm 1,
      List.drop_succ_cons, ← List.drop_drop, hdrop, hrest]
    rfl

theorem readName_eq {shortBuffer : List UInt8} (h : shortBuffer.length = 128) (rest : List UInt8) :
    ∃ tmp, readName shortBuffer rest = .ok (overwrite shortBuffer 0 ((variableAt rest).1.take 128),
        min 128 (variableAt rest).1.length, tmp) ∧
      ((variableAt rest).1.length < 128 → tmp = rest.drop (variableAt rest).2) := by
  unfold readName
  split
  · rename_i tmp
    obtain ⟨rest', hcopy, hrest⟩ := copyWhile_short h closes tmp
    rw [hcopy]
    refine ⟨_, rfl, fun hlt => ?_⟩
    rw [hrest hlt]
    exact drop_variableAt_brace tmp
  · rename_i hne
    have hvar : variableAt rest =
        (rest.takeWhile fun b => !endsName b, (rest.takeWhile fun b => !endsName b).length) := by
      unfold variableAt
      split
      · exact (hne _ rfl).elim
      · rfl
    obtain ⟨rest', hcopy, hrest⟩ := copyWhile_short h endsName rest
    rw [hvar]
    refine ⟨rest', hcopy, fun hlt => ?_⟩
    rw [hrest hlt]
    exact (drop_length_takeWhile _ rest).symm

theorem overwrite_zero (l bytes : List UInt8) : overwrite l 0 bytes = bytes ++ l.drop bytes.length := by
  simp [overwrite]

/-- A buffer that starts with a string, once the terminator is put behind it. -/
theorem stringIn_set {buffer string : List UInt8} (h : string.length < buffer.length)
    (htake : buffer.take string.length = string) (hzero : 0 ∉ string) :
    stringIn (buffer.set string.length 0) = .ok string := by
  obtain ⟨b, rest, hdrop⟩ : ∃ b rest, buffer.drop string.length = b :: rest :=
    List.exists_cons_of_ne_nil (by simpa using h)
  have hset : buffer.set string.length 0 = string ++ 0 :: rest := by
    rw [← List.take_append_drop string.length buffer, hdrop, htake,
      List.set_append_right _ _ (Nat.le_refl _), Nat.sub_self]
    rfl
  have hne : ∀ b ∈ string, decide (b ≠ 0) = true :=
    fun b hb => decide_eq_true fun h0 : b = 0 => hzero (h0 ▸ hb)
  rw [hset, stringIn, stringAt_of_mem (by simp), List.takeWhile_append_of_pos hne]
  simp

/-- The short buffer with a name and its terminator. -/
theorem stringIn_name {shortBuffer name : List UInt8} (h : name.length < shortBuffer.length)
    (hzero : 0 ∉ name) : ∃ buffer, store (overwrite shortBuffer 0 name) name.length 0 = .ok buffer ∧
      buffer.length = shortBuffer.length ∧ stringIn buffer = .ok name := by
  have hlen : (overwrite shortBuffer 0 name).length = shortBuffer.length :=
    length_overwrite (by omega)
  rw [← hlen] at h
  refine ⟨_, store_of_lt h 0, ?_, stringIn_set h ?_ hzero⟩
  · rw [List.length_set, hlen]
  · rw [overwrite_zero, List.take_left]

variable {getenv : List UInt8 → Option CString} {s : Buffers} {out : List UInt8}

/-- The variable that starts here. -/
def varAt (rest : List UInt8) : Piece := .var (36 :: rest.take (variableAt rest).2) (variableAt rest).1

theorem variableAt_le (rest : List UInt8) : (variableAt rest).2 ≤ rest.length := by
  unfold variableAt
  split
  · rename_i rest
    have := (List.takeWhile_sublist (fun b => !closes b) (l := rest)).length_le
    dsimp only
    rw [List.length_cons]
    split_ifs <;> omega
  · exact (List.takeWhile_sublist _).length_le

theorem zero_notMem_variableAt {rest : List UInt8} (h : 0 ∉ rest) : 0 ∉ (variableAt rest).1 := by
  unfold variableAt
  split
  · exact fun hmem => h (List.mem_cons_of_mem _ ((List.takeWhile_sublist _).subset hmem))
  · exact fun hmem => h ((List.takeWhile_sublist _).subset hmem)

theorem substitute_spec (hs : s.Holds out) (hout : out.length < 1024) {rest : List UInt8} (hzero : 0 ∉ rest)
    (hname : (variableAt rest).1.length < 128) : ∃ s',
      substitute getenv s (36 :: rest) = .ok (s', rest.drop (variableAt rest).2) ∧
      ((varAt rest).Fits getenv out.length → s'.Holds (out ++ (varAt rest).expand getenv)) ∧
      (¬ (varAt rest).Fits getenv out.length → s'.Over) := by
  have hindex := hs.index
  obtain ⟨tmp, hread, htmp⟩ := readName_eq hs.short rest
  obtain rfl := htmp hname
  rw [List.take_of_length_le (Nat.le_of_lt hname), Nat.min_eq_right (Nat.le_of_lt hname)] at hread
  have hroom : (variableAt rest).1.length < s.shortBuffer.length := hs.short ▸ hname
  obtain ⟨buffer, hstore, hbuffer, hstring⟩ := stringIn_name hroom (zero_notMem_variableAt hzero)
  have hs' : Buffers.Holds ⟨s.longBuffer, buffer, s.index⟩ out :=
    ⟨hs.long, hbuffer.trans hs.short, hs.index, hs.text⟩
  simp only [substitute, List.tail_cons, hread, hstore, hstring, bind, Except.bind]
  cases hvalue : getenv (variableAt rest).1 with
  | some value =>
    have hfits : (varAt rest).Fits getenv out.length ↔ out.length + value.1.length ≤ 1024 := by
      simp [varAt, Piece.Fits, hname, hvalue]
    have hexpand : (varAt rest).expand getenv = value.1 := by
      simp [varAt, Piece.expand, hvalue]
    rw [hfits, hexpand]
    dsimp only
    split_ifs with hlt
    · obtain ⟨longBuffer, hcopy, hholds⟩ := hs'.store hlt
      dsimp only at hcopy
      rw [hcopy]
      exact ⟨_, rfl, fun _ => hholds, fun hnot => absurd hlt (by omega)⟩
    · refine ⟨_, rfl, fun hle => ⟨hs.long, hs'.short, ?_, ?_⟩, fun hnot => ?_⟩
      · rw [List.length_append]
        dsimp only
        omega
      · intro hshort
        rw [List.length_append] at hshort
        omega
      · refine ⟨hs.long, ?_⟩
        dsimp only
        omega
  | none =>
    have hfits : (varAt rest).Fits getenv out.length := by
      simp [varAt, Piece.Fits, hname, hvalue]
    have hexpand : (varAt rest).expand getenv = 36 :: rest.take (variableAt rest).2 := by
      simp [varAt, Piece.expand, hvalue]
    have hwritten : (36 :: rest).take ((36 :: rest).length - (rest.drop (variableAt rest).2).length) =
        36 :: rest.take (variableAt rest).2 := by
      have hle := variableAt_le rest
      rw [List.length_drop, List.length_cons,
        show rest.length + 1 - (rest.length - (variableAt rest).2) = (variableAt rest).2 + 1 by omega,
        List.take_succ_cons]
    obtain ⟨longBuffer, index, tmp, hcopy, hholds, -⟩ :=
      hs'.copyWhile (fun _ => false) (36 :: rest.take (variableAt rest).2)
    dsimp only at hcopy hholds
    have hall : (36 :: rest.take (variableAt rest).2).takeWhile (fun _ => !false) =
        36 :: rest.take (variableAt rest).2 := List.takeWhile_eq_self_iff.mpr fun _ _ => rfl
    rw [hall] at hholds
    rw [hwritten, hcopy, hexpand]
    exact ⟨_, rfl, fun _ => hholds, fun hnot => absurd hfits hnot⟩

/-- The terminator of a name that is too long has no place in the short buffer. -/
theorem substitute_fault (hs : s.Holds out) {rest : List UInt8} (hname : 128 ≤ (variableAt rest).1.length) :
    substitute getenv s (36 :: rest) = .error .fault := by
  obtain ⟨tmp, hread, -⟩ := readName_eq hs.short rest
  rw [Nat.min_eq_left hname] at hread
  have hlen : (overwrite s.shortBuffer 0 ((variableAt rest).1.take 128)).length = 128 := by
    rw [length_overwrite (by rw [hs.short, List.length_take]; omega), hs.short]
  have hstore : store (overwrite s.shortBuffer 0 ((variableAt rest).1.take 128)) 128 0 = .error .fault :=
    if_neg (by omega)
  simp only [substitute, List.tail_cons, hread, hstore, bind, Except.bind]

/-! ### The whole name -/

theorem pieces_dollar (rest : List UInt8) :
    pieces (36 :: rest) = varAt rest :: pieces (rest.drop (variableAt rest).2) := by
  rw [pieces, if_pos rfl, varAt]

theorem pieces_append {plain : List UInt8} (h : 36 ∉ plain) (rest : List UInt8) :
    pieces (plain ++ rest) = plain.map .byte ++ pieces rest := by
  induction plain with
  | nil => rfl
  | cons b plain ih =>
    rw [List.cons_append, pieces, if_neg (Ne.symm (List.ne_of_not_mem_cons h)),
      ih (List.not_mem_of_not_mem_cons h), List.map_cons, List.cons_append]

theorem expanded_append {plain : List UInt8} (h : 36 ∉ plain) (rest : List UInt8) :
    expanded getenv (plain ++ rest) = plain ++ expanded getenv rest := by
  have hbytes : (plain.map Piece.byte).flatMap (Piece.expand getenv) = plain := by
    rw [List.flatMap_map]
    exact List.flatMap_singleton' plain
  rw [expanded, pieces_append h, List.flatMap_append, hbytes, expanded]

theorem expanded_dollar (rest : List UInt8) : expanded getenv (36 :: rest) =
    (varAt rest).expand getenv ++ expanded getenv (rest.drop (variableAt rest).2) := by
  rw [expanded, pieces_dollar, List.flatMap_cons, expanded]

theorem fitsFrom_cons {i : ℕ} (h : i < 1024) (p : Piece) (ps : List Piece) : FitsFrom getenv i (p :: ps) ↔
    p.Fits getenv i ∧ FitsFrom getenv (i + (p.expand getenv).length) ps := by
  rw [FitsFrom]
  exact ⟨fun hfits => hfits h, fun hfits _ => hfits⟩

theorem fitsFrom_of_le {i : ℕ} (h : 1024 ≤ i) (ps : List Piece) : FitsFrom getenv i ps := by
  cases ps with
  | nil => trivial
  | cons p ps => exact fun hlt => absurd hlt (Nat.not_lt.mpr h)

/-- Plain bytes fit, as far as there is room. -/
theorem fitsFrom_bytes (i : ℕ) (plain : List UInt8) (ps : List Piece) :
    FitsFrom getenv i (plain.map .byte ++ ps) ↔ FitsFrom getenv (i + plain.length) ps := by
  induction plain generalizing i with
  | nil => exact Iff.rfl
  | cons b plain ih =>
    rw [List.map_cons, List.cons_append, FitsFrom, List.length_cons, Nat.add_comm plain.length,
      ← Nat.add_assoc, ← ih]
    by_cases hi : i < 1024
    · exact ⟨fun h => (h hi).2, fun h _ => ⟨trivial, h⟩⟩
    · exact iff_of_true (fun h => absurd h hi) (fitsFrom_of_le (by omega) _)

theorem Buffers.Holds.append_of_le (h : s.Holds out) (hle : 1024 ≤ out.length) (more : List UInt8) :
    s.Holds (out ++ more) := by
  have hindex := h.index
  refine ⟨h.long, h.short, ?_, fun hlt => ?_⟩
  · rw [List.length_append]
    omega
  · rw [List.length_append] at hlt
    omega

theorem expandLoop_done {fuel : ℕ} (hfuel : 0 < fuel) {tmp : List UInt8} (h : tmp = [] ∨ 1024 ≤ s.index) :
    expandLoop getenv fuel s tmp = .ok s := by
  obtain ⟨fuel, rfl⟩ := Nat.exists_eq_succ_of_ne_zero (Nat.ne_of_gt hfuel)
  have hcond : ¬ (tmp ≠ [] ∧ s.index < 1024) := by
    rintro ⟨hne, hlt⟩
    exact h.elim hne fun hle => absurd hlt (Nat.not_lt.mpr hle)
  rw [expandLoop, if_neg hcond]

/-- How the loop ends: with the expanded name, or beyond the end of a buffer. -/
structure Finishes (r : Except Stop Buffers) (fits : Prop) (out : List UInt8) : Prop where
  holds : fits → ∃ s', r = .ok s' ∧ s'.Holds out
  past : ¬ fits → r = .error .fault ∨ ∃ s', r = .ok s' ∧ s'.Over

theorem expandLoop_finishes {fuel : ℕ} {tmp : List UInt8} (hs : s.Holds out) (hfuel : tmp.length < fuel)
    (hzero : 0 ∉ tmp) : Finishes (expandLoop getenv fuel s tmp)
      (FitsFrom getenv out.length (pieces tmp)) (out ++ expanded getenv tmp) := by
  induction fuel generalizing s out tmp with
  | zero => exact absurd hfuel (Nat.not_lt_zero _)
  | succ fuel ih =>
    have hindex := hs.index
    by_cases hne : tmp = []
    · subst hne
      rw [expandLoop_done (Nat.succ_pos fuel) (.inl rfl), expanded, pieces]
      refine ⟨fun _ => ⟨s, rfl, ?_⟩, fun hnot => absurd trivial hnot⟩
      rwa [List.flatMap_nil, List.append_nil]
    by_cases hfull : 1024 ≤ out.length
    · rw [expandLoop_done (Nat.succ_pos fuel) (.inr (by omega))]
      exact ⟨fun _ => ⟨s, rfl, hs.append_of_le hfull _⟩, fun hnot => absurd (fitsFrom_of_le hfull _) hnot⟩
    have hpos := List.length_pos_iff.mpr hne
    rw [expandLoop, if_pos ⟨hne, by omega⟩]
    obtain ⟨longBuffer, index, rest, hcopy, hs1, hrest⟩ := hs.copyWhile (· == 36) tmp
    have hindex1 := hs1.index
    dsimp only at hindex1
    have hplain : 36 ∉ tmp.takeWhile fun b => !(b == 36) := by
      intro hmem
      have := List.mem_takeWhile_imp hmem
      simp at this
    have hsplit := List.takeWhile_append_dropWhile (p := fun b => !(b == 36)) (l := tmp)
    generalize tmp.takeWhile (fun b => !(b == 36)) = plain at hs1 hindex1 hplain hsplit
    -- what is left of the name is known only while there is room, its pieces are in any case
    obtain ⟨behind, hbehind⟩ : ∃ behind, tmp.dropWhile (fun b => !(b == 36)) = behind := ⟨_, rfl⟩
    have hhead := List.head?_dropWhile_not (fun b => !(b == 36)) tmp
    rw [hbehind] at hsplit hrest hhead
    subst hsplit
    rw [hcopy, pieces_append hplain, fitsFrom_bytes, expanded_append hplain, ← List.append_assoc,
      ← List.length_append]
    simp only [bind, Except.bind]
    by_cases hfull : 1024 ≤ (out ++ plain).length
    · rw [if_neg (by omega)]
      simp only [pure, Except.pure]
      rw [expandLoop_done (by omega) (.inr (by dsimp only; omega))]
      exact ⟨fun _ => ⟨_, rfl, hs1.append_of_le hfull _⟩, fun hnot => absurd (fitsFrom_of_le hfull _) hnot⟩
    obtain rfl := hrest (by omega)
    cases rest with
    | nil =>
      rw [if_neg (by simp)]
      simp only [pure, Except.pure]
      rw [expandLoop_done (by omega) (.inl rfl), expanded, pieces, List.flatMap_nil, List.append_nil]
      exact ⟨fun _ => ⟨_, rfl, hs1⟩, fun hnot => absurd trivial hnot⟩
    | cons b rest =>
      obtain rfl : b = 36 := by simpa using hhead
      have hlt : (out ++ plain).length < 1024 := by omega
      rw [if_pos ⟨rfl, by omega⟩, pieces_dollar, fitsFrom_cons hlt, expanded_dollar, ← List.append_assoc,
        ← List.length_append]
      by_cases hname : (variableAt rest).1.length < 128
      · have hzero' : 0 ∉ rest := fun h0 => hzero (List.mem_append_right _ (List.mem_cons_of_mem _ h0))
        obtain ⟨s2, hsub, hfits, hover⟩ := @substitute_spec getenv _ _ hs1 hlt rest hzero' hname
        rw [hsub]
        by_cases hp : (varAt rest).Fits getenv (out ++ plain).length
        · rw [and_iff_right hp]
          refine ih (hfits hp) ?_ fun h0 => hzero' (List.mem_of_mem_drop h0)
          rw [List.length_append, List.length_cons] at hfuel
          rw [List.length_drop]
          omega
        · dsimp only
          rw [expandLoop_done (by omega) (.inr (Nat.le_of_lt (hover hp).index))]
          exact ⟨fun h => absurd h.1 hp, fun _ => .inr ⟨s2, rfl, hover hp⟩⟩
      · rw [substitute_fault hs1 (Nat.not_lt.mp hname)]
        exact ⟨fun h => absurd h.1.1 hname, fun _ => .inl rfl⟩

theorem zero_notMem_withHome {host : Host} {name buffer : List UInt8} (hname : 0 ∉ name)
    (h : withHome host name = some buffer) : 0 ∉ buffer := by
  unfold withHome at h
  split at h
  · rename_i rest
    obtain ⟨dir, -, rfl⟩ := Option.map_eq_some_iff.mp h
    have hrest := List.not_mem_of_not_mem_cons hname
    exact fun h0 => (List.mem_append.mp h0).elim dir.2 hrest
  · rename_i rest _
    split_ifs at h
    obtain ⟨dir, -, rfl⟩ := Option.map_eq_some_iff.mp h
    have hrest := List.not_mem_of_not_mem_cons hname
    exact fun h0 => (List.mem_append.mp h0).elim dir.2 fun h0 =>
      hrest ((List.dropWhile_sublist _).subset h0)
  · exact Option.some.inj h ▸ hname

theorem zero_notMem_expanded {name : List UInt8} (h : 0 ∉ name) : 0 ∉ expanded getenv name := by
  unfold expanded
  fun_induction pieces name with
  | case1 => simp
  | case2 rest ih =>
    have hrest := List.not_mem_of_not_mem_cons h
    rw [List.flatMap_cons, List.mem_append, not_or]
    refine ⟨?_, ih fun h0 => hrest (List.mem_of_mem_drop h0)⟩
    rw [Piece.expand]
    cases getenv (variableAt rest).1 with
    | none => exact fun h0 => h ((List.mem_cons.mp h0).elim (fun h0 => absurd h0 (by decide)) fun h0 =>
        absurd (List.mem_of_mem_take h0) hrest)
    | some value => exact value.2
  | case3 b rest hb ih =>
    rw [List.flatMap_cons, List.mem_append, not_or]
    refine ⟨fun h0 => ?_, ih (List.not_mem_of_not_mem_cons h)⟩
    exact List.ne_of_not_mem_cons h (List.mem_singleton.mp h0)

theorem expanded_nil : expanded getenv [] = [] := by
  rw [expanded, pieces]
  rfl

/-- Without a dollar sign there is nothing to expand. -/
theorem resolved_plain {name : List UInt8} (h : 36 ∉ name) : resolved getenv name = name := by
  have hexpanded : expanded getenv (name ++ []) = name ++ expanded getenv [] := expanded_append h []
  rw [List.append_nil, expanded_nil, List.append_nil] at hexpanded
  rw [resolved, hexpanded, ite_self]

theorem fitsFrom_plain {name : List UInt8} (h : 36 ∉ name) : FitsFrom getenv 0 (pieces name) := by
  have hpieces := pieces_append h []
  rw [List.append_nil] at hpieces
  rw [hpieces, fitsFrom_bytes, pieces]
  trivial

/-- What is made of the buffers after the loop. -/
theorem Buffers.Holds.finish {name : List UInt8} (h : s.Holds (expanded getenv name)) (hzero : 0 ∉ name) :
    (if s.index = 1024 then pure name else do stringIn (← ResolveName.store s.longBuffer s.index 0)) =
      Except.ok (resolved getenv name) := by
  have hindex := h.index
  have hlong := h.long
  unfold resolved
  split_ifs with hfull hlt hlt
  · omega
  · rfl
  · have hlen : s.index = (expanded getenv name).length := by omega
    have htake := h.text hlt
    rw [hlen] at htake
    rw [hlen, store_of_lt (by omega)]
    exact stringIn_set (by omega) htake (zero_notMem_expanded hzero)
  · omega

/-- Where a name has a home directory to be put in front, it is resolved exactly if the names of its
variables fit the short buffer and their values the long one, as far as it gets. -/
theorem resolveName_iff (host : Host) (name : CString) (buffer : List UInt8)
    (hhome : withHome host name.1 = some buffer) :
    (∀ fuel longBuffer shortBuffer, buffer.length < fuel → longBuffer.length = 1024 →
      shortBuffer.length = 128 →
      resolveName host fuel longBuffer shortBuffer name.1 = .ok (resolved host.getenv buffer)) ↔
    FitsFrom host.getenv 0 (pieces buffer) := by
  have hzero := zero_notMem_withHome name.2 hhome
  by_cases hdollar : 36 ∈ buffer
  · have hrun : ∀ fuel longBuffer shortBuffer, buffer.length < fuel → longBuffer.length = 1024 →
        shortBuffer.length = 128 → Finishes (expandLoop host.getenv fuel ⟨longBuffer, shortBuffer, 0⟩ buffer)
          (FitsFrom host.getenv 0 (pieces buffer)) (expanded host.getenv buffer) := by
      intro fuel longBuffer shortBuffer hfuel hlong hshort
      have hstart : Buffers.Holds ⟨longBuffer, shortBuffer, 0⟩ [] := ⟨hlong, hshort, rfl, fun _ => rfl⟩
      exact expandLoop_finishes hstart hfuel hzero
    simp only [resolveName, hhome, if_pos hdollar]
    constructor
    · intro hall
      by_contra hnot
      have hlong : (List.replicate 1024 (0 : UInt8)).length = 1024 := List.length_replicate
      have hshort : (List.replicate 128 (0 : UInt8)).length = 128 := List.length_replicate
      have hok := hall _ _ _ (Nat.lt_succ_self _) hlong hshort
      rcases (hrun _ _ _ (Nat.lt_succ_self _) hlong hshort).past hnot with hfault | ⟨s', hs', hover⟩
      · rw [hfault] at hok
        cases hok
      · have hstore : store s'.longBuffer s'.index 0 = .error .fault :=
          if_neg (by rw [hover.long]; exact Nat.not_lt.mpr (Nat.le_of_lt hover.index))
        simp only [hs', bind, Except.bind, if_neg (Nat.ne_of_gt hover.index), hstore] at hok
        cases hok
    · intro hfits fuel longBuffer shortBuffer hfuel hlong hshort
      obtain ⟨s', hs', hholds⟩ := (hrun fuel longBuffer shortBuffer hfuel hlong hshort).holds hfits
      rw [hs']
      exact hholds.finish hzero
  · refine iff_of_true (fun fuel longBuffer shortBuffer _ _ _ => ?_) (fitsFrom_plain hdollar)
    simp only [resolveName, hhome, if_neg hdollar, resolved_plain hdollar]

/-- A system without users and with one variable, `X`. -/
def Host.ofX (value : CString) : Host where
  home := none
  homeOf := fun _ => none
  getenv := fun name => if name = [88] then some value else none

/-- The variable and a file behind it. -/
theorem resolveName_x_file :
    resolveName (.ofX ⟨[97, 98], by decide⟩) 5 (List.replicate 1024 0) (List.replicate 128 0)
      [36, 88, 47, 102] = .ok [97, 98, 47, 102] := by
  have hpieces : pieces [36, 88, 47, 102] = [.var [36, 88] [88], .byte 47, .byte 102] := by
    simp [pieces, variableAt, endsName]
  have hfits : FitsFrom (Host.ofX ⟨[97, 98], by decide⟩).getenv 0 (pieces [36, 88, 47, 102]) := by
    rw [hpieces]
    refine fun _ => ⟨⟨by decide, fun value hvalue => ?_⟩, fun _ => ⟨trivial, fun _ => ⟨trivial, trivial⟩⟩⟩
    rw [← Option.some.inj hvalue]
    decide
  have hresolved : resolved (Host.ofX ⟨[97, 98], by decide⟩).getenv [36, 88, 47, 102] =
      [97, 98, 47, 102] := by
    rw [resolved, expanded, hpieces]
    rfl
  rw [← hresolved]
  exact (resolveName_iff (.ofX ⟨[97, 98], by decide⟩) ⟨[36, 88, 47, 102], by decide⟩ _ rfl).mpr hfits 5 _ _
    (by decide) List.length_replicate List.length_replicate

/-- A value of 1025 bytes, and a name of 128: the terminator is written behind the end of a buffer. -/
theorem resolveName_writes_outside :
    resolveName (.ofX ⟨List.replicate 1025 97, by decide +kernel⟩) 3 (List.replicate 1024 0)
        (List.replicate 128 0) [36, 88] = .error .fault ∧
      resolveName (.ofX ⟨[97], by decide⟩) 130 (List.replicate 1024 0) (List.replicate 128 0)
        (36 :: List.replicate 128 65) = .error .fault :=
  ⟨by decide +kernel, by decide +kernel⟩

end BsdAdditions.Ee.ResolveName
