import Mathlib.Data.Nat.Notation
import Mathlib.Tactic.SplitIfs

/-! The keyboard: how `wgetch` and `Get_key` make keys of the bytes that are read. -/
namespace BsdAdditions.Curse

/-- What `read` gives. -/
inductive Outcome where
  | byte (b : UInt8)
  | endOfFile
  | failure
  deriving DecidableEq

/-- An entry of the stack of keys. -/
structure Key where
  string : List UInt8
  value : ℕ
  deriving DecidableEq

/-- The stack of keys, from its top on. The values of keys are not those of bytes. -/
structure KeyTable where
  keys : List Key
  starts : ∀ k ∈ keys, k.string.head? = some 27 ∨ k.string.head? = some 31
  apart : ∀ k ∈ keys, ∀ k' ∈ keys, k.string <+: k'.string → k.string = k'.string
  short : ∀ k ∈ keys, k.string.length ≤ 100
  cstring : ∀ k ∈ keys, 0 ∉ k.string
  values : ∀ k ∈ keys, 255 < k.value

def KeyTable.maxKeyLen (table : KeyTable) : ℕ := (table.keys.map (·.string.length)).foldl max 0

/-- The build without `BSD_SELECT`, with or without `SYS5`, and whether a parity bit is stripped. -/
structure KeyConfig where
  table : KeyTable
  sys5 : Bool
  parity : Bool

/-- How a byte is lost. -/
inductive Loss where
  /-- The byte 255 is taken for the value -1. -/
  | allOnes
  /-- A value is dropped since the alarm has gone off. -/
  | timedOut
  /-- A key is taken for a byte of a key sequence. -/
  | nestedKey
  /-- A match ends at a zero byte. -/
  | zeroByte
  /-- The byte 255 is not pushed back. -/
  | notPushed
  /-- The buffer of bytes that are pushed back is full. -/
  | bufferFull
  deriving DecidableEq

/-- The state of the keyboard, with the outcomes of the reads to come and whether the alarm goes off at
the points to come. `losses` is a record that the program has not. -/
structure Keyboard where
  inBuff : List UInt8
  timeOut : Bool
  noblock : Bool
  armed : Bool
  interruptFlag : Bool
  outcomes : List Outcome
  alarms : List Bool
  losses : List Loss
  deriving DecidableEq

/-- How a call ends other than by returning: it waits for input, or the value is that of a variable that
has none. -/
inductive Ending where
  | blocked
  | indeterminate
  | fuel
  deriving DecidableEq

/-- What `wgetch` returns; the key stands for its value. -/
inductive Value where
  | none
  | byte (b : UInt8)
  | key (k : Key)
  deriving DecidableEq

/-- What becomes of a value in a string of characters. -/
def Value.char? : Value → Option UInt8
  | .none => Option.none
  | .byte b => some b
  | .key k => some k.value.toUInt8

/-- The bytes that a value stands for. -/
def Value.spell : Value → List UInt8
  | .none => []
  | .byte b => [b]
  | .key k => k.string

namespace Keyboard

/-- A point at which the alarm may go off. -/
def tick (s : Keyboard) : Keyboard :=
  let rings := s.armed && s.alarms.headD false
  { s with alarms := s.alarms.tail, timeOut := s.timeOut || rings, armed := s.armed && !rings }

def lose (s : Keyboard) (l : Loss) : Keyboard := { s with losses := l :: s.losses }

def ungetch (s : Keyboard) (c : UInt8) : Keyboard :=
  if s.inBuff.length < 100 then { s with inBuff := c :: s.inBuff } else s.lose .bufferFull

/-- Pushes back the bytes, the last one first. -/
def ungetAll (s : Keyboard) (string : List UInt8) : Keyboard :=
  string.foldr (fun c s => if c ≠ 255 then s.ungetch c else s.lose .notPushed) s

/-- What is in `in_value` at first: a byte, -1, or what was in `temp`. -/
inductive Raw where
  | char (c : UInt8)
  | minusOne
  | garbage
  deriving DecidableEq

/-- The byte that was pushed back last, or the next one that is read. A failed read counts as a read byte
without `SYS5`. -/
def readChar (cfg : KeyConfig) (s : Keyboard) : Except Ending (Raw × Keyboard) :=
  match s.inBuff, s.outcomes with
  | c :: rest, _ => .ok (.char c, { s with inBuff := rest })
  | [], [] => .error .blocked
  | [], .byte b :: rest => .ok (.char b, { s with outcomes := rest })
  | [], .endOfFile :: rest => .ok (.minusOne, { s with outcomes := rest })
  | [], .failure :: rest => .ok (if cfg.sys5 then .minusOne else .garbage, { s with outcomes := rest })

/-- Without `SYS5` the alarm is looked at, where reading does not block. -/
def watches (cfg : KeyConfig) (s : Keyboard) : Bool := !cfg.sys5 && s.noblock

/-- The value before key sequences are looked for. A `char` is signed. -/
def rawValue (cfg : KeyConfig) (s : Keyboard) : Raw → Except Ending (Value × Keyboard)
  | .char c =>
    if s.watches cfg && s.timeOut then .ok (.none, s.lose .timedOut)
    else if c = 255 then .ok (.none, s.lose .allOnes)
    else .ok (.byte (if cfg.parity then c &&& 127 else c), s)
  | .minusOne => .ok (.none, s)
  | .garbage => if s.watches cfg && s.timeOut then .ok (.none, s) else .error .indeterminate

/-- The first part of `wgetch`. -/
def nextValue (cfg : KeyConfig) (s : Keyboard) : Except Ending (Value × Keyboard) := do
  let s := s.tick
  let s := if s.watches cfg then { s with timeOut := false } else s
  let (raw, s) ← s.readChar cfg
  s.tick.rawValue cfg raw

/-- The start of `Get_key`. -/
def arm (s : Keyboard) : Keyboard :=
  let s := { s with timeOut := false }
  { s.tick with armed := true, noblock := true }

/-- The end of `Get_key`, before its value is returned. -/
def disarm (s : Keyboard) : Keyboard :=
  let s := s.tick
  { s with armed := s.armed && s.timeOut, noblock := false }

/-- The first key whose sequence is equal to the string, as `strcmp` has it. -/
def findKey (cfg : KeyConfig) (string : List UInt8) : Option Key :=
  cfg.table.keys.find? fun k => string.takeWhile (· ≠ 0) = k.string

/-- The key sequence has been found. -/
def foundKey (s : Keyboard) (string : List UInt8) (k : Key) : Value × Keyboard :=
  (.key k, (if k.string = string then s else s.lose .zeroByte).disarm)

/-- The key sequence has not been found. -/
def pushBack (s : Keyboard) (first : UInt8) (rest : List UInt8) : Value × Keyboard :=
  (.byte first, s.disarm.ungetAll rest)

mutual

def wgetch (cfg : KeyConfig) : ℕ → Keyboard → Except Ending (Value × Keyboard)
  | 0, _ => .error .fuel
  | fuel + 1, s => do
    let (v, s) ← s.nextValue cfg
    let (v, s) ← (if v = .none ∧ s.interruptFlag then wgetch cfg fuel { s with interruptFlag := false }
      else .ok (v, s))
    match v with
    | .byte b => if b = 27 ∨ b = 31 then keyLoop cfg fuel b [] s.arm else .ok (v, s)
    | v => .ok (v, s)

/-- The loop of `Get_key`; the string is the first character and the rest. -/
def keyLoop (cfg : KeyConfig) : ℕ → UInt8 → List UInt8 → Keyboard → Except Ending (Value × Keyboard)
  | 0, _, _, _ => .error .fuel
  | fuel + 1, first, rest, s => do
    let s := s.tick
    if rest.length + 1 < cfg.table.maxKeyLen ∧ !s.timeOut then
      let (v, s) ← wgetch cfg fuel s
      match v.char? with
      | none => keyLoop cfg fuel first rest s
      | some c =>
        let s := if v = .byte c then s else s.lose .nestedKey
        match findKey cfg (first :: rest ++ [c]) with
        | some k => .ok (s.foundKey (first :: rest ++ [c]) k)
        | none => keyLoop cfg fuel first (rest ++ [c]) s
    else .ok (s.pushBack first rest)

end

/-- The bytes and outcomes there are. -/
def size (s : Keyboard) : ℕ := s.inBuff.length + s.outcomes.length

/-- The values of successive calls. Every call takes a byte or an outcome, which bounds its rounds. -/
def calls (cfg : KeyConfig) : ℕ → Keyboard → Except Ending (List Value × Keyboard)
  | 0, s => .ok ([], s)
  | n + 1, s => do
    let (v, s) ← wgetch cfg (2 * s.size + 1) s
    let (vs, s) ← calls cfg n s
    return (v :: vs, s)

/-- The keyboard after `initscr`. -/
def start (outcomes : List Outcome) (alarms : List Bool) : Keyboard :=
  ⟨[], false, false, false, false, outcomes, alarms, []⟩

/-! ### The account of the bytes -/

/-- The bytes among the outcomes. -/
def bytesOf (used : List Outcome) : List UInt8 :=
  used.filterMap fun
    | .byte b => some b
    | _ => none

theorem bytesOf_append (used used' : List Outcome) : bytesOf (used ++ used') = bytesOf used ++ bytesOf used' :=
  List.filterMap_append

/-- One if a byte has been lost. -/
def debt (s : Keyboard) : ℕ := if s.losses = [] then 0 else 1

/-- From `held` and the keyboard `s` to `held'` and `s'`: what there is then is what there was and what has
been read, unless a byte has been lost, and then it is less. -/
def Keeps (held : List UInt8) (s : Keyboard) (held' : List UInt8) (s' : Keyboard) : Prop :=
  ∃ used, s.outcomes = used ++ s'.outcomes ∧
    (s'.losses = [] → s.losses = [] ∧ held' ++ s'.inBuff = held ++ s.inBuff ++ bytesOf used) ∧
    held'.length + s'.inBuff.length + s'.debt ≤
      held.length + s.inBuff.length + (bytesOf used).length + s.debt

section Keeps
variable {held held' held'' : List UInt8} {s s' s'' : Keyboard}

theorem Keeps.of_eq (hb : s'.inBuff = s.inBuff) (ho : s'.outcomes = s.outcomes) (hl : s'.losses = s.losses) :
    Keeps held s held s' := by
  refine ⟨[], by simp [ho], ?_, ?_⟩
  · intro h
    exact ⟨hl ▸ h, by simp [bytesOf, hb]⟩
  · simp [debt, hb, hl, bytesOf]

theorem Keeps.refl : Keeps held s held s := Keeps.of_eq rfl rfl rfl

theorem Keeps.trans (h : Keeps held s held' s') (h' : Keeps held' s' held'' s'') : Keeps held s held'' s'' := by
  obtain ⟨used, ho, heq, hle⟩ := h
  obtain ⟨used', ho', heq', hle'⟩ := h'
  refine ⟨used ++ used', by rw [ho, ho', List.append_assoc], ?_, ?_⟩
  · intro hl
    obtain ⟨hl', hbytes'⟩ := heq' hl
    obtain ⟨hl'', hbytes⟩ := heq hl'
    exact ⟨hl'', by rw [hbytes', hbytes, bytesOf_append, List.append_assoc]⟩
  · rw [bytesOf_append, List.length_append]
    omega

/-- Bytes that were held before are still held. -/
theorem Keeps.append_left (h : Keeps held s held' s') (front : List UInt8) :
    Keeps (front ++ held) s (front ++ held') s' := by
  obtain ⟨used, ho, heq, hle⟩ := h
  refine ⟨used, ho, ?_, ?_⟩
  · intro hl
    obtain ⟨hl', hbytes⟩ := heq hl
    exact ⟨hl', by simp only [List.append_assoc, hbytes]⟩
  · rw [List.length_append, List.length_append]
    omega

/-- A loss is recorded where the bytes get fewer, or where some have been lost before. -/
theorem Keeps.lose (l : Loss) (h : held'.length < held.length + s.debt) : Keeps held s held' (s.lose l) := by
  refine ⟨[], rfl, nofun, ?_⟩
  have hdebt : (s.lose l).debt = 1 := rfl
  have hbuff : (s.lose l).inBuff = s.inBuff := rfl
  simp only [hdebt, hbuff, bytesOf, List.filterMap_nil, List.length_nil]
  omega

theorem Keeps.tick : Keeps held s held s.tick := Keeps.of_eq rfl rfl rfl

theorem Keeps.arm : Keeps held s held s.arm := Keeps.of_eq rfl rfl rfl

theorem Keeps.disarm : Keeps held s held s.disarm := Keeps.of_eq rfl rfl rfl

/-- A byte is pushed back or lost. -/
theorem Keeps.ungetch (c : UInt8) : Keeps [c] s [] (s.ungetch c) := by
  unfold Keyboard.ungetch
  split_ifs
  · refine ⟨[], rfl, ?_, ?_⟩
    · intro h
      exact ⟨h, by simp [bytesOf]⟩
    · have hdebt : ({ s with inBuff := c :: s.inBuff } : Keyboard).debt = s.debt := rfl
      simp only [hdebt, bytesOf, List.filterMap_nil, List.length_nil, List.length_cons]
      omega
  · exact Keeps.lose _ (Nat.lt_add_right _ Nat.zero_lt_one)

theorem Keeps.ungetAll (string : List UInt8) : Keeps string s [] (s.ungetAll string) := by
  induction string with
  | nil => exact Keeps.refl
  | cons c string ih =>
    have hrest : Keeps (c :: string) s [c] (s.ungetAll string) := ih.append_left [c]
    have hall : s.ungetAll (c :: string) =
        if c ≠ 255 then (s.ungetAll string).ungetch c else (s.ungetAll string).lose .notPushed := rfl
    apply hrest.trans
    rw [hall]
    split_ifs
    · exact Keeps.ungetch c
    · exact Keeps.lose _ (Nat.lt_add_right _ Nat.zero_lt_one)

theorem Keeps.debt_le (h : Keeps held s held' s') : s.debt ≤ s'.debt := by
  obtain ⟨used, -, heq, -⟩ := h
  unfold debt
  by_cases hl : s'.losses = []
  · rw [if_pos (heq hl).1]
    exact Nat.zero_le _
  · rw [if_neg hl]
    split_ifs <;> omega

/-- Nothing gets more. -/
theorem Keeps.size_le (h : Keeps held s held' s') : held'.length + s'.size ≤ held.length + s.size := by
  have hdebt := h.debt_le
  obtain ⟨used, ho, -, hle⟩ := h
  have hbytes : (bytesOf used).length ≤ used.length := List.length_filterMap_le _ _
  unfold size
  rw [ho, List.length_append]
  omega

end Keeps

/-! ### One call -/

/-- The call does not run out of rounds, and if it returns then `Q` holds. -/
def Meets {α : Type} (r : Except Ending (α × Keyboard)) (Q : α → Keyboard → Prop) : Prop :=
  match r with
  | .ok (v, s) => Q v s
  | .error e => e ≠ .fuel

theorem Meets.bind {α β : Type} {r : Except Ending (α × Keyboard)} {Q : α → Keyboard → Prop}
    {Q' : β → Keyboard → Prop} {f : α × Keyboard → Except Ending (β × Keyboard)} (h : Meets r Q)
    (hf : ∀ v s, Q v s → Meets (f (v, s)) Q') : Meets (r >>= f) Q' := by
  match r with
  | .ok (v, s) => exact hf v s h
  | .error e => exact h

theorem Meets.mono {α : Type} {r : Except Ending (α × Keyboard)} {Q Q' : α → Keyboard → Prop}
    (h : Meets r Q) (himp : ∀ v s, Q v s → Q' v s) : Meets r Q' := by
  match r with
  | .ok (v, s) => exact himp v s h
  | .error e => exact h

/-- What a call returns for what was held before it and the keyboard. -/
structure Returned (held : List UInt8) (s : Keyboard) (v : Value) (s' : Keyboard) : Prop where
  keeps : Keeps held s v.spell s'
  size : s'.size < s.size + held.length
  key : ∀ k, v = .key k → 0 < k.string.length ∧ (s'.losses = [] → 1 < k.string.length)

def Raw.spell : Raw → List UInt8
  | .char c => [c]
  | _ => []

section Call
variable {cfg : KeyConfig} {s s' : Keyboard} {held : List UInt8}

/-- What comes before a call and loses no byte. -/
theorem Returned.after {v : Value} {held₀ : List UInt8} {s₀ : Keyboard} (h : Returned held s v s')
    (hkeeps : Keeps held₀ s₀ held s) : Returned held₀ s₀ v s' := by
  refine ⟨hkeeps.trans h.keeps, ?_, h.key⟩
  have hle := hkeeps.size_le
  have hlt := h.size
  omega

theorem meets_rawValue (hp : cfg.parity = false) (raw : Raw) :
    Meets (s.rawValue cfg raw) fun v s' =>
      Keeps raw.spell s v.spell s' ∧ s'.size = s.size ∧ ∀ k, v ≠ .key k := by
  cases raw with
  | char c =>
    rw [rawValue, hp, if_neg Bool.false_ne_true]
    split_ifs
    · exact ⟨Keeps.lose _ (Nat.lt_add_right _ Nat.zero_lt_one), rfl, nofun⟩
    · exact ⟨Keeps.lose _ (Nat.lt_add_right _ Nat.zero_lt_one), rfl, nofun⟩
    · exact ⟨Keeps.refl, rfl, nofun⟩
  | minusOne => exact ⟨Keeps.refl, rfl, nofun⟩
  | garbage =>
    rw [rawValue]
    split_ifs
    · exact ⟨Keeps.refl, rfl, nofun⟩
    · exact nofun

/-- The outcome of a read is used up. -/
theorem keeps_outcome {o : Outcome} {rest : List Outcome} (hb : s.inBuff = []) (ho : s.outcomes = o :: rest) :
    Keeps [] s (bytesOf [o]) { s with outcomes := rest } ∧ size { s with outcomes := rest } < s.size := by
  constructor
  · refine ⟨[o], ho, ?_, ?_⟩
    · intro hl
      exact ⟨hl, by simp [hb]⟩
    · have hdebt : ({ s with outcomes := rest } : Keyboard).debt = s.debt := rfl
      simp only [hdebt, List.length_nil]
      omega
  · simp [size, ho]

/-- A read takes a byte or an outcome. -/
theorem meets_readChar : Meets (s.readChar cfg) fun raw s' =>
    Keeps [] s raw.spell s' ∧ s'.size < s.size := by
  unfold readChar
  split
  · next _ _ c rest hb =>
    constructor
    · refine ⟨[], rfl, ?_, ?_⟩
      · intro hl
        exact ⟨hl, by simp [Raw.spell, hb, bytesOf]⟩
      · have hdebt : ({ s with inBuff := rest } : Keyboard).debt = s.debt := rfl
        simp only [hdebt, hb, Raw.spell, List.length_cons, List.length_nil]
        omega
    · simp [size, hb]
  · exact nofun
  · next b rest hb ho => exact keeps_outcome hb ho
  · next rest hb ho => exact keeps_outcome hb ho
  · next rest hb ho =>
    cases cfg.sys5 with
    | true => exact keeps_outcome hb ho
    | false => exact keeps_outcome hb ho

theorem meets_nextValue (hp : cfg.parity = false) : Meets (s.nextValue cfg) fun v s' =>
    Keeps [] s v.spell s' ∧ s'.size < s.size ∧ ∀ k, v ≠ .key k := by
  unfold nextValue
  have hreset : ∀ t : Keyboard, Keeps [] t [] (if t.watches cfg then { t with timeOut := false } else t) ∧
      size (if t.watches cfg then { t with timeOut := false } else t) = t.size := by
    intro t
    split_ifs
    · exact ⟨Keeps.of_eq rfl rfl rfl, rfl⟩
    · exact ⟨Keeps.refl, rfl⟩
  obtain ⟨hkeeps, hsize⟩ := hreset s.tick
  apply meets_readChar.bind
  rintro raw t ⟨hread, hlt⟩
  apply (meets_rawValue hp raw).mono
  rintro v u ⟨hvalue, hsame, hkey⟩
  have hchain : Keeps [] s v.spell u := Keeps.tick.trans (hkeeps.trans (hread.trans (Keeps.tick.trans hvalue)))
  have hticked : t.tick.size = t.size := rfl
  have hticked' : s.tick.size = s.size := rfl
  exact ⟨hchain, by omega, hkey⟩

theorem findKey_string {string : List UInt8} {k : Key} (h : findKey cfg string = some k) :
    k.string = string.takeWhile (· ≠ 0) := by
  simpa [eq_comm] using List.find?_some h

/-- A key that is found is the string, or ends at a zero byte of it. -/
theorem returned_foundKey {first c : UInt8} {rest : List UInt8} {k : Key} (hfirst : first ≠ 0)
    (h : findKey cfg (first :: rest ++ [c]) = some k) :
    Returned (first :: rest ++ [c]) s (s.foundKey (first :: rest ++ [c]) k).1
      (s.foundKey (first :: rest ++ [c]) k).2 := by
  have hk := findKey_string h
  have hpos : 0 < k.string.length := by simp [hk, hfirst]
  have hpre : k.string <+: first :: rest ++ [c] := hk ▸ List.takeWhile_prefix _
  unfold foundKey
  split_ifs with heq
  · refine ⟨?_, ?_, ?_⟩
    · rw [Value.spell, heq]
      exact Keeps.disarm
    · exact Nat.lt_add_of_pos_right (by simp)
    · rintro _ ⟨⟩
      exact ⟨hpos, fun _ => by simp [heq]⟩
  · refine ⟨?_, ?_, ?_⟩
    · have hlt : k.string.length < (first :: rest ++ [c]).length :=
        Nat.lt_of_le_of_ne hpre.length_le fun hlen => heq (hpre.eq_of_length hlen)
      exact (Keeps.lose _ (Nat.lt_add_right _ hlt)).trans Keeps.disarm
    · exact Nat.lt_add_of_pos_right (by simp)
    · rintro _ ⟨⟩
      exact ⟨hpos, nofun⟩

theorem returned_pushBack (first : UInt8) (rest : List UInt8) :
    Returned (first :: rest) s (s.pushBack first rest).1 (s.pushBack first rest).2 := by
  have hkeeps : Keeps (first :: rest) s [first] (s.disarm.ungetAll rest) :=
    Keeps.disarm.trans ((Keeps.ungetAll rest).append_left [first])
  have hlt : (s.disarm.ungetAll rest).size < s.size + (first :: rest).length := by
    have hle := hkeeps.size_le
    rw [List.length_singleton] at hle
    omega
  exact ⟨hkeeps, hlt, nofun⟩

/-- The character that a value becomes in the string; for a key that is fewer bytes than it stands for. -/
theorem Returned.char {v : Value} {c : UInt8} (h : Returned [] s v s') (hc : v.char? = some c) :
    Keeps held s (held ++ [c]) (if v = .byte c then s' else s'.lose .nestedKey) := by
  have hkeeps : Keeps held s (held ++ v.spell) s' := by simpa using h.keeps.append_left held
  cases v with
  | none => cases hc
  | byte b =>
    cases hc
    rwa [if_pos rfl]
  | key k =>
    rw [if_neg nofun]
    apply hkeeps.trans
    apply Keeps.lose
    obtain ⟨hpos, hlong⟩ := h.key k rfl
    simp only [List.length_append, List.length_singleton, Value.spell, debt]
    split_ifs with hl
    · have := hlong hl
      omega
    · omega

theorem meets_wgetch_and_keyLoop (hp : cfg.parity = false) (fuel : ℕ) :
    (∀ s : Keyboard, 2 * s.size + 1 ≤ fuel → Meets (wgetch cfg fuel s) (Returned [] s)) ∧
      ∀ (first : UInt8) (rest : List UInt8) (s : Keyboard), first ≠ 0 → 2 * s.size + 2 ≤ fuel →
        Meets (keyLoop cfg fuel first rest s) (Returned (first :: rest) s) := by
  induction fuel with
  | zero => exact ⟨nofun, nofun⟩
  | succ fuel ih =>
    obtain ⟨ihCall, ihLoop⟩ := ih
    constructor
    · intro s hfuel
      rw [wgetch]
      apply (meets_nextValue hp).bind
      rintro v t ⟨hkeeps, hlt, hkey⟩
      have hreturned : Returned [] s v t := ⟨hkeeps, hlt, fun k hk => absurd hk (hkey k)⟩
      apply Meets.bind (Q := Returned [] s)
      · split_ifs with hnone
        · obtain ⟨rfl, -⟩ := hnone
          apply (ihCall { t with interruptFlag := false } (by simp only [size] at hfuel hlt ⊢; omega)).mono
          intro v' u hu
          exact hu.after (hkeeps.trans (Keeps.of_eq rfl rfl rfl))
        · exact hreturned
      · intro v' u hu
        cases v' with
        | none => exact hu
        | key k => exact hu
        | byte b =>
          dsimp only
          split_ifs with hesc
          · have hb : b ≠ 0 := by
              rintro rfl
              exact absurd hesc (by decide)
            have hsize : u.arm.size < s.size := hu.size
            apply (ihLoop b [] u.arm hb (by omega)).mono
            intro v'' w hw
            exact hw.after (hu.keeps.trans Keeps.arm)
          · exact hu
    · intro first rest s hfirst hfuel
      rw [keyLoop]
      dsimp only
      have hticked : s.tick.size = s.size := rfl
      split_ifs with hgo
      · apply (ihCall s.tick (by omega)).bind
        intro v t ht
        have hlt : t.size < s.size := ht.size
        dsimp only
        cases hc : v.char? with
        | none =>
          have hv : v = .none := by
            cases v <;> first | rfl | cases hc
          subst hv
          have hkeeps : Keeps (first :: rest) s (first :: rest) t := by
            simpa [Value.spell] using Keeps.tick.trans (ht.keeps.append_left (first :: rest))
          apply (ihLoop first rest t hfirst (by omega)).mono
          intro v' u hu
          exact hu.after hkeeps
        | some c =>
          have hkeeps : Keeps (first :: rest) s (first :: rest ++ [c])
              (if v = .byte c then t else t.lose .nestedKey) := Keeps.tick.trans (ht.char hc)
          have hsame : size (if v = .byte c then t else t.lose .nestedKey) = t.size := by
            split_ifs <;> rfl
          dsimp only
          split
          · next k hk => exact (returned_foundKey hfirst hk).after hkeeps
          · apply (ihLoop first (rest ++ [c]) _ hfirst (by omega)).mono
            intro v' u hu
            exact hu.after hkeeps
      · exact (returned_pushBack first rest).after Keeps.tick

/-- The values of successive calls, and what has been pushed back, are what was read. -/
theorem meets_calls (hp : cfg.parity = false) (n : ℕ) (s : Keyboard) :
    Meets (calls cfg n s) fun vs s' => Keeps [] s (vs.flatMap Value.spell) s' := by
  induction n generalizing s with
  | zero => exact Keeps.refl
  | succ n ih =>
    rw [calls]
    apply ((meets_wgetch_and_keyLoop hp _).1 s (Nat.le_refl _)).bind
    intro v t ht
    apply (ih t).bind
    intro vs u hu
    have hrest : Keeps v.spell t (v.spell ++ vs.flatMap Value.spell) u := by
      simpa using hu.append_left v.spell
    exact ht.keeps.trans hrest

end Call

/-- As long as the calls return, their values spell what was read, but for what has been pushed back; and
only a read that there is nothing for keeps them from it. -/
def SpellsInput (cfg : KeyConfig) (s : Keyboard) : Prop :=
  ∀ n, match calls cfg n s with
    | .ok (vs, s') => ∃ used, s.outcomes = used ++ s'.outcomes ∧
        vs.flatMap Value.spell ++ s'.inBuff = bytesOf used
    | .error e => e = .blocked

/-- In no call that returns a byte is lost, and no call returns what a failed read has left in `temp`. -/
def LosesNothing (cfg : KeyConfig) (s : Keyboard) : Prop :=
  ∀ n, match calls cfg n s with
    | .ok (_, s') => s'.losses = []
    | .error e => e ≠ .indeterminate

/-- A terminal with one key. -/
def upTable : KeyTable where
  keys := [⟨[27, 91, 65], 259⟩]
  starts := by simp
  apart := by simp
  short := by simp
  cstring := by simp
  values := by simp

end Keyboard
end BsdAdditions.Curse
