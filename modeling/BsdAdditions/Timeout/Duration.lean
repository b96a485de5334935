import BsdAdditions.Common.Numerals
import BsdAdditions.Timeout.Model

/-! The durations of the command line, and what they arm the timer with. -/
namespace BsdAdditions.Timeout
open Common

def EXIT_INVALID : ℕ := 125

/-- The seconds of a unit. -/
def unitSeconds (unit : UInt8) : Option ℚ :=
  if unit = 115 then some 1
  else if unit = 109 then some 60
  else if unit = 104 then some (60 * 60)
  else if unit = 100 then some (60 * 60 * 24)
  else none

/-- Times a positive factor. -/
def scale (k : ℚ) : Number → Number
  | .finite q => .finite (q * k)
  | .infinite negative => .infinite negative
  | .nan => .nan

/-- `ret < 0 || ret >= 100000000UL`, which is false of a NaN. -/
def refused : Number → Bool
  | .finite q => q < 0 || 100000000 ≤ q
  | .infinite _ => true
  | .nan => false

/-- The duration, or the exit status. -/
def parseDuration (duration : List UInt8) : Except ℕ Number :=
  match strtod duration with
  | none => .error EXIT_INVALID
  | some (ret, []) => .ok ret
  | some (_, _ :: _ :: _) => .error EXIT_INVALID
  | some (ret, [unit]) =>
    match unitSeconds unit with
    | none => .error EXIT_INVALID
    | some k => if refused (scale k ret) then .error EXIT_INVALID else .ok (scale k ret)

/-- What `set_interval` arms the timer with; the conversion of what is no number to an integer is not
defined. -/
def timerValue : Number → Option (ℤ × ℤ)
  | .finite iv => some (tvSec iv, tvUsec iv)
  | _ => none

/-! ### What is promised -/

def InRange : Number → Prop
  | .finite q => 0 ≤ q ∧ q < 100000000
  | _ => False

/-- The string is a number with a unit. -/
def HasUnit (duration : List UInt8) : Prop :=
  ∃ ret unit k, strtod duration = some (ret, [unit]) ∧ unitSeconds unit = some k

/-- The unit of seconds. -/
def secondsUnit : UInt8 := 115

/-- Only a valid duration is returned, it arms the timer, and seconds are the unit when there is none. -/
structure Sound (duration : List UInt8) : Prop where
  status : ∀ status, parseDuration duration = .error status → status = EXIT_INVALID
  range : ∀ iv, parseDuration duration = .ok iv → InRange iv
  timer : ∀ iv, parseDuration duration = .ok iv →
    ∃ sec usec, timerValue iv = some (sec, usec) ∧ 0 ≤ sec ∧ 0 ≤ usec ∧ usec < 1000000
  seconds : ¬ HasUnit duration → parseDuration (duration ++ [secondsUnit]) = parseDuration duration

theorem inert_secondsUnit : Inert secondsUnit := by
  constructor <;> decide

theorem inRange_iff_not_refused {v : Number} : InRange v ↔ refused v = false ∧ v ≠ .nan := by
  cases v with
  | finite q => simp [InRange, refused, not_lt, not_le]
  | infinite negative => simp [InRange, refused]
  | nan => simp [InRange]

theorem truncate_of_nonneg {q : ℚ} (h : 0 ≤ q) : truncate q = ⌊q⌋ := if_pos h

/-- A duration in the range is split into seconds and microseconds. -/
theorem timerValue_of_inRange {iv : Number} (h : InRange iv) :
    ∃ sec usec, timerValue iv = some (sec, usec) ∧ 0 ≤ sec ∧ 0 ≤ usec ∧ usec < 1000000 := by
  cases iv with
  | infinite negative => exact h.elim
  | nan => exact h.elim
  | finite q =>
    have hsec : tvSec q = ⌊q⌋ := truncate_of_nonneg h.1
    have hlow : 0 ≤ q - ⌊q⌋ := sub_nonneg.mpr (Int.floor_le q)
    have hhigh : q - ⌊q⌋ < 1 := Int.self_sub_floor q ▸ Int.fract_lt_one q
    have husec : tvUsec q = ⌊(q - ⌊q⌋) * 1000000⌋ := by
      rw [tvUsec, hsec]
      exact truncate_of_nonneg (mul_nonneg hlow (by norm_num))
    refine ⟨_, _, rfl, ?_, ?_, ?_⟩
    · rw [hsec]
      exact Int.floor_nonneg.mpr h.1
    · rw [husec]
      exact Int.floor_nonneg.mpr (mul_nonneg hlow (by norm_num))
    · rw [husec, Int.floor_lt]
      push_cast
      linarith

theorem scale_ne_nan_iff {k : ℚ} {v : Number} : scale k v ≠ .nan ↔ v ≠ .nan := by
  cases v <;> simp [scale]

theorem scale_one (v : Number) : scale 1 v = v := by
  cases v <;> simp [scale]

theorem strtod_secondsUnit (duration : List UInt8) :
    strtod (duration ++ [secondsUnit]) = (strtod duration).map fun r => (r.1, r.2 ++ [secondsUnit]) :=
  inert_secondsUnit.strtod

/-- A duration that is refused is as good as any. -/
theorem sound_of_error {duration : List UInt8} (h : parseDuration duration = .error EXIT_INVALID)
    (hs : ¬ HasUnit duration → parseDuration (duration ++ [secondsUnit]) = .error EXIT_INVALID) :
    Sound duration where
  status status heq := by
    rw [h] at heq
    exact (Except.error.inj heq).symm
  range iv heq := by
    rw [h] at heq
    cases heq
  timer iv heq := by
    rw [h] at heq
    cases heq
  seconds hunit := by rw [hs hunit, h]

theorem sound_of_ok_iff {duration : List UInt8} {iv : Number} (h : parseDuration duration = .ok iv)
    (hs : ¬ HasUnit duration → InRange iv → parseDuration (duration ++ [secondsUnit]) = .ok iv) :
    Sound duration ↔ InRange iv := by
  constructor
  · exact fun hsound => hsound.range iv h
  · intro hrange
    refine ⟨fun status heq => ?_, fun v heq => ?_, fun v heq => ?_, fun hunit => ?_⟩
    · rw [h] at heq
      cases heq
    · rw [h] at heq
      exact Except.ok.inj heq ▸ hrange
    · rw [h] at heq
      exact timerValue_of_inRange (Except.ok.inj heq ▸ hrange)
    · rw [hs hunit hrange, h]

/-- The range is checked only where there is a unit, and there a NaN passes. -/
theorem duration_sound_iff (duration : List UInt8) :
    Sound duration ↔ ∀ ret rest, strtod duration = some (ret, rest) →
      (rest = [] → InRange ret) ∧ (HasUnit duration → ret ≠ .nan) := by
  have hs := strtod_secondsUnit duration
  cases hread : strtod duration with
  | none =>
    rw [hread] at hs
    refine iff_of_true (sound_of_error ?_ fun _ => ?_) (by simp)
    · rw [parseDuration, hread]
    · rw [parseDuration, hs]
      rfl
  | some r =>
    obtain ⟨ret, rest⟩ := r
    rw [hread] at hs
    have hunit : HasUnit duration ↔ ∃ unit k, rest = [unit] ∧ unitSeconds unit = some k := by
      simp [HasUnit, hread]
    have hall : (∀ ret' rest', some (ret, rest) = some (ret', rest') →
        (rest' = [] → InRange ret') ∧ (HasUnit duration → ret' ≠ .nan)) ↔
        (rest = [] → InRange ret) ∧ (HasUnit duration → ret ≠ .nan) := by
      simp
    rw [hall]
    match rest with
    | [] =>
      have hno : ¬ HasUnit duration := by simp [hunit]
      rw [show Sound duration ↔ InRange ret from sound_of_ok_iff ?_ ?_]
      · simp [hno]
      · rw [parseDuration, hread]
      · intro _ hrange
        have hpass := (inRange_iff_not_refused.mp hrange).1
        rw [parseDuration, hs]
        simp [unitSeconds, secondsUnit, scale_one, hpass]
    | [unit] =>
      cases hk : unitSeconds unit with
      | none =>
        have hno : ¬ HasUnit duration := by simp [hunit, hk]
        refine iff_of_true (sound_of_error ?_ fun _ => ?_) ⟨by simp, fun h => absurd h hno⟩
        · simp [parseDuration, hread, hk]
        · simp [parseDuration, hs]
      | some k =>
        have hyes : HasUnit duration := hunit.mpr ⟨unit, k, rfl, hk⟩
        cases hout : refused (scale k ret) with
        | true =>
          have hne : ret ≠ .nan := by
            rintro rfl
            cases hout
          refine iff_of_true (sound_of_error ?_ fun h => absurd hyes h) ⟨by simp, fun _ => hne⟩
          simp [parseDuration, hread, hk, hout]
        | false =>
          have hok : parseDuration duration = .ok (scale k ret) := by
            simp [parseDuration, hread, hk, hout]
          rw [sound_of_ok_iff hok fun h => absurd hyes h, inRange_iff_not_refused, scale_ne_nan_iff]
          simp [hout, hyes]
    | a :: b :: rest =>
      have hno : ¬ HasUnit duration := by simp [hunit]
      refine iff_of_true (sound_of_error ?_ fun _ => ?_) ⟨by simp, fun h => absurd h hno⟩
      · simp [parseDuration, hread]
      · simp [parseDuration, hs]

/-- Without a unit a negative number reaches the timer. -/
theorem negative_duration_passes :
    (parseDuration [45, 53] = .ok (.finite (-5)) ∧ parseDuration [45, 53, 115] = .error EXIT_INVALID ∧
      timerValue (.finite (-5)) = some (-5, 0)) ∧ ¬ Sound [45, 53] := by
  have hrun : parseDuration [45, 53] = .ok (.finite (-5)) ∧
      parseDuration [45, 53, 115] = .error EXIT_INVALID ∧
      timerValue (.finite (-5)) = some (-5, 0) := by decide +kernel
  refine ⟨hrun, fun hsound => ?_⟩
  obtain ⟨hnonneg, -⟩ : InRange (.finite (-5)) := hsound.range _ hrun.1
  norm_num at hnonneg

end BsdAdditions.Timeout
