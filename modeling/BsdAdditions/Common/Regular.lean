import Mathlib.Computability.RegularExpressions
import BsdAdditions.Common.Run

/-! Deterministic automata against regular expressions: the partial derivatives of an expression, and
the rule by which a finite relation between states and derivatives shows what an automaton accepts. -/
namespace BsdAdditions.Common
open RegularExpression

variable {α σ : Type}

def same [DecidableEq α] : RegularExpression α → RegularExpression α → Bool
  | .zero, .zero => true
  | .epsilon, .epsilon => true
  | .char a, .char b => a = b
  | .plus P Q, .plus P' Q' => same P P' && same Q Q'
  | .comp P Q, .comp P' Q' => same P P' && same Q Q'
  | .star P, .star P' => same P P'
  | _, _ => false

theorem same_iff [DecidableEq α] (P Q : RegularExpression α) : same P Q = true ↔ P = Q := by
  induction P generalizing Q with
  | zero => cases Q <;> simp [same]
  | epsilon => cases Q <;> simp [same]
  | char a =>
    cases Q with
    | char b =>
      rw [same, decide_eq_true_eq]
      exact ⟨fun h => by rw [h], fun h => by cases h; rfl⟩
    | _ => simp [same]
  | plus P P' hP hP' =>
    cases Q with
    | plus Q Q' =>
      rw [same, Bool.and_eq_true, hP, hP']
      exact ⟨fun h => by rw [h.1, h.2], fun h => by cases h; exact ⟨rfl, rfl⟩⟩
    | _ => exact iff_of_false Bool.false_ne_true nofun
  | comp P P' hP hP' =>
    cases Q with
    | comp Q Q' =>
      rw [same, Bool.and_eq_true, hP, hP']
      exact ⟨fun h => by rw [h.1, h.2], fun h => by cases h; exact ⟨rfl, rfl⟩⟩
    | _ => exact iff_of_false Bool.false_ne_true nofun
  | star P hP =>
    cases Q with
    | star Q =>
      rw [same, hP]
      exact ⟨fun h => by rw [h], fun h => by cases h; rfl⟩
    | _ => exact iff_of_false Bool.false_ne_true nofun

instance decidableEqRegular [DecidableEq α] : DecidableEq (RegularExpression α) :=
  fun P Q => decidable_of_iff _ (same_iff P Q)

/-- The product without a useless factor. -/
def times : RegularExpression α → RegularExpression α → RegularExpression α
  | .epsilon, Q => Q
  | P, Q => P * Q

theorem times_matches (P Q : RegularExpression α) : (times P Q).matches' = P.matches' * Q.matches' := by
  rw [← matches'_mul]
  cases P <;> simp [times]

/-- The word is in one of the languages. -/
def InAny (Ps : List (RegularExpression α)) (w : List α) : Prop := ∃ P ∈ Ps, w ∈ P.matches'

theorem inAny_append {Ps Qs : List (RegularExpression α)} {w : List α} :
    InAny (Ps ++ Qs) w ↔ InAny Ps w ∨ InAny Qs w := by
  simp only [InAny, List.mem_append, or_and_right, exists_or]

theorem inAny_map_times {Ps : List (RegularExpression α)} {Q : RegularExpression α} {w : List α} :
    InAny (Ps.map (times · Q)) w ↔ ∃ u, InAny Ps u ∧ ∃ v ∈ Q.matches', u ++ v = w := by
  constructor
  · rintro ⟨_, hmem, hw⟩
    obtain ⟨P, hP, rfl⟩ := List.mem_map.mp hmem
    rw [times_matches] at hw
    obtain ⟨u, hu, v, hv, huv⟩ := Language.mem_mul.mp hw
    exact ⟨u, ⟨P, hP, hu⟩, v, hv, huv⟩
  · rintro ⟨u, ⟨P, hP, hu⟩, v, hv, huv⟩
    refine ⟨times P Q, List.mem_map_of_mem hP, ?_⟩
    rw [times_matches]
    exact Language.mem_mul.mpr ⟨u, hu, v, hv, huv⟩

variable [DecidableEq α]

/-- The partial derivatives: what may be left of a word of the language after its first letter. -/
def partials : RegularExpression α → α → List (RegularExpression α)
  | .zero, _ => []
  | .epsilon, _ => []
  | .char b, a => if b = a then [1] else []
  | .plus P Q, a => partials P a ++ partials Q a
  | .comp P Q, a => (partials P a).map (times · Q) ++ if P.matchEpsilon then partials Q a else []
  | .star P, a => (partials P a).map (times · P.star)

/-- The partial derivatives make up the derivative. -/
theorem mem_deriv_iff_partials (P : RegularExpression α) (a : α) (w : List α) :
    w ∈ (P.deriv a).matches' ↔ InAny (partials P a) w := by
  induction P generalizing w with
  | zero => simp [partials, InAny]
  | epsilon => simp [partials, InAny]
  | char b =>
    by_cases h : b = a
    · simp [partials, InAny, RegularExpression.deriv, h]
    · simp [partials, InAny, RegularExpression.deriv, h]
  | plus P Q hP hQ =>
    rw [partials, inAny_append, ← hP, ← hQ]
    rfl
  | comp P Q hP hQ =>
    have hprod : w ∈ (P.deriv a * Q).matches' ↔ InAny ((partials P a).map (times · Q)) w := by
      simp only [matches'_mul, Language.mem_mul, hP, inAny_map_times]
    have hderiv : (P.comp Q).deriv a =
        if P.matchEpsilon then P.deriv a * Q + Q.deriv a else P.deriv a * Q := rfl
    rw [partials, inAny_append, ← hprod, hderiv]
    by_cases h : P.matchEpsilon = true
    · simp only [h, if_true, matches'_add, Language.mem_add, hQ]
    · simp [h, InAny]
  | star P hP =>
    simp only [deriv_star, matches'_mul, Language.mem_mul, hP, partials, inAny_map_times]

/-- What may be left of a word of one of the languages after its first letter. -/
def afterLetter (Ps : List (RegularExpression α)) (a : α) : List (RegularExpression α) :=
  Ps.flatMap (partials · a)

theorem inAny_cons (Ps : List (RegularExpression α)) (a : α) (w : List α) :
    InAny Ps (a :: w) ↔ InAny (afterLetter Ps a) w := by
  have hmem : ∀ P : RegularExpression α, a :: w ∈ P.matches' ↔ InAny (partials P a) w := by
    intro P
    rw [← mem_deriv_iff_partials, ← rmatch_iff_matches', ← rmatch_iff_matches']
    rfl
  simp only [InAny, afterLetter, List.mem_flatMap, hmem]
  constructor
  · rintro ⟨P, hP, Q, hQ, hw⟩
    exact ⟨Q, ⟨P, hP, hQ⟩, hw⟩
  · rintro ⟨Q, ⟨P, hP, hQ⟩, hw⟩
    exact ⟨P, hP, Q, hQ, hw⟩

theorem inAny_nil (Ps : List (RegularExpression α)) :
    InAny Ps [] ↔ Ps.any RegularExpression.matchEpsilon = true := by
  simp only [InAny, ← rmatch_iff_matches', List.any_eq_true]
  rfl

/-- An automaton whose states go along with expressions, letter by letter, recognizes their
languages. -/
theorem recognizes_of_simulation {step : σ → α → Option σ} {R : σ → List (RegularExpression α) → Prop}
    {accepts : σ → Prop} {letters : List α}
    (hstep : ∀ s Ps t, ∀ a ∈ letters, R s Ps → step s a = some t → R t (afterLetter Ps a))
    (haccepts : ∀ s Ps, R s Ps → (accepts s ↔ Ps.any RegularExpression.matchEpsilon = true))
    {s t : σ} {Ps : List (RegularExpression α)} {w : List α} (hw : ∀ a ∈ w, a ∈ letters) (hs : R s Ps)
    (hrun : run step s w = some t) : accepts t ↔ InAny Ps w := by
  induction w generalizing s Ps with
  | nil =>
    obtain rfl := Option.some.inj hrun
    rw [haccepts s Ps hs, inAny_nil]
  | cons a w ih =>
    obtain ⟨u, hu, hrest⟩ := run_cons_eq_some.mp hrun
    have hnext := hstep s Ps u a (hw a List.mem_cons_self) hs hu
    rw [ih (fun b hb => hw b (List.mem_cons_of_mem a hb)) hnext hrest, inAny_cons]

/-! ### Checking a finite simulation -/

variable [DecidableEq σ]

/-- No letter leads out of the pairs, and a state accepts just when the word may end there. -/
def simulates (step : σ → α → Option σ) (accepts : σ → Bool) (letters : List α)
    (pairs : List (σ × List (RegularExpression α))) : Bool :=
  pairs.all fun p =>
    accepts p.1 = p.2.any RegularExpression.matchEpsilon &&
      letters.all fun a => (step p.1 a).all fun t => (t, afterLetter p.2 a) ∈ pairs

section Simulates
variable {step : σ → α → Option σ} {accepts : σ → Bool} {letters : List α}
  {pairs : List (σ × List (RegularExpression α))} {s t : σ} {Ps : List (RegularExpression α)} {w : List α}

theorem simulates_pair (hpairs : simulates step accepts letters pairs = true) (hs : (s, Ps) ∈ pairs) :
    accepts s = Ps.any RegularExpression.matchEpsilon ∧
      ∀ a ∈ letters, ∀ t, step s a = some t → (t, afterLetter Ps a) ∈ pairs := by
  have h := List.all_eq_true.mp hpairs (s, Ps) hs
  simp only [Bool.and_eq_true, decide_eq_true_eq, List.all_eq_true, Option.all_eq_true] at h
  exact h

/-- A check over finitely many pairs tells what the automaton recognizes. -/
theorem recognizes_of_simulates (hpairs : simulates step accepts letters pairs = true)
    (hw : ∀ a ∈ w, a ∈ letters) (hs : (s, Ps) ∈ pairs) (hrun : run step s w = some t) :
    accepts t = true ↔ InAny Ps w := by
  apply recognizes_of_simulation (R := fun u Qs => (u, Qs) ∈ pairs) _ _ hw hs hrun
  · intro u Qs v a ha hmem hv
    exact (simulates_pair hpairs hmem).2 a ha v hv
  · intro u Qs hmem
    rw [(simulates_pair hpairs hmem).1]

/-- The states that words lead to are among the pairs. -/
theorem mem_of_simulates (hpairs : simulates step accepts letters pairs = true)
    (hw : ∀ a ∈ w, a ∈ letters) (hs : (s, Ps) ∈ pairs) (hrun : run step s w = some t) :
    t ∈ pairs.map Prod.fst := by
  induction w generalizing s Ps with
  | nil =>
    obtain rfl := Option.some.inj hrun
    exact List.mem_map_of_mem hs
  | cons a w ih =>
    obtain ⟨u, hu, hrest⟩ := run_cons_eq_some.mp hrun
    have hnext := (simulates_pair hpairs hs).2 a (hw a List.mem_cons_self) u hu
    exact ih (fun b hb => hw b (List.mem_cons_of_mem a hb)) hnext hrest

end Simulates

end BsdAdditions.Common
