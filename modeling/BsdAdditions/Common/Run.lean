import Mathlib.Data.List.Basic

/-! Runs of a partial step function over a list of events, and the invariant rule for them. -/
namespace BsdAdditions.Common

variable {σ ε : Type*}

/-- The state after the events, or `none` when one of them is not enabled. -/
def run (step : σ → ε → Option σ) : σ → List ε → Option σ
  | s, [] => some s
  | s, e :: es => (step s e).bind fun s' => run step s' es

/-- Every step taken in the run meets `ok`. -/
def StepsMeet (step : σ → ε → Option σ) (ok : σ → ε → Prop) : σ → List ε → Prop
  | _, [] => True
  | s, e :: es => ok s e ∧ ∀ s', step s e = some s' → StepsMeet step ok s' es

@[simp] theorem run_nil (step : σ → ε → Option σ) (s : σ) : run step s [] = some s := rfl

theorem run_cons_eq_some {step : σ → ε → Option σ} {s t : σ} {e : ε} {es : List ε} :
    run step s (e :: es) = some t ↔ ∃ s', step s e = some s' ∧ run step s' es = some t := by
  simp [run, Option.bind_eq_some_iff]

instance StepsMeet.instDecidable (step : σ → ε → Option σ) (ok : σ → ε → Prop)
    [∀ s e, Decidable (ok s e)] : ∀ s es, Decidable (StepsMeet step ok s es)
  | _, [] => .isTrue trivial
  | s, e :: es =>
    match h : step s e with
    | none => decidable_of_iff (ok s e) (by simp [StepsMeet, h])
    | some s' =>
      have := instDecidable step ok s' es
      decidable_of_iff (ok s e ∧ StepsMeet step ok s' es) (by simp [StepsMeet, h])

/-- What holds at the start and is kept by every step that meets `ok` holds at the end of
every run whose steps all meet `ok`. -/
theorem run_invariant {step : σ → ε → Option σ} {ok : σ → ε → Prop} {I : σ → Prop}
    (hstep : ∀ s e s', ok s e → I s → step s e = some s' → I s')
    {s t : σ} {es : List ε} (hs : I s) (hok : StepsMeet step ok s es)
    (hrun : run step s es = some t) : I t := by
  induction es generalizing s with
  | nil => cases hrun; exact hs
  | cons e es ih =>
    obtain ⟨s', hs', hr⟩ := run_cons_eq_some.mp hrun
    exact ih (hstep s e s' hok.1 hs hs') (hok.2 s' hs') hr

theorem run_append {step : σ → ε → Option σ} {s t : σ} {es es' : List ε} :
    run step s (es ++ es') = some t ↔ ∃ s', run step s es = some s' ∧ run step s' es' = some t := by
  induction es generalizing s with
  | nil => simp
  | cons e es ih =>
    simp only [List.cons_append, run_cons_eq_some, ih]
    constructor
    · rintro ⟨s₁, h₁, s₂, h₂, h₃⟩
      exact ⟨s₂, ⟨s₁, h₁, h₂⟩, h₃⟩
    · rintro ⟨s₂, ⟨s₁, h₁, h₂⟩, h₃⟩
      exact ⟨s₁, h₁, s₂, h₂, h₃⟩

theorem StepsMeet.of_append {step : σ → ε → Option σ} {ok : σ → ε → Prop} {s s' : σ} {es es' : List ε}
    (h : StepsMeet step ok s (es ++ es')) (hrun : run step s es = some s') :
    StepsMeet step ok s es ∧ StepsMeet step ok s' es' := by
  induction es generalizing s with
  | nil =>
    obtain rfl := Option.some.inj hrun
    exact ⟨trivial, h⟩
  | cons e es ih =>
    obtain ⟨s₁, h₁, h₂⟩ := run_cons_eq_some.mp hrun
    refine ⟨⟨h.1, fun t ht => ?_⟩, (ih (h.2 s₁ h₁) h₂).2⟩
    obtain rfl := Option.some.inj (h₁.symm.trans ht)
    exact (ih (h.2 s₁ h₁) h₂).1

/-- An element of a list with one more at its end is that one or stood before it. -/
theorem append_singleton_eq_append_cons {l pre post : List ε} {a b : ε}
    (h : l ++ [a] = pre ++ b :: post) :
    (post = [] ∧ l = pre ∧ a = b) ∨ ∃ post', post = post' ++ [a] ∧ l = pre ++ b :: post' := by
  rcases List.eq_nil_or_concat post with rfl | ⟨post', c, rfl⟩
  · obtain ⟨hl, hab⟩ := List.append_inj' h rfl
    exact .inl ⟨rfl, hl, List.singleton_inj.mp hab⟩
  · rw [List.concat_eq_append, ← List.cons_append, ← List.append_assoc] at h
    obtain ⟨hl, hac⟩ := List.append_inj' h rfl
    rw [List.singleton_inj.mp hac]
    exact .inr ⟨post', List.concat_eq_append .., hl⟩

/-- The invariant rule with the events so far in sight. -/
theorem run_invariant_history {step : σ → ε → Option σ} {ok : σ → ε → Prop} {I : List ε → σ → Prop}
    (hstep : ∀ past s e s', ok s e → I past s → step s e = some s' → I (past ++ [e]) s')
    {past : List ε} {s t : σ} {es : List ε} (hs : I past s) (hok : StepsMeet step ok s es)
    (hrun : run step s es = some t) : I (past ++ es) t := by
  induction es generalizing past s with
  | nil => cases hrun; simpa using hs
  | cons e es ih =>
    obtain ⟨s', hs', hr⟩ := run_cons_eq_some.mp hrun
    simpa using ih (hstep past s e s' hok.1 hs hs') (hok.2 s' hs') hr

theorem stepsMeet_true (step : σ → ε → Option σ) (s : σ) (es : List ε) :
    StepsMeet step (fun _ _ => True) s es := by
  induction es generalizing s with
  | nil => trivial
  | cons e es ih => exact ⟨trivial, fun s' _ => ih s'⟩

/-- What every step keeps, every run keeps. -/
theorem run_keeps {step : σ → ε → Option σ} {I : σ → Prop}
    (hstep : ∀ s e s', I s → step s e = some s' → I s') {s t : σ} {es : List ε} (hs : I s)
    (hrun : run step s es = some t) : I t :=
  run_invariant (fun s e s' _ => hstep s e s') hs (stepsMeet_true step s es) hrun

/-- Two conditions that agree wherever an invariant of the steps that meet the first one holds. -/
theorem stepsMeet_congr {step : σ → ε → Option σ} {ok ok' : σ → ε → Prop} {I : σ → Prop}
    (hkeep : ∀ s e s', I s → ok s e → step s e = some s' → I s')
    (hiff : ∀ s e, I s → (ok s e ↔ ok' s e)) {s : σ} (es : List ε) (hs : I s) :
    StepsMeet step ok s es ↔ StepsMeet step ok' s es := by
  induction es generalizing s with
  | nil => rfl
  | cons e es ih =>
    rw [StepsMeet, StepsMeet, ← hiff s e hs]
    apply and_congr_right
    intro hok
    constructor
    · intro h s' hs'
      exact (ih (hkeep s e s' hs hok hs')).mp (h s' hs')
    · intro h s' hs'
      exact (ih (hkeep s e s' hs hok hs')).mpr (h s' hs')

/-- Every state that the run passes through satisfies `P`. -/
def Throughout (step : σ → ε → Option σ) (P : σ → Prop) : σ → List ε → Prop
  | s, [] => P s
  | s, e :: es => P s ∧ ∀ s', step s e = some s' → Throughout step P s' es

theorem Throughout.head {step : σ → ε → Option σ} {P : σ → Prop} {s : σ} {es : List ε}
    (h : Throughout step P s es) : P s := by
  cases es with
  | nil => exact h
  | cons e es => exact h.1

/-- When a step from a state with `P` leads to such a state just when it meets `ok`, then a run
stays within `P` just when all its steps meet `ok`. -/
theorem throughout_iff_stepsMeet {step : σ → ε → Option σ} {sane ok : σ → ε → Prop} {I P : σ → Prop}
    (hstep : ∀ s e s', I s → P s → sane s e → step s e = some s' → I s' ∧ (P s' ↔ ok s e))
    {s t : σ} {es : List ε} (hI : I s) (hP : P s) (hsane : StepsMeet step sane s es)
    (hrun : run step s es = some t) : Throughout step P s es ↔ StepsMeet step ok s es := by
  induction es generalizing s with
  | nil => exact ⟨fun _ => trivial, fun _ => hP⟩
  | cons e es ih =>
    obtain ⟨s', hs', hr⟩ := run_cons_eq_some.mp hrun
    obtain ⟨hI', hiff⟩ := hstep s e s' hI hP hsane.1 hs'
    constructor
    · intro h
      have h' := h.2 s' hs'
      refine ⟨hiff.mp h'.head, fun u hu => ?_⟩
      obtain rfl : s' = u := Option.some.inj (hs'.symm.trans hu)
      exact (ih hI' h'.head (hsane.2 s' hs') hr).mp h'
    · intro h
      refine ⟨hP, fun u hu => ?_⟩
      obtain rfl : s' = u := Option.some.inj (hs'.symm.trans hu)
      exact (ih hI' (hiff.mpr h.1) (hsane.2 s' hs') hr).mpr (h.2 s' hs')

end BsdAdditions.Common
