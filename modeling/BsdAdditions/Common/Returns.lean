import Mathlib.Order.Basic
import BsdAdditions.Common.Prog

/-! Total correctness: rules for programs that return. -/
namespace BsdAdditions.Common.Prog

variable {ε σ α β : Type}

/-- From `s` the program returns, and `post` holds then. -/
def Returns (m : StateT σ (Except ε) α) (post : α → σ → Prop) (s : σ) : Prop :=
  ∃ a t, m s = .ok (a, t) ∧ post a t

theorem Returns.mono {m : StateT σ (Except ε) α} {post post' : α → σ → Prop} {s : σ}
    (h : Returns m post s) (himp : ∀ a t, post a t → post' a t) : Returns m post' s := by
  obtain ⟨a, t, hm, hpost⟩ := h
  exact ⟨a, t, hm, himp a t hpost⟩

/-- Two postconditions meet in the one state that is reached. -/
theorem Returns.and {m : StateT σ (Except ε) α} {post post' : α → σ → Prop} {s : σ}
    (h : Returns m post s) (h' : Returns m post' s) : ∃ a t, post a t ∧ post' a t := by
  obtain ⟨a, t, hm, hpost⟩ := h
  obtain ⟨a', t', hm', hpost'⟩ := h'
  rw [hm] at hm'
  cases hm'
  exact ⟨a, t, hpost, hpost'⟩

/-- A program that returns satisfies what it is known to satisfy if it returns. -/
theorem Returns.and_wp {m : Prog σ α} {post post' : α → σ → Prop} {s : σ} (h : Returns m post s)
    (h' : wp m post' s) : Returns m (fun a t => post a t ∧ post' a t) s := by
  obtain ⟨a, t, hm, hpost⟩ := h
  exact ⟨a, t, hm, hpost, wp_ok h' hm⟩

@[simp] theorem returns_pure (a : α) (post : α → σ → Prop) (s : σ) :
    Returns (pure a : StateT σ (Except ε) α) post s ↔ post a s := by
  constructor
  · rintro ⟨_, _, ⟨⟩, h⟩
    exact h
  · exact fun h => ⟨a, s, rfl, h⟩

@[simp] theorem returns_bind (m : StateT σ (Except ε) α) (f : α → StateT σ (Except ε) β)
    (post : β → σ → Prop) (s : σ) :
    Returns (m >>= f) post s ↔ Returns m (fun a t => Returns (f a) post t) s := by
  constructor
  · rintro ⟨b, u, hmf, h⟩
    simp only [bind, StateT.bind, Except.bind] at hmf
    cases hm : m s with
    | error e => simp [hm] at hmf
    | ok p => exact ⟨p.1, p.2, hm, b, u, by simpa [hm] using hmf, h⟩
  · rintro ⟨a, t, hm, b, u, hf, h⟩
    exact ⟨b, u, (bind_of_ok hm).trans hf, h⟩

/-- A first program whose end is known. -/
theorem Returns.after {m : StateT σ (Except ε) α} {f : α → StateT σ (Except ε) β} {post : β → σ → Prop}
    {s t : σ} {a : α} (hm : m s = .ok (a, t)) (hf : Returns (f a) post t) : Returns (m >>= f) post s :=
  (returns_bind m f post s).mpr ⟨a, t, hm, hf⟩

@[simp] theorem returns_get (post : σ → σ → Prop) (s : σ) :
    Returns (get : StateT σ (Except ε) σ) post s ↔ post s s := returns_pure s post s

@[simp] theorem returns_set (t : σ) (post : PUnit → σ → Prop) (s : σ) :
    Returns (set t : StateT σ (Except ε) PUnit) post s ↔ post ⟨⟩ t := returns_pure ⟨⟩ post t

@[simp] theorem returns_modify (f : σ → σ) (post : PUnit → σ → Prop) (s : σ) :
    Returns (modify f : StateT σ (Except ε) PUnit) post s ↔ post ⟨⟩ (f s) := returns_pure ⟨⟩ post (f s)

@[simp] theorem returns_orFault_some (a : α) (post : α → σ → Prop) (s : σ) :
    Returns (orFault (some a) : Prog σ α) post s ↔ post a s := returns_pure a post s

@[simp] theorem returns_fault (post : α → σ → Prop) (s : σ) :
    ¬ Returns (fault : Prog σ α) post s := by
  rintro ⟨_, _, ⟨⟩, _⟩

theorem returns_ite {c : Prop} [Decidable c] {m m' : StateT σ (Except ε) α} {post : α → σ → Prop}
    {s : σ} (h : c → Returns m post s) (h' : ¬ c → Returns m' post s) :
    Returns (if c then m else m') post s := by
  split
  · exact h ‹_›
  · exact h' ‹_›

theorem returns_onlyIf {c : Prop} [Decidable c] {m : Prog σ Unit} {post : Unit → σ → Prop} {s : σ}
    (h : c → Returns m post s) (h' : ¬ c → post () s) : Returns (onlyIf c m) post s :=
  returns_ite h fun hc => (returns_pure _ _ _).mpr (h' hc)

/-- One round of a loop without a local value. -/
theorem returns_repeatWhile_succ {fuel : ℕ} {cond : Prog σ Bool} {body : Prog σ Unit}
    {post : Unit → σ → Prop} {s : σ} : Returns (repeatWhile (fuel + 1) cond body) post s ↔
      Returns cond (fun go t => if go then
        Returns body (fun _ u => Returns (repeatWhile fuel cond body) post u) t else post () t) s := by
  rw [repeatWhile, loop, returns_bind]
  have hround : ∀ (go : Bool) (t : σ),
      Returns (if go = true then do
        loop (fun _ => cond) (fun _ => body) fuel (← body) else pure () : Prog σ Unit) post t ↔
      if go then Returns body (fun _ u => Returns (repeatWhile fuel cond body) post u) t else post () t := by
    intro go t
    cases go with
    | false => exact returns_pure _ _ _
    | true => exact returns_bind _ _ _ _
  constructor
  · exact fun h => h.mono fun go t => (hround go t).mp
  · exact fun h => h.mono fun go t => (hround go t).mpr

/-- Repeating a program, with an invariant that counts the rounds. -/
theorem returns_times {m : Prog σ Unit} {inv : ℕ → σ → Prop} {n : ℕ}
    (hm : ∀ i s, i < n → inv i s → Returns m (fun _ => inv (i + 1)) s) {k i : ℕ} (hn : i + k = n)
    {s : σ} (h : inv i s) : Returns (times m k) (fun _ => inv n) s := by
  induction k generalizing i s with
  | zero =>
    subst hn
    exact (returns_pure _ _ _).mpr h
  | succ k ih =>
    rw [times, returns_bind]
    refine (hm i s (by omega) h).mono fun _ t ht => ?_
    exact ih (by omega) ht

end BsdAdditions.Common.Prog
