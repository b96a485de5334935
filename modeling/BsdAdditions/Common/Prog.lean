import Mathlib.Data.Nat.Notation
import Mathlib.Order.Defs.Unbundled

/-! Stateful programs that may stop early, loops with fuel, and rules of pre- and postconditions
for them. A program that runs out of fuel has not returned; one that faults has done something
that the language leaves undefined. -/
namespace BsdAdditions.Common

inductive Stop where
  | fault
  | fuel
  deriving DecidableEq

abbrev Prog (σ α : Type) := StateT σ (Except Stop) α

namespace Prog

variable {σ α β : Type}

def fault : Prog σ α := throw .fault

def outOfFuel : Prog σ α := throw .fuel

/-- The value if there is one, a fault otherwise. -/
def orFault : Option α → Prog σ α
  | some a => pure a
  | none => fault

/-- Runs the program when the condition holds. -/
def onlyIf (c : Prop) [Decidable c] (m : Prog σ Unit) : Prog σ Unit := if c then m else pure ()

/-- A loop over a local value: `cond` is evaluated before each round. -/
def loop (cond : β → Prog σ Bool) (body : β → Prog σ β) : ℕ → β → Prog σ β
  | 0, _ => outOfFuel
  | fuel + 1, b => do
    if ← cond b then loop cond body fuel (← body b) else pure b

/-- A loop without a local value. -/
def repeatWhile (fuel : ℕ) (cond : Prog σ Bool) (body : Prog σ Unit) : Prog σ Unit :=
  loop (fun _ => cond) (fun _ => body) fuel ()

/-- Repeats the program a given number of times. -/
def times (m : Prog σ Unit) : ℕ → Prog σ Unit
  | 0 => pure ()
  | k + 1 => do m; times m k

theorem bind_of_ok {ε : Type} {m : StateT σ (Except ε) α} {f : α → StateT σ (Except ε) β} {s t : σ}
    {a : α} (h : m s = .ok (a, t)) : (m >>= f) s = f a t := by
  simp [bind, StateT.bind, h, Except.bind]

/-- From `s` the program does not fault, and if it returns then `post` holds. -/
def wp (m : Prog σ α) (post : α → σ → Prop) (s : σ) : Prop :=
  match m s with
  | .ok (a, t) => post a t
  | .error .fault => False
  | .error .fuel => True

theorem wp_mono {m : Prog σ α} {post post' : α → σ → Prop} {s : σ} (h : wp m post s)
    (himp : ∀ a t, post a t → post' a t) : wp m post' s := by
  unfold wp at h ⊢
  split at h <;> simp_all

theorem wp_ok {m : Prog σ α} {post : α → σ → Prop} {s t : σ} {a : α} (h : wp m post s)
    (hm : m s = .ok (a, t)) : post a t := by
  simpa [wp, hm] using h

theorem wp_of_ok {m : Prog σ α} {post : α → σ → Prop} {s t : σ} {a : α} (hm : m s = .ok (a, t))
    (h : post a t) : wp m post s := by
  simpa [wp, hm] using h

theorem wp_ne_fault {m : Prog σ α} {post : α → σ → Prop} {s : σ} (h : wp m post s) :
    m s ≠ .error .fault := by
  intro hm
  simp [wp, hm] at h

@[simp] theorem wp_pure (a : α) (post : α → σ → Prop) (s : σ) :
    wp (pure a : Prog σ α) post s ↔ post a s := Iff.rfl

@[simp] theorem wp_bind (m : Prog σ α) (f : α → Prog σ β) (post : β → σ → Prop) (s : σ) :
    wp (m >>= f) post s ↔ wp m (fun a t => wp (f a) post t) s := by
  simp only [wp, bind, StateT.bind, Except.bind]
  rcases m s with e | ⟨a, t⟩
  · cases e <;> rfl
  · rfl

@[simp] theorem wp_get (post : σ → σ → Prop) (s : σ) :
    wp (get : Prog σ σ) post s ↔ post s s := Iff.rfl

@[simp] theorem wp_set (t : σ) (post : PUnit → σ → Prop) (s : σ) :
    wp (set t : Prog σ PUnit) post s ↔ post ⟨⟩ t := Iff.rfl

@[simp] theorem wp_modify (f : σ → σ) (post : PUnit → σ → Prop) (s : σ) :
    wp (modify f : Prog σ PUnit) post s ↔ post ⟨⟩ (f s) := Iff.rfl

@[simp] theorem wp_fault (post : α → σ → Prop) (s : σ) :
    wp (fault : Prog σ α) post s ↔ False := Iff.rfl

@[simp] theorem wp_outOfFuel (post : α → σ → Prop) (s : σ) :
    wp (outOfFuel : Prog σ α) post s ↔ True := Iff.rfl

@[simp] theorem wp_orFault_some (a : α) (post : α → σ → Prop) (s : σ) :
    wp (orFault (some a) : Prog σ α) post s ↔ post a s := Iff.rfl

theorem wp_ite {c : Prop} [Decidable c] {m m' : Prog σ α} {post : α → σ → Prop} {s : σ}
    (h : c → wp m post s) (h' : ¬ c → wp m' post s) : wp (if c then m else m') post s := by
  split
  · exact h ‹_›
  · exact h' ‹_›

theorem wp_onlyIf {c : Prop} [Decidable c] {m : Prog σ Unit} {post : Unit → σ → Prop} {s : σ}
    (h : c → wp m post s) (h' : ¬ c → post () s) : wp (onlyIf c m) post s :=
  wp_ite h h'

/-- The loop rule: what each round keeps holds when the condition first fails. -/
theorem wp_loop {cond : β → Prog σ Bool} {body : β → Prog σ β} {post : β → σ → Prop}
    {inv : β → σ → Prop}
    (hround : ∀ b s, inv b s →
      wp (cond b) (fun go t => if go then wp (body b) inv t else post b t) s)
    (fuel : ℕ) (b : β) (s : σ) (h : inv b s) : wp (loop cond body fuel b) post s := by
  induction fuel generalizing b s with
  | zero => simp [loop]
  | succ fuel ih =>
    simp only [loop, wp_bind]
    refine wp_mono (hround b s h) fun go t hgo => ?_
    cases go with
    | false => simpa using hgo
    | true =>
      simp only [if_true, wp_bind] at hgo ⊢
      exact wp_mono hgo fun b' t' hb => ih b' t' hb

theorem wp_repeatWhile {cond : Prog σ Bool} {body : Prog σ Unit} {I Q : σ → Prop}
    (hround : ∀ s, I s → wp cond (fun go t => if go then wp body (fun _ => I) t else Q t) s)
    (fuel : ℕ) {s : σ} (h : I s) : wp (repeatWhile fuel cond body) (fun _ => Q) s :=
  wp_loop (fun _ => hround) fuel () s h

theorem wp_times {m : Prog σ Unit} {I : σ → Prop} (hm : ∀ s, I s → wp m (fun _ => I) s)
    (k : ℕ) (s : σ) (h : I s) : wp (times m k) (fun _ => I) s := by
  induction k generalizing s with
  | zero => exact h
  | succ k ih =>
    simp only [times, wp_bind]
    exact wp_mono (hm s h) fun _ t ht => ih t ht

/-! ### Programs that keep an invariant and move along a preorder -/

/-- From a state with `I` the program ends in one with `I` that is related to it. -/
def Keeps (I : σ → Prop) (R : σ → σ → Prop) (m : Prog σ α) : Prop :=
  ∀ s, I s → wp m (fun _ t => I t ∧ R s t) s

section Keeps
variable {I : σ → Prop} {R : σ → σ → Prop}

theorem Keeps.outOfFuel : Keeps I R (outOfFuel : Prog σ α) := fun _ _ => trivial

theorem Keeps.weaken {R' : σ → σ → Prop} {m : Prog σ α} (hm : Keeps I R m)
    (hR : ∀ s t, R s t → R' s t) : Keeps I R' m :=
  fun s hs => wp_mono (hm s hs) fun _ _ h => ⟨h.1, hR _ _ h.2⟩

theorem Keeps.ite {c : Prop} [Decidable c] {m m' : Prog σ α} (h : Keeps I R m)
    (h' : Keeps I R m') : Keeps I R (if c then m else m') := by
  split
  · exact h
  · exact h'

section Refl
variable [Std.Refl R]

theorem Keeps.pure (a : α) : Keeps I R (pure a : Prog σ α) := fun s h => ⟨h, Std.Refl.refl s⟩

theorem Keeps.get : Keeps I R (get : Prog σ σ) := fun s h => ⟨h, Std.Refl.refl s⟩

theorem Keeps.onlyIf {c : Prop} [Decidable c] {m : Prog σ Unit} (h : Keeps I R m) :
    Keeps I R (onlyIf c m) :=
  Keeps.ite h (Keeps.pure ())

end Refl

/-- A property that moving along `R` never loses may be added to the invariant. -/
theorem Keeps.and {P : σ → Prop} {m : Prog σ α} (hm : Keeps I R m)
    (hP : ∀ s t, R s t → P s → P t) : Keeps (fun s => I s ∧ P s) R m :=
  fun s hs => wp_mono (hm s hs.1) fun _ t ⟨ht, hst⟩ => ⟨⟨ht, hP s t hst hs.2⟩, hst⟩

/-- What keeps the invariant may follow anything that has kept it. -/
theorem Keeps.after [IsTrans σ R] {m : Prog σ α} {f : α → Prog σ β} {s s' : σ}
    (hm : wp m (fun _ t => I t ∧ R s t) s') (hf : ∀ a, Keeps I R (f a)) :
    wp (m >>= f) (fun _ t => I t ∧ R s t) s' := by
  rw [wp_bind]
  refine wp_mono hm fun a t ⟨ht, hst⟩ => ?_
  exact wp_mono (hf a t ht) fun _ u ⟨hu, htu⟩ => ⟨hu, IsTrans.trans s t u hst htu⟩

theorem Keeps.bind [IsTrans σ R] {m : Prog σ α} {f : α → Prog σ β} (hm : Keeps I R m)
    (hf : ∀ a, Keeps I R (f a)) : Keeps I R (m >>= f) :=
  fun s hs => Keeps.after (hm s hs) hf

variable [IsPreorder σ R]

theorem Keeps.loop {cond : β → Prog σ Bool} {body : β → Prog σ β} (hc : ∀ b, Keeps I R (cond b))
    (hb : ∀ b, Keeps I R (body b)) (fuel : ℕ) (b : β) : Keeps I R (loop cond body fuel b) := by
  induction fuel generalizing b with
  | zero => exact Keeps.outOfFuel
  | succ fuel ih =>
    exact (hc b).bind fun go => Keeps.ite ((hb b).bind ih) (Keeps.pure b)

theorem Keeps.repeatWhile {cond : Prog σ Bool} {body : Prog σ Unit} (hc : Keeps I R cond)
    (hb : Keeps I R body) (fuel : ℕ) : Keeps I R (repeatWhile fuel cond body) :=
  Keeps.loop (fun _ => hc) (fun _ => hb) fuel ()

/-- A loop whose body may rely on the condition. -/
theorem Keeps.repeatWhileOn {P : σ → Prop} {cond : Prog σ Bool} {body : Prog σ Unit}
    (hc : ∀ s, I s → wp cond (fun go t => I t ∧ R s t ∧ (go = true → P t)) s)
    (hb : ∀ s, I s → P s → wp body (fun _ t => I t ∧ R s t) s) (fuel : ℕ) :
    Keeps I R (Prog.repeatWhile fuel cond body) := by
  intro s hs
  refine wp_repeatWhile (I := fun t => I t ∧ R s t) (fun t ⟨ht, hst⟩ => ?_) fuel ⟨hs, Std.Refl.refl s⟩
  refine wp_mono (hc t ht) fun go u ⟨hu, htu, hgo⟩ => ?_
  have hsu : R s u := IsTrans.trans s t u hst htu
  cases go with
  | false => exact ⟨hu, hsu⟩
  | true =>
    exact wp_mono (hb u hu (hgo rfl)) fun _ v ⟨hv, huv⟩ => ⟨hv, IsTrans.trans s u v hsu huv⟩

theorem Keeps.times {m : Prog σ Unit} (hm : Keeps I R m) (k : ℕ) : Keeps I R (times m k) := by
  induction k with
  | zero => exact Keeps.pure ()
  | succ k ih => exact hm.bind fun _ => ih

end Keeps
/-! ### Programs that never run out of fuel -/

def Halts (m : Prog σ α) : Prop := ∀ s, m s ≠ .error .fuel

theorem Halts.pure (a : α) : Halts (pure a : Prog σ α) := by
  rintro s ⟨⟩

theorem Halts.get : Halts (get : Prog σ σ) := by
  rintro s ⟨⟩

theorem Halts.set (t : σ) : Halts (set t : Prog σ PUnit) := by
  rintro s ⟨⟩

theorem Halts.modify (f : σ → σ) : Halts (modify f : Prog σ PUnit) := by
  rintro s ⟨⟩

theorem Halts.orFault (o : Option α) : Halts (orFault o : Prog σ α) := by
  rintro s h
  cases o <;> cases h

theorem Halts.ite {c : Prop} [Decidable c] {m m' : Prog σ α} (h : Halts m) (h' : Halts m') :
    Halts (if c then m else m') := by
  split
  · exact h
  · exact h'

theorem Halts.onlyIf {c : Prop} [Decidable c] {m : Prog σ Unit} (h : c → Halts m) :
    Halts (onlyIf c m) := by
  unfold Prog.onlyIf
  split
  · exact h ‹_›
  · exact Halts.pure ()

theorem Halts.bind {m : Prog σ α} {f : α → Prog σ β} (hm : Halts m) (hf : ∀ a, Halts (f a)) :
    Halts (m >>= f) := by
  intro s h
  cases hs : m s with
  | ok p => exact hf p.1 p.2 ((bind_of_ok hs).symm.trans h)
  | error e =>
    simp only [Bind.bind, StateT.bind, hs, Except.bind] at h
    cases h
    exact hm s hs

theorem exists_ok {m : Prog σ α} {post : α → σ → Prop} {s : σ} (h : wp m post s)
    (hm : m s ≠ .error .fuel) : ∃ a t, m s = .ok (a, t) ∧ post a t := by
  cases hs : m s with
  | ok p => exact ⟨p.1, p.2, rfl, wp_ok h hs⟩
  | error e =>
    cases e with
    | fault => exact absurd hs (wp_ne_fault h)
    | fuel => exact absurd hs hm

end Prog
end BsdAdditions.Common
