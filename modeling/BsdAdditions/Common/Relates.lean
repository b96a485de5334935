import BsdAdditions.Common.Prog

/-! Partial correctness: what holds whenever a program returns. Nothing is said of a program that
stops early, in whatever way, so its state need not be consistent. -/
namespace BsdAdditions.Common.Prog

variable {ε σ α β : Type}

/-- If the program returns from `s`, then `post` holds. -/
def Ensures (m : StateT σ (Except ε) α) (post : α → σ → Prop) (s : σ) : Prop :=
  ∀ a t, m s = .ok (a, t) → post a t

section Ensures
variable {m : StateT σ (Except ε) α} {f : α → StateT σ (Except ε) β} {s : σ}

theorem Ensures.mono {post post' : α → σ → Prop} (h : Ensures m post s)
    (himp : ∀ a t, post a t → post' a t) : Ensures m post' s :=
  fun a t hm => himp a t (h a t hm)

theorem Ensures.and {post post' : α → σ → Prop} (h : Ensures m post s) (h' : Ensures m post' s) :
    Ensures m (fun a t => post a t ∧ post' a t) s :=
  fun a t hm => ⟨h a t hm, h' a t hm⟩

theorem Ensures.of_wp {m : Prog σ α} {post : α → σ → Prop} (h : wp m post s) : Ensures m post s :=
  fun _ _ hm => wp_ok h hm

@[simp] theorem ensures_pure (a : α) (post : α → σ → Prop) (s : σ) :
    Ensures (pure a : StateT σ (Except ε) α) post s ↔ post a s := by
  constructor
  · exact fun h => h a s rfl
  · rintro h _ _ ⟨⟩
    exact h

@[simp] theorem ensures_bind (post : β → σ → Prop) :
    Ensures (m >>= f) post s ↔ Ensures m (fun a t => Ensures (f a) post t) s := by
  constructor
  · intro h a t hm b u hf
    exact h b u ((bind_of_ok hm).trans hf)
  · intro h b u hmf
    cases hm : m s with
    | error e => simp [bind, StateT.bind, Except.bind, hm] at hmf
    | ok p => exact h p.1 p.2 hm b u ((bind_of_ok hm).symm.trans hmf)

@[simp] theorem ensures_get (post : σ → σ → Prop) (s : σ) :
    Ensures (get : StateT σ (Except ε) σ) post s ↔ post s s := ensures_pure s post s

@[simp] theorem ensures_set (t : σ) (post : PUnit → σ → Prop) (s : σ) :
    Ensures (set t : StateT σ (Except ε) PUnit) post s ↔ post ⟨⟩ t := ensures_pure ⟨⟩ post t

@[simp] theorem ensures_modify (g : σ → σ) (post : PUnit → σ → Prop) (s : σ) :
    Ensures (modify g : StateT σ (Except ε) PUnit) post s ↔ post ⟨⟩ (g s) := ensures_pure ⟨⟩ post (g s)

theorem ensures_throw (e : ε) (post : α → σ → Prop) :
    Ensures (throw e : StateT σ (Except ε) α) post s := by
  rintro _ _ ⟨⟩

theorem ensures_fault (post : α → σ → Prop) : Ensures (fault : Prog σ α) post s :=
  ensures_throw _ post

theorem ensures_outOfFuel (post : α → σ → Prop) : Ensures (outOfFuel : Prog σ α) post s :=
  ensures_throw _ post

@[simp] theorem ensures_orFault (o : Option α) (post : α → σ → Prop) (s : σ) :
    Ensures (orFault o : Prog σ α) post s ↔ ∀ a, o = some a → post a s := by
  cases o with
  | none => exact ⟨fun _ _ h => (nomatch h), fun _ => ensures_fault post⟩
  | some a =>
    constructor
    · rintro h _ ⟨⟩
      exact h a s rfl
    · rintro h _ _ ⟨⟩
      exact h a rfl

theorem ensures_ite {c : Prop} [Decidable c] {m' : StateT σ (Except ε) α} {post : α → σ → Prop}
    (h : c → Ensures m post s) (h' : ¬ c → Ensures m' post s) :
    Ensures (if c then m else m') post s := by
  split
  · exact h ‹_›
  · exact h' ‹_›

theorem ensures_onlyIf {c : Prop} [Decidable c] {m : Prog σ Unit} {post : Unit → σ → Prop}
    (h : c → Ensures m post s) (h' : ¬ c → post () s) : Ensures (onlyIf c m) post s :=
  ensures_ite h fun hc => (ensures_pure _ _ _).mpr (h' hc)

end Ensures

/-! ### Programs that move along a preorder -/

/-- Whatever state the program returns in is related to the one it started from. -/
def Relates (R : σ → σ → Prop) (m : StateT σ (Except ε) α) : Prop :=
  ∀ s, Ensures m (fun _ t => R s t) s

/-- Leaving alone what `F` reads is a preorder. -/
instance {γ : Type} (F : σ → γ) : IsPreorder σ fun s t => F t = F s where
  refl _ := rfl
  trans _ _ _ h h' := h'.trans h

section Relates
variable {R : σ → σ → Prop}

theorem Relates.fault : Relates R (fault : Prog σ α) := fun _ => ensures_fault _

theorem Relates.outOfFuel : Relates R (outOfFuel : Prog σ α) := fun _ => ensures_outOfFuel _

theorem Relates.throw (e : ε) : Relates R (throw e : StateT σ (Except ε) α) :=
  fun _ => ensures_throw e _

theorem Relates.modify {g : σ → σ} (h : ∀ s, R s (g s)) :
    Relates R (modify g : StateT σ (Except ε) PUnit) :=
  fun s => (ensures_modify g _ s).mpr (h s)

theorem Relates.weaken {R' : σ → σ → Prop} {m : StateT σ (Except ε) α} (hm : Relates R m)
    (hR : ∀ s t, R s t → R' s t) : Relates R' m :=
  fun s => (hm s).mono fun _ t h => hR s t h

theorem Relates.ite {c : Prop} [Decidable c] {m m' : StateT σ (Except ε) α} (h : Relates R m)
    (h' : Relates R m') : Relates R (if c then m else m') := by
  split
  · exact h
  · exact h'

/-- A program that only looks leaves the state as it is. -/
theorem Relates.looks {m : StateT σ (Except ε) α} (hm : Relates (· = ·) m) {post : α → σ → Prop} {s : σ}
    (h : ∀ a, post a s) : Ensures m post s :=
  (hm s).mono fun a _ hst => hst ▸ h a

section Refl
variable [Std.Refl R]

theorem Relates.pure (a : α) : Relates R (pure a : StateT σ (Except ε) α) :=
  fun s => (ensures_pure a _ s).mpr (Std.Refl.refl s)

theorem Relates.get : Relates R (get : StateT σ (Except ε) σ) :=
  fun s => (ensures_get _ s).mpr (Std.Refl.refl s)

theorem Relates.orFault (o : Option α) : Relates R (orFault o : Prog σ α) :=
  fun s => (ensures_orFault o _ s).mpr fun _ _ => Std.Refl.refl s

theorem Relates.onlyIf {c : Prop} [Decidable c] {m : Prog σ Unit} (h : Relates R m) :
    Relates R (onlyIf c m) :=
  Relates.ite h (Relates.pure ())

end Refl

/-- What moves along the preorder may follow anything that has done so. -/
theorem Relates.after [IsTrans σ R] {m : StateT σ (Except ε) α} {f : α → StateT σ (Except ε) β}
    {s s' : σ}
    (hm : Ensures m (fun _ t => R s t) s') (hf : ∀ a, Relates R (f a)) :
    Ensures (m >>= f) (fun _ t => R s t) s' := by
  rw [ensures_bind]
  refine hm.mono fun a t hst => ?_
  exact (hf a t).mono fun _ u htu => IsTrans.trans s t u hst htu

theorem Relates.bind [IsTrans σ R] {m : StateT σ (Except ε) α} {f : α → StateT σ (Except ε) β}
    (hm : Relates R m)
    (hf : ∀ a, Relates R (f a)) : Relates R (m >>= f) :=
  fun s => Relates.after (hm s) hf

/-- A program that looks at the state before it acts. -/
theorem Relates.get_bind {f : σ → StateT σ (Except ε) α} (h : ∀ s, Ensures (f s) (fun _ t => R s t) s) :
    Relates R (do let s ← MonadState.get; f s) :=
  fun s => (ensures_bind _).mpr ((ensures_get _ s).mpr (h s))

variable [IsPreorder σ R]

theorem Relates.loop {cond : β → Prog σ Bool} {body : β → Prog σ β}
    (hc : ∀ b, Relates R (cond b)) (hb : ∀ b, Relates R (body b)) (fuel : ℕ) (b : β) :
    Relates R (loop cond body fuel b) := by
  induction fuel generalizing b with
  | zero => exact Relates.outOfFuel
  | succ fuel ih =>
    exact (hc b).bind fun go => Relates.ite ((hb b).bind ih) (Relates.pure b)

theorem Relates.repeatWhile {cond : Prog σ Bool} {body : Prog σ Unit} (hc : Relates R cond)
    (hb : Relates R body) (fuel : ℕ) : Relates R (repeatWhile fuel cond body) :=
  Relates.loop (fun _ => hc) (fun _ => hb) fuel ()

theorem Relates.times {m : Prog σ Unit} (hm : Relates R m) (k : ℕ) : Relates R (times m k) := by
  induction k with
  | zero => exact Relates.pure ()
  | succ k ih => exact hm.bind fun _ => ih

end Relates

end BsdAdditions.Common.Prog
