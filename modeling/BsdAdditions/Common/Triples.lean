import Mathlib
import BsdAdditions.Common.Returns

/-! Triples of `Std.Do` for programs with a state and early stops. -/
namespace BsdAdditions.Common
open Prog Std.Do

variable {σ ε α : Type} {m : StateT σ (Except ε) α}

/-- A triple is a statement about every state that the program may start in. -/
theorem triple_iff {P : σ → Prop} {Q : α → σ → Prop} {E : ε → Prop} :
    (⦃fun s => ⌜P s⌝⦄ m ⦃post⟨fun a s => ⌜Q a s⌝, fun e => ⌜E e⌝⟩⦄) ↔
      ∀ s, P s → match m s with
        | .ok (a, t) => Q a t
        | .error e => E e := by
  have hrun : ∀ s, (wp⟦m⟧ (post⟨fun a s => ⌜Q a s⌝, fun e => ⌜E e⌝⟩) s).down ↔ match m s with
      | .ok (a, t) => Q a t
      | .error e => E e := by
    intro s
    have hstate : wp⟦m⟧ (post⟨fun a s => ⌜Q a s⌝, fun e => ⌜E e⌝⟩) s =
        wp⟦m s⟧ (post⟨fun p => ⌜Q p.1 p.2⌝, fun e => ⌜E e⌝⟩) := rfl
    rw [hstate]
    cases m s with
    | error e => exact iff_of_eq (congrArg ULift.down (WP.throw_Except (e := e)))
    | ok p => exact iff_of_eq (congrArg ULift.down (WP.pure (m := Except ε) p _))
  exact forall_congr' fun s => imp_congr_right fun _ => hrun s

/-- The same for a program without a state, of which only its stops are of interest. -/
theorem triple_except_iff {r : Except ε α} {E : ε → Prop} :
    (⦃⌜True⌝⦄ r ⦃post⟨fun _ => ⌜True⌝, fun e => ⌜E e⌝⟩⦄) ↔ ∀ e, r = .error e → E e := by
  have hrun : (wp⟦r⟧ (post⟨fun _ => ⌜True⌝, fun e => ⌜E e⌝⟩)).down ↔ ∀ e, r = .error e → E e := by
    cases r with
    | error e =>
      have hthrow := iff_of_eq (congrArg ULift.down
        (WP.throw_Except (e := e) (Q := post⟨fun _ : α => ⌜True⌝, fun e => ⌜E e⌝⟩)))
      refine hthrow.trans ⟨fun he e' h => Except.error.inj h ▸ he, fun h => h e rfl⟩
    | ok a => exact ⟨nofun, fun _ => trivial⟩
  exact forall_prop_of_true trivial |>.trans hrun

/-- The program keeps the invariant, and if it stops early it does so for a reason that is
allowed. -/
abbrev Upholds (I : σ → Prop) (E : ε → Prop) (m : StateT σ (Except ε) α) : Prop :=
  ⦃fun s => ⌜I s⌝⦄ m ⦃post⟨fun _ s => ⌜I s⌝, fun e => ⌜E e⌝⟩⦄

section Upholds
variable {I : σ → Prop} {E : ε → Prop}

theorem upholds_iff : Upholds I E m ↔ ∀ s, I s → match m s with
    | .ok (_, t) => I t
    | .error e => E e := triple_iff

theorem upholds_pure (a : α) : Upholds I E (pure a : StateT σ (Except ε) α) :=
  upholds_iff.mpr fun _ hs => hs

theorem upholds_throw {e : ε} (he : E e) : Upholds I E (throw e : StateT σ (Except ε) α) :=
  upholds_iff.mpr fun _ _ => he

theorem upholds_modify {f : σ → σ} (h : ∀ s, I s → I (f s)) :
    Upholds I E (modify f : StateT σ (Except ε) PUnit) :=
  upholds_iff.mpr h

/-- A program that returns ends with what it upholds. -/
theorem Prog.Returns.and_upholds {post : α → σ → Prop} {s : σ} (h : Returns m post s)
    (hm : Upholds I E m) (hs : I s) : Returns m (fun a t => post a t ∧ I t) s := by
  obtain ⟨a, t, hrun, hpost⟩ := h
  have hend := upholds_iff.mp hm s hs
  rw [hrun] at hend
  exact ⟨a, t, hrun, hpost, hend⟩

end Upholds

end BsdAdditions.Common
