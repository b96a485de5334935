import BsdAdditions.Common.Returns
import BsdAdditions.Indent.State

/-! Rules for programs that return, and for programs that move along a preorder on the states of the
indenter. -/
namespace BsdAdditions.Indent
open Common Common.Prog

/-! ### Returning -/

namespace Ind
variable {α : Type} {s : Indenter}

theorem returns_onlyIf {c : Prop} [Decidable c] {m : Ind Unit} {post : Unit → Indenter → Prop}
    (h : c → Returns m post s) (h' : ¬ c → post () s) : Returns (onlyIf c m) post s :=
  returns_ite h fun hc => (returns_pure _ _ _).mpr (h' hc)

@[simp] theorem returns_orFault_some (a : α) (post : α → Indenter → Prop) :
    Returns (orFault (some a) : Ind α) post s ↔ post a s := returns_pure a post s

@[simp] theorem returns_puts (cs : List UInt8) (post : Unit → Indenter → Prop) :
    Returns (puts cs) post s ↔ post () { s with output := s.output ++ cs } := returns_modify _ _ s

@[simp] theorem returns_putc (c : UInt8) (post : Unit → Indenter → Prop) :
    Returns (putc c) post s ↔ post () { s with output := s.output ++ [c] } := returns_modify _ _ s

@[simp] theorem returns_modifyPs (f : ParserState → ParserState) (post : Unit → Indenter → Prop) :
    Returns (modifyPs f) post s ↔ post () { s with ps := f s.ps } := returns_modify _ _ s

end Ind

/-! ### Moving along a preorder -/

variable {α : Type} {R : Indenter → Indenter → Prop}

theorem relates_fault : Relates R (fault : Ind α) := Relates.throw _

theorem relates_outOfFuel : Relates R (outOfFuel : Ind α) := Relates.throw _

section Refl
variable [Std.Refl R]

theorem relates_orFault (o : Option α) : Relates R (orFault o) := by
  cases o with
  | none => exact relates_fault
  | some a => exact Relates.pure a

theorem relates_onlyIf {c : Prop} [Decidable c] {m : Ind Unit} (h : Relates R m) :
    Relates R (onlyIf c m) :=
  Relates.ite h (Relates.pure ())

end Refl

variable [IsPreorder Indenter R]

theorem relates_repeatWhile {cond : Ind Bool} {body : Ind Unit} (hcond : Relates R cond)
    (hbody : Relates R body) (fuel : ℕ) : Relates R (repeatWhile cond body fuel) := by
  induction fuel with
  | zero => exact relates_outOfFuel
  | succ fuel ih => exact hcond.bind fun go => Relates.ite (hbody.bind fun _ => ih) (Relates.pure ())

/-- Messages change the output, the log and the error flag. -/
theorem relates_diag (env : Env) (error : Bool) (msg : String)
    (hflag : ∀ s, R s { s with foundErr := true }) (hout : ∀ s out, R s { s with output := out })
    (hlog : ∀ s log, R s { s with log := log }) : Relates R (diag env error msg) := by
  unfold diag
  apply (relates_onlyIf (Relates.modify hflag)).bind
  intro _
  apply Relates.get.bind
  intro s
  apply Relates.ite
  · exact Relates.modify fun s => hout s _
  · exact Relates.modify fun s => hlog s _

end BsdAdditions.Indent
