import Mathlib.Tactic.Basic
import BsdAdditions.Timeout.KillsCommand

/-! Whether the loop of `timeout` can fall asleep on something its handler has already recorded. -/
namespace BsdAdditions.Timeout

/-- `sigsuspend` empties the mask, so it sleeps exactly when nothing is pending. -/
def World.Asleep (w : World) : Prop := w.pc = .suspended ∧ w.pending = ∅

/-- The parent sleeps although an exit or an expiry stands recorded. -/
def World.WakeUpLost (w : World) : Prop :=
  w.Asleep ∧ (w.vars.sigChld = true ∨ w.vars.sigAlrm = true)

/-- No exit is recorded between `fork` and `sigprocmask`. -/
def ForkedUnheard (w : World) : Event → Prop
  | .deliver signo => w.pc = .forked → signo ≠ SIGCHLD
  | _ => True

instance (w : World) : ∀ e, Decidable (ForkedUnheard w e)
  | .deliver _ => inferInstanceAs (Decidable (_ → _))
  | .timerExpires | .commandExits _ | .external _ | .step => .isTrue trivial

/-- Up to the first sleep nothing is recorded; each later sleep finds nothing recorded, and one
signal ends it, so that a pass of the loop has at most one record to act on. -/
def Heard (w : World) : Prop :=
  match w.pc with
  | .forked | .blocked =>
    w.timer = false ∧ SIGALRM ∉ w.pending ∧ w.vars.sigChld = false ∧ w.vars.sigAlrm = false
  | .suspended => w.vars.sigChld = false ∧ w.vars.sigAlrm = false
  | .woken => w.vars.sigChld = false ∨ w.vars.sigAlrm = false
  | .waiting | .exited _ | .killed => True

theorem heard_start (cfg : Config) : Heard (start cfg) := by
  simp [Heard, start]

/-- Signals that arise leave the program where it is. -/
theorem Heard.raise {w : World} (h : Heard w) {signo : Signo} {command : Command} {timer : Bool}
    (ht : w.timer = false → timer = false ∧ signo ≠ SIGALRM) :
    Heard { w with timer := timer, command := command, pending := insert signo w.pending } := by
  unfold Heard at h ⊢
  cases hpc : w.pc <;> simp only [hpc] at h ⊢
  case forked | blocked =>
    obtain ⟨htimer, hpend, hrest⟩ := h
    obtain ⟨ht', hne⟩ := ht htimer
    refine ⟨ht', ?_, hrest⟩
    simpa using ⟨Ne.symm hne, hpend⟩
  case suspended => exact h
  case woken => exact h

theorem Heard.deliver {w : World} {signo : Signo} (h : Heard w) (hmem : signo ∈ w.pending)
    (hg : w.pc = .forked → signo ≠ SIGCHLD) {pc : Pc}
    (hpc : w.pc = .forked ∧ pc = .forked ∨ w.pc = .suspended ∧ pc = .woken) :
    Heard (w.handle signo pc) := by
  rcases hpc with ⟨hpc, rfl⟩ | ⟨hpc, rfl⟩
  · simp only [Heard, hpc] at h
    obtain ⟨ht, ha, hch, hal⟩ := h
    have hna : signo ≠ SIGALRM := fun he => ha (he ▸ hmem)
    simp only [World.handle, if_neg hna, Heard]
    refine ⟨ht, fun hm => ha (Finset.mem_of_mem_erase hm), ?_, ?_⟩
    · rw [sigHandler_sigChld _ _ (hg hpc), hch]
    · rw [sigHandler_sigAlrm _ _ hna, hal]
  · simp only [Heard, hpc] at h
    by_cases hna : signo = SIGALRM
    · left
      subst hna
      simp only [World.handle, if_true, World.observe]
      rw [sigHandler_sigChld _ _ (by decide), h.1]
    · right
      simp only [World.handle, if_neg hna]
      rw [sigHandler_sigAlrm _ _ hna, h.2]

theorem Heard.secondStage {cfg : Config} {w : World} (hch : w.vars.sigChld = false)
    (hal : w.vars.sigAlrm = false) : Heard (w.secondStage cfg) := by
  unfold World.secondStage
  split
  · split
    · trivial
    · exact ⟨hch, hal⟩
  · trivial

@[simp] theorem reap_sigAlrm (w : World) : w.reap.vars.sigAlrm = w.vars.sigAlrm := by
  unfold World.reap
  split <;> rfl

@[simp] theorem reap_sigChld (w : World) : w.reap.vars.sigChld = w.vars.sigChld := by
  unfold World.reap
  split <;> rfl

/-! ### The passes of the loop -/

/-- The record of an exit is taken back and the command waited for. -/
def World.afterExit (w : World) : World := { w with vars := { w.vars with sigChld := false } }.reap

/-- The record of an expiry is taken back. -/
def World.afterExpiry (w : World) : World :=
  { w with vars := { w.vars with sigAlrm := false, timedout := true } }

section Passes
variable (cfg : Config) (w : World)

theorem loopBody_of_exit (hch : w.vars.sigChld = true) : w.loopBody cfg =
    { w.afterExit with pc := if w.afterExit.vars.childDone then .waiting else .suspended } := by
  unfold World.loopBody
  rw [if_pos hch]
  change (if w.afterExit.vars.childDone then if cfg.foreground then { w.afterExit with pc := .waiting }
    else { w.afterExit with pc := .waiting } else { w.afterExit with pc := .suspended }) = _
  rw [ite_self]
  split <;> rfl

theorem loopBody_of_expiry (hch : w.vars.sigChld = false) (hal : w.vars.sigAlrm = true) :
    w.loopBody cfg = if cfg.foreground
      then (w.afterExpiry.sendSig w.vars.killsig).secondStage cfg else w.afterExpiry.killSelf SIGKILL := by
  unfold World.loopBody
  rw [if_neg (by simp [hch]), if_pos hal]
  rfl

theorem loopBody_of_term (hch : w.vars.sigChld = false) (hal : w.vars.sigAlrm = false)
    (ht : w.vars.sigTerm ≠ 0) : w.loopBody cfg = if cfg.foreground
      then (w.sendSig w.vars.sigTerm).secondStage cfg else (w.killSelf SIGTERM).secondStage cfg := by
  unfold World.loopBody
  rw [if_neg (by simp [hch]), if_neg (by simp [hal]), if_pos ht]

theorem loopBody_of_nothing (hch : w.vars.sigChld = false) (hal : w.vars.sigAlrm = false)
    (ht : w.vars.sigTerm = 0) : w.loopBody cfg = { w with pc := .suspended } := by
  unfold World.loopBody
  rw [if_neg (by simp [hch]), if_neg (by simp [hal]), if_neg (by simp [ht])]

end Passes

/-- A pass acts on what is recorded before the next sleep. -/
theorem Heard.loopBody {cfg : Config} {w : World}
    (h : w.vars.sigChld = false ∨ w.vars.sigAlrm = false) : Heard (w.loopBody cfg) := by
  cases hch : w.vars.sigChld with
  | true =>
    have hal : w.vars.sigAlrm = false := h.resolve_left (by simp [hch])
    rw [loopBody_of_exit cfg w hch]
    cases w.afterExit.vars.childDone with
    | true => trivial
    | false => exact ⟨by simp [World.afterExit], by simpa [World.afterExit] using hal⟩
  | false =>
    cases hal : w.vars.sigAlrm with
    | true =>
      rw [loopBody_of_expiry cfg w hch hal]
      split
      · exact Heard.secondStage hch rfl
      · trivial
    | false =>
      by_cases ht : w.vars.sigTerm = 0
      · rw [loopBody_of_nothing cfg w hch hal ht]
        exact ⟨hch, hal⟩
      · rw [loopBody_of_term cfg w hch hal ht]
        split
        · exact Heard.secondStage hch hal
        · exact Heard.secondStage hch hal

theorem Heard.next {cfg : Config} {w w' : World} {e : Event} (h : Heard w) (hg : ForkedUnheard w e)
    (hw : w.next? cfg e = some w') : Heard w' := by
  cases e with
  | timerExpires =>
    simp only [World.next?, Bool.and_eq_true, Option.ite_none_right_eq_some, Option.some.injEq] at hw
    obtain ⟨⟨-, ht⟩, rfl⟩ := hw
    exact h.raise fun hf => absurd hf (by simp [ht])
  | commandExits e =>
    simp only [World.next?, Option.ite_none_right_eq_some, Option.some.injEq] at hw
    obtain ⟨-, rfl⟩ := hw
    exact h.raise fun ht => ⟨ht, by decide⟩
  | external s =>
    simp only [World.next?, Option.ite_none_right_eq_some, Option.some.injEq] at hw
    obtain ⟨-, rfl⟩ := hw
    exact h.raise fun ht => ⟨ht, s.signo_ne_alrm⟩
  | deliver signo =>
    simp only [World.next?, Option.ite_none_right_eq_some] at hw
    obtain ⟨hmem, hw⟩ := hw
    split at hw
    · next hpc => cases hw; exact h.deliver hmem hg (.inl ⟨hpc, rfl⟩)
    · next hpc => cases hw; exact h.deliver hmem hg (.inr ⟨hpc, rfl⟩)
    · cases hw
  | step =>
    simp only [World.next?] at hw
    unfold Heard at h
    cases hpc : w.pc <;> simp only [hpc, reduceCtorEq, Option.some.injEq] at h hw
    case forked => subst hw; exact h
    case blocked =>
      split at hw <;> cases hw
      · trivial
      · exact h.2.2
    case woken => subst hw; exact Heard.loopBody h
    case waiting =>
      split at hw
      · cases hw; trivial
      · split at hw <;> cases hw
        trivial

/-- In every run in which no exit is recorded before the signals are blocked, the parent never
sleeps on a recorded exit or expiry. -/
theorem no_wakeUp_lost (cfg : Config) (es : List Event) (w : World)
    (hok : Common.StepsMeet (World.next? cfg) ForkedUnheard (start cfg) es)
    (hrun : run cfg es = some w) : ¬ w.WakeUpLost := by
  have h : Heard w := Common.run_invariant (fun _ _ _ hg hi hn => hi.next hg hn) (heard_start cfg)
    hok hrun
  rintro ⟨⟨hpc, -⟩, hrec⟩
  simp only [Heard, hpc] at h
  rcases hrec with hc | ha
  · simp [h.1] at hc
  · simp [h.2] at ha

/-- The command ends while the parent is still in front of `sigprocmask`, but its exit is
delivered in `sigsuspend`. -/
theorem early_exit_is_heard :
    ∃ w, run ⟨true, false, SIGTERM, 10, none⟩ [.commandExits (.exited 0), .step, .step,
        .deliver SIGCHLD, .step, .step] = some w ∧ ¬ w.WakeUpLost ∧ w.log = [.exit 0] := by
  have hsome : (run ⟨true, false, SIGTERM, 10, none⟩ [.commandExits (.exited 0), .step, .step,
      .deliver SIGCHLD, .step, .step]).map World.log = some [.exit 0] := by decide +kernel
  obtain ⟨w, hrun, hlog⟩ := Option.map_eq_some_iff.mp hsome
  exact ⟨w, hrun, no_wakeUp_lost _ _ w (by decide +kernel) hrun, hlog⟩

/-- The exit is delivered between `fork` and `sigprocmask`: the parent then sleeps on it. -/
theorem early_exit_is_slept_on :
    ∃ w, run ⟨true, false, SIGTERM, 10, none⟩ [.commandExits (.exited 0), .deliver SIGCHLD, .step,
        .step] = some w ∧ w.WakeUpLost := by
  have hsome : (run ⟨true, false, SIGTERM, 10, none⟩ [.commandExits (.exited 0), .deliver SIGCHLD,
      .step, .step]).map (fun w => (w.pc, w.pending, w.vars.sigChld)) =
        some (.suspended, ∅, true) := by decide +kernel
  obtain ⟨w, hrun, heq⟩ := Option.map_eq_some_iff.mp hsome
  simp only [Prod.mk.injEq] at heq
  exact ⟨w, hrun, ⟨heq.1, heq.2.1⟩, .inl heq.2.2⟩

end BsdAdditions.Timeout
