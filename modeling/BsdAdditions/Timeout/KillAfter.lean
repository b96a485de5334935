import Mathlib.Tactic.Basic
import BsdAdditions.Timeout.WakeUp

/-! The promise of `-k` under `--foreground`: the loop is not left before the command is reaped or
sent `SIGKILL`, and `SIGKILL` answers the second timer. -/
namespace BsdAdditions.Timeout

/-- The loop has been entered. -/
def EnteredLoop (cfg : Config) (past : List Event) : Prop :=
  ∃ pre post v, past = pre ++ post ∧ run cfg pre = some v ∧ v.pc = .suspended

/-- The timer expires after a first signal was sent to the command. -/
def SecondExpires (cfg : Config) (past : List Event) : Prop :=
  ∃ pre post v, past = pre ++ .timerExpires :: post ∧ run cfg pre = some v ∧ hasKill v.log = true

/-- The promise, about the run of the events `past` to `w`. -/
structure KillsAfter (cfg : Config) (past : List Event) (w : World) : Prop where
  ends : EnteredLoop cfg past → w.pc ≠ .suspended → w.pc ≠ .woken →
    w.reaped = true ∨ Obs.kill .command SIGKILL ∈ w.log
  only : ∀ pre post, w.log = pre ++ .kill .command SIGKILL :: post →
    SecondExpires cfg past ∧ ∃ l, pre = l ++ [.expiry false]

/-- A pass acts on a terminating signal only in the first stage, and not over a pending expiry. -/
def Undisturbed (w : World) : Event → Prop
  | .step => w.pc = .woken → w.vars.sigChld = false → w.vars.sigAlrm = false → w.vars.sigTerm ≠ 0 →
    w.vars.doSecondKill = true ∧ SIGALRM ∉ w.pending
  | _ => True

instance (w : World) : ∀ e, Decidable (Undisturbed w e)
  | .step => inferInstanceAs (Decidable (_ → _ → _ → _ → _))
  | .timerExpires | .commandExits _ | .external _ | .deliver _ => .isTrue trivial

theorem EnteredLoop.append {cfg : Config} {past : List Event} (h : EnteredLoop cfg past) (e : Event) :
    EnteredLoop cfg (past ++ [e]) := by
  obtain ⟨pre, post, v, rfl, hrun, hpc⟩ := h
  exact ⟨pre, post ++ [e], v, by simp, hrun, hpc⟩

theorem SecondExpires.append {cfg : Config} {past : List Event} (h : SecondExpires cfg past)
    (e : Event) : SecondExpires cfg (past ++ [e]) := by
  obtain ⟨pre, post, v, rfl, hrun, hk⟩ := h
  exact ⟨pre, post ++ [e], v, by simp, hrun, hk⟩

/-- Entering the loop shows in the events before the last, or in the state they lead to. -/
theorem EnteredLoop.of_append {cfg : Config} {past : List Event} {e : Event} {w : World}
    (hrun : run cfg (past ++ [e]) = some w) (h : EnteredLoop cfg (past ++ [e])) :
    EnteredLoop cfg past ∨ w.pc = .suspended := by
  obtain ⟨pre, post, v, heq, hv, hpc⟩ := h
  rcases List.eq_nil_or_concat post with rfl | ⟨post', e', rfl⟩
  · right
    rw [List.append_nil] at heq
    rw [heq, hv] at hrun
    cases hrun
    exact hpc
  · left
    rw [List.concat_eq_append, ← List.append_assoc] at heq
    exact ⟨pre, post', v, (List.append_inj' heq rfl).1, hv, hpc⟩

/-! ### The invariant -/

/-- Every `SIGKILL` to the command directly follows an expiry. -/
def KillAnswers (log : List Obs) : Prop :=
  ∀ pre post, log = pre ++ .kill .command SIGKILL :: post → ∃ l, pre = l ++ [.expiry false]

theorem KillAnswers.append {log : List Obs} (h : KillAnswers log) {o : Obs}
    (ho : o = .kill .command SIGKILL → ∃ l, log = l ++ [.expiry false]) : KillAnswers (log ++ [o]) := by
  intro pre post heq
  rcases Common.append_singleton_eq_append_cons heq with ⟨-, rfl, hlast⟩ | ⟨post', -, hlog⟩
  · exact ho hlast
  · exact h pre post' hlog

/-- The stages as the variables and the log record them. -/
structure Stages (cfg : Config) (past : List Event) (w : World) : Prop where
  stage : w.vars.doSecondKill = !hasKill w.log
  killsig : w.vars.killsig = if w.vars.doSecondKill then cfg.killsig else SIGKILL
  term : w.vars.sigTerm ≠ SIGKILL
  answers : KillAnswers w.log
  killed : Obs.kill .command SIGKILL ∈ w.log → SecondExpires cfg past
  second : w.vars.doSecondKill = false → SIGALRM ∈ w.pending ∨ w.vars.sigAlrm = true →
    SecondExpires cfg past
  -- the first timer runs, or its expiry is pending, or it is recorded: one of the three
  first : w.vars.doSecondKill = true →
    (w.timer = true → SIGALRM ∉ w.pending ∧ w.vars.sigAlrm = false) ∧
      (SIGALRM ∈ w.pending → w.vars.sigAlrm = false)

/-- An exit that is pending or recorded is one the program has yet to reap. -/
structure Unserved (w : World) : Prop where
  exited : SIGCHLD ∈ w.pending ∨ w.vars.sigChld = true → ∃ e, w.command = .zombie e
  unreaped : w.command.Unreaped

def KilledOrReaped (w : World) : Prop := w.reaped = true ∨ Obs.kill .command SIGKILL ∈ w.log

/-- What holds at each place of the program. -/
def StagePlace (cfg : Config) (past : List Event) (w : World) : Prop :=
  match w.pc with
  | .forked | .blocked => Unserved w ∧ w.timer = false ∧ SIGALRM ∉ w.pending ∧
      w.vars.sigAlrm = false ∧ ¬ EnteredLoop cfg past
  | .suspended => Unserved w ∧ w.vars.sigAlrm = false
  | .woken => Unserved w ∧ (w.vars.sigAlrm = true → ∃ l, w.log = l ++ [.expiry false])
  | .waiting => KilledOrReaped w
  | .exited _ => EnteredLoop cfg past → KilledOrReaped w
  | .killed => False

structure Tracked (cfg : Config) (past : List Event) (w : World) : Prop where
  ran : run cfg past = some w
  stages : Stages cfg past w
  place : StagePlace cfg past w

theorem tracked_start {cfg : Config} (hk : cfg.killAfter.isSome) : Tracked cfg [] (start cfg) := by
  refine ⟨rfl, ⟨?_, ?_, ?_, ?_, ?_, ?_, ?_⟩, ⟨?_, ?_⟩, rfl, ?_, rfl, ?_⟩
  · simp [start, hk, hasKill]
  · simp [start, hk]
  · simp [start, SIGKILL]
  · intro pre post heq
    simp [start] at heq
  · simp [start]
  · simp [start]
  · simp [start]
  · simp [start]
  · simp [start, Command.Unreaped]
  · simp [start]
  · rintro ⟨pre, post, v, heq, hrun, hpc⟩
    obtain ⟨rfl, rfl⟩ := List.append_eq_nil_iff.mp heq.symm
    cases hrun
    simp [start] at hpc

/-! ### Signals arise -/

theorem Unserved.raise {w : World} (h : Unserved w) {signo : Signo} (hne : signo ≠ SIGCHLD)
    (timer : Bool) : Unserved { w with timer := timer, pending := insert signo w.pending } where
  exited hex := by
    refine h.exited (hex.imp_left fun hm => ?_)
    simpa [Ne.symm hne] using hm
  unreaped := h.unreaped

theorem Unserved.commandExits (w : World) (e : CommandEnd) :
    Unserved { w with command := .zombie e, pending := insert SIGCHLD w.pending } where
  exited _ := ⟨e, rfl⟩
  unreaped := trivial

theorem Stages.timerExpires {cfg : Config} {past : List Event} {w : World} (h : Stages cfg past w)
    (hran : run cfg past = some w) (ht : w.timer = true) : Stages cfg (past ++ [.timerExpires])
      { w with timer := false, pending := insert SIGALRM w.pending } where
  stage := h.stage
  killsig := h.killsig
  term := h.term
  answers := h.answers
  killed hk := (h.killed hk).append _
  second hd _ := ⟨past, [], w, rfl, hran, by
    have hd' : w.vars.doSecondKill = false := hd
    simpa [hd'] using h.stage⟩
  first hd := ⟨fun hf => absurd hf (by simp), fun _ => ((h.first hd).1 ht).2⟩

theorem Stages.raise {cfg : Config} {past : List Event} {w : World} (h : Stages cfg past w)
    (e : Event) {signo : Signo} (hne : signo ≠ SIGALRM) (command : Command) :
    Stages cfg (past ++ [e]) { w with command := command, pending := insert signo w.pending } := by
  have hmem : SIGALRM ∈ insert signo w.pending ↔ SIGALRM ∈ w.pending := by simp [Ne.symm hne]
  refine ⟨h.stage, h.killsig, h.term, h.answers, fun hk => (h.killed hk).append _, ?_, ?_⟩
  · intro hd hs
    exact (h.second hd (by rwa [hmem] at hs)).append _
  · intro hd
    simp only [hmem]
    exact h.first hd

/-- An event that leaves the program at its place keeps what holds there. -/
theorem StagePlace.stay {cfg : Config} {past : List Event} {e : Event} {w w' : World}
    (h : StagePlace cfg past w) (hran : run cfg (past ++ [e]) = some w') (ha : w.alive)
    (hpc : w'.pc = w.pc) (hv : w'.vars = w.vars) (hlog : w'.log = w.log)
    (hu : Unserved w → Unserved w') (hr : w.reaped = true → w'.reaped = true)
    (ht : w.timer = false → SIGALRM ∉ w.pending → w'.timer = false ∧ SIGALRM ∉ w'.pending) :
    StagePlace cfg (past ++ [e]) w' := by
  have hent : EnteredLoop cfg (past ++ [e]) → EnteredLoop cfg past ∨ w.pc = .suspended := by
    intro hent
    exact hpc ▸ EnteredLoop.of_append hran hent
  unfold StagePlace at h ⊢
  rw [hpc, hv, hlog]
  cases hcase : w.pc <;> simp only [hcase] at h ⊢
  case forked | blocked =>
    obtain ⟨hun, htimer, hpend, hal, hne⟩ := h
    obtain ⟨ht', hp'⟩ := ht htimer hpend
    exact ⟨hu hun, ht', hp', hal, fun hm => (hent hm).elim hne (by simp [hcase])⟩
  case suspended => exact ⟨hu h.1, h.2⟩
  case woken => exact ⟨hu h.1, h.2⟩
  case waiting => exact h.imp hr (by rw [hlog]; exact id)
  case exited => simp [World.alive, hcase] at ha

theorem Tracked.timerExpires {cfg : Config} {past : List Event} {w w' : World}
    (h : Tracked cfg past w) (hran : run cfg (past ++ [.timerExpires]) = some w')
    (hw : w.next? cfg .timerExpires = some w') : Tracked cfg (past ++ [.timerExpires]) w' := by
  simp only [World.next?, Bool.and_eq_true, Option.ite_none_right_eq_some, Option.some.injEq] at hw
  obtain ⟨⟨ha, ht⟩, rfl⟩ := hw
  refine ⟨hran, h.stages.timerExpires h.ran ht, ?_⟩
  refine h.place.stay hran ha rfl rfl rfl (fun hu => hu.raise (by decide) _) id ?_
  intro hf
  simp [ht] at hf

theorem Tracked.commandExits {cfg : Config} {past : List Event} {w w' : World} {e : CommandEnd}
    (h : Tracked cfg past w) (hran : run cfg (past ++ [.commandExits e]) = some w')
    (hw : w.next? cfg (.commandExits e) = some w') : Tracked cfg (past ++ [.commandExits e]) w' := by
  simp only [World.next?, Bool.and_eq_true, decide_eq_true_eq, Option.ite_none_right_eq_some,
    Option.some.injEq] at hw
  obtain ⟨⟨ha, hc⟩, rfl⟩ := hw
  have hne : SIGALRM ≠ SIGCHLD := by decide
  refine ⟨hran, h.stages.raise _ hne.symm _, ?_⟩
  refine h.place.stay hran ha rfl rfl rfl (fun _ => Unserved.commandExits w e) ?_ ?_
  · intro hr
    simp [World.reaped, hc] at hr
  · intro ht hp
    exact ⟨ht, by simp [hne, hp]⟩

theorem External.signo_ne_chld (s : External) : s.signo ≠ SIGCHLD := by
  cases s <;> decide

theorem Tracked.external {cfg : Config} {past : List Event} {w w' : World} {s : External}
    (h : Tracked cfg past w) (hran : run cfg (past ++ [.external s]) = some w')
    (hw : w.next? cfg (.external s) = some w') : Tracked cfg (past ++ [.external s]) w' := by
  simp only [World.next?, Option.ite_none_right_eq_some, Option.some.injEq] at hw
  obtain ⟨ha, rfl⟩ := hw
  refine ⟨hran, h.stages.raise _ s.signo_ne_alrm _, ?_⟩
  refine h.place.stay hran ha rfl rfl rfl (fun hu => hu.raise s.signo_ne_chld _) id ?_
  intro ht hp
  exact ⟨ht, by simp [s.signo_ne_alrm.symm, hp]⟩

/-! ### A signal is delivered -/

theorem sigHandler_sigTerm (v : Vars) (signo : Signo) (h : v.sigTerm ≠ SIGKILL) :
    (sigHandler v signo).sigTerm ≠ SIGKILL := by
  unfold sigHandler
  split_ifs with _ hs
  · exact h
  · show signo ≠ SIGKILL
    rintro rfl
    simp [SIGKILL, SIGINT, SIGHUP, SIGQUIT, SIGTERM] at hs
  · exact h
  · exact h
  · exact h

theorem Unserved.handle {w : World} {signo : Signo} (h : Unserved w) (hmem : signo ∈ w.pending)
    (pc : Pc) : Unserved (w.handle signo pc) where
  exited := by
    rw [handle_pending, handle_vars, handle_command]
    rintro (hm | hs)
    · exact h.exited (.inl (Finset.mem_of_mem_erase hm))
    · by_cases hsig : signo = SIGCHLD
      · exact h.exited (.inl (hsig ▸ hmem))
      · rw [sigHandler_sigChld _ _ hsig] at hs
        exact h.exited (.inr hs)
  unreaped := by
    rw [handle_command]
    exact h.unreaped

theorem Stages.handle {cfg : Config} {past : List Event} {w : World} {signo : Signo}
    (h : Stages cfg past w) (hmem : signo ∈ w.pending) (pc : Pc) :
    Stages cfg (past ++ [.deliver signo]) (w.handle signo pc) := by
  have hrec : SIGALRM ∈ w.pending.erase signo ∨ (sigHandler w.vars signo).sigAlrm = true →
      SIGALRM ∈ w.pending ∨ w.vars.sigAlrm = true := by
    rintro (hm | hs)
    · exact .inl (Finset.mem_of_mem_erase hm)
    · by_cases hsig : signo = SIGALRM
      · exact .inl (hsig ▸ hmem)
      · rw [sigHandler_sigAlrm _ _ hsig] at hs
        exact .inr hs
  constructor
  · rw [handle_vars, sigHandler_doSecondKill, handle_log]
    split_ifs
    · simpa using h.stage
    · exact h.stage
  · simpa using h.killsig
  · rw [handle_vars]
    exact sigHandler_sigTerm _ _ h.term
  · rw [handle_log]
    split_ifs
    · exact h.answers.append (by simp)
    · exact h.answers
  · intro hk
    refine (h.killed ?_).append _
    rw [handle_log] at hk
    split_ifs at hk
    · simpa using hk
    · exact hk
  · rw [handle_vars, handle_pending, sigHandler_doSecondKill]
    exact fun hd hs => (h.second hd (hrec hs)).append _
  · rw [handle_vars, handle_pending, handle_timer, sigHandler_doSecondKill]
    intro hd
    obtain ⟨htimer, hpend⟩ := h.first hd
    constructor
    · intro ht
      obtain ⟨hp, ha⟩ := htimer ht
      exact ⟨fun hm => hp (Finset.mem_of_mem_erase hm),
        (sigHandler_sigAlrm _ _ fun hs => hp (hs ▸ hmem)).trans ha⟩
    · intro hm
      obtain ⟨hne, hm⟩ := Finset.mem_erase.mp hm
      exact (sigHandler_sigAlrm _ _ hne.symm).trans (hpend hm)

theorem Tracked.deliver {cfg : Config} {past : List Event} {w w' : World} {signo : Signo}
    (h : Tracked cfg past w) (hran : run cfg (past ++ [.deliver signo]) = some w')
    (hw : w.next? cfg (.deliver signo) = some w') : Tracked cfg (past ++ [.deliver signo]) w' := by
  simp only [World.next?, Option.ite_none_right_eq_some] at hw
  obtain ⟨hmem, hw⟩ := hw
  have hp := h.place
  unfold StagePlace at hp
  cases hpc : w.pc <;> simp only [hpc, Option.some.injEq, reduceCtorEq] at hp hw <;> subst hw
  case forked =>
    obtain ⟨hu, ht, hpend, hal, hent⟩ := hp
    have hna : signo ≠ SIGALRM := fun he => hpend (he ▸ hmem)
    refine ⟨hran, h.stages.handle hmem _, hu.handle hmem _, ?_, ?_, ?_, ?_⟩
    · rw [handle_timer, ht]
    · rw [handle_pending]
      exact fun hm => hpend (Finset.mem_of_mem_erase hm)
    · rw [handle_vars, sigHandler_sigAlrm _ _ hna, hal]
    · intro hm
      rcases hm.of_append hran with hm | hm
      · exact hent hm
      · cases hm
  case suspended =>
    obtain ⟨hu, hal⟩ := hp
    refine ⟨hran, h.stages.handle hmem _, hu.handle hmem _, ?_⟩
    rw [handle_vars, handle_log]
    intro hs
    by_cases hsig : signo = SIGALRM
    · rw [if_pos hsig, reaped_eq_false hu.unreaped]
      exact ⟨w.log, rfl⟩
    · rw [sigHandler_sigAlrm _ _ hsig, hal] at hs
      cases hs

/-! ### The program moves on -/

/-- Only the records named here enter into the stages; the log may gain what is not a signal. -/
theorem Stages.frame {cfg : Config} {past : List Event} {w w' : World} (h : Stages cfg past w)
    (e : Event) {os : List Obs} (hlog : w'.log = w.log ++ os)
    (hos : os = [] ∨ ∃ r, os = [.exit r])
    (hd : w'.vars.doSecondKill = w.vars.doSecondKill) (hk : w'.vars.killsig = w.vars.killsig)
    (ht : w'.vars.sigTerm = w.vars.sigTerm) (ha : w'.vars.sigAlrm = w.vars.sigAlrm)
    (hp : w'.pending = w.pending)
    (htimer : w'.timer = true → w.timer = true ∨ SIGALRM ∉ w.pending ∧ w.vars.sigAlrm = false) :
    Stages cfg (past ++ [e]) w' where
  stage := by
    rw [hd, hlog, h.stage]
    rcases hos with rfl | ⟨r, rfl⟩ <;> simp
  killsig := by rw [hk, hd, h.killsig]
  term := by rw [ht]; exact h.term
  answers := by
    rw [hlog]
    rcases hos with rfl | ⟨r, rfl⟩
    · simpa using h.answers
    · exact h.answers.append (by simp)
  killed := by
    rw [hlog]
    intro hm
    refine (h.killed ?_).append _
    rcases hos with rfl | ⟨r, rfl⟩ <;> simpa using hm
  second := by
    rw [hd, hp, ha]
    exact fun hd hs => (h.second hd hs).append _
  first := by
    rw [hd, hp, ha]
    intro hd
    refine ⟨fun ht' => ?_, (h.first hd).2⟩
    rcases htimer ht' with hold | hnew
    · exact (h.first hd).1 hold
    · exact hnew

/-- The first signal goes out and the second timer is armed. -/
theorem Stages.arm {cfg : Config} {past : List Event} {w : World} (h : Stages cfg past w) (e : Event)
    {signo : Signo} {iv : ℚ} {armed : Bool} (hk : cfg.killAfter = some iv)
    (hiv : setInterval iv = some armed) (hs : signo ≠ SIGKILL) (hd : w.vars.doSecondKill = true)
    (hp : SIGALRM ∉ w.pending) (ha : w.vars.sigAlrm = false) :
    Stages cfg (past ++ [e]) ((w.sendSig signo).secondStage cfg) := by
  have hd' : (w.sendSig signo).vars.doSecondKill = true := hd
  unfold World.secondStage
  rw [if_pos hd', hk, Option.getD_some, hiv]
  refine ⟨?_, rfl, h.term, h.answers.append (by simp [hs]), ?_, ?_, ?_⟩
  · simp [World.sendSig, World.observe]
  · intro hm
    refine (h.killed ?_).append _
    simpa [World.sendSig, World.observe, Ne.symm hs] using hm
  · rintro - (hm | hm)
    · exact absurd hm hp
    · exact absurd hm (by simp [World.sendSig, World.observe, ha])
  · intro hf
    simp at hf

theorem secondStage_pc_arm {cfg : Config} (w : World) {iv : ℚ} {armed : Bool}
    (hk : cfg.killAfter = some iv) (hiv : setInterval iv = some armed)
    (hd : w.vars.doSecondKill = true) :
    (w.secondStage cfg).pc = .suspended ∧ (w.secondStage cfg).pending = w.pending ∧
      (w.secondStage cfg).vars.sigChld = w.vars.sigChld ∧
      (w.secondStage cfg).vars.sigAlrm = w.vars.sigAlrm := by
  unfold World.secondStage
  rw [if_pos hd, hk, Option.getD_some, hiv]
  exact ⟨rfl, rfl, rfl, rfl⟩

/-- The second signal goes out and the loop is left. -/
theorem Stages.kill {cfg : Config} {past : List Event} {w : World} {l : List Obs}
    (h : Stages cfg past w) (e : Event) (hd : w.vars.doSecondKill = false)
    (hal : w.vars.sigAlrm = true) (hlog : w.log = l ++ [.expiry false]) :
    Stages cfg (past ++ [e]) { w.afterExpiry.sendSig SIGKILL with pc := .waiting } where
  stage := by simpa [World.afterExpiry, World.sendSig, World.observe] using hd
  killsig := h.killsig
  term := h.term
  answers := h.answers.append fun _ => ⟨l, hlog⟩
  killed _ := (h.second hd (.inr hal)).append _
  second _ _ := (h.second hd (.inr hal)).append _
  first hf := absurd (hd.symm.trans hf) (by simp)

section Loop
variable {cfg : Config} {iv : ℚ} {armed : Bool} {past : List Event} {w w' : World}

/-- The pass that sends a first signal goes back to sleep in the second stage. -/
theorem Tracked.arm {u : World} {signo : Signo} (hk : cfg.killAfter = some iv)
    (hiv : setInterval iv = some armed) (h : Stages cfg past u) (hu : Unserved u)
    (hs : signo ≠ SIGKILL) (hd : u.vars.doSecondKill = true) (hp : SIGALRM ∉ u.pending)
    (ha : u.vars.sigAlrm = false)
    (hran : run cfg (past ++ [.step]) = some ((u.sendSig signo).secondStage cfg)) :
    Tracked cfg (past ++ [.step]) ((u.sendSig signo).secondStage cfg) := by
  obtain ⟨hpc, hpend, hch, hal⟩ := secondStage_pc_arm (u.sendSig signo) hk hiv hd
  refine ⟨hran, h.arm _ hk hiv hs hd hp ha, ?_⟩
  rw [StagePlace, hpc]
  refine ⟨⟨?_, ?_⟩, hal.trans ha⟩
  · rw [hpend, hch, secondStage_command]
    exact hu.exited
  · rw [secondStage_command]
    exact hu.unreaped

theorem Tracked.loopBody (hfg : cfg.foreground = true) (hk : cfg.killAfter = some iv)
    (hiv : setInterval iv = some armed) (hks : cfg.killsig ≠ SIGKILL) (h : Tracked cfg past w)
    (hpc : w.pc = .woken) (hg : Undisturbed w .step)
    (hran : run cfg (past ++ [.step]) = some (w.loopBody cfg)) :
    Tracked cfg (past ++ [.step]) (w.loopBody cfg) := by
  have hplace := h.place
  rw [StagePlace, hpc] at hplace
  obtain ⟨hu, hexp⟩ := hplace
  cases hch : w.vars.sigChld with
  | true =>
    -- the exit is there to be reaped, and the loop is left
    obtain ⟨e, he⟩ := hu.exited (.inr hch)
    rw [loopBody_of_exit cfg w hch] at hran ⊢
    simp only [World.afterExit, World.reap, he, if_true] at hran ⊢
    refine ⟨hran, ?_, .inl rfl⟩
    exact h.stages.frame _ (List.append_nil _).symm (.inl rfl) rfl rfl rfl rfl rfl .inl
  | false =>
    cases hal : w.vars.sigAlrm with
    | true =>
      rw [loopBody_of_expiry cfg w hch hal, if_pos hfg] at hran ⊢
      have hsig := h.stages.killsig
      cases hd : w.vars.doSecondKill with
      | true =>
        obtain ⟨htimer, hpend⟩ := h.stages.first hd
        have hnp : SIGALRM ∉ w.pending := fun hm => absurd (hpend hm) (by simp [hal])
        rw [hd, if_pos rfl] at hsig
        have hst : Stages cfg past w.afterExpiry := by
          refine ⟨h.stages.stage, h.stages.killsig, h.stages.term, h.stages.answers, h.stages.killed,
            ?_, ?_⟩
          · intro hf
            exact absurd (hd.symm.trans hf) (by simp)
          · intro _
            exact ⟨fun _ => ⟨hnp, rfl⟩, fun _ => rfl⟩
        exact Tracked.arm hk hiv hst ⟨hu.exited, hu.unreaped⟩ (hsig ▸ hks) hd hnp rfl hran
      | false =>
        rw [hd, if_neg (by simp)] at hsig
        obtain ⟨l, hlog⟩ := hexp hal
        have hend : (w.afterExpiry.sendSig w.vars.killsig).secondStage cfg =
            { w.afterExpiry.sendSig SIGKILL with pc := .waiting } := by
          have hd' : (w.afterExpiry.sendSig w.vars.killsig).vars.doSecondKill = false := hd
          rw [World.secondStage, if_neg (by simp [hd']), hsig]
        rw [hend] at hran ⊢
        refine ⟨hran, h.stages.kill _ hd hal hlog, .inr ?_⟩
        simp [World.sendSig, World.observe]
    | false =>
      by_cases ht : w.vars.sigTerm = 0
      · rw [loopBody_of_nothing cfg w hch hal ht] at hran ⊢
        refine ⟨hran, ?_, ⟨hu.exited, hu.unreaped⟩, hal⟩
        exact h.stages.frame _ (List.append_nil _).symm (.inl rfl) rfl rfl rfl rfl rfl .inl
      · obtain ⟨hd, hp⟩ := hg hpc hch hal ht
        rw [loopBody_of_term cfg w hch hal ht, if_pos hfg] at hran ⊢
        exact Tracked.arm hk hiv h.stages hu h.stages.term hd hp hal hran

theorem Tracked.finish {u : World} (h : Stages cfg past u) (hend : KilledOrReaped u)
    (hran : run cfg (past ++ [.step]) = some (u.finish cfg)) :
    Tracked cfg (past ++ [.step]) (u.finish cfg) := by
  refine ⟨hran, h.frame _ rfl (.inr ⟨_, rfl⟩) rfl rfl rfl rfl rfl .inl, fun _ => ?_⟩
  rcases hend with hr | hm
  · exact .inl hr
  · exact .inr (List.mem_append_left _ hm)

theorem Tracked.step (hfg : cfg.foreground = true) (hk : cfg.killAfter = some iv)
    (hiv : setInterval iv = some armed) (hks : cfg.killsig ≠ SIGKILL) (h : Tracked cfg past w)
    (hg : Undisturbed w .step) (hran : run cfg (past ++ [.step]) = some w')
    (hw : w.next? cfg .step = some w') : Tracked cfg (past ++ [.step]) w' := by
  have hplace := h.place
  unfold StagePlace at hplace
  simp only [World.next?] at hw
  cases hpc : w.pc <;> simp only [hpc, reduceCtorEq, Option.some.injEq] at hplace hw
  case forked =>
    subst hw
    obtain ⟨hu, ht, hp, ha, hent⟩ := hplace
    refine ⟨hran, ?_, ⟨hu.exited, hu.unreaped⟩, ht, hp, ha, ?_⟩
    · exact h.stages.frame _ (List.append_nil _).symm (.inl rfl) rfl rfl rfl rfl rfl .inl
    · intro hm
      rcases hm.of_append hran with hm | hm
      · exact hent hm
      · cases hm
  case blocked =>
    obtain ⟨hu, ht, hp, ha, hent⟩ := hplace
    split at hw <;> cases hw
    · refine ⟨hran, h.stages.frame _ rfl (.inr ⟨_, rfl⟩) rfl rfl rfl rfl rfl .inl, ?_⟩
      intro hm
      rcases hm.of_append hran with hm | hm
      · exact absurd hm hent
      · cases hm
    · refine ⟨hran, ?_, ⟨hu.exited, hu.unreaped⟩, ha⟩
      exact h.stages.frame _ (List.append_nil _).symm (.inl rfl) rfl rfl rfl rfl rfl
        fun _ => .inr ⟨hp, ha⟩
  case woken =>
    subst hw
    exact h.loopBody hfg hk hiv hks hpc hg hran
  case waiting =>
    split at hw
    · cases hw
      exact .finish h.stages hplace hran
    · split at hw <;> cases hw
      refine .finish (?_ : Stages cfg past _) (.inl rfl) hran
      exact ⟨h.stages.1, h.stages.2, h.stages.3, h.stages.4, h.stages.5, h.stages.6, h.stages.7⟩

end Loop

/-- In every run whose passes act on terminating signals undisturbed, the promise of `-k` is kept. -/
theorem timeout_kills_after (cfg : Config) (iv : ℚ) (hfg : cfg.foreground = true)
    (hk : cfg.killAfter = some iv) (hks : cfg.killsig ≠ SIGKILL) (hiv : setInterval iv ≠ none)
    (es : List Event) (w : World)
    (hok : Common.StepsMeet (World.next? cfg) Undisturbed (start cfg) es)
    (hrun : run cfg es = some w) : KillsAfter cfg es w := by
  obtain ⟨armed, harmed⟩ := Option.ne_none_iff_exists'.mp hiv
  have hstep : ∀ past s e s', Undisturbed s e → Tracked cfg past s → s.next? cfg e = some s' →
      Tracked cfg (past ++ [e]) s' := by
    intro past s e s' hg h hn
    have hran : run cfg (past ++ [e]) = some s' :=
      Common.run_append.mpr ⟨s, h.ran, Common.run_cons_eq_some.mpr ⟨s', hn, rfl⟩⟩
    cases e with
    | timerExpires => exact h.timerExpires hran hn
    | commandExits e => exact h.commandExits hran hn
    | external s => exact h.external hran hn
    | deliver signo => exact h.deliver hran hn
    | step => exact h.step hfg hk harmed hks hg hran hn
  have h : Tracked cfg es w := by
    have := Common.run_invariant_history hstep (tracked_start (by simp [hk])) hok hrun
    simpa using this
  constructor
  · intro hent hns hnw
    have hp := h.place
    unfold StagePlace at hp
    cases hpc : w.pc <;> simp only [hpc] at hp
    case forked => exact absurd hent hp.2.2.2.2
    case blocked => exact absurd hent hp.2.2.2.2
    case suspended => exact absurd hpc hns
    case woken => exact absurd hpc hnw
    case waiting => exact hp
    case exited => exact hp hent
  · intro pre post hlog
    exact ⟨h.stages.killed (by simp [hlog]), h.stages.answers pre post hlog⟩

/-- A `SIGTERM` from outside is passed on, the second timer expires and `SIGKILL` follows. -/
theorem timeout_kills_after_term :
    ∃ es w, run ⟨true, false, SIGHUP, 10, some 5⟩ es = some w ∧
      KillsAfter ⟨true, false, SIGHUP, 10, some 5⟩ es w ∧
      w.log = [.kill .command SIGTERM, .expiry false, .kill .command SIGKILL, .exit 124] := by
  let es : List Event := [.step, .step, .external .term, .deliver SIGTERM, .step, .timerExpires,
    .deliver SIGALRM, .step, .commandExits (.signaled 9 false (by decide)), .step]
  have hsome : (run ⟨true, false, SIGHUP, 10, some 5⟩ es).map World.log =
      some [.kill .command SIGTERM, .expiry false, .kill .command SIGKILL, .exit 124] := by
    decide +kernel
  obtain ⟨w, hrun, hlog⟩ := Option.map_eq_some_iff.mp hsome
  refine ⟨es, w, hrun, timeout_kills_after _ 5 rfl rfl ?_ ?_ es w ?_ hrun, hlog⟩
  · decide
  · decide +kernel
  · decide +kernel

/-- A second outside signal ends the loop: the command is still running and gets no `SIGKILL`. -/
theorem timeout_gives_up_after_int :
    ∃ es w, run ⟨true, false, SIGTERM, 10, some 5⟩ es = some w ∧ w.pc = .waiting ∧
      w.command = .running ∧ w.log = [.kill .command SIGTERM, .kill .command SIGINT] ∧
      ¬ KillsAfter ⟨true, false, SIGTERM, 10, some 5⟩ es w := by
  let es : List Event := [.step, .step, .external .term, .deliver SIGTERM, .step, .external .int,
    .deliver SIGINT, .step]
  have hsome : (run ⟨true, false, SIGTERM, 10, some 5⟩ es).map
      (fun w => (w.pc, w.command, w.log)) =
        some (.waiting, .running, [.kill .command SIGTERM, .kill .command SIGINT]) := by
    decide +kernel
  obtain ⟨w, hrun, heq⟩ := Option.map_eq_some_iff.mp hsome
  simp only [Prod.mk.injEq] at heq
  obtain ⟨hpc, hc, hlog⟩ := heq
  refine ⟨es, w, hrun, hpc, hc, hlog, fun h => ?_⟩
  have hfirst : (run ⟨true, false, SIGTERM, 10, some 5⟩ [.step, .step]).map World.pc =
      some .suspended := by decide +kernel
  obtain ⟨v, hv, hvpc⟩ := Option.map_eq_some_iff.mp hfirst
  have hent : EnteredLoop ⟨true, false, SIGTERM, 10, some 5⟩ es :=
    ⟨[.step, .step], es.drop 2, v, rfl, hv, hvpc⟩
  rcases h.ends hent (by simp [hpc]) (by simp [hpc]) with hr | hm
  · simp [World.reaped, hc] at hr
  · simp [hlog, SIGKILL, SIGTERM, SIGINT] at hm

end BsdAdditions.Timeout
