import Mathlib.Tactic.Basic
import BsdAdditions.Timeout.Model

/-! What an expiry of the timer leads to, over all orders of expiry, exit and outside signals. -/
namespace BsdAdditions.Timeout

/-- The signal due at an expiry: `-k` switches to `SIGKILL` once a first signal has been sent. -/
def dueSignal (cfg : Config) (before : List Obs) : Signo :=
  if cfg.killAfter.isSome && before.any (fun o => o matches .kill .command _) then SIGKILL
  else cfg.killsig

/-- Every expiry that reached the program before the command was reaped is directly followed
by the signal due, sent to the command. -/
def Answered (cfg : Config) (log : List Obs) : Prop :=
  ∀ pre post, log = pre ++ .expiry false :: post →
    ∃ rest, post = .kill .command (dueSignal cfg pre) :: rest

/-- Events that need no help from outside. -/
def Event.internal : Event → Bool
  | .timerExpires | .deliver _ | .step => true
  | _ => false

/-- Left alone, the program comes to its `return`. -/
def Settles (cfg : Config) (w : World) : Prop :=
  ∃ es w' r, (∀ e ∈ es, Event.internal e) ∧
    Common.run (World.next? cfg) w es = some w' ∧ w'.pc = .exited r

/-- The promise: `timeout` listens for as long as the timer can expire on a running command, an
expiry is answered at once, `timeout` does not kill itself, and after an expiry it returns 124,
or under `--preserve-status` what became of the command. -/
structure KillsCommand (cfg : Config) (w : World) : Prop where
  listens : w.pc = .waiting → w.command = .running → w.timer = false ∧ SIGALRM ∉ w.pending
  answered : w.pc ≠ .woken → Answered cfg w.log
  spares_self : Obs.kill .self SIGKILL ∉ w.log ∧ w.pc ≠ .killed
  returns : ∀ r, w.pc = .exited r → Obs.expiry false ∈ w.log →
    ∃ e, w.command = .reaped e ∧ r = if cfg.preserve then e.status else EXIT_TIMEOUT
  settles : w.alive → Obs.expiry false ∈ w.log → w.command ≠ .running → Settles cfg w

/-- A `-k` whose interval the timer takes and whose first signal is not one that the handler
then swallows on the timer's or the command's behalf. -/
def SoundKillAfter (cfg : Config) : Prop :=
  ∀ iv, cfg.killAfter = some iv → cfg.killsig ≠ SIGALRM ∧ setInterval iv ≠ none ∧
    (cfg.killsig = SIGCHLD → setInterval iv = some true)

/-- The coming pass leaves the loop although the timer may still expire on a running command. -/
def World.BreaksEarly (w : World) : Prop :=
  w.vars.sigChld = false ∧ (w.vars.sigAlrm = true ∨ w.vars.sigTerm ≠ 0) ∧
    w.vars.doSecondKill = false ∧ w.command = .running ∧ (w.timer = true ∨ SIGALRM ∈ w.pending)

/-- Without `--foreground` only the exit of the command is delivered; no exit is recorded before
the signals are blocked; and the loop is not left early. -/
def Guarded (cfg : Config) (w : World) : Event → Prop
  | .deliver signo => (cfg.foreground = false → signo = SIGCHLD) ∧ (w.pc = .forked → signo ≠ SIGCHLD)
  | .step => w.pc = .woken → ¬ w.BreaksEarly
  | _ => True

instance (w : World) : Decidable w.BreaksEarly := inferInstanceAs (Decidable (_ ∧ _ ∧ _ ∧ _ ∧ _))

instance (cfg : Config) (w : World) : ∀ e, Decidable (Guarded cfg w e)
  | .deliver _ => inferInstanceAs (Decidable (_ ∧ _))
  | .step => inferInstanceAs (Decidable (_ → _))
  | .timerExpires | .commandExits _ | .external _ => .isTrue trivial

/-! ### The log -/

def hasKill (log : List Obs) : Bool := log.any fun o => o matches .kill .command _

theorem dueSignal_eq (cfg : Config) (l : List Obs) :
    dueSignal cfg l = if cfg.killAfter.isSome && hasKill l then SIGKILL else cfg.killsig := rfl

@[simp] theorem hasKill_append (l l' : List Obs) : hasKill (l ++ l') = (hasKill l || hasKill l') := by
  simp [hasKill]

@[simp] theorem hasKill_kill (s : Signo) : hasKill [.kill .command s] = true := rfl

@[simp] theorem hasKill_expiry (b : Bool) : hasKill [.expiry b] = false := rfl

@[simp] theorem hasKill_exit (r : ℕ) : hasKill [.exit r] = false := rfl

theorem Answered.nil (cfg : Config) : Answered cfg [] := by
  intro pre post h
  simp at h

theorem Answered.append {cfg : Config} {l : List Obs} (h : Answered cfg l) {o : Obs}
    (ho : o ≠ .expiry false) : Answered cfg (l ++ [o]) := by
  intro pre post heq
  rcases Common.append_singleton_eq_append_cons heq with ⟨-, -, hlast⟩ | ⟨post', rfl, hl⟩
  · exact absurd hlast ho
  · obtain ⟨rest, rfl⟩ := h pre post' hl
    exact ⟨rest ++ [o], by simp⟩

/-- An expiry that is still open is answered by the signal due. -/
theorem Answered.answer {cfg : Config} {l : List Obs} (h : Answered cfg l) :
    Answered cfg (l ++ [.expiry false] ++ [.kill .command (dueSignal cfg l)]) := by
  intro pre post heq
  rcases Common.append_singleton_eq_append_cons heq with ⟨-, -, hlast⟩ | ⟨post', rfl, hl⟩
  · simp at hlast
  · rcases Common.append_singleton_eq_append_cons hl with ⟨rfl, rfl, -⟩ | ⟨post'', rfl, hl'⟩
    · exact ⟨[], rfl⟩
    · obtain ⟨rest, rfl⟩ := h pre post'' hl'
      exact ⟨rest ++ [.expiry false] ++ [.kill .command (dueSignal cfg l)], by simp⟩

/-! ### The status handed back -/

theorem finish_word (e : CommandEnd) :
    (if wexitstatus e.word ≠ 0 then wexitstatus e.word
      else if wifsignaled e.word then 128 + wtermsig e.word else e.word) = e.status := by
  cases e with
  | exited code =>
    have h := code.isLt
    have hx : wexitstatus (CommandEnd.exited code).word = code := by
      simp only [wexitstatus, CommandEnd.word]
      omega
    by_cases hz : (code : ℕ) = 0
    · simp [CommandEnd.word, CommandEnd.status, wexitstatus, wifsignaled, wstatus, hz]
    · simp [hx, CommandEnd.status, hz]
  | signaled signo core valid =>
    have hx : wexitstatus (CommandEnd.signaled signo core valid).word = 0 := by
      cases core <;> simp [CommandEnd.word, wexitstatus] <;> omega
    have hs : wstatus (CommandEnd.signaled signo core valid).word = signo := by
      cases core <;> simp [CommandEnd.word, wstatus] <;> omega
    have hn : signo ≠ 127 ∧ signo ≠ 0 := by omega
    simp [hx, wifsignaled, wtermsig, hs, hn, CommandEnd.status]

/-! ### The invariant -/

def Command.Unreaped : Command → Prop
  | .reaped _ => False
  | _ => True

/-- The two-stage protocol as the variables record it. -/
structure Staged (cfg : Config) (w : World) : Prop where
  killsig : w.vars.killsig =
    if cfg.killAfter.isSome && !w.vars.doSecondKill then SIGKILL else cfg.killsig
  none : cfg.killAfter = none → w.vars.doSecondKill = false
  stage : cfg.killAfter.isSome → w.vars.doSecondKill = !hasKill w.log
  ignored : w.vars.sigIgn ≠ 0 →
    cfg.killAfter.isSome ∧ w.vars.doSecondKill = false ∧ w.vars.sigIgn = cfg.killsig
  self : ∀ s, Obs.kill .self s ∉ w.log
  quiet : cfg.foreground = false →
    w.vars.sigAlrm = false ∧ w.vars.sigTerm = 0 ∧ Obs.expiry false ∉ w.log

/-- Inside the loop: the command is not reaped, and its exit, once it happened, is still to be
told unless the handler swallowed it in the second stage. -/
structure Looping (cfg : Config) (w : World) : Prop where
  unreaped : w.command.Unreaped
  childDone : w.vars.childDone = false
  exit_pending : (∃ e, w.command = .zombie e) → SIGCHLD ∈ w.pending ∨ w.vars.sigChld = true ∨
    (cfg.killsig = SIGCHLD ∧ cfg.killAfter.isSome ∧ w.vars.doSecondKill = false)
  expiry_pending : cfg.killAfter.map setInterval = some (some true) →
    w.vars.doSecondKill = false → w.timer = true ∨ SIGALRM ∈ w.pending ∨ w.vars.sigAlrm = true

/-- What holds at each place of the program. -/
def Place (cfg : Config) (w : World) : Prop :=
  match w.pc with
  | .forked | .blocked =>
    Looping cfg w ∧ w.timer = false ∧ SIGALRM ∉ w.pending ∧
      w.log = [] ∧ w.vars.sigChld = false ∧ w.vars.sigAlrm = false
  | .suspended =>
    Looping cfg w ∧ w.vars.sigChld = false ∧ w.vars.sigAlrm = false ∧ Answered cfg w.log ∧
      (Obs.expiry false ∈ w.log → w.vars.timedout = true)
  | .woken =>
    Looping cfg w ∧
      ((w.vars.sigAlrm = false ∧ Answered cfg w.log ∧
          (Obs.expiry false ∈ w.log → w.vars.timedout = true)) ∨
        (w.vars.sigAlrm = true ∧ w.vars.sigChld = false ∧
          ∃ l, w.log = l ++ [.expiry false] ∧ Answered cfg l))
  | .waiting =>
    Answered cfg w.log ∧ (Obs.expiry false ∈ w.log → w.vars.timedout = true) ∧
      ((w.vars.childDone = false ∧ w.command.Unreaped) ∨
        ∃ e, w.vars.childDone = true ∧ w.command = .reaped e ∧ w.vars.pstat = e.word) ∧
      (w.command = .running → w.timer = false ∧ SIGALRM ∉ w.pending)
  | .exited r =>
    Answered cfg w.log ∧ (Obs.expiry false ∈ w.log →
      ∃ e, w.command = .reaped e ∧ r = if cfg.preserve then e.status else EXIT_TIMEOUT)
  | .killed => False

def Inv (cfg : Config) (w : World) : Prop := Staged cfg w ∧ Place cfg w

theorem inv_start (cfg : Config) : Inv cfg (start cfg) := by
  refine ⟨⟨?_, ?_, ?_, ?_, ?_, ?_⟩, ⟨?_, ?_, ?_, ?_⟩, ?_⟩ <;>
    cases h : cfg.killAfter <;> simp [start, h, hasKill, Command.Unreaped]

theorem Looping.timerExpires {cfg : Config} {w : World} (h : Looping cfg w) :
    Looping cfg { w with timer := false, pending := insert SIGALRM w.pending } where
  unreaped := h.unreaped
  childDone := h.childDone
  exit_pending he := by
    rcases h.exit_pending he with hp | hp
    · exact .inl (Finset.mem_insert_of_mem hp)
    · exact .inr hp
  expiry_pending _ _ := .inr (.inl (Finset.mem_insert_self _ _))

theorem Looping.commandExits {cfg : Config} {w : World} (h : Looping cfg w) (e : CommandEnd) :
    Looping cfg { w with command := .zombie e, pending := insert SIGCHLD w.pending } where
  unreaped := trivial
  childDone := h.childDone
  exit_pending _ := .inl (Finset.mem_insert_self _ _)
  expiry_pending hk hd := by
    rcases h.expiry_pending hk hd with hp | hp | hp
    · exact .inl hp
    · exact .inr (.inl (Finset.mem_insert_of_mem hp))
    · exact .inr (.inr hp)

theorem Looping.external {cfg : Config} {w : World} (h : Looping cfg w) (s : Signo) :
    Looping cfg { w with pending := insert s w.pending } where
  unreaped := h.unreaped
  childDone := h.childDone
  exit_pending he := by
    rcases h.exit_pending he with hp | hp
    · exact .inl (Finset.mem_insert_of_mem hp)
    · exact .inr hp
  expiry_pending hk hd := by
    rcases h.expiry_pending hk hd with hp | hp | hp
    · exact .inl hp
    · exact .inr (.inl (Finset.mem_insert_of_mem hp))
    · exact .inr (.inr hp)

theorem Inv.timerExpires {cfg : Config} {w w' : World} (h : Inv cfg w)
    (hw : w.next? cfg .timerExpires = some w') : Inv cfg w' := by
  obtain ⟨hs, hp⟩ := h
  simp only [World.next?, Bool.and_eq_true, Option.ite_none_right_eq_some, Option.some.injEq] at hw
  obtain ⟨⟨ha, ht⟩, rfl⟩ := hw
  refine ⟨⟨hs.1, hs.2, hs.3, hs.4, hs.5, hs.6⟩, ?_⟩
  obtain ⟨pc, vars, command, timer, pending, log⟩ := w
  cases pc
  case forked => exact absurd hp.2.1 (by simpa using ht)
  case blocked => exact absurd hp.2.1 (by simpa using ht)
  case suspended => exact ⟨hp.1.timerExpires, hp.2⟩
  case woken => exact ⟨hp.1.timerExpires, hp.2⟩
  case waiting =>
    refine ⟨hp.1, hp.2.1, hp.2.2.1, fun hc => ?_⟩
    exact absurd (hp.2.2.2 hc).1 (by simpa using ht)
  case exited => simp [World.alive] at ha
  case killed => simp [World.alive] at ha

theorem Inv.commandExits {cfg : Config} {w w' : World} {e : CommandEnd} (h : Inv cfg w)
    (hw : w.next? cfg (.commandExits e) = some w') : Inv cfg w' := by
  obtain ⟨hs, hp⟩ := h
  simp only [World.next?, Bool.and_eq_true, decide_eq_true_eq, Option.ite_none_right_eq_some,
    Option.some.injEq] at hw
  obtain ⟨⟨ha, hc⟩, rfl⟩ := hw
  refine ⟨⟨hs.1, hs.2, hs.3, hs.4, hs.5, hs.6⟩, ?_⟩
  have hne : SIGALRM ≠ SIGCHLD := by decide
  obtain ⟨pc, vars, command, timer, pending, log⟩ := w
  cases pc
  case forked =>
    exact ⟨hp.1.commandExits e, hp.2.1, by simp [hne, hp.2.2.1], hp.2.2.2⟩
  case blocked =>
    exact ⟨hp.1.commandExits e, hp.2.1, by simp [hne, hp.2.2.1], hp.2.2.2⟩
  case suspended => exact ⟨hp.1.commandExits e, hp.2⟩
  case woken => exact ⟨hp.1.commandExits e, hp.2⟩
  case waiting =>
    refine ⟨hp.1, hp.2.1, ?_, by simp⟩
    rcases hp.2.2.1 with hu | ⟨e', _, hr, _⟩
    · exact .inl ⟨hu.1, trivial⟩
    · exact absurd (hc.symm.trans hr) (by simp)
  case exited => simp [World.alive] at ha
  case killed => simp [World.alive] at ha

theorem External.signo_ne_alrm (s : External) : s.signo ≠ SIGALRM := by
  cases s <;> decide

theorem Inv.external {cfg : Config} {w w' : World} {s : External} (h : Inv cfg w)
    (hw : w.next? cfg (.external s) = some w') : Inv cfg w' := by
  obtain ⟨hs, hp⟩ := h
  simp only [World.next?, Option.ite_none_right_eq_some, Option.some.injEq] at hw
  obtain ⟨ha, rfl⟩ := hw
  refine ⟨⟨hs.1, hs.2, hs.3, hs.4, hs.5, hs.6⟩, ?_⟩
  have hne := s.signo_ne_alrm.symm
  obtain ⟨pc, vars, command, timer, pending, log⟩ := w
  cases pc
  case forked => exact ⟨hp.1.external _, hp.2.1, by simp [hne, hp.2.2.1], hp.2.2.2⟩
  case blocked => exact ⟨hp.1.external _, hp.2.1, by simp [hne, hp.2.2.1], hp.2.2.2⟩
  case suspended => exact ⟨hp.1.external _, hp.2⟩
  case woken => exact ⟨hp.1.external _, hp.2⟩
  case waiting =>
    refine ⟨hp.1, hp.2.1, hp.2.2.1, fun hc => ⟨(hp.2.2.2 hc).1, ?_⟩⟩
    simp [hne, (hp.2.2.2 hc).2]
  case exited => simp [World.alive] at ha
  case killed => simp [World.alive] at ha

section Handler
variable (v : Vars) (signo : Signo)

@[simp] theorem sigHandler_killsig : (sigHandler v signo).killsig = v.killsig := by
  unfold sigHandler; split_ifs <;> rfl

@[simp] theorem sigHandler_timedout : (sigHandler v signo).timedout = v.timedout := by
  unfold sigHandler; split_ifs <;> rfl

@[simp] theorem sigHandler_doSecondKill :
    (sigHandler v signo).doSecondKill = v.doSecondKill := by
  unfold sigHandler; split_ifs <;> rfl

@[simp] theorem sigHandler_childDone : (sigHandler v signo).childDone = v.childDone := by
  unfold sigHandler; split_ifs <;> rfl

theorem sigHandler_sigIgn (h : (sigHandler v signo).sigIgn ≠ 0) :
    (sigHandler v signo).sigIgn = v.sigIgn := by
  unfold sigHandler at h ⊢; split_ifs at h ⊢ <;> simp_all

theorem sigHandler_sigChld (h : signo ≠ SIGCHLD) :
    (sigHandler v signo).sigChld = v.sigChld := by
  unfold sigHandler; split_ifs <;> rfl

theorem sigHandler_sigAlrm (h : signo ≠ SIGALRM) :
    (sigHandler v signo).sigAlrm = v.sigAlrm := by
  unfold sigHandler; split_ifs <;> rfl

theorem sigHandler_chld_sigTerm : (sigHandler v SIGCHLD).sigTerm = v.sigTerm := by
  simp only [sigHandler]
  split_ifs with _ h
  · rfl
  · exact absurd h (by decide)
  · rfl

theorem sigHandler_chld (h : v.sigIgn ≠ SIGCHLD) : (sigHandler v SIGCHLD).sigChld = true := by
  simp [sigHandler, SIGCHLD, SIGINT, SIGHUP, SIGQUIT, SIGTERM] at h ⊢
  simp [Ne.symm h]

theorem sigHandler_alrm (h : v.sigIgn ≠ SIGALRM) : (sigHandler v SIGALRM).sigAlrm = true := by
  simp [sigHandler, SIGALRM, SIGCHLD, SIGINT, SIGHUP, SIGQUIT, SIGTERM] at h ⊢
  simp [Ne.symm h]

end Handler

section Handle
variable (w : World) (signo : Signo) (pc : Pc)

@[simp] theorem handle_vars : (w.handle signo pc).vars = sigHandler w.vars signo := by
  unfold World.handle World.observe
  split_ifs <;> rfl

@[simp] theorem handle_pending : (w.handle signo pc).pending = w.pending.erase signo := by
  unfold World.handle World.observe
  split_ifs <;> rfl

@[simp] theorem handle_command : (w.handle signo pc).command = w.command := by
  unfold World.handle World.observe
  split_ifs <;> rfl

@[simp] theorem handle_timer : (w.handle signo pc).timer = w.timer := by
  unfold World.handle World.observe
  split_ifs <;> rfl

theorem handle_log : (w.handle signo pc).log =
    if signo = SIGALRM then w.log ++ [.expiry w.reaped] else w.log := by
  unfold World.handle World.observe
  split_ifs <;> rfl

end Handle

theorem Staged.sigIgn_ne_alrm {cfg : Config} {w : World} (h : Staged cfg w)
    (hk : SoundKillAfter cfg) : w.vars.sigIgn ≠ SIGALRM := by
  intro hi
  obtain ⟨hs, -, he⟩ := h.ignored (by rw [hi]; decide)
  obtain ⟨iv, hiv⟩ := Option.isSome_iff_exists.mp hs
  exact (hk iv hiv).1 (he.symm.trans hi)

theorem Staged.handle {cfg : Config} {w : World} (h : Staged cfg w) (signo : Signo) (pc : Pc)
    (hq : cfg.foreground = false → signo = SIGCHLD) : Staged cfg (w.handle signo pc) := by
  have hlog : (w.handle signo pc).log = w.log ∨
      (w.handle signo pc).log = w.log ++ [.expiry w.reaped] := by
    rw [handle_log]
    split_ifs
    · exact .inr rfl
    · exact .inl rfl
  constructor
  · simpa using h.killsig
  · simpa using h.none
  · rcases hlog with hl | hl <;> simpa [hl] using h.stage
  · intro hi
    rw [handle_vars] at hi ⊢
    have he := sigHandler_sigIgn w.vars signo hi
    rw [he] at hi ⊢
    simpa using h.ignored hi
  · rcases hlog with hl | hl <;> simpa [hl] using h.self
  · intro hfg
    obtain rfl := hq hfg
    obtain ⟨hal, hterm, hx⟩ := h.quiet hfg
    have hne : SIGCHLD ≠ SIGALRM := by decide
    simp only [World.handle, if_neg hne]
    exact ⟨(sigHandler_sigAlrm _ _ hne).trans hal, (sigHandler_chld_sigTerm _).trans hterm, hx⟩

theorem Looping.handle {cfg : Config} {w : World} (h : Looping cfg w) (hs : Staged cfg w)
    (hk : SoundKillAfter cfg) (signo : Signo) (pc : Pc) : Looping cfg (w.handle signo pc) := by
  constructor
  · rw [handle_command]; exact h.unreaped
  · simpa using h.childDone
  · -- the exit is still pending, was just recorded, or has been swallowed
    rw [handle_command, handle_pending, handle_vars]
    intro he
    by_cases hsig : signo = SIGCHLD
    · subst hsig
      by_cases hi : w.vars.sigIgn = SIGCHLD
      · obtain ⟨hka, hd, hkc⟩ := hs.ignored (by rw [hi]; decide)
        exact .inr (.inr ⟨hkc.symm.trans hi, hka, by simpa using hd⟩)
      · exact .inr (.inl (sigHandler_chld _ hi))
    · rw [sigHandler_sigChld _ _ hsig, sigHandler_doSecondKill]
      rcases h.exit_pending he with hm | hm
      · exact .inl (Finset.mem_erase.mpr ⟨Ne.symm hsig, hm⟩)
      · exact .inr hm
  · rw [handle_timer, handle_pending, handle_vars, sigHandler_doSecondKill]
    intro hka hd
    by_cases hsig : signo = SIGALRM
    · subst hsig
      exact .inr (.inr (sigHandler_alrm _ (hs.sigIgn_ne_alrm hk)))
    · rw [sigHandler_sigAlrm _ _ hsig]
      rcases h.expiry_pending hka hd with hm | hm | hm
      · exact .inl hm
      · exact .inr (.inl (Finset.mem_erase.mpr ⟨Ne.symm hsig, hm⟩))
      · exact .inr (.inr hm)

theorem reaped_eq_false {w : World} (h : w.command.Unreaped) : w.reaped = false := by
  unfold World.reaped
  split
  · next e he => rw [he] at h; exact h.elim
  · rfl

theorem Inv.deliver {cfg : Config} {w w' : World} {signo : Signo} (h : Inv cfg w)
    (hk : SoundKillAfter cfg) (hq : cfg.foreground = false → signo = SIGCHLD)
    (hg : ¬ (w.pc = .forked ∧ signo = SIGCHLD))
    (hw : w.next? cfg (.deliver signo) = some w') : Inv cfg w' := by
  obtain ⟨hs, hp⟩ := h
  simp only [World.next?, Option.ite_none_right_eq_some] at hw
  obtain ⟨hmem, hw⟩ := hw
  obtain ⟨pc, vars, command, timer, pending, log⟩ := w
  cases pc <;> simp only [Option.some.injEq, reduceCtorEq] at hw <;> subst hw
  case forked =>
    obtain ⟨hl, ht, ha, hlog, hch, hal⟩ := hp
    have hna : signo ≠ SIGALRM := fun he => ha (he ▸ hmem)
    have hnc : signo ≠ SIGCHLD := fun he => hg ⟨rfl, he⟩
    refine ⟨hs.handle _ _ hq, hl.handle hs hk _ _, ?_⟩
    simp only [World.handle, if_neg hna]
    exact ⟨ht, fun hm => ha (Finset.mem_of_mem_erase hm), hlog,
      (sigHandler_sigChld _ _ hnc).trans hch, (sigHandler_sigAlrm _ _ hna).trans hal⟩
  case suspended =>
    obtain ⟨hl, hch, hal, hans, hto⟩ := hp
    refine ⟨hs.handle _ _ hq, hl.handle hs hk _ _, ?_⟩
    by_cases hsig : signo = SIGALRM
    · subst hsig
      right
      simp only [World.handle, if_true, World.observe, reaped_eq_false hl.unreaped]
      exact ⟨sigHandler_alrm _ (hs.sigIgn_ne_alrm hk),
        (sigHandler_sigChld _ _ (by decide)).trans hch, log, rfl, hans⟩
    · left
      simp only [World.handle, if_neg hsig]
      exact ⟨(sigHandler_sigAlrm _ _ hsig).trans hal, hans, by simpa using hto⟩

/-- Sending the first signal arms the second stage; sending the second one ends the loop. -/
theorem Inv.secondStage {cfg : Config} {w : World} {signo : Signo} (hk : SoundKillAfter cfg)
    (hfg : cfg.foreground = true)
    (hbr : w.vars.doSecondKill = false → w.command = .running →
      w.timer = false ∧ SIGALRM ∉ w.pending)
    (hs : Staged cfg w) (hu : w.command.Unreaped) (hcd : w.vars.childDone = false)
    (hexit : (∃ e, w.command = .zombie e) → SIGCHLD ∈ w.pending ∨
      (cfg.killsig = SIGCHLD ∧ cfg.killAfter.isSome ∧ w.vars.doSecondKill = false))
    (hch : w.vars.sigChld = false) (hal : w.vars.sigAlrm = false)
    (hans : Answered cfg (w.log ++ [.kill .command signo]))
    (hto : Obs.expiry false ∈ w.log → w.vars.timedout = true) :
    Inv cfg ((w.sendSig signo).secondStage cfg) := by
  have hto' : Obs.expiry false ∈ w.log ++ [.kill .command signo] → w.vars.timedout = true := by
    intro hm
    simp only [List.mem_append, List.mem_singleton, reduceCtorEq, or_false] at hm
    exact hto hm
  have hself : ∀ s, Obs.kill .self s ∉ w.log ++ [.kill .command signo] := by
    intro s hm
    simp only [List.mem_append, List.mem_singleton, Obs.kill.injEq, reduceCtorEq, false_and,
      or_false] at hm
    exact hs.self s hm
  have hnq {p : Prop} : cfg.foreground = false → p := fun hf => absurd hf (by simp [hfg])
  unfold World.secondStage World.sendSig World.observe
  by_cases hd : w.vars.doSecondKill = true
  · have hsome : cfg.killAfter.isSome := by
      by_contra hn
      simp [hs.none (by simpa using hn)] at hd
    obtain ⟨iv, hiv⟩ := Option.isSome_iff_exists.mp hsome
    cases harm : setInterval iv with
    | none => exact absurd harm (hk iv hiv).2.1
    | some armed =>
      have hks : w.vars.killsig = cfg.killsig := by simpa [hd] using hs.killsig
      simp only [hd, if_true, hiv, Option.getD_some, harm]
      refine ⟨⟨?_, ?_, ?_, ?_, hself, hnq⟩, ⟨hu, hcd, ?_, ?_⟩, hch, hal, hans, hto'⟩
      · simp [hiv]
      · simp
      · simp
      · intro _
        exact ⟨hsome, rfl, hks⟩
      · intro he
        rcases hexit he with hm | ⟨_, _, hm⟩
        · exact .inl hm
        · simp [hd] at hm
      · intro hka _
        rw [hiv, Option.map_some, harm] at hka
        exact .inl (by simpa using hka)
  · rw [if_neg hd]
    simp only [Bool.not_eq_true] at hd
    refine ⟨⟨hs.killsig, hs.none, fun _ => ?_, hs.ignored, hself, hnq⟩, hans, hto', .inl ⟨hcd, hu⟩,
      hbr hd⟩
    simpa using hd

theorem Inv.loopBody {cfg : Config} {w : World} (h : Inv cfg w) (hk : SoundKillAfter cfg)
    (hbr : ¬ w.BreaksEarly) (hpc : w.pc = .woken) : Inv cfg (w.loopBody cfg) := by
  obtain ⟨hs, hp⟩ := h
  obtain ⟨pc, vars, command, timer, pending, log⟩ := w
  obtain rfl : pc = .woken := hpc
  obtain ⟨hl, hcase⟩ := hp
  unfold World.loopBody
  by_cases hch : vars.sigChld = true
  · -- the command is reaped if it has ended
    obtain ⟨hal, hans, hto⟩ | ⟨-, hc, -⟩ := hcase
    swap
    · simp [hch] at hc
    rw [if_pos hch]
    cases command with
    | running =>
      rw [if_neg (by simpa [World.reap] using hl.childDone)]
      exact ⟨⟨hs.1, hs.2, hs.3, hs.4, hs.5, hs.6⟩,
        ⟨trivial, hl.childDone, by simp [World.reap], hl.expiry_pending⟩, rfl, hal, hans, hto⟩
    | zombie e =>
      rw [if_pos (by simp [World.reap]), if_pos (show prctlInfo = 0 from rfl), ite_self]
      exact ⟨⟨hs.1, hs.2, hs.3, hs.4, hs.5, hs.6⟩, hans, hto, .inr ⟨e, rfl, rfl, rfl⟩,
        fun hr => by simp [World.reap] at hr⟩
    | reaped e => exact hl.unreaped.elim
  rw [if_neg hch]
  simp only [Bool.not_eq_true] at hch
  have hexit : (∃ e, command = .zombie e) → SIGCHLD ∈ pending ∨
      (cfg.killsig = SIGCHLD ∧ cfg.killAfter.isSome ∧ vars.doSecondKill = false) := by
    intro he
    rcases hl.exit_pending he with hm | hm | hm
    · exact .inl hm
    · exact absurd hm (by simp [hch])
    · exact .inr hm
  have hfg (hact : vars.sigAlrm = true ∨ vars.sigTerm ≠ 0) : cfg.foreground = true := by
    by_contra hn
    obtain ⟨ha, ht, -⟩ := hs.quiet (by simpa using hn)
    rcases hact with h' | h'
    · exact absurd ha (by simpa using h')
    · exact h' ht
  have hdeaf (hact : vars.sigAlrm = true ∨ vars.sigTerm ≠ 0) (hd : vars.doSecondKill = false)
      (hc : command = .running) : timer = false ∧ SIGALRM ∉ pending := by
    by_contra hn
    refine hbr ⟨hch, hact, hd, hc, ?_⟩
    by_contra hn'
    push Not at hn'
    exact hn ⟨by simpa using hn'.1, hn'.2⟩
  by_cases hal : vars.sigAlrm = true
  · -- the expiry is answered with the signal of the stage
    obtain ⟨ha, -⟩ | ⟨-, -, l, hlog, hans⟩ := hcase
    · simp [hal] at ha
    obtain rfl : log = l ++ [.expiry false] := hlog
    have hdue : vars.killsig = dueSignal cfg l := by
      have h1 := hs.killsig
      rw [dueSignal_eq]
      by_cases hsome : cfg.killAfter.isSome
      · have h2 : vars.doSecondKill = !hasKill l := by simpa using hs.stage hsome
        simpa [hsome, h2] using h1
      · simpa [hsome] using h1
    rw [if_pos hal, if_pos (hfg (.inl hal))]
    refine Inv.secondStage hk (hfg (.inl hal)) (hdeaf (.inl hal))
      ⟨hs.1, hs.2, hs.3, hs.4, hs.5, fun hq => absurd (hs.quiet hq).1 (by simp [hal])⟩
      hl.unreaped hl.childDone hexit hch rfl ?_ (fun _ => rfl)
    rw [hdue]
    exact hans.answer
  obtain ⟨-, hans, hto⟩ | ⟨ha, -⟩ := hcase
  swap
  · exact absurd ha hal
  rw [if_neg hal]
  simp only [Bool.not_eq_true] at hal
  by_cases hterm : vars.sigTerm = 0
  · rw [if_neg (by simpa using hterm)]
    exact ⟨⟨hs.1, hs.2, hs.3, hs.4, hs.5, hs.6⟩,
      ⟨hl.unreaped, hl.childDone, hl.exit_pending, hl.expiry_pending⟩, hch, hal, hans, hto⟩
  · rw [if_pos (by simpa using hterm), if_pos (hfg (.inr hterm))]
    exact Inv.secondStage hk (hfg (.inr hterm)) (hdeaf (.inr hterm))
      ⟨hs.1, hs.2, hs.3, hs.4, hs.5, hs.6⟩ hl.unreaped hl.childDone hexit hch hal
      (hans.append (by simp)) hto

theorem Inv.finish {cfg : Config} {w : World} {e : CommandEnd} (hs : Staged cfg w)
    (hans : Answered cfg w.log) (hto : Obs.expiry false ∈ w.log → w.vars.timedout = true)
    (hc : w.command = .reaped e) (hst : w.vars.pstat = e.word) : Inv cfg (w.finish cfg) := by
  unfold World.finish World.exit World.observe
  simp only [hst, finish_word]
  refine ⟨⟨hs.1, hs.2, ?_, hs.4, ?_, ?_⟩, hans.append (by simp), ?_⟩
  · simpa using hs.stage
  · simpa using hs.self
  · simpa using hs.quiet
  · intro hm
    refine ⟨e, hc, ?_⟩
    simp only [List.mem_append, List.mem_singleton, reduceCtorEq, or_false] at hm
    cases hpr : cfg.preserve <;> simp [hto hm]

theorem Inv.step {cfg : Config} {w w' : World} (h : Inv cfg w) (hk : SoundKillAfter cfg)
    (hbr : ¬ (w.pc = .woken ∧ w.BreaksEarly)) (hw : w.next? cfg .step = some w') : Inv cfg w' := by
  have h' := h
  obtain ⟨hs, hp⟩ := h
  simp only [World.next?] at hw
  obtain ⟨pc, vars, command, timer, pending, log⟩ := w
  cases pc <;> simp only [reduceCtorEq, Option.some.injEq] at hw
  case forked =>
    subst hw
    exact ⟨⟨hs.1, hs.2, hs.3, hs.4, hs.5, hs.6⟩, ⟨hp.1.1, hp.1.2, hp.1.3, hp.1.4⟩, hp.2⟩
  case blocked =>
    obtain ⟨hl, ht, ha, hlog, hch, hal⟩ := hp
    obtain rfl : log = [] := hlog
    split at hw <;> cases hw
    · refine ⟨⟨hs.1, hs.2, ?_, hs.4, ?_, ?_⟩, (Answered.nil cfg).append (by simp), ?_⟩
      · simpa [World.exit, World.observe, hasKill] using hs.stage
      · simp [World.exit, World.observe]
      · simpa [World.exit, World.observe] using hs.quiet
      · simp [World.exit, World.observe]
    · refine ⟨⟨hs.1, hs.2, hs.3, hs.4, hs.5, hs.6⟩, ⟨hl.unreaped, hl.childDone, hl.exit_pending, ?_⟩,
        hch, hal, Answered.nil cfg, by simp⟩
      intro hka hd
      have hsome : cfg.killAfter.isSome := by
        cases hc : cfg.killAfter <;> simp_all
      have := hs.stage hsome
      simp_all [hasKill]
  case woken =>
    subst hw
    exact h'.loopBody hk (fun hb => hbr ⟨rfl, hb⟩) rfl
  case waiting =>
    obtain ⟨hans, hto, hc, -⟩ := hp
    rcases hc with ⟨hcd, hu⟩ | ⟨e, hcd, hr, hst⟩
    · rw [if_neg (by simpa using hcd)] at hw
      cases command with
      | running => simp at hw
      | zombie e =>
        simp only [Option.some.injEq] at hw
        subst hw
        exact Inv.finish ⟨hs.1, hs.2, hs.3, hs.4, hs.5, hs.6⟩ hans hto rfl rfl
      | reaped e => exact hu.elim
    · rw [if_pos hcd] at hw
      cases hw
      exact Inv.finish ⟨hs.1, hs.2, hs.3, hs.4, hs.5, hs.6⟩ hans hto hr hst

theorem Inv.next {cfg : Config} {w w' : World} {e : Event} (hk : SoundKillAfter cfg) (h : Inv cfg w)
    (hg : Guarded cfg w e) (hw : w.next? cfg e = some w') : Inv cfg w' := by
  cases e with
  | timerExpires => exact h.timerExpires hw
  | commandExits e => exact h.commandExits hw
  | external s => exact h.external hw
  | deliver signo => exact h.deliver hk hg.1 (fun hc => hg.2 hc.1 hc.2) hw
  | step => exact h.step hk (fun hb => hg hb.1 hb.2) hw

/-! ### Coming to the return -/

theorem Settles.of_next {cfg : Config} {w w' : World} (e : Event) (hi : e.internal)
    (hw : w.next? cfg e = some w') (h : Settles cfg w') : Settles cfg w := by
  obtain ⟨es, v, r, hes, hrun, hpc⟩ := h
  refine ⟨e :: es, v, r, ?_, Common.run_cons_eq_some.mpr ⟨w', hw, hrun⟩, hpc⟩
  simpa [hi] using hes

theorem Inv.settles_waiting {cfg : Config} {w : World} (h : Inv cfg w) (hpc : w.pc = .waiting)
    (hc : w.command ≠ .running) : Settles cfg w := by
  have hp := h.2
  simp only [Place, hpc] at hp
  suffices hw : ∃ v : World, w.next? cfg .step = some (v.finish cfg) by
    obtain ⟨v, hv⟩ := hw
    exact .of_next .step rfl hv ⟨[], _, _, by simp, rfl, rfl⟩
  rcases hp.2.2.1 with ⟨hcd, hu⟩ | ⟨e, hcd, -⟩
  · cases hcmd : w.command with
    | running => exact absurd hcmd hc
    | zombie e =>
      simp only [World.next?, hpc, hcd, hcmd, Bool.false_eq_true, if_false]
      exact ⟨_, rfl⟩
    | reaped e => simp [Command.Unreaped, hcmd] at hu
  · exact ⟨w, by simp [World.next?, hpc, hcd]⟩

theorem loopBody_chld {cfg : Config} {w : World} {e : CommandEnd} (hfg : cfg.foreground = true)
    (hch : w.vars.sigChld = true) (hc : w.command = .zombie e) :
    (w.loopBody cfg).pc = .waiting ∧ (w.loopBody cfg).command = .reaped e := by
  simp [World.loopBody, hch, World.reap, hc, hfg]

theorem loopBody_alrm {cfg : Config} {w : World} (hfg : cfg.foreground = true)
    (hch : w.vars.sigChld = false) (hal : w.vars.sigAlrm = true)
    (hd : w.vars.doSecondKill = false) :
    (w.loopBody cfg).pc = .waiting ∧ (w.loopBody cfg).command = w.command := by
  simp [World.loopBody, hch, hal, hfg, World.secondStage, World.sendSig, World.observe, hd]

@[simp] theorem secondStage_command (cfg : Config) (w : World) :
    (w.secondStage cfg).command = w.command := by
  unfold World.secondStage
  split
  · split <;> rfl
  · rfl

@[simp] theorem sendSig_command (w : World) (s : Signo) : (w.sendSig s).command = w.command := rfl

theorem reap_command {w : World} (hc : w.command ≠ .running) : w.reap.command ≠ .running := by
  unfold World.reap
  split
  · simp
  · exact hc

theorem loopBody_foreground {cfg : Config} {w : World} (hfg : cfg.foreground = true)
    (hc : w.command ≠ .running) :
    (w.loopBody cfg).command ≠ .running ∧ ((w.loopBody cfg).pc = .suspended ∨
      (w.loopBody cfg).pc = .waiting ∨ ∃ r, (w.loopBody cfg).pc = .exited r) := by
  have hst : ∀ v : World, (v.secondStage cfg).pc = .suspended ∨
      (v.secondStage cfg).pc = .waiting ∨ ∃ r, (v.secondStage cfg).pc = .exited r := by
    intro v
    unfold World.secondStage
    split
    · split
      · exact .inr (.inr ⟨_, rfl⟩)
      · exact .inl rfl
    · exact .inr (.inl rfl)
  unfold World.loopBody
  simp only [hfg, if_true]
  split
  · have hr := reap_command (w := { w with vars := { w.vars with sigChld := false } }) hc
    split
    · exact ⟨hr, .inr (.inl rfl)⟩
    · exact ⟨hr, .inl rfl⟩
  · split
    · exact ⟨by simpa using hc, hst _⟩
    · split
      · exact ⟨by simpa using hc, hst _⟩
      · exact ⟨hc, .inl rfl⟩

theorem Inv.settles_suspended {cfg : Config} {w : World} (h : Inv cfg w)
    (hfg : cfg.foreground = true) (hk : SoundKillAfter cfg) (hpc : w.pc = .suspended)
    (hc : w.command ≠ .running) : Settles cfg w := by
  have hp := h.2
  simp only [Place, hpc] at hp
  obtain ⟨hl, hch, hal, -⟩ := hp
  obtain ⟨e, he⟩ : ∃ e, w.command = .zombie e := by
    have hu := hl.unreaped
    cases hcmd : w.command with
    | running => exact absurd hcmd hc
    | zombie e => exact ⟨e, rfl⟩
    | reaped e => simp [hcmd, Command.Unreaped] at hu
  -- a delivered signal is followed by one pass of the loop
  have hpass : ∀ (v : World) (signo : Signo), Inv cfg v → v.pc = .suspended → signo ∈ v.pending →
      v.command ≠ .running → ((v.handle signo .woken).loopBody cfg).pc = .waiting →
      ((v.handle signo .woken).loopBody cfg).command ≠ .running → Settles cfg v := by
    intro v signo hv hvpc hm hvc hw hc'
    have hd : v.next? cfg (.deliver signo) = some (v.handle signo .woken) := by
      simp [World.next?, hm, hvpc]
    have hv' := hv.deliver hk (fun hf => absurd hf (by simp [hfg])) (by simp [hvpc]) hd
    have hpc' : (v.handle signo .woken).pc = .woken := rfl
    refine .of_next (.deliver signo) rfl hd (.of_next .step rfl ?_
      ((hv'.loopBody hk (fun hb => hvc ?_) hpc').settles_waiting hw hc'))
    · simp [World.next?, hpc']
    · simpa [World.handle, World.observe, apply_ite World.command] using hb.2.2.2.1
  by_cases hcase : SIGCHLD ∈ w.pending ∧ w.vars.sigIgn ≠ SIGCHLD
  · have hne : SIGCHLD ≠ SIGALRM := by decide
    have := loopBody_chld (w := w.handle SIGCHLD .woken) (e := e) hfg
      (by simp [World.handle, hne, sigHandler_chld _ hcase.2]) (by simp [World.handle, hne, he])
    exact hpass w SIGCHLD h hpc hcase.1 hc this.1 (by simp [this.2])
  -- the handler has swallowed the exit, so the second expiry is still to come
  have hstage : cfg.killsig = SIGCHLD ∧ cfg.killAfter.isSome ∧ w.vars.doSecondKill = false := by
    rcases hl.exit_pending ⟨e, he⟩ with hm | hm | hm
    · have hi : w.vars.sigIgn = SIGCHLD := by
        by_contra hi
        exact hcase ⟨hm, hi⟩
      obtain ⟨hka, hd, hks⟩ := h.1.ignored (by rw [hi]; decide)
      exact ⟨hks.symm.trans hi, hka, hd⟩
    · simp [hch] at hm
    · exact hm
  obtain ⟨iv, hiv⟩ := Option.isSome_iff_exists.mp hstage.2.1
  have hpend := hl.expiry_pending (by rw [hiv, Option.map_some, (hk iv hiv).2.2 hstage.1])
    hstage.2.2
  have halrm : ∀ v : World, Inv cfg v → v.pc = .suspended → SIGALRM ∈ v.pending →
      v.vars = w.vars → v.command = w.command → Settles cfg v := by
    intro v hv hvpc hm hvv hvc
    have hi := h.1.sigIgn_ne_alrm hk
    have := loopBody_alrm (w := v.handle SIGALRM .woken) hfg
      (by simp [World.handle, World.observe, hvv, sigHandler_sigChld w.vars SIGALRM (by decide), hch])
      (by simp [World.handle, World.observe, hvv, sigHandler_alrm _ hi])
      (by simp [World.handle, World.observe, hvv, hstage.2.2])
    refine hpass v SIGALRM hv hvpc hm (hvc ▸ hc) this.1 ?_
    rw [this.2]
    simpa [World.handle, World.observe, hvc] using hc
  rcases hpend with ht | hm | hm
  · have hex : w.next? cfg .timerExpires =
        some { w with timer := false, pending := insert SIGALRM w.pending } := by
      simp [World.next?, World.alive, hpc, ht]
    exact .of_next .timerExpires rfl hex
      (halrm _ (h.timerExpires hex) hpc (Finset.mem_insert_self _ _) rfl rfl)
  · exact halrm w h hpc hm rfl rfl
  · simp [hal] at hm

theorem Inv.settles {cfg : Config} {w : World} (h : Inv cfg w) (hk : SoundKillAfter cfg)
    (ha : w.alive) (hx : Obs.expiry false ∈ w.log) (hc : w.command ≠ .running) :
    Settles cfg w := by
  have hfg : cfg.foreground = true := by
    by_contra hn
    exact (h.1.quiet (by simpa using hn)).2.2 hx
  have hp := h.2
  cases hpc : w.pc with
  | forked => simp only [Place, hpc] at hp; simp [hp.2.2.2.1] at hx
  | blocked => simp only [Place, hpc] at hp; simp [hp.2.2.2.1] at hx
  | suspended => exact h.settles_suspended hfg hk hpc hc
  | woken =>
    obtain ⟨hc', hcase⟩ := loopBody_foreground (w := w) hfg hc
    have hinv := h.loopBody hk (fun hb => hc hb.2.2.2.1) hpc
    have hnext : w.next? cfg .step = some (w.loopBody cfg) := by simp [World.next?, hpc]
    refine .of_next .step rfl hnext ?_
    rcases hcase with hs | hs | ⟨r, hs⟩
    · exact hinv.settles_suspended hfg hk hs hc'
    · exact hinv.settles_waiting hs hc'
    · exact ⟨[], _, r, by simp, rfl, hs⟩
  | waiting => exact h.settles_waiting hpc hc
  | exited r => simp [World.alive, hpc] at ha
  | killed => simp [World.alive, hpc] at ha

/-- In every run that meets the guard, whatever the order of events, an expiry kills the
command and not `timeout`. -/
theorem timeout_kills_command (cfg : Config) (es : List Event) (w : World)
    (hk : SoundKillAfter cfg)
    (hok : Common.StepsMeet (World.next? cfg) (Guarded cfg) (start cfg) es)
    (hrun : run cfg es = some w) : KillsCommand cfg w := by
  have h : Inv cfg w := Common.run_invariant (fun _ _ _ hg hi hn => hi.next hk hg hn) (inv_start cfg)
    hok hrun
  have hp := h.2
  refine ⟨?_, ?_, ⟨fun hm => h.1.self _ hm, ?_⟩, ?_, h.settles hk⟩
  · intro hpc
    simp only [Place, hpc] at hp
    exact hp.2.2.2
  · intro hpc
    unfold Place at hp
    cases hcase : w.pc <;> simp only [hcase] at hp
    case forked => rw [hp.2.2.2.1]; exact Answered.nil cfg
    case blocked => rw [hp.2.2.2.1]; exact Answered.nil cfg
    case suspended => exact hp.2.2.2.1
    case woken => exact absurd hcase hpc
    case waiting => exact hp.1
    case exited => exact hp.1
  · intro hpc
    simp [Place, hpc] at hp
  · intro r hpc hx
    simp only [Place, hpc] at hp
    exact hp.2 hx

/-- With `-k` the command is sent the first signal, then `SIGKILL`, and 124 is returned. -/
theorem timeout_kills_command_twice :
    ∃ w, KillsCommand ⟨true, false, SIGTERM, 10, some 5⟩ w ∧
      w.log = [.expiry false, .kill .command SIGTERM, .expiry false, .kill .command SIGKILL,
        .exit 124] := by
  let cfg : Config := ⟨true, false, SIGTERM, 10, some 5⟩
  let es : List Event := [.step, .step, .timerExpires, .deliver SIGALRM, .step, .timerExpires,
    .deliver SIGALRM, .step, .commandExits (.signaled 9 false (by decide)), .step]
  have hsome : ∃ w, run cfg es = some w ∧ w.log = [.expiry false, .kill .command SIGTERM,
      .expiry false, .kill .command SIGKILL, .exit 124] :=
    ⟨(run cfg es).get (by decide +kernel), by simp, by decide +kernel⟩
  obtain ⟨w, hrun, hlog⟩ := hsome
  refine ⟨w, timeout_kills_command cfg es w ?_ ?_ hrun, hlog⟩
  · intro iv hiv
    obtain rfl : 5 = iv := by simpa [cfg] using hiv
    exact ⟨by decide, by decide +kernel, by decide⟩
  · decide +kernel

/-- In default mode the first expiry kills `timeout` itself and leaves the command running. -/
theorem timeout_kills_itself :
    ∃ w, run ⟨false, false, SIGTERM, 10, none⟩
        [.step, .step, .timerExpires, .deliver SIGALRM, .step] = some w ∧
      w.log = [.expiry false, .kill .self SIGKILL] ∧ w.command = .running ∧
      ¬ KillsCommand ⟨false, false, SIGTERM, 10, none⟩ w := by
  have hsome : (run ⟨false, false, SIGTERM, 10, none⟩
      [.step, .step, .timerExpires, .deliver SIGALRM, .step]).map
        (fun w => (w.log, w.command)) = some ([.expiry false, .kill .self SIGKILL], .running) := by
    decide +kernel
  obtain ⟨w, hrun, heq⟩ := Option.map_eq_some_iff.mp hsome
  obtain ⟨hlog, hc⟩ := Prod.mk.inj heq
  exact ⟨w, hrun, hlog, hc, fun h => h.spares_self.1 (by simp [hlog])⟩

end BsdAdditions.Timeout
