import Mathlib.Data.Finset.Basic
import Mathlib.Data.Rat.Floor
import BsdAdditions.Common.Run

/-! The parent side of `timeout`, from the return of `fork` on, together with what the kernel
does around it: pending signals, the interval timer and the command. -/
namespace BsdAdditions.Timeout

abbrev Signo := ℕ

def SIGHUP : Signo := 1
def SIGINT : Signo := 2
def SIGQUIT : Signo := 3
def SIGKILL : Signo := 9
def SIGALRM : Signo := 14
def SIGTERM : Signo := 15
def SIGCHLD : Signo := 20

def EXIT_FAILURE : ℕ := 1
def EXIT_TIMEOUT : ℕ := 124

/-- What the command line fixes. `killAfter` is the argument of `-k`. -/
structure Config where
  foreground : Bool
  preserve : Bool
  killsig : Signo
  firstKill : ℚ
  killAfter : Option ℚ

/-- How the command ended. -/
inductive CommandEnd where
  | exited (code : Fin 256)
  | signaled (signo : ℕ) (core : Bool) (valid : 0 < signo ∧ signo < 127)
  deriving DecidableEq

/-- The status word that `wait` and `waitpid` store. -/
def CommandEnd.word : CommandEnd → ℕ
  | .exited code => code * 256
  | .signaled signo core _ => signo + if core then 128 else 0

/-- The exit status promised for a command that ended this way. -/
def CommandEnd.status : CommandEnd → ℕ
  | .exited code => code
  | .signaled signo _ _ => 128 + signo

def wstatus (x : ℕ) : ℕ := x % 128
def wexitstatus (x : ℕ) : ℕ := x / 256 % 256
def wifsignaled (x : ℕ) : Bool := wstatus x ≠ 127 && wstatus x ≠ 0
def wtermsig (x : ℕ) : ℕ := wstatus x

inductive Command where
  | running
  | zombie (e : CommandEnd)
  | reaped (e : CommandEnd)
  deriving DecidableEq

/-- The four signals that reach `timeout` from outside. -/
inductive External where
  | term | int | hup | quit
  deriving DecidableEq

def External.signo : External → Signo
  | .term => SIGTERM
  | .int => SIGINT
  | .hup => SIGHUP
  | .quit => SIGQUIT

/-- The handler's flags and the locals of `main` that the loop changes. -/
structure Vars where
  sigChld : Bool
  sigTerm : Signo
  sigAlrm : Bool
  sigIgn : Signo
  killsig : Signo
  timedout : Bool
  doSecondKill : Bool
  childDone : Bool
  pstat : ℕ
  deriving DecidableEq

/-- Where the parent stands. Signals are deliverable in `forked` and in `suspended` only. -/
inductive Pc where
  | forked
  | blocked
  | suspended
  | woken
  | waiting
  | exited (status : ℕ)
  | killed
  deriving DecidableEq

inductive Target where
  | command | self
  deriving DecidableEq

/-- What an observer sees of a run. -/
inductive Obs where
  | expiry (reaped : Bool)
  | kill (target : Target) (signo : Signo)
  | exit (status : ℕ)
  deriving DecidableEq

structure World where
  pc : Pc
  vars : Vars
  command : Command
  timer : Bool
  pending : Finset Signo
  log : List Obs
  deriving DecidableEq

inductive Event where
  | timerExpires
  | commandExits (e : CommandEnd)
  | external (s : External)
  | deliver (signo : Signo)
  | step
  deriving DecidableEq

def start (cfg : Config) : World where
  pc := .forked
  vars := { sigChld := false, sigTerm := 0, sigAlrm := false, sigIgn := 0,
            killsig := cfg.killsig, timedout := false, doSecondKill := cfg.killAfter.isSome,
            childDone := false, pstat := 0 }
  command := .running
  timer := false
  pending := ∅
  log := []

def sigHandler (v : Vars) (signo : Signo) : Vars :=
  if v.sigIgn ≠ 0 ∧ signo = v.sigIgn then { v with sigIgn := 0 }
  else if signo = 0 ∨ signo = SIGINT ∨ signo = SIGHUP ∨ signo = SIGQUIT ∨ signo = SIGTERM then
    { v with sigTerm := signo }
  else if signo = SIGCHLD then { v with sigChld := true }
  else if signo = SIGALRM then { v with sigAlrm := true }
  else v

/-- `setitimer` refuses values outside the range that Darwin documents. -/
def setitimerAccepts (sec usec : ℤ) : Bool :=
  0 ≤ sec && sec ≤ 100000000 && 0 ≤ usec && usec < 1000000

/-- C's conversion of a real to an integer truncates. -/
def truncate (q : ℚ) : ℤ := if 0 ≤ q then ⌊q⌋ else ⌈q⌉

def tvSec (iv : ℚ) : ℤ := truncate iv
def tvUsec (iv : ℚ) : ℤ := truncate ((iv - tvSec iv) * 1000000)

/-- Whether the timer runs afterwards; `none` when `setitimer` fails. A zero value disarms it. -/
def setInterval (iv : ℚ) : Option Bool :=
  if setitimerAccepts (tvSec iv) (tvUsec iv) then some (tvSec iv ≠ 0 || tvUsec iv ≠ 0) else none

/-- What the shim stores for `PR_GET_CHILD_SUBREAPER`: no descendants remain. -/
def prctlInfo : ℕ := 0

namespace World

def observe (w : World) (o : Obs) : World := { w with log := w.log ++ [o] }

def exit (w : World) (status : ℕ) : World :=
  { w.observe (.exit status) with pc := .exited status }

def sendSig (w : World) (signo : Signo) : World := w.observe (.kill .command signo)

/-- `kill(getpid(), signo)` with `signo` blocked, or fatal when it cannot be blocked. -/
def killSelf (w : World) (signo : Signo) : World :=
  if signo = SIGKILL then { w.observe (.kill .self signo) with pc := .killed }
  else { w.observe (.kill .self signo) with pending := insert signo w.pending }

/-- The `waitpid` loop with `WNOHANG`. -/
def reap (w : World) : World :=
  match w.command with
  | .zombie e =>
    { w with command := .reaped e, vars := { w.vars with pstat := e.word, childDone := true } }
  | _ => w

/-- The tail shared by the timer branch and the termination branch. -/
def secondStage (cfg : Config) (w : World) : World :=
  if w.vars.doSecondKill then
    match setInterval (cfg.killAfter.getD 0) with
    | none => w.exit EXIT_FAILURE
    | some armed =>
      { w with pc := .suspended, timer := armed,
               vars := { w.vars with doSecondKill := false, sigIgn := w.vars.killsig,
                                     killsig := SIGKILL } }
  else { w with pc := .waiting }

/-- One pass of the loop after `sigsuspend` has returned. -/
def loopBody (cfg : Config) (w : World) : World :=
  if w.vars.sigChld then
    let w := { w with vars := { w.vars with sigChld := false } }.reap
    if w.vars.childDone then
      if cfg.foreground then { w with pc := .waiting }
      else if prctlInfo = 0 then { w with pc := .waiting }
      else { w with pc := .suspended }
    else { w with pc := .suspended }
  else if w.vars.sigAlrm then
    let w := { w with vars := { w.vars with sigAlrm := false, timedout := true } }
    if cfg.foreground then (w.sendSig w.vars.killsig).secondStage cfg
    else w.killSelf SIGKILL
  else if w.vars.sigTerm ≠ 0 then
    if cfg.foreground then (w.sendSig w.vars.sigTerm).secondStage cfg
    else (w.killSelf SIGTERM).secondStage cfg
  else { w with pc := .suspended }

/-- The code after the loop, once the command has been waited for. -/
def finish (cfg : Config) (w : World) : World :=
  let pstat := w.vars.pstat
  let pstat := if wexitstatus pstat ≠ 0 then wexitstatus pstat
    else if wifsignaled pstat then 128 + wtermsig pstat else pstat
  w.exit (if w.vars.timedout && !cfg.preserve then EXIT_TIMEOUT else pstat)

def reaped (w : World) : Bool :=
  match w.command with
  | .reaped _ => true
  | _ => false

/-- The handler runs for a pending signal; an expiry reaches the program here. -/
def handle (w : World) (signo : Signo) (pc : Pc) : World :=
  let w := if signo = SIGALRM then w.observe (.expiry w.reaped) else w
  { w with pc := pc, pending := w.pending.erase signo, vars := sigHandler w.vars signo }

def alive (w : World) : Bool :=
  match w.pc with
  | .exited _ => false
  | .killed => false
  | _ => true

/-- One event, or `none` where it cannot happen. -/
def next? (cfg : Config) (w : World) : Event → Option World
  | .timerExpires =>
    if w.alive && w.timer then
      some { w with timer := false, pending := insert SIGALRM w.pending }
    else none
  | .commandExits e =>
    if w.alive && w.command = .running then
      some { w with command := .zombie e, pending := insert SIGCHLD w.pending }
    else none
  | .external s =>
    if w.alive then some { w with pending := insert s.signo w.pending } else none
  | .deliver signo =>
    if signo ∈ w.pending then
      match w.pc with
      | .forked => some (w.handle signo .forked)
      | .suspended => some (w.handle signo .woken)
      | _ => none
    else none
  | .step =>
    match w.pc with
    | .forked => some { w with pc := .blocked }
    | .blocked =>
      match setInterval cfg.firstKill with
      | none => some (w.exit EXIT_FAILURE)
      | some armed => some { w with pc := .suspended, timer := armed }
    | .woken => some (w.loopBody cfg)
    | .waiting =>
      if w.vars.childDone then some (w.finish cfg)
      else match w.command with
        | .zombie e =>
          some ({ w with command := .reaped e, vars := { w.vars with pstat := e.word } }.finish cfg)
        | _ => none
    | _ => none

end World

def run (cfg : Config) : List Event → Option World := Common.run (World.next? cfg) (start cfg)

end BsdAdditions.Timeout
