import FastIpc.Foundation.Run
import FastIpc.Kernel.State

/-!
# Parents and children

The functions `fork`, `reparent`, `exit`, `wait` and `kill` of
`kernel/proc.c`, run by any number of processes at the same time.  A step is what a process does
between taking and releasing a lock; the loops that run under `wait_lock` take the lock of one
process after another and go one round per step.  What these functions do to memory and open files
is modelled elsewhere; whether `copyout` succeeds is part of the action.  What `wait`
stores and the processes it frees are recorded on the side.
-/

namespace FastIpc
namespace Procs

open Foundation
open Function (update)
open Kernel (ProcState)

/-- Where a process is. -/
inductive Frame (n : Nat) where
  /-- Outside of these functions, with the result of its last call. -/
  | user (result : Int)
  /-- In `fork`, before the child's parent is set. -/
  | forked (np : Fin n) (pid : Nat)
  /-- In `fork`, before the child is made runnable. -/
  | adopted (np : Fin n) (pid : Nat)
  /-- In `exit`, at slot `j` of the loop of `reparent`. -/
  | reparent (status : Int) (j : Nat)
  /-- In `exit`, after the wakeup of the parent. -/
  | dying (status : Int)
  /-- A zombie that still holds its own lock, on its way to the scheduler. -/
  | switching
  | gone
  /-- In `wait`, at slot `j` of the loop over the table. -/
  | scan (addr : Nat) (j : Nat) (havekids : Bool)
  /-- In the `sleep` of `wait`. -/
  | waiting (addr : Nat)
  deriving DecidableEq

/-- The fields of `struct proc` that parents and children look at, where each process is, and
who holds `wait_lock`. -/
structure State (n : Nat) where
  state : Fin n → ProcState
  chan : Fin n → Option (Fin n)
  killed : Fin n → Bool
  xstate : Fin n → Int
  pid : Fin n → Nat
  parent : Fin n → Option (Fin n)
  frame : Fin n → Frame n
  waitLock : Option (Fin n)
  initproc : Fin n
  nextpid : Nat
  /-- The status words `wait` stored: for whom, where and what. -/
  stored : List (Fin n × Nat × Int)
  /-- The pids of the processes that `wait` freed. -/
  freed : List Nat

variable {n : Nat}

namespace State

/-- A process goes on. -/
abbrev goto (s : State n) (p : Fin n) (frame : Frame n) : State n :=
  { s with frame := update s.frame p frame }

/-- Take `wait_lock`. -/
abbrev acquire (s : State n) (p : Fin n) (frame : Frame n) : State n :=
  { s with waitLock := some p, frame := update s.frame p frame }

/-- Release `wait_lock`. -/
abbrev release (s : State n) (p : Fin n) (frame : Frame n) : State n :=
  { s with waitLock := none, frame := update s.frame p frame }

/-- `wakeup`, called by `p`. -/
abbrev wakeup (s : State n) (p : Fin n) (chan : Option (Fin n)) : State n :=
  { s with
    state := fun q =>
      if q ≠ p ∧ s.state q = .sleeping ∧ s.chan q = chan then .runnable else s.state q }

/-- `freeproc`. -/
abbrev freeproc (s : State n) (p : Fin n) : State n :=
  { s with
    state := update s.state p .unused
    chan := update s.chan p none
    killed := update s.killed p false
    xstate := update s.xstate p 0
    pid := update s.pid p 0
    parent := update s.parent p none
    frame := update s.frame p (.user 0) }

end State

/-- The part of `fork` under the new process's lock, on the free slot `np`. -/
abbrev allocproc (s : State n) (p np : Fin n) : State n :=
  { s with
    state := update s.state np .used
    pid := update s.pid np s.nextpid
    nextpid := s.nextpid + 1 }.goto p (.forked np s.nextpid)

/-- A round of the loop of `reparent`, or what `exit` does after it. -/
def reparent (s : State n) (p : Fin n) (status : Int) (j : Nat) : State n :=
  if h : j < n then
    if s.parent ⟨j, h⟩ = some p then
      ({ s with parent := update s.parent ⟨j, h⟩ (some s.initproc) }.wakeup p
        (some s.initproc)).goto p (.reparent status (j + 1))
    else
      s.goto p (.reparent status (j + 1))
  else
    (s.wakeup p (s.parent p)).goto p (.dying status)

/-- The end of `exit`. -/
abbrev die (s : State n) (p : Fin n) (status : Int) : State n :=
  { s with
    xstate := update s.xstate p status
    state := update s.state p .zombie }.release p .switching

/-- What `wait` does with a zombie it found. -/
def reap (s : State n) (p np : Fin n) (addr : Nat) (copied : Bool) : State n :=
  if addr ≠ 0 ∧ copied = false then
    s.release p (.user (-1))
  else
    { s.freeproc np with
      stored := if addr ≠ 0 then s.stored ++ [(p, addr, s.xstate np)] else s.stored
      freed := s.freed ++ [s.pid np] }.release p (.user (s.pid np))

/-- What `wait` does after the loop over the table. -/
def scanned (s : State n) (p : Fin n) (addr : Nat) (havekids : Bool) : State n :=
  if havekids = false ∨ s.killed p = true then
    s.release p (.user (-1))
  else
    { s with
      chan := update s.chan p (some p)
      state := update s.state p .sleeping }.release p (.waiting addr)

/-- A round of the loop of `wait`; there is none while the child is on its way to the
scheduler, since it holds its lock. -/
def scan (s : State n) (p : Fin n) (addr j : Nat) (havekids copied : Bool) : Option (State n) :=
  if h : j < n then
    if s.parent ⟨j, h⟩ = some p then
      if s.frame ⟨j, h⟩ = .switching then
        none
      else if s.state ⟨j, h⟩ = .zombie then
        some (reap s p ⟨j, h⟩ addr copied)
      else
        some (s.goto p (.scan addr (j + 1) true))
    else
      some (s.goto p (.scan addr (j + 1) havekids))
  else
    some (scanned s p addr havekids)

/-- Mark a process as killed and wake it. -/
abbrev kill (s : State n) (q : Fin n) : State n :=
  { s with
    killed := update s.killed q true
    state := update s.state q
      (if s.state q = .sleeping then .runnable else s.state q) }

/-- What can happen. -/
inductive Action (n : Nat) where
  /-- The scheduler takes up a process. -/
  | scheduler (p : Fin n)
  | yield (p : Fin n)
  /-- Call `fork`, which finds the slot `np` free. -/
  | fork (p np : Fin n)
  | exit (p : Fin n) (status : Int)
  | wait (p : Fin n) (addr : Nat)
  /-- A process in one of the calls goes on. -/
  | next (p : Fin n) (copied : Bool)
  /-- Someone calls `kill`, which finds its pid in the slot `q`. -/
  | kill (q : Fin n)

/-- The next step of a running process in one of the calls. -/
def next (s : State n) (p : Fin n) (copied : Bool) : Option (State n) :=
  match s.frame p with
  | .forked np pid =>
    if s.waitLock = none then
      some ({ s with parent := update s.parent np (some p) }.goto p (.adopted np pid))
    else
      none
  | .adopted np pid => some ({ s with state := update s.state np .runnable }.goto p (.user pid))
  | .reparent status j => some (reparent s p status j)
  | .dying status => some (die s p status)
  | .scan addr j havekids => scan s p addr j havekids copied
  | .waiting addr =>
    if s.waitLock = none then
      some ({ s with chan := update s.chan p none }.acquire p (.scan addr 0 false))
    else
      none
  | .user _ | .switching | .gone => none

/-- One step; there is none if the action is not possible, or stops the machine. -/
def step (s : State n) : Action n → Option (State n)
  | .scheduler p =>
    if s.state p = .runnable then
      some { s with state := update s.state p .running }
    else
      none
  | .yield p =>
    if s.state p = .running ∧ s.waitLock ≠ some p then
      some { s with state := update s.state p .runnable }
    else
      none
  | .fork p np =>
    match s.frame p with
    | .user _ =>
      if s.state p = .running ∧ s.state np = .unused then some (allocproc s p np) else none
    | _ => none
  | .exit p status =>
    match s.frame p with
    | .user _ =>
      if s.state p = .running ∧ s.waitLock = none ∧ p ≠ s.initproc then
        some (s.acquire p (.reparent status 0))
      else
        none
    | _ => none
  | .wait p addr =>
    match s.frame p with
    | .user _ =>
      if s.state p = .running ∧ s.waitLock = none then
        some (s.acquire p (.scan addr 0 false))
      else
        none
    | _ => none
  | .next p copied =>
    if s.state p = .running then
      next s p copied
    else if s.frame p = .switching then
      some (s.goto p .gone)
    else
      none
  | .kill q => some (kill s q)

/-- After `userinit`: the first process, in an otherwise empty table. -/
structure Booted (s : State n) : Prop where
  init_state : s.state s.initproc = .runnable
  others : ∀ p, p ≠ s.initproc → s.state p = .unused
  parent : ∀ p, s.parent p = none
  pid : s.pid s.initproc < s.nextpid
  frame : ∀ p, ∃ result, s.frame p = .user result
  waitLock : s.waitLock = none
  freed : s.freed = []

/-! ## What a step does -/

/-- The ways a step can go. -/
inductive Moved (s : State n) : Action n → State n → Prop where
  | scheduler {p : Fin n} (hstate : s.state p = .runnable) :
      Moved s (.scheduler p) { s with state := update s.state p .running }
  | yield {p : Fin n} (hstate : s.state p = .running) :
      Moved s (.yield p) { s with state := update s.state p .runnable }
  | kill {q : Fin n} : Moved s (.kill q) (kill s q)
  | fork {p np : Fin n} {result : Int} (hstate : s.state p = .running)
      (hframe : s.frame p = .user result) (hfree : s.state np = .unused) :
      Moved s (.fork p np) (allocproc s p np)
  | adopt {p np : Fin n} {pid : Nat} {copied : Bool} (hstate : s.state p = .running)
      (hframe : s.frame p = .forked np pid) (hlock : s.waitLock = none) :
      Moved s (.next p copied)
        ({ s with parent := update s.parent np (some p) }.goto p (.adopted np pid))
  | launch {p np : Fin n} {pid : Nat} {copied : Bool} (hstate : s.state p = .running)
      (hframe : s.frame p = .adopted np pid) :
      Moved s (.next p copied)
        ({ s with state := update s.state np .runnable }.goto p (.user pid))
  | exit {p : Fin n} {status result : Int} (hstate : s.state p = .running)
      (hframe : s.frame p = .user result) (hlock : s.waitLock = none) (hinit : p ≠ s.initproc) :
      Moved s (.exit p status) (s.acquire p (.reparent status 0))
  | handOver {p : Fin n} {status : Int} {j : Nat} {h : j < n} {copied : Bool}
      (hstate : s.state p = .running) (hframe : s.frame p = .reparent status j)
      (hchild : s.parent ⟨j, h⟩ = some p) :
      Moved s (.next p copied)
        (({ s with parent := update s.parent ⟨j, h⟩ (some s.initproc) }.wakeup p
          (some s.initproc)).goto p (.reparent status (j + 1)))
  | keep {p : Fin n} {status : Int} {j : Nat} {h : j < n} {copied : Bool}
      (hstate : s.state p = .running) (hframe : s.frame p = .reparent status j)
      (hother : s.parent ⟨j, h⟩ ≠ some p) :
      Moved s (.next p copied) (s.goto p (.reparent status (j + 1)))
  | wakeParent {p : Fin n} {status : Int} {j : Nat} {copied : Bool} (hstate : s.state p = .running)
      (hframe : s.frame p = .reparent status j) (hall : n ≤ j) :
      Moved s (.next p copied) ((s.wakeup p (s.parent p)).goto p (.dying status))
  | die {p : Fin n} {status : Int} {copied : Bool} (hstate : s.state p = .running)
      (hframe : s.frame p = .dying status) : Moved s (.next p copied) (die s p status)
  | switch {p : Fin n} {copied : Bool} (hframe : s.frame p = .switching) :
      Moved s (.next p copied) (s.goto p .gone)
  | wait {p : Fin n} {addr : Nat} {result : Int} (hstate : s.state p = .running)
      (hframe : s.frame p = .user result) (hlock : s.waitLock = none) :
      Moved s (.wait p addr) (s.acquire p (.scan addr 0 false))
  | resume {p : Fin n} {addr : Nat} {copied : Bool} (hstate : s.state p = .running)
      (hframe : s.frame p = .waiting addr) (hlock : s.waitLock = none) :
      Moved s (.next p copied)
        ({ s with chan := update s.chan p none }.acquire p (.scan addr 0 false))
  | skip {p : Fin n} {addr j : Nat} {h : j < n} {havekids havekids' copied : Bool}
      (hstate : s.state p = .running) (hframe : s.frame p = .scan addr j havekids)
      (hskip : s.parent ⟨j, h⟩ = some p → s.state ⟨j, h⟩ ≠ .zombie) :
      Moved s (.next p copied) (s.goto p (.scan addr (j + 1) havekids'))
  | reap {p np : Fin n} {addr : Nat} {havekids copied : Bool} (hstate : s.state p = .running)
      (hframe : s.frame p = .scan addr np havekids) (hchild : s.parent np = some p)
      (hzombie : s.state np = .zombie) (hcopied : addr ≠ 0 → copied = true) :
      Moved s (.next p copied) ({ s.freeproc np with
        stored := if addr ≠ 0 then s.stored ++ [(p, addr, s.xstate np)] else s.stored
        freed := s.freed ++ [s.pid np] }.release p (.user (s.pid np)))
  | fail {p : Fin n} {addr j : Nat} {havekids copied : Bool} (hstate : s.state p = .running)
      (hframe : s.frame p = .scan addr j havekids) :
      Moved s (.next p copied) (s.release p (.user (-1)))
  | sleep {p : Fin n} {addr j : Nat} {havekids copied : Bool} (hstate : s.state p = .running)
      (hframe : s.frame p = .scan addr j havekids) (hall : n ≤ j) :
      Moved s (.next p copied) ({ s with
        chan := update s.chan p (some p)
        state := update s.state p .sleeping }.release p (.waiting addr))

theorem moved_of_scan {s t : State n} {p : Fin n} {addr j : Nat} {havekids copied : Bool}
    (hstate : s.state p = .running) (hframe : s.frame p = .scan addr j havekids)
    (h : scan s p addr j havekids copied = some t) : Moved s (.next p copied) t := by
  unfold scan at h
  split at h
  next hj =>
    split at h
    next hchild =>
      split at h
      next => cases h
      next =>
        split at h
        next hzombie =>
          cases h
          unfold reap
          split
          next => exact .fail hstate hframe
          next hcopied => exact .reap hstate hframe hchild hzombie (by simpa using hcopied)
        next hlive =>
          cases h
          exact .skip hstate hframe (h := hj) fun _ => hlive
    next hother =>
      cases h
      exact .skip hstate hframe (h := hj) fun hchild => absurd hchild hother
  next hall =>
    cases h
    unfold scanned
    split
    next => exact .fail hstate hframe
    next => exact .sleep hstate hframe (by omega)

theorem moved_of_next {s t : State n} {p : Fin n} {copied : Bool} (hstate : s.state p = .running)
    (h : next s p copied = some t) : Moved s (.next p copied) t := by
  unfold next at h
  split at h
  next np pid hframe =>
    split at h
    next hlock =>
      cases h
      exact .adopt hstate hframe hlock
    next => cases h
  next np pid hframe =>
    cases h
    exact .launch hstate hframe
  next status j hframe =>
    cases h
    unfold reparent
    split
    next hj =>
      split
      next hchild => exact .handOver hstate hframe hchild
      next hother => exact .keep hstate hframe hother
    next hall => exact .wakeParent hstate hframe (by omega)
  next status hframe =>
    cases h
    exact .die hstate hframe
  next addr j havekids hframe => exact moved_of_scan hstate hframe h
  next addr hframe =>
    split at h
    next hlock =>
      cases h
      exact .resume hstate hframe hlock
    next => cases h
  all_goals cases h

theorem moved_of_step {s t : State n} {a : Action n} (h : step s a = some t) : Moved s a t := by
  cases a with
  | scheduler p =>
    simp only [step] at h
    split at h
    next hstate =>
      cases h
      exact .scheduler hstate
    next => cases h
  | yield p =>
    simp only [step] at h
    split at h
    next hstate =>
      cases h
      exact .yield hstate.1
    next => cases h
  | fork p np =>
    simp only [step] at h
    split at h
    next result hframe =>
      split at h
      next hcond =>
        cases h
        exact .fork hcond.1 hframe hcond.2
      next => cases h
    next => cases h
  | exit p status =>
    simp only [step] at h
    split at h
    next result hframe =>
      split at h
      next hcond =>
        cases h
        exact .exit hcond.1 hframe hcond.2.1 hcond.2.2
      next => cases h
    next => cases h
  | wait p addr =>
    simp only [step] at h
    split at h
    next result hframe =>
      split at h
      next hcond =>
        cases h
        exact .wait hcond.1 hframe hcond.2
      next => cases h
    next => cases h
  | next p copied =>
    simp only [step] at h
    split at h
    next hstate => exact moved_of_next hstate h
    next =>
      split at h
      next hframe =>
        cases h
        exact .switch hframe
      next => cases h
  | kill q =>
    cases h
    exact .kill

end Procs
end FastIpc
