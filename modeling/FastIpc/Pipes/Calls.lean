import FastIpc.Foundation.CyclicQueue
import FastIpc.Foundation.Sleepers
import Mathlib

/-!
# Pipes

The functions `pipewrite`, `piperead` and `pipeclose` of `kernel/pipe.c` on one
pipe, run by any number of processes, with `sleep`, `wakeup` and `kill` of
`kernel/proc.c`.  A process that holds the lock of the pipe runs one round of a loop per step;
the others run when the lock is free, and `kill` may come between any two steps.  What
`copyin` delivers and whether `copyout` succeeds is part of the action.  The bytes put
into the pipe and taken out of it are recorded on the side.
-/

namespace FastIpc
namespace Pipes

open Foundation
open Function (update)

/-- The cells of a pipe, `PIPESIZE`. -/
abbrev pipeSize : Nat := 512

theorem pipeSize_neZero : NeZero pipeSize := ⟨by decide⟩

/-- `struct pipe`, without its lock. -/
structure Pipe where
  data : Fin pipeSize → BitVec 8
  nread : BitVec 32
  nwrite : BitVec 32
  readopen : Bool
  writeopen : Bool

namespace Pipe

/-- The test for a full pipe. -/
def Full (pi : Pipe) : Prop := pi.nwrite = pi.nread + BitVec.ofNat 32 pipeSize

/-- The test for an empty pipe. -/
def Empty (pi : Pipe) : Prop := pi.nread = pi.nwrite

/-- The page of the pipe has been freed. -/
def Freed (pi : Pipe) : Prop := pi.readopen = false ∧ pi.writeopen = false

instance (pi : Pipe) : Decidable pi.Full := inferInstanceAs (Decidable (_ = _))

instance (pi : Pipe) : Decidable pi.Empty := inferInstanceAs (Decidable (_ = _))

instance (pi : Pipe) : Decidable pi.Freed := inferInstanceAs (Decidable (_ ∧ _))

/-- Put a byte in. -/
def store (pi : Pipe) (ch : BitVec 8) : Pipe :=
  haveI := pipeSize_neZero
  { pi with
    data := update pi.data (CyclicQueue.cell pipeSize pi.nwrite) ch
    nwrite := pi.nwrite + 1 }

/-- The byte that is read next. -/
def next (pi : Pipe) : BitVec 8 :=
  haveI := pipeSize_neZero
  pi.data (CyclicQueue.cell pipeSize pi.nread)

/-- Take that byte out. -/
def take (pi : Pipe) : Pipe := { pi with nread := pi.nread + 1 }

end Pipe

/-- The two addresses of a pipe that processes sleep on. -/
inductive Chan where
  | nread
  | nwrite
  deriving DecidableEq

/-- Where a process is. -/
inductive Frame where
  /-- Outside of the pipe code, with the result of its last call. -/
  | user (result : Int)
  /-- At the head of the loop of `pipewrite`, with `i` of `n` bytes written. -/
  | write (n : Int) (i : Nat)
  | writeSleep (n : Int) (i : Nat)
  /-- At the head of the first loop of `piperead`. -/
  | readWait (n : Int)
  | readSleep (n : Int)
  /-- At the head of the second loop, with `i` bytes read. -/
  | read (n : Int) (i : Nat)
  deriving DecidableEq

/-- The pipe, who holds its lock, and the processes. -/
structure State (P : Type) where
  pipe : Pipe
  lock : Option P
  frame : P → Frame
  asleep : P → Option Chan
  killed : P → Bool
  put : List (BitVec 8)
  taken : List (BitVec 8)

variable {P : Type} [DecidableEq P]

namespace State

/-- `wakeup`. -/
def wakeup (s : State P) (chan : Chan) : State P := { s with asleep := wakeAll s.asleep chan }

/-- Release the lock and return. -/
def ret (s : State P) (p : P) (result : Int) : State P :=
  { s with lock := none, frame := update s.frame p (.user result) }

/-- `sleep`: release the lock and go to sleep. -/
def sleep (s : State P) (p : P) (chan : Chan) (frame : Frame) : State P :=
  { s with
    lock := none
    asleep := update s.asleep p (some chan)
    frame := update s.frame p frame }

/-- Acquire the lock. -/
def acquire (s : State P) (p : P) (frame : Frame) : State P :=
  { s with lock := some p, frame := update s.frame p frame }

end State

/-- One round of the loop of `pipewrite`. -/
def pipewrite (s : State P) (p : P) (n : Int) (i : Nat) (copied : Option (BitVec 8)) : State P :=
  if i < n then
    if s.pipe.readopen = false ∨ s.killed p = true then
      s.ret p (-1)
    else if s.pipe.Full then
      (s.wakeup .nread).sleep p .nwrite (.writeSleep n i)
    else
      match copied with
      | none => (s.wakeup .nread).ret p i
      | some ch =>
        { s with
          pipe := s.pipe.store ch
          put := s.put ++ [ch]
          frame := update s.frame p (.write n (i + 1)) }
  else
    (s.wakeup .nread).ret p i

/-- One round of the first loop of `piperead`. -/
def pipereadWait (s : State P) (p : P) (n : Int) : State P :=
  if s.pipe.Empty ∧ s.pipe.writeopen = true then
    if s.killed p = true then
      s.ret p (-1)
    else
      s.sleep p .nread (.readSleep n)
  else
    { s with frame := update s.frame p (.read n 0) }

/-- One round of the second loop of `piperead`.  A byte that cannot be copied out is lost. -/
def piperead (s : State P) (p : P) (n : Int) (i : Nat) (copied : Bool) : State P :=
  if i < n ∧ ¬s.pipe.Empty then
    let s' := { s with pipe := s.pipe.take, taken := s.taken ++ [s.pipe.next] }
    if copied then
      { s' with frame := update s'.frame p (.read n (i + 1)) }
    else
      (s'.wakeup .nwrite).ret p i
  else
    (s.wakeup .nwrite).ret p i

/-- Close one end of the pipe. -/
def pipeclose (s : State P) (writable : Bool) : State P :=
  if writable then
    { s with pipe := { s.pipe with writeopen := false } }.wakeup .nread
  else
    { s with pipe := { s.pipe with readopen := false } }.wakeup .nwrite

/-- Mark a process as killed and wake it. -/
def kill (s : State P) (p : P) : State P :=
  { s with
    killed := update s.killed p true
    asleep := update s.asleep p none }

/-- What can happen. -/
inductive Action (P : Type) where
  /-- Call `pipewrite` for `n` bytes. -/
  | write (p : P) (n : Int)
  /-- Call `piperead` for `n` bytes. -/
  | read (p : P) (n : Int)
  /-- A process that was woken reacquires the lock. -/
  | resume (p : P)
  /-- The process with the lock does a round of its loop. -/
  | round (p : P) (copied : Option (BitVec 8))
  | close (writable : Bool)
  | kill (p : P)

/-- One step; there is none if the action is not possible, or if the pipe is gone. -/
def step (s : State P) : Action P → Option (State P)
  | .write p n =>
    match s.lock, s.frame p with
    | none, .user _ => if s.pipe.Freed then none else some (s.acquire p (.write n 0))
    | _, _ => none
  | .read p n =>
    match s.lock, s.frame p with
    | none, .user _ => if s.pipe.Freed then none else some (s.acquire p (.readWait n))
    | _, _ => none
  | .resume p =>
    match s.lock, s.asleep p, s.frame p with
    | none, none, .writeSleep n i => if s.pipe.Freed then none else some (s.acquire p (.write n i))
    | none, none, .readSleep n => if s.pipe.Freed then none else some (s.acquire p (.readWait n))
    | _, _, _ => none
  | .round p copied =>
    if s.lock = some p then
      match s.frame p with
      | .write n i => some (pipewrite s p n i copied)
      | .readWait n => some (pipereadWait s p n)
      | .read n i => some (piperead s p n i copied.isSome)
      | _ => none
    else
      none
  | .close writable => if s.lock = none ∧ ¬s.pipe.Freed then some (pipeclose s writable) else none
  | .kill p => some (kill s p)

/-- A pipe that was just allocated; its cells hold anything. -/
structure Fresh (s : State P) : Prop where
  nread : s.pipe.nread = 0
  nwrite : s.pipe.nwrite = 0
  readopen : s.pipe.readopen = true
  writeopen : s.pipe.writeopen = true
  lock : s.lock = none
  frame : ∀ p, ∃ result, s.frame p = .user result
  asleep : ∀ p, s.asleep p = none
  put : s.put = []
  taken : s.taken = []

/-! ## What a step does -/

/-- The ways a step can go. -/
inductive Moved (s : State P) : Action P → State P → Prop where
  | write {p : P} {n : Int} {result : Int} (hlock : s.lock = none) (hframe : s.frame p = .user result) :
      Moved s (.write p n) (s.acquire p (.write n 0))
  | read {p : P} {n : Int} {result : Int} (hlock : s.lock = none) (hframe : s.frame p = .user result) :
      Moved s (.read p n) (s.acquire p (.readWait n))
  | rewrite {p : P} {n : Int} {i : Nat} (hlock : s.lock = none) (hawake : s.asleep p = none)
      (hframe : s.frame p = .writeSleep n i) : Moved s (.resume p) (s.acquire p (.write n i))
  | reread {p : P} {n : Int} (hlock : s.lock = none) (hawake : s.asleep p = none)
      (hframe : s.frame p = .readSleep n) : Moved s (.resume p) (s.acquire p (.readWait n))
  | pipewrite {p : P} {n : Int} {i : Nat} {copied : Option (BitVec 8)} (hlock : s.lock = some p)
      (hframe : s.frame p = .write n i) : Moved s (.round p copied) (pipewrite s p n i copied)
  | pipereadWait {p : P} {n : Int} {copied : Option (BitVec 8)} (hlock : s.lock = some p)
      (hframe : s.frame p = .readWait n) : Moved s (.round p copied) (pipereadWait s p n)
  | piperead {p : P} {n : Int} {i : Nat} {copied : Option (BitVec 8)} (hlock : s.lock = some p)
      (hframe : s.frame p = .read n i) :
      Moved s (.round p copied) (piperead s p n i copied.isSome)
  | close {writable : Bool} (hlock : s.lock = none) : Moved s (.close writable) (pipeclose s writable)
  | kill {p : P} : Moved s (.kill p) (kill s p)

theorem moved_of_step {s t : State P} {a : Action P} (h : step s a = some t) : Moved s a t := by
  cases a with
  | write p n =>
    simp only [step] at h
    split at h
    next result hlock hframe =>
      split at h
      next => cases h
      next =>
        cases h
        exact .write hlock hframe
    next => cases h
  | read p n =>
    simp only [step] at h
    split at h
    next result hlock hframe =>
      split at h
      next => cases h
      next =>
        cases h
        exact .read hlock hframe
    next => cases h
  | resume p =>
    simp only [step] at h
    split at h
    next n i hlock hawake hframe =>
      split at h
      next => cases h
      next =>
        cases h
        exact .rewrite hlock hawake hframe
    next n hlock hawake hframe =>
      split at h
      next => cases h
      next =>
        cases h
        exact .reread hlock hawake hframe
    next => cases h
  | round p copied =>
    simp only [step] at h
    split at h
    next hlock =>
      split at h
      next n i hframe =>
        cases h
        exact .pipewrite hlock hframe
      next n hframe =>
        cases h
        exact .pipereadWait hlock hframe
      next n i hframe =>
        cases h
        exact .piperead hlock hframe
      next => cases h
    next => cases h
  | close writable =>
    simp only [step] at h
    split at h
    next hcond =>
      cases h
      exact .close hcond.1
    next => cases h
  | kill p =>
    cases h
    exact .kill

end Pipes
end FastIpc
