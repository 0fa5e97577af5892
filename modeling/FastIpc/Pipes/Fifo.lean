import FastIpc.Foundation.Run
import FastIpc.Pipes.Calls

/-!
# Pipes deliver in order

Main results:

- Theorem `pipe_fifo`: the bytes taken out are a prefix of the bytes put in.
-/

namespace FastIpc
namespace Pipes

open Foundation

variable {P : Type} [DecidableEq P]

/-- The cells hold what was put in and not yet taken out. -/
def State.Holds (s : State P) : Prop :=
  haveI := pipeSize_neZero
  CyclicQueue.Holds s.pipe.data s.pipe.nread s.pipe.nwrite s.put s.taken

theorem pipeSize_dvd : pipeSize ∣ 2 ^ 32 := by
  decide

theorem pipeSize_lt : pipeSize < 2 ^ 32 := by
  decide

namespace State.Holds

variable {s t : State P} {p : P} {n : Int} {i : Nat}

theorem pipewrite (h : s.Holds) (copied : Option (BitVec 8)) :
    (Pipes.pipewrite s p n i copied).Holds := by
  unfold Pipes.pipewrite
  split
  next =>
    split
    next => exact h
    next =>
      split
      next => exact h
      next hroom =>
        cases copied with
        | none => exact h
        | some ch => exact CyclicQueue.Holds.push h pipeSize_dvd pipeSize_lt hroom ch
  next => exact h

theorem pipereadWait (h : s.Holds) : (Pipes.pipereadWait s p n).Holds := by
  unfold Pipes.pipereadWait
  split
  next =>
    split
    next => exact h
    next => exact h
  next => exact h

theorem piperead (h : s.Holds) (copied : Bool) : (Pipes.piperead s p n i copied).Holds := by
  unfold Pipes.piperead
  split
  next hsome =>
    -- The counter has moved on before it is known whether the byte could be copied.
    have hpop := CyclicQueue.Holds.pop h pipeSize_dvd pipeSize_lt hsome.2
    cases copied with
    | true => exact hpop
    | false => exact hpop
  next => exact h

omit [DecidableEq P] in
theorem pipeclose (h : s.Holds) (writable : Bool) : (Pipes.pipeclose s writable).Holds := by
  cases writable with
  | true => exact h
  | false => exact h

theorem step {a : Action P} (h : s.Holds) (hstep : Pipes.step s a = some t) : t.Holds := by
  cases moved_of_step hstep with
  | write => exact h
  | read => exact h
  | rewrite => exact h
  | reread => exact h
  | pipewrite => exact h.pipewrite _
  | pipereadWait => exact h.pipereadWait
  | piperead => exact h.piperead _
  | close => exact h.pipeclose _
  | kill => exact h

end State.Holds

omit [DecidableEq P] in
theorem Fresh.holds {s : State P} (h : Fresh s) : s.Holds := by
  unfold State.Holds
  rw [h.nread, h.nwrite, h.put, h.taken]
  exact CyclicQueue.holds_nil _

/-- From a fresh pipe, after any steps of any processes, the counters differ by at most the size of
the pipe and the bytes taken out are a prefix of the bytes put in. -/
theorem pipe_fifo {s t : State P} {actions : List (Action P)} (hfresh : Fresh s)
    (hrun : Run (StepOf step) s actions t) :
    (t.pipe.nwrite - t.pipe.nread).toNat ≤ pipeSize ∧ t.taken <+: t.put := by
  have hholds : t.Holds := hrun.invariant State.Holds.step hfresh.holds
  refine ⟨?_, hholds.taken_prefix⟩
  rw [CyclicQueue.Holds.used_eq hholds pipeSize_lt]
  have hle := CyclicQueue.Holds.length_le hholds
  omega

/-- A fresh pipe and two processes. -/
def freshPipe : State Bool where
  pipe := ⟨fun _ => 5, 0, 0, true, true⟩
  lock := none
  frame _ := .user 0
  asleep _ := none
  killed _ := false
  put := []
  taken := []

theorem freshPipe_fresh : Fresh freshPipe :=
  ⟨rfl, rfl, rfl, rfl, rfl, fun _ => ⟨0, rfl⟩, fun _ => rfl, rfl, rfl⟩

/-- A reader sleeps, a writer writes two bytes, and the reader takes one of them. -/
theorem pipe_fifo_two_bytes : ∃ t, Run (StepOf step) freshPipe
      [.read false 1, .round false none, .write true 2, .round true (some 97),
        .round true (some 98), .round true none, .resume false, .round false none,
        .round false (some 0)] t ∧
    t.put = [97, 98] ∧ t.taken = [97] ∧
    (t.pipe.nwrite - t.pipe.nread).toNat ≤ pipeSize ∧ t.taken <+: t.put := by
  obtain ⟨t, hexec, hput, htaken⟩ : ∃ t, exec step freshPipe
      [.read false 1, .round false none, .write true 2, .round true (some 97),
        .round true (some 98), .round true none, .resume false, .round false none,
        .round false (some 0)] = some t ∧ t.put = [97, 98] ∧ t.taken = [97] :=
    ⟨_, rfl, rfl, rfl⟩
  exact ⟨t, run_of_exec hexec, hput, htaken, pipe_fifo freshPipe_fresh (run_of_exec hexec)⟩

end Pipes
end FastIpc
