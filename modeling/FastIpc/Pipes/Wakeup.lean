import FastIpc.Pipes.Fifo

/-!
# Nobody sleeps without need

A process may sleep in `piperead` only while the pipe is empty and open for writing, and in
`pipewrite` only while it is full and open for reading.  Every exit from the loops wakes the
other side, except one: `pipewrite` returns without a wakeup when it finds its process killed,
although it may have stored bytes before.

Main results:

- Theorem `no_lost_wakeup`: when nobody sleeps without need.
-/

namespace FastIpc
namespace Pipes

open Foundation

variable {P : Type}

/-- No reader sleeps without need. -/
def ReadersFit (s : State P) : Prop :=
  ∀ q, s.asleep q = some .nread → s.pipe.Empty ∧ s.pipe.writeopen = true

/-- No writer sleeps without need. -/
def WritersFit (s : State P) : Prop :=
  ∀ q, s.asleep q = some .nwrite → s.pipe.Full ∧ s.pipe.readopen = true

/-- While a process is in the loop of `pipewrite`, a reader may sleep although there is a byte:
the loop goes on and will wake it. -/
def ReadersOwed (s : State P) (p : P) (n : Int) (i : Nat) : Prop :=
  ∀ q, s.asleep q = some .nread → s.pipe.writeopen = true ∧
    (s.pipe.Empty ∨ s.pipe.readopen = true ∧ (s.killed p = false ∨ n ≤ i))

/-- The invariant: who may sleep depends on what the process with the lock is doing. -/
def Wakeful (s : State P) : Prop :=
  match s.lock with
  | none => ReadersFit s ∧ WritersFit s
  | some p =>
    match s.frame p with
    | .write n i => ReadersOwed s p n i ∧ WritersFit s
    | .readWait _ => ReadersFit s ∧ WritersFit s
    | .read _ _ => ∀ q, s.asleep q ≠ some .nread
    | _ => False

/-- No process is killed while it is in the loop of `pipewrite`, has more to write, and has
stored a byte that a sleeping reader waits for. -/
def KillSafe (s : State P) : Action P → Prop
  | .kill p => ∀ n i, s.frame p = .write n i → (i : Int) < n → ¬s.pipe.Empty →
      ∀ q, s.asleep q ≠ some .nread
  | _ => True

theorem readersFit_of_awake {s : State P} (h : ∀ q, s.asleep q ≠ some .nread) : ReadersFit s :=
  fun q hq => (h q hq).elim

theorem awake_of_wakeup (s : State P) (chan : Chan) (q : P) :
    (s.wakeup chan).asleep q ≠ some chan := fun h =>
  (wakeAll_eq_some.mp h).2 rfl

theorem asleep_of_wakeup {s : State P} {chan c : Chan} {q : P}
    (h : (s.wakeup chan).asleep q = some c) : s.asleep q = some c :=
  (wakeAll_eq_some.mp h).1

namespace Wakeful

variable {s t : State P} {p : P} {n : Int} {i : Nat}

theorem of_lock_none (hlock : s.lock = none) (hreaders : ReadersFit s) (hwriters : WritersFit s) :
    Wakeful s := by
  rw [Wakeful, hlock]
  exact ⟨hreaders, hwriters⟩

theorem of_free (h : Wakeful s) (hlock : s.lock = none) : ReadersFit s ∧ WritersFit s := by
  rwa [Wakeful, hlock] at h

theorem of_write (h : Wakeful s) (hlock : s.lock = some p) (hframe : s.frame p = .write n i) :
    ReadersOwed s p n i ∧ WritersFit s := by
  rw [Wakeful, hlock] at h
  simpa only [hframe] using h

variable [DecidableEq P]

/-- A process enters a loop with everything in order. -/
theorem acquire (hreaders : ReadersFit s) (hwriters : WritersFit s) {frame : Frame}
    (hframe : (∃ n i, frame = .write n i) ∨ ∃ n, frame = .readWait n) :
    Wakeful (s.acquire p frame) := by
  unfold Wakeful State.acquire
  rcases hframe with ⟨n, i, rfl⟩ | ⟨n, rfl⟩
  · simp only [Function.update_self]
    exact ⟨fun q hq => ⟨(hreaders q hq).2, .inl (hreaders q hq).1⟩, hwriters⟩
  · simp only [Function.update_self]
    exact ⟨hreaders, hwriters⟩

/-- The process with the lock wakes the readers and returns. -/
theorem ret_wakeup (hwriters : WritersFit s) (result : Int) :
    Wakeful ((s.wakeup .nread).ret p result) :=
  of_lock_none rfl (readersFit_of_awake fun q => awake_of_wakeup s .nread q)
    fun q hq => hwriters q (asleep_of_wakeup hq)

theorem pipewrite (h : Wakeful s) (hlock : s.lock = some p) (hframe : s.frame p = .write n i)
    (copied : Option (BitVec 8)) : Wakeful (Pipes.pipewrite s p n i copied) := by
  obtain ⟨howed, hwriters⟩ := h.of_write hlock hframe
  unfold Pipes.pipewrite
  split
  next hmore =>
    split
    next hstop =>
      -- The early return: nothing may be owed to a reader.
      refine of_lock_none rfl (fun q hq => ?_) hwriters
      obtain ⟨hopen, hempty | ⟨hreadopen, hkilled | hdone⟩⟩ := howed q hq
      · exact ⟨hempty, hopen⟩
      · rcases hstop with hclosed | hdead
        · cases hreadopen.symm.trans hclosed
        · cases hkilled.symm.trans hdead
      · omega
    next hgo =>
      rw [not_or] at hgo
      have hreadopen : s.pipe.readopen = true := by simpa using hgo.1
      have halive : s.killed p = false := by simpa using hgo.2
      split
      next hfull =>
        refine of_lock_none rfl (fun q hq => ?_) fun q hq => ?_
        · by_cases hqp : q = p
          · subst hqp
            simp [State.sleep] at hq
          · simp only [State.sleep, Function.update_of_ne hqp] at hq
            exact (awake_of_wakeup s .nread q hq).elim
        · exact ⟨hfull, hreadopen⟩
      next hroom =>
        cases copied with
        | none => exact ret_wakeup hwriters i
        | some ch =>
          unfold Wakeful
          simp only [hlock, Function.update_self]
          exact ⟨fun q hq => ⟨(howed q hq).1, .inr ⟨hreadopen, .inl halive⟩⟩,
            fun q hq => (hroom (hwriters q hq).1).elim⟩
  next => exact ret_wakeup hwriters i

theorem pipereadWait (h : Wakeful s) (hlock : s.lock = some p) (hframe : s.frame p = .readWait n) :
    Wakeful (Pipes.pipereadWait s p n) := by
  rw [Wakeful, hlock] at h
  simp only [hframe] at h
  obtain ⟨hreaders, hwriters⟩ := h
  unfold Pipes.pipereadWait
  split
  next hempty =>
    split
    next => exact of_lock_none rfl hreaders hwriters
    next =>
      refine of_lock_none rfl (fun q hq => hempty) fun q hq => ?_
      by_cases hqp : q = p
      · subst hqp
        simp [State.sleep] at hq
      · simp only [State.sleep, Function.update_of_ne hqp] at hq
        exact hwriters q hq
  next hready =>
    unfold Wakeful
    simp only [hlock, Function.update_self]
    exact fun q hq => hready (hreaders q hq)

theorem piperead (h : Wakeful s) (hlock : s.lock = some p) (hframe : s.frame p = .read n i)
    (copied : Bool) : Wakeful (Pipes.piperead s p n i copied) := by
  rw [Wakeful, hlock] at h
  simp only [hframe] at h
  -- Whoever returns from here has woken the writers.
  have hret : ∀ u : State P, u.asleep = s.asleep → Wakeful ((u.wakeup .nwrite).ret p i) := by
    intro u hu
    refine of_lock_none rfl (fun q hq => (h q ?_).elim) fun q hq =>
      (awake_of_wakeup u .nwrite q hq).elim
    rw [← hu]
    exact asleep_of_wakeup hq
  unfold Pipes.piperead
  split
  next =>
    cases copied with
    | true =>
      unfold Wakeful
      simp only [if_true, hlock, Function.update_self]
      exact h
    | false => exact hret _ rfl
  next => exact hret s rfl

omit [DecidableEq P] in
theorem pipeclose (h : Wakeful s) (hlock : s.lock = none) (writable : Bool) :
    Wakeful (Pipes.pipeclose s writable) := by
  obtain ⟨hreaders, hwriters⟩ := h.of_free hlock
  cases writable with
  | true =>
    exact of_lock_none hlock (readersFit_of_awake fun q => awake_of_wakeup _ .nread q)
      fun q hq => hwriters q (asleep_of_wakeup hq)
  | false =>
    exact of_lock_none hlock (fun q hq => hreaders q (asleep_of_wakeup hq))
      fun q hq => (awake_of_wakeup _ .nwrite q hq).elim

theorem kill (h : Wakeful s) (hok : KillSafe s (.kill p)) : Wakeful (Pipes.kill s p) := by
  have hasleep : ∀ {q c}, (Pipes.kill s p).asleep q = some c → s.asleep q = some c := by
    intro q c hq
    by_cases hqp : q = p
    · subst hqp
      simp [Pipes.kill] at hq
    · simpa [Pipes.kill, Function.update_of_ne hqp] using hq
  unfold Wakeful at h ⊢
  cases hlock : s.lock with
  | none =>
    rw [hlock] at h
    rw [show (Pipes.kill s p).lock = none from hlock]
    exact ⟨fun q hq => h.1 q (hasleep hq), fun q hq => h.2 q (hasleep hq)⟩
  | some r =>
    rw [hlock] at h
    rw [show (Pipes.kill s p).lock = some r from hlock]
    cases hframe : s.frame r with
    | write n i =>
      simp only [hframe] at h
      simp only [show (Pipes.kill s p).frame r = .write n i from hframe]
      refine ⟨fun q hq => ?_, fun q hq => h.2 q (hasleep hq)⟩
      obtain ⟨hopen, howed⟩ := h.1 q (hasleep hq)
      refine ⟨hopen, ?_⟩
      by_cases hempty : s.pipe.Empty
      · exact .inl hempty
      · obtain ⟨hreadopen, hgoes⟩ := howed.resolve_left hempty
        refine .inr ⟨hreadopen, ?_⟩
        by_cases hrp : r = p
        · subst hrp
          by_cases hmore : (i : Int) < n
          · exact (hok n i hframe hmore hempty q (hasleep hq)).elim
          · exact .inr (by omega)
        · simpa [Pipes.kill, Function.update_of_ne hrp] using hgoes
    | readWait n =>
      simp only [hframe] at h
      simp only [show (Pipes.kill s p).frame r = .readWait n from hframe]
      exact ⟨fun q hq => h.1 q (hasleep hq), fun q hq => h.2 q (hasleep hq)⟩
    | read n i =>
      simp only [hframe] at h
      simp only [show (Pipes.kill s p).frame r = .read n i from hframe]
      exact fun q hq => h q (hasleep hq)
    | user => simp [hframe] at h
    | writeSleep => simp [hframe] at h
    | readSleep => simp [hframe] at h

theorem step {a : Action P} (h : Wakeful s) (hok : KillSafe s a)
    (hstep : Pipes.step s a = some t) : Wakeful t := by
  cases moved_of_step hstep with
  | write hlock => exact acquire (h.of_free hlock).1 (h.of_free hlock).2 (.inl ⟨_, _, rfl⟩)
  | read hlock => exact acquire (h.of_free hlock).1 (h.of_free hlock).2 (.inr ⟨_, rfl⟩)
  | rewrite hlock => exact acquire (h.of_free hlock).1 (h.of_free hlock).2 (.inl ⟨_, _, rfl⟩)
  | reread hlock => exact acquire (h.of_free hlock).1 (h.of_free hlock).2 (.inr ⟨_, rfl⟩)
  | pipewrite hlock hframe => exact h.pipewrite hlock hframe _
  | pipereadWait hlock hframe => exact h.pipereadWait hlock hframe
  | piperead hlock hframe => exact h.piperead hlock hframe _
  | close hlock => exact h.pipeclose hlock _
  | kill => exact h.kill hok

end Wakeful

theorem Fresh.wakeful {s : State P} (h : Fresh s) : Wakeful s := by
  refine Wakeful.of_lock_none h.lock (fun q hq => ?_) fun q hq => ?_
  · cases (h.asleep q).symm.trans hq
  · cases (h.asleep q).symm.trans hq

/-- From a fresh pipe, after any steps in which no writer is killed at the wrong moment, whenever the
lock is free, a reader sleeps only while the pipe is empty and open for writing, and a writer only
while it is full and open for reading. -/
theorem no_lost_wakeup [DecidableEq P] {s t : State P} {actions : List (Action P)} (hfresh : Fresh s)
    (hrun : Run (Guarded KillSafe (StepOf step)) s actions t) (hlock : t.lock = none) :
    (∀ q, t.asleep q = some .nread → t.pipe.nread = t.pipe.nwrite ∧ t.pipe.writeopen = true) ∧
      ∀ q, t.asleep q = some .nwrite →
        t.pipe.nwrite = t.pipe.nread + BitVec.ofNat 32 pipeSize ∧ t.pipe.readopen = true := by
  have hwakeful : Wakeful t := hrun.invariant_guarded Wakeful.step hfresh.wakeful
  exact hwakeful.of_free hlock

/-- A reader sleeps, and a writer is killed when it has written all its bytes. -/
theorem no_lost_wakeup_small : ∃ t, Run (Guarded KillSafe (StepOf step)) freshPipe
      [.read false 1, .round false none, .write true 1, .round true (some 97), .kill true,
        .round true none] t ∧
    t.lock = none ∧ ∀ q, t.asleep q = some .nread → t.pipe.nread = t.pipe.nwrite := by
  obtain ⟨t, hrun, hlock⟩ : ∃ t, Run (Guarded KillSafe (StepOf step)) freshPipe
      [.read false 1, .round false none, .write true 1, .round true (some 97), .kill true,
        .round true none] t ∧ t.lock = none := by
    refine ⟨_, Run.cons ⟨trivial, rfl⟩ (Run.cons ⟨trivial, rfl⟩ (Run.cons ⟨trivial, rfl⟩
      (Run.cons ⟨trivial, rfl⟩ (Run.cons ⟨fun n i hframe hmore => ?_, rfl⟩
        (Run.cons ⟨trivial, rfl⟩ Run.nil))))), rfl⟩
    have hdone : Frame.write 1 1 = .write n i := hframe
    cases hdone
    exact absurd hmore (by decide)
  exact ⟨t, hrun, hlock, fun q hq => ((no_lost_wakeup freshPipe_fresh hrun hlock).1 q hq).1⟩

/-- A reader sleeps; a writer of two bytes is killed after the first one and returns.  The byte is
there and the reader sleeps on. -/
theorem killed_writer_loses_wakeup : ∃ t, Run (StepOf step) freshPipe
      [.read false 1, .round false none, .write true 2, .round true (some 97), .kill true,
        .round true none] t ∧
    t.lock = none ∧ t.asleep false = some .nread ∧ t.pipe.nread ≠ t.pipe.nwrite := by
  obtain ⟨t, hexec, hlock, hasleep, hne⟩ : ∃ t, exec step freshPipe
      [.read false 1, .round false none, .write true 2, .round true (some 97), .kill true,
        .round true none] = some t ∧ t.lock = none ∧ t.asleep false = some .nread ∧
      t.pipe.nread ≠ t.pipe.nwrite :=
    ⟨_, rfl, rfl, rfl, by decide⟩
  exact ⟨t, run_of_exec hexec, hlock, hasleep, hne⟩

end Pipes
end FastIpc
