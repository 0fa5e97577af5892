import FastIpc.Foundation.Run
import FastIpc.User.Calls
import Mathlib

/-!
# The descriptor table over many calls

One process calls `createRingBuf`, `closeRingBuf` and the four functions that work on an
open descriptor, in any order.  What the kernel answers to `createbuf` and `closebuf` is
part of the call, and so are the values that the loads of the counters find.  A descriptor is live
from the `createRingBuf` that returned it to the `closeRingBuf` that closed it; the
session remembers the live ones beside the table, which the code keeps track of by the
`exists` flag of each entry.

Main results:

- Theorem `Tracks.step`: the flags follow the live descriptors.
- Theorem `descriptors_tracked`: when every call does what it should.
-/

namespace FastIpc
namespace User

open Foundation

/-! ## Closing a descriptor -/

/-- `closeRingBuf`, whose `closebuf` system call returns `answer`; `none` if it
reads outside the table. -/
def closeRingBuf (t : UserTable) (straddr : List UInt8) (rd answer : Int) :
    Option (Int × UserTable) :=
  match lookup t rd with
  | .invalid => some (-1, t)
  | .outOfBounds => none
  | .live entry =>
    if entry.name ≠ straddr then some (-1, t)
    else some (answer, fun i => if rd = i.val then { t i with existsFlag := 0 } else t i)

/-! ## Sessions -/

/-- The table of a process and its live descriptors. -/
structure Session where
  table : UserTable
  live : List Int

/-- The table is empty when the process starts. -/
def Session.init : Session := ⟨fun _ => ⟨0, 0, 0, []⟩, []⟩

/-- A call with the kernel's answer to it. -/
inductive UserCall where
  | createRingBuf (straddr : List UInt8) (existed : Int) (ringbuf : Nat)
  | closeRingBuf (straddr : List UInt8) (rd answer : Int)
  | startWrite (rd : Int)
  | finishWrite (rd : Int) (bytes : BitVec 32)
  | startRead (rd : Int)
  | finishRead (rd : Int) (bytes : BitVec 32)

/-- A call and what its loads of the counters find. -/
structure UserEvent where
  call : UserCall
  seen : Counter → BitVec 64

/-- The descriptor that a call works on. -/
def UserCall.descriptor : UserCall → Option Int
  | .createRingBuf .. => none
  | .closeRingBuf _ rd _ => some rd
  | .startWrite rd => some rd
  | .finishWrite rd _ => some rd
  | .startRead rd => some rd
  | .finishRead rd _ => some rd

/-- What `createRingBuf` returns and the table after it. -/
def Session.created (s : Session) (straddr : List UInt8) (existed : Int) (ringbuf : Nat)
    (seen : Counter → BitVec 64) : Int × UserTable :=
  (createRingBuf s.table straddr existed ringbuf).outcome seen

/-- The session after a call; `none` if the call reads outside the table. -/
def Session.step (s : Session) (ev : UserEvent) : Option Session :=
  match ev.call with
  | .createRingBuf straddr existed ringbuf =>
    let (rd, t) := s.created straddr existed ringbuf ev.seen
    some ⟨t, if rd = -1 then s.live else rd :: s.live⟩
  | .closeRingBuf straddr rd answer =>
    (User.closeRingBuf s.table straddr rd answer).map fun r =>
      ⟨r.2, if r.1 = -1 then s.live else s.live.filter (· ≠ rd)⟩
  | .startWrite rd => if lookup s.table rd = .outOfBounds then none else some s
  | .finishWrite rd _ => if lookup s.table rd = .outOfBounds then none else some s
  | .startRead rd => if lookup s.table rd = .outOfBounds then none else some s
  | .finishRead rd _ => if lookup s.table rd = .outOfBounds then none else some s

/-! ## What the calls should do -/

/-- A call on a descriptor returns 0 if it is live, and otherwise returns -1 without touching a
counter or an entry outside the table. -/
def Guards {α : Type} (s : Session) (rd : Int) (prog : BookProg α) (zero : α → Prop) (refused : α)
    (seen : Counter → BitVec 64) : Prop :=
  (rd ∈ s.live → zero (prog.outcome seen)) ∧ (rd ∉ s.live → prog = .ret refused)

/-- A start call returns 0. -/
def StartResult.IsZero : StartResult → Prop
  | .granted _ _ => True
  | _ => False

/-- What a call should do: a new descriptor is not live yet, and only live descriptors are
accepted. -/
def Session.Proper (s : Session) (ev : UserEvent) : Prop :=
  match ev.call with
  | .createRingBuf straddr existed ringbuf =>
    (s.created straddr existed ringbuf ev.seen).1 ≠ -1 →
      (s.created straddr existed ringbuf ev.seen).1 ∉ s.live
  | .closeRingBuf .. => True
  | .startWrite rd => Guards s rd (ringbufStartWrite s.table rd) StartResult.IsZero .invalid ev.seen
  | .finishWrite rd bytes =>
    Guards s rd (ringbufFinishWrite s.table rd bytes) (· = .done) .invalid ev.seen
  | .startRead rd => Guards s rd (ringbufStartRead s.table rd) StartResult.IsZero .invalid ev.seen
  | .finishRead rd bytes =>
    Guards s rd (ringbufFinishRead s.table rd bytes) (· = .done) .invalid ev.seen

/-! ## When they do it -/

/-- The test of the source decides about a descriptor without leaving the table. -/
def InTable (rd : Int) : Prop := rd > maxRingbufs ∨ 0 ≤ rd ∧ rd < maxRingbufs

/-- The call gives out a descriptor for a ring that it has made. -/
def MakesRing (t : UserTable) (straddr : List UInt8) (existed : Int) : Prop :=
  existed ≠ -1 ∧ existed ≠ 0 ∧ straddr.length ≤ 16 ∧ freeEntry t ≠ none

/-- The kernel refuses to close a ring whose descriptor the library has already given up. -/
def CloseFails (t : UserTable) (straddr : List UInt8) (rd answer : Int) : Prop :=
  answer = -1 ∧ ∃ entry, lookup t rd = .live entry ∧ entry.name = straddr

/-- The descriptor of a call is not just outside the table. -/
def UserCall.Bounded (call : UserCall) : Prop := ∀ rd, call.descriptor = some rd → InTable rd

/-- The condition: no ring is made, the kernel closes what the library asks it to close, and no
descriptor is just outside the table. -/
def Session.Orderly (s : Session) (ev : UserEvent) : Prop :=
  ev.call.Bounded ∧ match ev.call with
    | .createRingBuf straddr existed _ => ¬MakesRing s.table straddr existed
    | .closeRingBuf straddr rd answer => ¬CloseFails s.table straddr rd answer
    | _ => True

/-- The flags tell which descriptors are live. -/
def Tracks (s : Session) : Prop :=
  ∀ rd, rd ∈ s.live ↔ ∃ i : Fin maxRingbufs, rd = i.val ∧ (s.table i).existsFlag = 1

theorem freeEntry_flag {t : UserTable} {i : Fin maxRingbufs} (h : freeEntry t = some i) :
    (t i).existsFlag ≠ 1 := by
  simpa using List.find?_some h

theorem lookup_eq {t : UserTable} {rd : Int} (h : InTable rd) :
    (∃ i : Fin maxRingbufs, rd = i.val ∧ (t i).existsFlag = 1 ∧ lookup t rd = .live (t i)) ∨
      (∀ i : Fin maxRingbufs, rd = i.val → (t i).existsFlag ≠ 1) ∧ lookup t rd = .invalid := by
  unfold lookup
  rcases h with hhigh | ⟨hlow, hlt⟩
  · rw [if_pos hhigh]
    refine .inr ⟨fun i hi => ?_, rfl⟩
    have hi' := i.isLt
    omega
  · have hin : 0 ≤ rd ∧ rd.toNat < maxRingbufs := ⟨hlow, by omega⟩
    rw [if_neg (by omega), dif_pos hin]
    by_cases hflag : (t ⟨rd.toNat, hin.2⟩).existsFlag = 1
    · refine .inl ⟨⟨rd.toNat, hin.2⟩, by simp [hlow], hflag, ?_⟩
      rw [if_neg (not_not.mpr hflag)]
    · refine .inr ⟨fun i hi => ?_, by rw [if_pos hflag]⟩
      have heq : i = ⟨rd.toNat, hin.2⟩ := by
        apply Fin.ext
        simp only [hi, Int.toNat_natCast]
      rw [heq]
      exact hflag

namespace Tracks

variable {s t : Session} {ev : UserEvent}

theorem init : Tracks Session.init := by
  intro rd
  simp [Session.init]

variable {rd : Int} {straddr : List UInt8}

variable (h : Tracks s)
include h

theorem created_not_live {existed : Int} {ringbuf : Nat} {seen : Counter → BitVec 64}
    (hrd : (s.created straddr existed ringbuf seen).1 ≠ -1) :
    (s.created straddr existed ringbuf seen).1 ∉ s.live := by
  unfold Session.created createRingBuf at *
  split at hrd
  next => exact (hrd rfl).elim
  next hexists =>
    split at hrd
    next => exact (hrd rfl).elim
    next hlen =>
      rw [if_neg hexists, if_neg hlen]
      cases hfree : freeEntry s.table with
      | none => simp [hfree] at hrd
      | some i =>
        have hnot : (i.val : Int) ∉ s.live := by
          rw [h]
          rintro ⟨i', heq, hflag⟩
          obtain rfl : i = i' := Fin.ext (by omega)
          exact freeEntry_flag hfree hflag
        simp only
        split
        next => simpa [store] using hnot
        next => simpa using hnot

theorem insert (i : Fin maxRingbufs) {entry : UserRingBuf} (hflag : entry.existsFlag = 1) :
    Tracks ⟨Function.update s.table i entry, (i.val : Int) :: s.live⟩ := by
  intro rd
  simp only [List.mem_cons, h rd, Function.update_apply]
  constructor
  · rintro (rfl | ⟨i', rfl, hset⟩)
    · exact ⟨i, rfl, by rw [if_pos rfl, hflag]⟩
    · refine ⟨i', rfl, ?_⟩
      split
      next => exact hflag
      next => exact hset
  · rintro ⟨i', rfl, hset⟩
    split at hset
    next heq => exact .inl (by rw [heq])
    next => exact .inr ⟨i', rfl, hset⟩

theorem erase : Tracks ⟨fun i => if rd = i.val then { s.table i with existsFlag := 0 }
    else s.table i, s.live.filter (· ≠ rd)⟩ := by
  intro rd'
  simp only [List.mem_filter, h rd', decide_eq_true_eq]
  constructor
  · rintro ⟨⟨i, rfl, hset⟩, hne⟩
    exact ⟨i, rfl, by rwa [if_neg (Ne.symm hne)]⟩
  · rintro ⟨i, rfl, hset⟩
    split at hset
    next => cases hset
    next hne => exact ⟨⟨i, rfl, hset⟩, Ne.symm hne⟩

theorem create {existed : Int} {ringbuf : Nat} {seen : Counter → BitVec 64}
    (hok : ¬MakesRing s.table straddr existed) :
    Tracks ⟨(s.created straddr existed ringbuf seen).2,
      if (s.created straddr existed ringbuf seen).1 = -1 then s.live
      else (s.created straddr existed ringbuf seen).1 :: s.live⟩ := by
  unfold Session.created createRingBuf
  split
  next => simpa using h
  next hexists =>
    split
    next => simpa using h
    next hlen =>
      cases hfree : freeEntry s.table with
      | none => simpa using h
      | some i =>
        -- Only a ring that was there before gets a descriptor.
        have hzero : existed = 0 := by
          by_contra hne
          exact hok ⟨hexists, hne, by omega, by simp [hfree]⟩
        simp only [hzero, ne_eq, not_true_eq_false, if_false, Prog.pure_eq, Prog.outcome_ret]
        rw [if_neg (by omega)]
        exact h.insert i rfl

/-- Closing keeps the flags right if the kernel closes the ring. -/
theorem close {answer : Int} {r : Int × UserTable} (hok : ¬CloseFails s.table straddr rd answer)
    (hclose : closeRingBuf s.table straddr rd answer = some r) :
    Tracks ⟨r.2, if r.1 = -1 then s.live else s.live.filter (· ≠ rd)⟩ := by
  unfold closeRingBuf at hclose
  cases hlook : lookup s.table rd with
  | invalid =>
    rw [hlook] at hclose
    cases hclose
    exact h
  | outOfBounds =>
    rw [hlook] at hclose
    cases hclose
  | live entry =>
    rw [hlook] at hclose
    simp only at hclose
    split at hclose
    next => cases hclose; exact h
    next hname =>
      cases hclose
      rw [if_neg fun hanswer => hok ⟨hanswer, entry, hlook, not_not.mp hname⟩]
      exact h.erase

/-- One orderly call keeps the flags right. -/
theorem step (hok : s.Orderly ev) (hstep : s.step ev = some t) : Tracks t := by
  obtain ⟨call, seen⟩ := ev
  obtain ⟨-, hok⟩ := hok
  unfold Session.step at hstep
  cases call with
  | createRingBuf straddr existed ringbuf =>
    cases hstep
    exact h.create hok
  | closeRingBuf straddr rd answer =>
    obtain ⟨r, hclose, rfl⟩ := Option.map_eq_some_iff.mp hstep
    exact h.close hok hclose
  | startWrite rd =>
    simp only [Option.ite_none_left_eq_some, Option.some.injEq] at hstep
    exact hstep.2 ▸ h
  | finishWrite rd bytes =>
    simp only [Option.ite_none_left_eq_some, Option.some.injEq] at hstep
    exact hstep.2 ▸ h
  | startRead rd =>
    simp only [Option.ite_none_left_eq_some, Option.some.injEq] at hstep
    exact hstep.2 ▸ h
  | finishRead rd bytes =>
    simp only [Option.ite_none_left_eq_some, Option.some.injEq] at hstep
    exact hstep.2 ▸ h

theorem start (hrd : InTable rd) (amount : BitVec 64 → BitVec 64 → BitVec 64)
    (seen : Counter → BitVec 64) :
    Guards s rd (startWith amount s.table rd) StartResult.IsZero .invalid seen := by
  rcases lookup_eq (t := s.table) hrd with ⟨i, hi, hflag, hlook⟩ | ⟨hnone, hlook⟩
  · refine ⟨fun _ => ?_, fun hnot => (hnot ((h rd).mpr ⟨i, hi, hflag⟩)).elim⟩
    rw [startWith_live hlook]
    trivial
  · refine ⟨fun hlive => ?_, fun _ => by rw [startWith, hlook]; rfl⟩
    obtain ⟨i, hi, hflag⟩ := (h rd).mp hlive
    exact (hnone i hi hflag).elim

theorem finish (hrd : InTable rd) (x : Counter) (bytes : BitVec 32) (seen : Counter → BitVec 64) :
    Guards s rd (finishWith x s.table rd bytes) (· = .done) .invalid seen := by
  rcases lookup_eq (t := s.table) hrd with ⟨i, hi, hflag, hlook⟩ | ⟨hnone, hlook⟩
  · refine ⟨fun _ => ?_, fun hnot => (hnot ((h rd).mpr ⟨i, hi, hflag⟩)).elim⟩
    rw [finishWith_live hlook]
    rfl
  · refine ⟨fun hlive => ?_, fun _ => by rw [finishWith, hlook]; rfl⟩
    obtain ⟨i, hi, hflag⟩ := (h rd).mp hlive
    exact (hnone i hi hflag).elim

end Tracks

/-- In every session whose calls are all orderly, every call does what it should. -/
theorem descriptors_tracked {s : Session} {events : List UserEvent}
    (hrun : Run (Guarded Session.Orderly (StepOf Session.step)) .init events s) {ev : UserEvent}
    (hrd : ev.call.Bounded) : s.Proper ev := by
  have htracks : Tracks s := hrun.invariant_guarded Tracks.step Tracks.init
  obtain ⟨call, seen⟩ := ev
  cases call with
  | createRingBuf straddr existed ringbuf => exact htracks.created_not_live
  | closeRingBuf straddr rd answer => trivial
  | startWrite rd => exact htracks.start (hrd rd rfl) _ seen
  | finishWrite rd bytes => exact htracks.finish (hrd rd rfl) _ bytes seen
  | startRead rd => exact htracks.start (hrd rd rfl) _ seen
  | finishRead rd bytes => exact htracks.finish (hrd rd rfl) _ bytes seen

/-- Attaching to the ring `a` at an address. -/
def attachEvent : UserEvent := ⟨.createRingBuf [97] 0 4096, fun _ => 0⟩

/-- After attaching to a ring its descriptor can be written. -/
theorem descriptors_tracked_small :
    ∃ s, Session.init.step attachEvent = some s ∧ s.Proper ⟨.startWrite 0, fun _ => 0⟩ := by
  have hok : Session.init.Orderly attachEvent := by
    refine ⟨fun rd h => ?_, fun h => h.2.1 rfl⟩
    cases h
  refine ⟨_, rfl, descriptors_tracked (.snoc .nil ⟨hok, rfl⟩) ?_⟩
  intro rd h
  cases h
  exact .inr (by decide)

/-- Making a ring returns descriptor 0, which `ringbuf_start_write` then refuses; and
descriptor 10 is looked up behind the end of the table. -/
theorem descriptors_untracked :
    (∃ s, Session.init.step ⟨.createRingBuf [97] 1 4096, fun _ => 0⟩ = some s ∧
        s.live = [0] ∧ (ringbufStartWrite s.table 0).outcome (fun _ => 0) = .invalid ∧
        ¬s.Proper ⟨.startWrite 0, fun _ => 0⟩) ∧
      ¬Session.init.Proper ⟨.startWrite 10, fun _ => 0⟩ := by
  refine ⟨⟨_, rfl, rfl, rfl, fun h => h.1 (by decide)⟩, fun h => ?_⟩
  have hret := h.2 (by decide)
  cases hret

end User
end FastIpc
