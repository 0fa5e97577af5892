import FastIpc.Foundation.Run
import FastIpc.User.Calls

/-!
# One writer and one reader on the shared book

Two processes are attached to one ring with live descriptors.  The system below
interleaves the individual loads and stores of their start and finish calls.  Two
ghost fields record what the code cannot see: `total`, the bytes really
published by each side's finish calls, and `seen`, the peer's true total at the
moment a start call loaded the peer's counter.

The invariant never mentions where the peer is.  Each side is limited by the
peer total it has seen, and that total only grows, so a stale value is safe.

Main results:

- Theorem `RingInv.step`: every atomic access keeps the invariant.
- Theorem `counters_exact`: the amounts handed out are exact.
-/

namespace FastIpc
namespace User

open Foundation
open Function (update update_of_ne update_self)

/-! ## Sides of a ring -/

/-- The two roles on a ring. -/
inductive Side where
  | writer
  | reader
  deriving DecidableEq, Repr

namespace Side

/-- The opposite role. -/
def other : Side → Side
  | .writer => .reader
  | .reader => .writer

/-- The counter this side advances. -/
def own : Side → Counter
  | .writer => .writeDone
  | .reader => .readDone

/-- How far this side may run ahead of the peer total. -/
def lead : Side → Nat
  | .writer => bufSize
  | .reader => 0

@[simp]
theorem other_ne (d : Side) : d.other ≠ d := by
  cases d <;> decide

@[simp]
theorem other_other (d : Side) : d.other.other = d := by
  cases d <;> rfl

theorem own_injective {d e : Side} (h : d.own = e.own) : d = e := by
  cases d <;> cases e <;> simp_all [own]

end Side

/-- Two processes whose descriptors for the ring are live. -/
structure Attachment where
  table : Side → UserTable
  rd : Side → Int
  entry : Side → UserRingBuf
  live : ∀ d, lookup (table d) (rd d) = .live (entry d)

namespace Attachment

/-- The start call of one side. -/
def startProg (A : Attachment) (d : Side) : BookProg StartResult :=
  match d with
  | .writer => ringbufStartWrite (A.table d) (A.rd d)
  | .reader => ringbufStartRead (A.table d) (A.rd d)

/-- The finish call of one side. -/
def finishProg (A : Attachment) (d : Side) (bytes : BitVec 32) : BookProg FinishResult :=
  match d with
  | .writer => ringbufFinishWrite (A.table d) (A.rd d) bytes
  | .reader => ringbufFinishRead (A.table d) (A.rd d) bytes

end Attachment

/-! ## The interleaved system -/

/-- Where one process is in its current round. -/
inductive Phase where
  | idle
  | starting (rest : BookProg StartResult)
  | started (addr : Nat) (bytes : BitVec 32)
  | finishing (count : Nat) (rest : BookProg FinishResult)
  | exited

/-- The shared book, both processes, and the two ghost records. -/
structure Ring where
  book : Counter → BitVec 64
  phase : Side → Phase
  total : Side → Nat
  seen : Side → Nat

/-- A zeroed book, nobody in a round. -/
def Ring.init : Ring where
  book := fun _ => 0
  phase := fun _ => .idle
  total := fun _ => 0
  seen := fun _ => 0

/-- What a process does next. -/
inductive RingAct where
  | start (d : Side)
  | access (d : Side)
  | ret (d : Side)
  | finish (d : Side) (count : Nat)
  deriving DecidableEq, Repr

/-- Replace one side's phase. -/
def Ring.setPhase (s : Ring) (d : Side) (ph : Phase) : Ring :=
  { s with phase := update s.phase d ph }

/-- The record of the peer's total after a start call loaded `x`. -/
def Ring.noteLoad (s : Ring) (d : Side) (x : Counter) : Side → Nat :=
  if x = d.other.own then update s.seen d (s.total d.other) else s.seen

/-- One access of a start call; loading the peer's counter is recorded in `seen`. -/
def Ring.startAccess (s : Ring) (d : Side) : BookProg StartResult → Option Ring
  | .ret _ => none
  | .load x next => some { s.setPhase d (.starting (next (s.book x))) with seen := s.noteLoad d x }
  | .store x v next => some { s.setPhase d (.starting next) with book := update s.book x v }

/-- One access of a finish call; its store publishes `count` bytes. -/
def Ring.finishAccess (s : Ring) (d : Side) (count : Nat) : BookProg FinishResult → Option Ring
  | .ret _ => none
  | .load x next => some (s.setPhase d (.finishing count (next (s.book x))))
  | .store x v next =>
    some { s.setPhase d (.finishing count next) with
      book := update s.book x v
      total := update s.total d (s.total d + count) }

/-- One step of one process.

A start call may be repeated before the round is finished, as the polling loops of
the callers do.  A finish call passes a count between zero and the amount that the
last start call returned. -/
def Ring.step (A : Attachment) (s : Ring) : RingAct → Option Ring
  | .start d =>
    match s.phase d with
    | .idle => some (s.setPhase d (.starting (A.startProg d)))
    | .started _ _ => some (s.setPhase d (.starting (A.startProg d)))
    | _ => none
  | .access d =>
    match s.phase d with
    | .starting p => s.startAccess d p
    | .finishing count p => s.finishAccess d count p
    | _ => none
  | .ret d =>
    match s.phase d with
    | .starting (.ret (.granted addr bytes)) => some (s.setPhase d (.started addr bytes))
    | .starting (.ret .exited) => some (s.setPhase d .exited)
    | .starting (.ret _) => some (s.setPhase d .idle)
    | .finishing _ (.ret _) => some (s.setPhase d .idle)
    | _ => none
  | .finish d count =>
    match s.phase d with
    | .started _ bytes =>
      if (count : Int) ≤ bytes.toInt then
        some (s.setPhase d (.finishing count (A.finishProg d (BitVec.ofNat 32 count))))
      else none
    | _ => none

section

variable (s : Ring) (d : Side) (ph : Phase)

@[simp]
theorem Ring.setPhase_book : (s.setPhase d ph).book = s.book :=
  rfl

@[simp]
theorem Ring.setPhase_total : (s.setPhase d ph).total = s.total :=
  rfl

@[simp]
theorem Ring.setPhase_seen : (s.setPhase d ph).seen = s.seen :=
  rfl

@[simp]
theorem Ring.setPhase_phase : (s.setPhase d ph).phase = update s.phase d ph :=
  rfl

end

/-! ## The amounts handed out -/

/-- The amount computed by a start call from the two encoded totals. -/
def amount : Side → BitVec 64 → BitVec 64 → BitVec 64
  | .writer => fun read write => BitVec.ofNat 64 bufSize - (write - read)
  | .reader => fun read write => write - read

/-- The amount a side may move: what it has seen of the peer, plus its lead, less
its own total. -/
def Grant (d : Side) (total seen : Nat) (bytes : BitVec 32) : Prop :=
  bytes.toInt = (seen : Int) + d.lead - total

/-- Re-widening a counter written through `int` gives the counter back. -/
@[simp]
theorem widen_narrow_encode (n : Nat) : widen (narrow (encode n)) = encode n := by
  rw [narrow_encode]
  rfl

/-- The writer's amount is exact while it is within one buffer of what it saw. -/
theorem grant_writer {total seen : Nat} (hle : seen ≤ total) (hcap : total ≤ seen + bufSize) :
    Grant .writer total seen
      (narrow (amount .writer (encode seen) (encode total))) := by
  have hsize : narrow (BitVec.ofNat 64 bufSize) = BitVec.ofNat 32 bufSize := by decide
  have hamount : narrow (amount .writer (encode seen) (encode total)) =
      BitVec.ofNat 32 (bufSize - (total - seen)) := by
    show narrow (BitVec.ofNat 64 bufSize - (encode total - encode seen)) = _
    rw [narrow_sub, narrow_encode_sub hle, hsize]
    have hsplit : BitVec.ofNat 32 bufSize =
        BitVec.ofNat 32 (bufSize - (total - seen)) + BitVec.ofNat 32 (total - seen) := by
      rw [BitVec.ofNat_add_ofNat, Nat.sub_add_cancel (by omega)]
    rw [hsplit, BitVec.add_sub_cancel]
  have hsmall : bufSize - (total - seen) < 2 ^ 31 := by
    simp only [bufSize]
    omega
  unfold Grant
  rw [hamount, toInt_ofNat_of_lt hsmall]
  simp only [Side.lead, bufSize] at *
  omega

/-- The reader's amount is exact while the writer is within one buffer of it. -/
theorem grant_reader {total seen : Nat} (hle : total ≤ seen) (hcap : seen ≤ total + bufSize) :
    Grant .reader total seen
      (narrow (amount .reader (encode total) (encode seen))) := by
  have hsmall : seen - total < 2 ^ 31 := by
    simp only [bufSize] at hcap
    omega
  unfold Grant
  show (narrow (encode seen - encode total)).toInt = _
  rw [narrow_encode_sub hle, toInt_ofNat_of_lt hsmall]
  simp only [Side.lead]
  omega

/-! ## The invariant -/

/-- The rest of a start call once its first load returned `read`. -/
def Attachment.afterRead (A : Attachment) (d : Side) (read : Nat) : BookProg StartResult :=
  .load .writeDone fun w =>
    .ret (.granted (A.entry d).buf (narrow (amount d (encode read) (widen (narrow w)))))

/-- The value of `read_done` a side holds between its two loads. -/
def readHeld : Side → Nat → Nat → Nat
  | .writer => fun _ seen => seen
  | .reader => fun total _ => total

/-- What the phase of one side guarantees, in terms of its own total and what it
has seen of the peer. -/
def PhaseOk (A : Attachment) (d : Side) (total seen : Nat) : Phase → Prop
  | .idle => True
  | .starting p =>
    p = A.startProg d ∨ p = A.afterRead d (readHeld d total seen) ∨
      ∃ bytes, p = .ret (.granted (A.entry d).buf bytes) ∧ Grant d total seen bytes
  | .started addr bytes => addr = (A.entry d).buf ∧ Grant d total seen bytes
  | .finishing count p =>
    (total + count ≤ seen + d.lead ∧ (p = A.finishProg d (BitVec.ofNat 32 count) ∨
        p = .store d.own (encode (total + count)) (.ret .done))) ∨
    p = .ret .done
  | .exited => False

/-- The ring invariant: the book encodes the true totals, and each side is limited
by the peer total it has seen. -/
structure RingInv (A : Attachment) (s : Ring) : Prop where
  book_own : ∀ d : Side, s.book d.own = encode (s.total d)
  total_le : ∀ d : Side, s.total d ≤ s.seen d + d.lead
  seen_le : ∀ d : Side, s.seen d ≤ s.total d.other
  phase_ok : ∀ d : Side, PhaseOk A d (s.total d) (s.seen d) (s.phase d)

namespace RingInv

variable {A : Attachment} {s t : Ring}

theorem init (A : Attachment) : RingInv A Ring.init where
  book_own := by
    intro d
    show (0 : BitVec 64) = encode 0
    decide
  total_le := fun d => Nat.zero_le _
  seen_le := fun d => Nat.zero_le _
  phase_ok := fun _ => trivial

theorem reader_le (h : RingInv A s) : s.total .reader ≤ s.total .writer := by
  have hcap := h.total_le .reader
  have hseen := h.seen_le .reader
  simp only [Side.lead, Side.other] at hcap hseen
  omega

theorem writer_le (h : RingInv A s) : s.total .writer ≤ s.total .reader + bufSize := by
  have hcap := h.total_le .writer
  have hseen := h.seen_le .writer
  simp only [Side.lead, Side.other] at hcap hseen
  omega

variable {d : Side}

section

variable (h : RingInv A s) {addr : Nat} {bytes : BitVec 32}
  (hphase : s.phase d = .started addr bytes)
include h hphase

/-- The address and the amount a started round was given. -/
theorem started_eq :
    addr = (A.entry d).buf ∧ bytes.toInt = (s.seen d : Int) + d.lead - s.total d := by
  have hok := h.phase_ok d
  rw [hphase] at hok
  exact hok

theorem bytes_le : bytes.toInt ≤ bufSize := by
  have hgrant := (h.started_eq hphase).2
  have hseen := h.seen_le d
  have hreader := h.reader_le
  have hwriter := h.writer_le
  cases d <;> simp only [Side.lead, Side.other] at hgrant hseen <;> omega

end

/-- Changing only one side's phase keeps the invariant if the new phase is fine. -/
theorem setPhase (h : RingInv A s) {ph : Phase} (hph : PhaseOk A d (s.total d) (s.seen d) ph) :
    RingInv A (s.setPhase d ph) where
  __ := h
  phase_ok := by
    intro e
    by_cases he : e = d
    · subst he
      simpa using hph
    · simpa [update_of_ne he] using h.phase_ok e

end RingInv

/-- The two loads of a start call, as the invariant names them. -/
theorem startProg_eq (A : Attachment) (d : Side) :
    A.startProg d = .load .readDone fun r => .load .writeDone fun w =>
      .ret (.granted (A.entry d).buf
        (narrow (amount d (widen (narrow r)) (widen (narrow w))))) := by
  cases d with
  | writer => simp only [Attachment.startProg, ringbufStartWrite, startWith_live (A.live _), amount]
  | reader => simp only [Attachment.startProg, ringbufStartRead, startWith_live (A.live _), amount]

theorem finishProg_eq (A : Attachment) (d : Side) (bytes : BitVec 32) :
    A.finishProg d bytes = .load d.own fun v =>
      .store d.own (widen (narrow (widen (narrow v) + widen bytes))) (.ret .done) := by
  cases d with
  | writer =>
    simp only [Attachment.finishProg, ringbufFinishWrite, finishWith_live (A.live _), Side.own]
  | reader =>
    simp only [Attachment.finishProg, ringbufFinishRead, finishWith_live (A.live _), Side.own]

/-! ## What one step can do -/

/-- The moves of one process from a state that satisfies the invariant, each with the
phase it starts from. -/
inductive Ring.Move (A : Attachment) (s : Ring) : RingAct → Ring → Prop where
  | start {d : Side}
      (hphase : s.phase d = .idle ∨ ∃ addr bytes, s.phase d = .started addr bytes) :
      Move A s (.start d) (s.setPhase d (.starting (A.startProg d)))
  | loadRead {d : Side} (hphase : s.phase d = .starting (A.startProg d)) :
      Move A s (.access d)
        { s.setPhase d (.starting (A.afterRead d (s.total .reader))) with
          seen := s.noteLoad d .readDone }
  | loadWrite {d : Side} {bytes : BitVec 32}
      (hphase : s.phase d = .starting (A.afterRead d (readHeld d (s.total d) (s.seen d))))
      (hbytes : bytes = narrow (amount d (encode (readHeld d (s.total d) (s.seen d)))
        (encode (s.total .writer)))) :
      Move A s (.access d)
        { s.setPhase d (.starting (.ret (.granted (A.entry d).buf bytes))) with
          seen := s.noteLoad d .writeDone }
  | granted {d : Side} {bytes : BitVec 32}
      (hphase : s.phase d = .starting (.ret (.granted (A.entry d).buf bytes)))
      (hgrant : Grant d (s.total d) (s.seen d) bytes) :
      Move A s (.ret d) (s.setPhase d (.started (A.entry d).buf bytes))
  | finish {d : Side} {bytes : BitVec 32} {count : Nat}
      (hphase : s.phase d = .started (A.entry d).buf bytes)
      (hcount : (count : Int) ≤ bytes.toInt)
      (hroom : s.total d + count ≤ s.seen d + d.lead) :
      Move A s (.finish d count)
        (s.setPhase d (.finishing count (A.finishProg d (BitVec.ofNat 32 count))))
  | loadOwn {d : Side} {count : Nat}
      (hphase : s.phase d = .finishing count (A.finishProg d (BitVec.ofNat 32 count)))
      (hroom : s.total d + count ≤ s.seen d + d.lead) :
      Move A s (.access d)
        (s.setPhase d (.finishing count
          (.store d.own (encode (s.total d + count)) (.ret .done))))
  | publish {d : Side} {count : Nat}
      (hphase : s.phase d =
        .finishing count (.store d.own (encode (s.total d + count)) (.ret .done)))
      (hroom : s.total d + count ≤ s.seen d + d.lead) :
      Move A s (.access d)
        { s.setPhase d (.finishing count (.ret .done)) with
          book := update s.book d.own (encode (s.total d + count))
          total := update s.total d (s.total d + count) }
  | finished {d : Side} {count : Nat} (hphase : s.phase d = .finishing count (.ret .done)) :
      Move A s (.ret d) (s.setPhase d .idle)

namespace RingInv

variable {A : Attachment} {s t : Ring}
variable {a : RingAct} {d : Side}

section

variable (h : RingInv A s)
include h

theorem move_startAccess {p : BookProg StartResult} (hphase : s.phase d = .starting p)
    (ht : s.startAccess d p = some t) : Ring.Move A s (.access d) t := by
  have hp := h.phase_ok d
  rw [hphase] at hp
  rcases hp with rfl | rfl | ⟨bytes, rfl, -⟩
  · have hbook : s.book .readDone = encode (s.total .reader) := h.book_own .reader
    rw [startProg_eq] at ht
    simp only [Ring.startAccess, Option.some.injEq, hbook, widen_narrow_encode] at ht
    subst ht
    exact .loadRead hphase
  · have hbook : s.book .writeDone = encode (s.total .writer) := h.book_own .writer
    simp only [Attachment.afterRead, Ring.startAccess, Option.some.injEq, hbook,
      widen_narrow_encode] at ht
    subst ht
    exact .loadWrite hphase rfl
  · simp [Ring.startAccess] at ht

theorem move_finishAccess {count : Nat} {p : BookProg FinishResult}
    (hphase : s.phase d = .finishing count p) (ht : s.finishAccess d count p = some t) :
    Ring.Move A s (.access d) t := by
  have hp := h.phase_ok d
  rw [hphase] at hp
  rcases hp with ⟨hroom, rfl | rfl⟩ | rfl
  · rw [finishProg_eq] at ht
    simp only [Ring.finishAccess, Option.some.injEq, h.book_own d, widen_narrow_encode,
      encode_add] at ht
    subst ht
    exact .loadOwn hphase hroom
  · simp only [Ring.finishAccess, Option.some.injEq] at ht
    subst ht
    exact .publish hphase hroom
  · simp [Ring.finishAccess] at ht

/-- The returns of both calls.  No program of the invariant returns from the exit
branch or with a refused descriptor. -/
theorem move_ret (ht : s.step A (.ret d) = some t) : Ring.Move A s (.ret d) t := by
  have hp := h.phase_ok d
  simp only [Ring.step] at ht
  cases hphase : s.phase d with
  | idle => simp [hphase] at ht
  | started addr bytes => simp [hphase] at ht
  | exited => simp [hphase] at ht
  | starting p =>
    rw [hphase] at hp
    rcases hp with rfl | rfl | ⟨bytes, rfl, hgrant⟩
    · simp [hphase, startProg_eq] at ht
    · simp [hphase, Attachment.afterRead] at ht
    · simp only [hphase, Option.some.injEq] at ht
      subst ht
      exact .granted hphase hgrant
  | finishing count p =>
    rw [hphase] at hp
    rcases hp with ⟨-, rfl | rfl⟩ | rfl
    · simp [hphase, finishProg_eq] at ht
    · simp [hphase] at ht
    · simp only [hphase, Option.some.injEq] at ht
      subst ht
      exact .finished hphase

/-- Every step from a state of the invariant is one of the moves. -/
theorem move (ht : s.step A a = some t) : Ring.Move A s a t := by
  cases a with
  | start d =>
    simp only [Ring.step] at ht
    split at ht
    next hphase =>
      cases ht
      exact .start (.inl hphase)
    next addr bytes hphase =>
      cases ht
      exact .start (.inr ⟨addr, bytes, hphase⟩)
    next => cases ht
  | access d =>
    simp only [Ring.step] at ht
    split at ht
    next p hphase => exact h.move_startAccess hphase ht
    next count p hphase => exact h.move_finishAccess hphase ht
    next => cases ht
  | ret d => exact h.move_ret ht
  | finish d count =>
    simp only [Ring.step] at ht
    split at ht
    next addr bytes hphase =>
      split at ht
      next hcount =>
        obtain ⟨rfl, hbytes⟩ := h.started_eq hphase
        cases ht
        exact .finish hphase hcount (by omega)
      next => cases ht
    next => cases ht

/-! ## One step keeps the invariant -/

/-- The first load of a start call: the writer learns the reader's total, the reader
loads its own. -/
theorem loadRead (d : Side) :
    RingInv A { s.setPhase d (.starting (A.afterRead d (s.total .reader))) with
      seen := s.noteLoad d .readDone } := by
  unfold Ring.noteLoad
  cases d with
  | reader =>
    have hne : Counter.readDone ≠ (Side.reader).other.own := by decide
    rw [if_neg hne]
    exact h.setPhase (.inr (.inl rfl))
  | writer =>
    have heq : Counter.readDone = (Side.writer).other.own := rfl
    rw [if_pos heq]
    refine ⟨h.book_own, ?_, ?_, ?_⟩
    · intro e
      cases e with
      | writer => simpa [Side.other, Side.lead] using h.writer_le
      | reader => simpa using h.total_le .reader
    · intro e
      cases e with
      | writer => simp
      | reader => simpa using h.seen_le .reader
    · intro e
      cases e with
      | writer =>
        simp only [Ring.setPhase_phase, Ring.setPhase_total, update_self]
        exact .inr (.inl rfl)
      | reader => simpa using h.phase_ok .reader

/-- The second load of a start call: the reader learns the writer's total, the writer
loads its own, and the amount returned is exact. -/
theorem loadWrite (d : Side) {bytes : BitVec 32}
    (hread : readHeld d (s.total d) (s.seen d) ≤ s.total .writer)
    (hbytes : bytes =
      narrow (amount d (encode (readHeld d (s.total d) (s.seen d))) (encode (s.total .writer)))) :
    RingInv A { s.setPhase d (.starting (.ret (.granted (A.entry d).buf bytes))) with
      seen := s.noteLoad d .writeDone } := by
  unfold Ring.noteLoad
  cases d with
  | writer =>
    have hne : Counter.writeDone ≠ (Side.writer).other.own := by decide
    rw [if_neg hne]
    refine h.setPhase (.inr (.inr ⟨bytes, rfl, ?_⟩))
    rw [hbytes]
    exact grant_writer hread (h.total_le .writer)
  | reader =>
    have heq : Counter.writeDone = (Side.reader).other.own := rfl
    rw [if_pos heq]
    have hgrant : Grant .reader (s.total .reader) (s.total .writer) bytes := by
      rw [hbytes]
      exact grant_reader hread h.writer_le
    refine ⟨h.book_own, ?_, ?_, ?_⟩
    · intro e
      cases e with
      | reader => simpa [Side.other, Side.lead] using h.reader_le
      | writer => simpa using h.total_le .writer
    · intro e
      cases e with
      | reader => simp
      | writer => simpa using h.seen_le .writer
    · intro e
      cases e with
      | reader =>
        simp only [Ring.setPhase_phase, Ring.setPhase_total, update_self]
        exact .inr (.inr ⟨bytes, rfl, hgrant⟩)
      | writer => simpa using h.phase_ok .writer

/-- The store of a finish call publishes exactly `count` bytes. -/
theorem publish (d : Side) {count : Nat} (hroom : s.total d + count ≤ s.seen d + d.lead) :
    RingInv A { s.setPhase d (.finishing count (.ret .done)) with
      book := update s.book d.own (encode (s.total d + count))
      total := update s.total d (s.total d + count) } := by
  refine ⟨?_, ?_, ?_, ?_⟩
  · intro e
    by_cases he : e = d
    · subst he
      simp
    · have hown : e.own ≠ d.own := fun heq => he (Side.own_injective heq)
      simp [update_of_ne he, update_of_ne hown, h.book_own e]
  · intro e
    by_cases he : e = d
    · subst he
      simpa using hroom
    · simpa [update_of_ne he] using h.total_le e
  · intro e
    by_cases he : e.other = d
    · have hseen := h.seen_le e
      rw [he] at hseen
      simp only [Ring.setPhase_seen, he, update_self]
      omega
    · simpa [update_of_ne he] using h.seen_le e
  · intro e
    by_cases he : e = d
    · subst he
      simp only [Ring.setPhase_phase, update_self]
      exact .inr rfl
    · simpa [update_of_ne he] using h.phase_ok e

theorem of_move (hmove : Ring.Move A s a t) : RingInv A t := by
  cases hmove with
  | start _ => exact h.setPhase (.inl rfl)
  | loadRead _ => exact h.loadRead _
  | @loadWrite d bytes _ hbytes =>
    refine h.loadWrite d ?_ hbytes
    cases d with
    | writer => exact (h.seen_le .writer).trans h.reader_le
    | reader => exact h.reader_le
  | granted _ hgrant => exact h.setPhase ⟨rfl, hgrant⟩
  | finish _ _ hroom => exact h.setPhase (.inl ⟨hroom, .inl rfl⟩)
  | loadOwn _ hroom => exact h.setPhase (.inl ⟨hroom, .inr rfl⟩)
  | publish _ hroom => exact h.publish _ hroom
  | finished _ => exact h.setPhase trivial

/-- Every step of either process keeps the invariant. -/
theorem step (ht : s.step A a = some t) : RingInv A t := h.of_move (h.move ht)

end

/-- The invariant holds in every state of every interleaving. -/
theorem of_run {l : List RingAct} (hrun : Run (StepOf (Ring.step A)) Ring.init l s) : RingInv A s :=
  hrun.invariant (fun hu hstep => hu.step hstep) (RingInv.init A)

end RingInv

/-! ## The amounts on every run -/

/-- The ring counters stay exact forever: on every interleaving of the atomic
accesses, for totals of any size, the totals are within one buffer of each other;
an amount returned by a start call lies between zero and the room there really is,
and equals the difference of the totals as of the load of the peer's counter. -/
theorem counters_exact (A : Attachment) {l : List RingAct} {s : Ring}
    (hrun : Run (StepOf (Ring.step A)) Ring.init l s) :
    (s.total .reader ≤ s.total .writer ∧ s.total .writer - s.total .reader ≤ bufSize) ∧
    (∀ addr bytes, s.phase .reader = .started addr bytes →
      0 ≤ bytes.toInt ∧ bytes.toInt ≤ (s.total .writer : Int) - s.total .reader ∧
      bytes.toInt = (s.seen .reader : Int) - s.total .reader) ∧
    (∀ addr bytes, s.phase .writer = .started addr bytes → 0 ≤ bytes.toInt ∧
      bytes.toInt ≤ (bufSize : Int) - ((s.total .writer : Int) - s.total .reader) ∧
      bytes.toInt = (bufSize : Int) - ((s.total .writer : Int) - s.seen .writer)) := by
  have h := RingInv.of_run hrun
  have hreader := h.reader_le
  have hwriter := h.writer_le
  refine ⟨⟨hreader, by omega⟩, ?_, ?_⟩
  · intro addr bytes hphase
    have hgrant := (h.started_eq hphase).2
    have hcap := h.total_le .reader
    have hseen := h.seen_le .reader
    simp only [Side.lead, Side.other] at hgrant hcap hseen
    omega
  · intro addr bytes hphase
    have hgrant := (h.started_eq hphase).2
    have hcap := h.total_le .writer
    have hseen := h.seen_le .writer
    simp only [Side.lead, Side.other] at hgrant hcap hseen
    omega

/-- Two processes whose descriptor 0 is a ring named `Bye`, mapped by both in the
first window. -/
def byeAttachment : Attachment where
  table := fun _ => update (fun _ => ⟨0, 0, 0, []⟩) ⟨0, by decide⟩
    ⟨274876506112, 274876637184, 1, [66, 121, 101]⟩
  rd := fun _ => 0
  entry := fun _ => ⟨274876506112, 274876637184, 1, [66, 121, 101]⟩
  live := fun _ => by decide

/-- A writer round of three bytes, after which a reader has started its own. -/
def byeRounds : List RingAct :=
  [.start .writer, .access .writer, .access .writer, .ret .writer, .finish .writer 3,
    .access .writer, .access .writer, .ret .writer, .start .reader, .access .reader,
    .access .reader, .ret .reader]

/-- The amount a process has been offered and not yet used. -/
def Phase.offer : Phase → Option (Nat × BitVec 32)
  | .started addr bytes => some (addr, bytes)
  | _ => none

/-- The counters on one concrete interleaving: the reader is offered the three bytes. -/
theorem counters_exact_byeRounds :
    ∃ s, Run (StepOf (Ring.step byeAttachment)) Ring.init byeRounds s ∧
      s.phase .reader = .started 274876506112 3 ∧
      (3 : BitVec 32).toInt = (s.seen .reader : Int) - s.total .reader := by
  have hexec : (exec (Ring.step byeAttachment) Ring.init byeRounds).map
      (fun s => (s.phase .reader).offer) = some (some (274876506112, 3)) := by
    decide +kernel
  obtain ⟨s, hs, hoffer⟩ := Option.map_eq_some_iff.mp hexec
  have hphase : s.phase .reader = .started 274876506112 3 := by
    cases hph : s.phase .reader <;> simp_all [Phase.offer]
  exact ⟨s, run_of_exec hs, hphase,
    ((counters_exact byeAttachment (run_of_exec hs)).2.1 _ _ hphase).2.2⟩

end User
end FastIpc
