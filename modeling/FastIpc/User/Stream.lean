import FastIpc.User.Counters

/-!
# The byte stream through the mirrored window

The data pages of a ring are mapped twice in a row, so byte `i` and byte
`i + 65536` of either process's window are the same physical byte.  This module
adds the bytes to the counter system: between its start and its finish call a
writer stores bytes one after the other from the returned address, and a reader
loads them one after the other from the address it was given.

Both start calls return the first byte of the window, whatever the counters say.
A reader round therefore sees the right bytes exactly while the latest round the
writer stored anything in is the one that begins at the reader's own total.

Main results:

- Theorem `overwritten_round_breaks_fifo`: two writer rounds before one reader round.
- Theorem `fifo_of_lockstep`: when the bytes loaded are a prefix of the bytes stored.
-/

namespace FastIpc
namespace User

open Foundation
open Function (update update_of_ne update_self)

/-- Physical byte behind a virtual address of one side's window. -/
def Attachment.cellOf (A : Attachment) (d : Side) (va : Nat) : Nat :=
  (va - (A.entry d).buf) % bufSize

/-- The counter system together with the data pages and the history of the bytes. -/
structure Stream where
  ring : Ring
  cell : Nat → UInt8
  moved : Side → Nat
  stored : List UInt8
  loaded : List UInt8
  roundBase : Option Nat

/-- A fresh ring over data pages of arbitrary contents. -/
def Stream.init (cell : Nat → UInt8) : Stream where
  ring := Ring.init
  cell := cell
  moved := fun _ => 0
  stored := []
  loaded := []
  roundBase := none

/-- What a process does next, data accesses included. -/
inductive StreamAct where
  | start (d : Side)
  | access (d : Side)
  | ret (d : Side)
  | storeByte (b : UInt8)
  | loadByte
  | finish (d : Side)
  deriving DecidableEq, Repr

/-- One step of one process.  `moved` counts the bytes of the current round, and the
finish call passes exactly that number.  `roundBase` records the writer's total at
the start of the latest round in which it stored a byte. -/
def Stream.step (A : Attachment) (s : Stream) : StreamAct → Option Stream
  | .start d =>
    if s.moved d = 0 then
      (s.ring.step A (.start d)).map fun r => { s with ring := r }
    else none
  | .access d => (s.ring.step A (.access d)).map fun r => { s with ring := r }
  | .ret d => (s.ring.step A (.ret d)).map fun r => { s with ring := r }
  | .storeByte b =>
    match s.ring.phase .writer with
    | .started addr bytes =>
      if (s.moved .writer : Int) < bytes.toInt then
        some { s with
          cell := update s.cell (A.cellOf .writer (addr + s.moved .writer)) b
          moved := update s.moved .writer (s.moved .writer + 1)
          stored := s.stored ++ [b]
          roundBase := if s.moved .writer = 0 then some (s.ring.total .writer) else s.roundBase }
      else none
    | _ => none
  | .loadByte =>
    match s.ring.phase .reader with
    | .started addr bytes =>
      if (s.moved .reader : Int) < bytes.toInt then
        some { s with
          moved := update s.moved .reader (s.moved .reader + 1)
          loaded := s.loaded ++ [s.cell (A.cellOf .reader (addr + s.moved .reader))] }
      else none
    | _ => none
  | .finish d =>
    (s.ring.step A (.finish d (s.moved d))).map fun r =>
      { s with ring := r, moved := update s.moved d 0 }

/-! ## Bytes of a round that are not yet published -/

/-- Bytes passed to a finish call whose store has not happened yet. -/
def Phase.unpublished : Phase → Nat
  | .finishing _ (.ret _) => 0
  | .finishing count _ => count
  | _ => 0

/-- All bytes a side has moved, in terms of its total and its phase. -/
def Ring.claimed (s : Ring) (d : Side) : Nat := s.total d + (s.phase d).unpublished

/-- A finish call that has not accessed the book yet has published nothing. -/
theorem unpublished_finishProg (A : Attachment) (d : Side) (count : Nat) (bytes : BitVec 32) :
    (Phase.finishing count (A.finishProg d bytes)).unpublished = count := by
  rw [finishProg_eq]
  rfl

/-- The bytes a finish call adds to what its side has claimed. -/
def RingAct.claims : RingAct → Side → Nat
  | .finish d count, e => if e = d then count else 0
  | _, _ => 0

variable {s : Ring}

/-- A change of phase that leaves the unpublished bytes alone claims nothing. -/
theorem Ring.claimed_setPhase {d : Side} {ph : Phase} {n : Nat} (hold : (s.phase d).unpublished = n)
    (hnew : ph.unpublished = n) (e : Side) : (s.setPhase d ph).claimed e = s.claimed e := by
  by_cases he : e = d
  · subst he
    simp [Ring.claimed, hold, hnew]
  · simp [Ring.claimed, update_of_ne he]

/-- Only the call of a finish function changes how many bytes a side has claimed; its
store merely turns claimed bytes into published ones. -/
theorem Ring.Move.claimed {A : Attachment} {t : Ring} {a : RingAct} (hmove : Ring.Move A s a t)
    (e : Side) : t.claimed e = s.claimed e + a.claims e := by
  cases hmove with
  | @start d hphase =>
    have hold : (s.phase d).unpublished = 0 := by
      rcases hphase with hphase | ⟨addr, bytes, hphase⟩ <;> rw [hphase] <;> rfl
    exact Ring.claimed_setPhase hold rfl e
  | loadRead hphase => exact Ring.claimed_setPhase (n := 0) (congrArg Phase.unpublished hphase) rfl e
  | loadWrite hphase _ => exact Ring.claimed_setPhase (n := 0) (congrArg Phase.unpublished hphase) rfl e
  | granted hphase _ => exact Ring.claimed_setPhase (n := 0) (congrArg Phase.unpublished hphase) rfl e
  | @finish d bytes count hphase _ _ =>
    by_cases he : e = d
    · subst he
      simp only [Ring.claimed, RingAct.claims, Ring.setPhase_total, Ring.setPhase_phase,
        update_self, unpublished_finishProg, hphase, if_true]
      rfl
    · simp [Ring.claimed, RingAct.claims, he]
  | @loadOwn d count hphase _ =>
    have hold : (s.phase d).unpublished = count := by rw [hphase, unpublished_finishProg]
    exact Ring.claimed_setPhase hold rfl e
  | @publish d count hphase _ =>
    by_cases he : e = d
    · subst he
      simp [Ring.claimed, RingAct.claims, hphase, Phase.unpublished]
    · simp [Ring.claimed, RingAct.claims, he]
  | finished hphase => exact Ring.claimed_setPhase (n := 0) (congrArg Phase.unpublished hphase) rfl e

/-- The process that performs an action. -/
def RingAct.side : RingAct → Side
  | .start d => d
  | .access d => d
  | .ret d => d
  | .finish d _ => d

/-- A move of one process leaves the other's phase and total alone. -/
theorem Ring.Move.frame {A : Attachment} {t : Ring} {a : RingAct} (hmove : Ring.Move A s a t)
    {e : Side} (he : e ≠ a.side) : t.phase e = s.phase e ∧ t.total e = s.total e := by
  cases hmove <;> exact ⟨update_of_ne he _ _, by simp_all [RingAct.side]⟩

/-! ## The stream invariant -/

/-- The condition on one step: a byte is loaded only while the latest round the writer
stored anything in is the one that begins at the reader's own total. -/
def LockStep (s : Stream) : StreamAct → Prop
  | .loadByte => s.roundBase = some (s.ring.total .reader)
  | _ => True

/-- What ties the counters, the window and the two histories together. -/
structure StreamInv (A : Attachment) (s : Stream) : Prop where
  ring : RingInv A s.ring
  stored_length : s.stored.length = s.ring.claimed .writer + s.moved .writer
  loaded_length : s.loaded.length = s.ring.claimed .reader + s.moved .reader
  moved_started : ∀ d, s.moved d ≠ 0 → ∃ addr bytes, s.ring.phase d = .started addr bytes
  base_current : s.moved .writer ≠ 0 → s.roundBase = some (s.ring.total .writer)
  front : ∀ base, s.roundBase = some base →
    ∀ o, base + o < s.stored.length → s.stored[base + o]? = some (s.cell o)
  fifo : s.loaded <+: s.stored

namespace StreamInv

variable {A : Attachment} {s t : Stream}

theorem init (A : Attachment) (cell : Nat → UInt8) : StreamInv A (Stream.init cell) where
  ring := RingInv.init A
  stored_length := rfl
  loaded_length := rfl
  moved_started := fun _ h => absurd rfl h
  base_current := fun h => absurd rfl h
  front := by
    intro base h
    cases h
  fifo := List.prefix_rfl

variable {d : Side}

/-- A side in the middle of its data accesses has claimed exactly its total. -/
theorem claimed_of_started {addr : Nat} {bytes : BitVec 32}
    (hphase : s.ring.phase d = .started addr bytes) : s.ring.claimed d = s.ring.total d := by
  simp [Ring.claimed, hphase, Phase.unpublished]

variable (h : StreamInv A s)
include h

/-- The next data access of a round goes to the cell numbered by the bytes moved. -/
theorem cellOf_moved {addr : Nat} {bytes : BitVec 32}
    (hphase : s.ring.phase d = .started addr bytes) (hmoved : (s.moved d : Int) < bytes.toInt) :
    A.cellOf d (addr + s.moved d) = s.moved d := by
  have hbytes := h.ring.bytes_le hphase
  rw [(h.ring.started_eq hphase).1, Attachment.cellOf, Nat.add_sub_cancel_left]
  exact Nat.mod_eq_of_lt (by omega)

/-- A step of the counter system that claims no bytes, by a process that has moved
none in its round, keeps the stream invariant. -/
theorem ringStep {a : RingAct} {r : Ring} (hclaims : ∀ e, a.claims e = 0)
    (hmoved : s.moved a.side = 0) (hr : s.ring.step A a = some r) :
    StreamInv A { s with ring := r } := by
  have hmove := h.ring.move hr
  have hclaimed : ∀ e, r.claimed e = s.ring.claimed e := by
    intro e
    rw [hmove.claimed e, hclaims e, Nat.add_zero]
  have hframe : ∀ e, s.moved e ≠ 0 → r.phase e = s.ring.phase e ∧ r.total e = s.ring.total e := by
    intro e he
    refine hmove.frame ?_
    intro heq
    rw [heq] at he
    exact he hmoved
  exact
    { ring := h.ring.step hr
      stored_length := by rw [hclaimed]; exact h.stored_length
      loaded_length := by rw [hclaimed]; exact h.loaded_length
      moved_started := by
        intro d hd
        obtain ⟨addr, bytes, hphase⟩ := h.moved_started d hd
        exact ⟨addr, bytes, (hframe d hd).1.trans hphase⟩
      base_current := by
        intro hd
        rw [h.base_current hd, (hframe _ hd).2]
      front := h.front
      fifo := h.fifo }

/-- A process that is inside one of its calls has moved no bytes in its round. -/
theorem moved_eq_zero (hphase : ∀ addr bytes, s.ring.phase d ≠ .started addr bytes) :
    s.moved d = 0 := by
  by_contra hne
  obtain ⟨addr, bytes, heq⟩ := h.moved_started d hne
  exact hphase addr bytes heq

/-- The writer's store extends the stream and the front of the window together. -/
theorem storeByte {b : UInt8} (ht : s.step A (.storeByte b) = some t) : StreamInv A t := by
  simp only [Stream.step] at ht
  split at ht
  next addr bytes hphase =>
    split at ht
    next hmoved =>
      cases ht
      have hcell := h.cellOf_moved hphase hmoved
      have hlen : s.stored.length = s.ring.total .writer + s.moved .writer := by
        rw [h.stored_length, claimed_of_started hphase]
      rw [hcell]
      refine
        { ring := h.ring
          stored_length := ?_
          loaded_length := ?_
          moved_started := ?_
          base_current := ?_
          front := ?_
          fifo := h.fifo.trans (List.prefix_append _ _) }
      · simp [h.stored_length]
        omega
      · simpa using h.loaded_length
      · intro d hd
        by_cases hw : d = .writer
        · subst hw
          exact ⟨addr, bytes, hphase⟩
        · exact h.moved_started d (by simpa [update_of_ne hw] using hd)
      · intro _
        by_cases hzero : s.moved .writer = 0
        · simp [hzero]
        · simpa [hzero] using h.base_current hzero
      · -- the base is the writer's total, so the new byte sits at offset `moved`
        intro base hbase o ho
        have hbase' : base = s.ring.total .writer := by
          by_cases hzero : s.moved .writer = 0
          · simpa [hzero, eq_comm] using hbase
          · have hcur := h.base_current hzero
            simpa [hzero, hcur, eq_comm] using hbase
        subst hbase'
        simp only [List.length_append, List.length_singleton] at ho
        by_cases hlast : o = s.moved .writer
        · subst hlast
          rw [← hlen]
          simp
        · have hlt : s.ring.total .writer + o < s.stored.length := by omega
          have hzero : s.moved .writer ≠ 0 := by omega
          rw [List.getElem?_append_left hlt]
          simpa [update_of_ne hlast] using h.front _ (h.base_current hzero) o hlt
    next => cases ht
  next => cases ht

/-- The reader's load in lock step delivers the next byte of the stream. -/
theorem loadByte (hok : LockStep s .loadByte) (ht : s.step A .loadByte = some t) :
    StreamInv A t := by
  simp only [Stream.step] at ht
  split at ht
  next addr bytes hphase =>
    split at ht
    next hmoved =>
      cases ht
      have hcell := h.cellOf_moved hphase hmoved
      have hlen : s.loaded.length = s.ring.total .reader + s.moved .reader := by
        rw [h.loaded_length, claimed_of_started hphase]
      -- the amount granted is published, hence stored
      have hpublished : s.ring.total .reader + s.moved .reader < s.stored.length := by
        have hgrant := (h.ring.started_eq hphase).2
        have hseen := h.ring.seen_le .reader
        have hstored := h.stored_length
        simp only [Side.lead, Side.other, Ring.claimed] at hgrant hseen hstored
        omega
      have hbyte : s.stored[s.loaded.length]? = some (s.cell (s.moved .reader)) := by
        rw [hlen]
        exact h.front _ hok _ hpublished
      rw [hcell]
      refine
        { ring := h.ring
          stored_length := ?_
          loaded_length := ?_
          moved_started := ?_
          base_current := ?_
          front := h.front
          fifo := ?_ }
      · simpa using h.stored_length
      · simp [h.loaded_length]
        omega
      · intro d hd
        by_cases hr : d = .reader
        · subst hr
          exact ⟨addr, bytes, hphase⟩
        · exact h.moved_started d (by simpa [update_of_ne hr] using hd)
      · intro hd
        exact h.base_current (by simpa using hd)
      · obtain ⟨rest, hrest⟩ := h.fifo
        rw [← hrest] at hbyte ⊢
        rw [List.getElem?_append_right le_rfl, Nat.sub_self] at hbyte
        cases rest with
        | nil => simp at hbyte
        | cons c rest =>
          simp only [List.getElem?_cons_zero, Option.some.injEq] at hbyte
          subst hbyte
          exact ⟨rest, by simp⟩
    next => cases ht
  next => cases ht

/-- A finish call hands its round's bytes over to the counter system. -/
theorem finish (ht : s.step A (.finish d) = some t) : StreamInv A t := by
  simp only [Stream.step, Option.map_eq_some_iff] at ht
  obtain ⟨r, hr, rfl⟩ := ht
  have hmove := h.ring.move hr
  have hclaimed : ∀ e, r.claimed e + update s.moved d 0 e = s.ring.claimed e + s.moved e := by
    intro e
    rw [hmove.claimed e]
    by_cases he : e = d
    · subst he
      simp [RingAct.claims]
    · simp [RingAct.claims, he]
  have hframe : ∀ e, update s.moved d 0 e ≠ 0 → s.moved e ≠ 0 ∧
      r.phase e = s.ring.phase e ∧ r.total e = s.ring.total e := by
    intro e he
    have hne : e ≠ d := by
      rintro rfl
      simp at he
    exact ⟨by simpa [update_of_ne hne] using he, hmove.frame hne⟩
  exact
    { ring := h.ring.step hr
      stored_length := by rw [hclaimed]; exact h.stored_length
      loaded_length := by rw [hclaimed]; exact h.loaded_length
      moved_started := by
        intro e he
        obtain ⟨hmoved, hphase, -⟩ := hframe e he
        obtain ⟨addr, bytes, hstarted⟩ := h.moved_started e hmoved
        exact ⟨addr, bytes, hphase.trans hstarted⟩
      base_current := by
        intro he
        obtain ⟨hmoved, -, htotal⟩ := hframe _ he
        rw [h.base_current hmoved, htotal]
      front := h.front
      fifo := h.fifo }

/-- Every step that keeps the lock step keeps the stream invariant. -/
theorem step {a : StreamAct} (hok : LockStep s a) (ht : s.step A a = some t) : StreamInv A t := by
  cases a with
  | start d =>
    simp only [Stream.step] at ht
    split at ht
    next hmoved =>
      obtain ⟨r, hr, rfl⟩ := Option.map_eq_some_iff.mp ht
      exact h.ringStep (a := .start d) (fun _ => rfl) hmoved hr
    next => cases ht
  | access d =>
    obtain ⟨r, hr, rfl⟩ := Option.map_eq_some_iff.mp ht
    refine h.ringStep (fun _ => rfl) (h.moved_eq_zero ?_) hr
    intro addr bytes hphase
    simp only [RingAct.side] at hphase
    simp [Ring.step, hphase] at hr
  | ret d =>
    obtain ⟨r, hr, rfl⟩ := Option.map_eq_some_iff.mp ht
    refine h.ringStep (fun _ => rfl) (h.moved_eq_zero ?_) hr
    intro addr bytes hphase
    simp only [RingAct.side] at hphase
    simp [Ring.step, hphase] at hr
  | storeByte b => exact h.storeByte ht
  | loadByte => exact h.loadByte hok ht
  | finish d => exact h.finish ht

end StreamInv

/-- FIFO delivery in lock step: on every interleaving of any number of rounds of any
sizes in which each byte is loaded while the latest non-empty writer round is the one
that begins at the reader's total, the bytes loaded are a prefix of the bytes stored. -/
theorem fifo_of_lockstep (A : Attachment) (cell : Nat → UInt8) {l : List StreamAct} {s : Stream}
    (hrun : Run (Guarded LockStep (StepOf (Stream.step A))) (Stream.init cell) l s) :
    s.loaded <+: s.stored :=
  (hrun.invariant_guarded (fun hu hok hstep => hu.step hok hstep) (StreamInv.init A cell)).fifo

/-- One writer round that publishes the given bytes. -/
def writeRound (bytes : List UInt8) : List StreamAct :=
  [.start .writer, .access .writer, .access .writer, .ret .writer] ++
    bytes.map .storeByte ++ [.finish .writer, .access .writer, .access .writer, .ret .writer]

/-- One reader round that takes `count` bytes. -/
def readRound (count : Nat) : List StreamAct :=
  [.start .reader, .access .reader, .access .reader, .ret .reader] ++
    List.replicate count .loadByte ++
      [.finish .reader, .access .reader, .access .reader, .ret .reader]

instance (s : Stream) : (a : StreamAct) → Decidable (LockStep s a)
  | .loadByte => inferInstanceAs (Decidable (_ = _))
  | .start _ | .access _ | .ret _ | .storeByte _ | .finish _ => isTrue trivial

/-- Two rounds in lock step: the reader receives what was written. -/
theorem fifo_of_lockstep_two_rounds :
    ∃ s, Run (Guarded LockStep (StepOf (Stream.step byeAttachment))) (Stream.init fun _ => 5)
        (writeRound [97, 98] ++ readRound 2 ++ writeRound [99] ++ readRound 1) s ∧
      s.loaded = [97, 98, 99] ∧ s.loaded <+: s.stored := by
  have hexec : (exec (guardStep LockStep (Stream.step byeAttachment)) (Stream.init fun _ => 5)
      (writeRound [97, 98] ++ readRound 2 ++ writeRound [99] ++ readRound 1)).map
        (fun s => s.loaded) = some [97, 98, 99] := by
    decide +kernel
  obtain ⟨s, hs, hloaded⟩ := Option.map_eq_some_iff.mp hexec
  exact ⟨s, run_guarded_of_exec hs, hloaded,
    fifo_of_lockstep byeAttachment _ (run_guarded_of_exec hs)⟩

/-- Two writer rounds of one byte each before the reader takes one byte: the second
round overwrote the first, and the reader receives the second byte. -/
theorem overwritten_round_breaks_fifo :
    ¬ ∀ (A : Attachment) (cell : Nat → UInt8) (l : List StreamAct) (s : Stream),
      Run (StepOf (Stream.step A)) (Stream.init cell) l s → s.loaded <+: s.stored := by
  intro hall
  have hrun : (exec (Stream.step byeAttachment) (Stream.init fun _ => 0)
      (writeRound [97] ++ writeRound [98] ++ readRound 1)).map
        (fun s => (s.loaded, s.stored)) = some ([98], [97, 98]) := by
    decide +kernel
  obtain ⟨s, hexec, hbytes⟩ := Option.map_eq_some_iff.mp hrun
  have hprefix := hall _ _ _ s (run_of_exec hexec)
  simp only [Prod.mk.injEq] at hbytes
  rw [hbytes.1, hbytes.2] at hprefix
  revert hprefix
  decide

end User
end FastIpc
