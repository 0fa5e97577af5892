import FastIpc.User.Counters

/-!
# Creating the two ends of a ring

When two processes create the two ends of a fresh ring, the kernel returns 1 to one
of them and 0 to the other, and both windows are mapped before either call returns.
The process that got 1 then zeroes the book from user code.  This module interleaves
the rest of the two creations with the calls that follow them, from a book page of
arbitrary contents.

Ghost fields record which counters have been zeroed, what each start call loaded
against the true total at that moment, and how often each side published.

Main results:

- Theorem `early_start_loads_garbage`: a peer may start too early.
- Theorem `creation_keeps_updates`: when no update is erased.
-/

namespace FastIpc
namespace User

open Foundation
open Function (update update_of_ne update_self)

/-- The side that advances a counter. -/
def Counter.side : Counter → Side
  | .readDone => .reader
  | .writeDone => .writer

@[simp]
theorem Counter.own_side (x : Counter) : x.side.own = x := by
  cases x <;> rfl

@[simp]
theorem Side.side_own (d : Side) : d.own.side = d := by
  cases d <;> rfl

/-- What the kernel handed to the two processes that created a ring. -/
structure Creators where
  creator : Side
  name : List UInt8
  ringbuf : Side → Nat
  table : Side → UserTable

/-- The value `createbuf` returned to one side. -/
def Creators.existed (C : Creators) (d : Side) : Int := if d = C.creator then 1 else 0

/-- Where one process is: inside `createRingBuf`, without a descriptor, or using one. -/
inductive MemberPhase where
  | creating (rest : BookProg (Int × UserTable))
  | refused
  | idle
  | starting (rest : BookProg StartResult)
  | started (bytes : BitVec 32)
  | finishing (count : Nat) (rest : BookProg FinishResult)
  | exited

/-- One value loaded by a start call, with the true total at that moment. -/
structure LoadRecord where
  counter : Counter
  value : BitVec 64
  total : Nat
  deriving DecidableEq

/-- The shared book, both processes with their descriptor tables, and the ghosts. -/
structure Creation where
  book : Counter → BitVec 64
  table : Side → UserTable
  rd : Side → Int
  phase : Side → MemberPhase
  zeroed : Counter → Bool
  total : Side → Nat
  published : Side → Nat
  loads : List LoadRecord

/-- Both system calls have returned; the book page holds arbitrary bytes. -/
def Creation.init (C : Creators) (book : Counter → BitVec 64) : Creation where
  book := book
  table := C.table
  rd := fun _ => -1
  phase := fun d => .creating (createRingBuf (C.table d) C.name (C.existed d) (C.ringbuf d))
  zeroed := fun _ => false
  total := fun _ => 0
  published := fun _ => 0
  loads := []

namespace Creation

/-- The start call of one side with its present table and descriptor. -/
def startProg (s : Creation) : Side → BookProg StartResult
  | .writer => ringbufStartWrite (s.table .writer) (s.rd .writer)
  | .reader => ringbufStartRead (s.table .reader) (s.rd .reader)

/-- The finish call of one side with its present table and descriptor. -/
def finishProg (s : Creation) (d : Side) (bytes : BitVec 32) : BookProg FinishResult :=
  finishWith d.own (s.table d) (s.rd d) bytes

/-- Replace one side's phase. -/
def setPhase (s : Creation) (d : Side) (ph : MemberPhase) : Creation :=
  { s with phase := update s.phase d ph }

/-- One access of the creation call; its stores zero the counters. -/
def createAccess (s : Creation) (d : Side) : BookProg (Int × UserTable) → Option Creation
  | .ret _ => none
  | .load x next => some (s.setPhase d (.creating (next (s.book x))))
  | .store x v next =>
    some { s.setPhase d (.creating next) with
      book := update s.book x v
      zeroed := update s.zeroed x true }

/-- One access of a start call; every load is recorded with the true total. -/
def startAccess (s : Creation) (d : Side) : BookProg StartResult → Option Creation
  | .ret _ => none
  | .load x next =>
    some { s.setPhase d (.starting (next (s.book x))) with
      loads := s.loads ++ [⟨x, s.book x, s.total x.side⟩] }
  | .store x v next => some { s.setPhase d (.starting next) with book := update s.book x v }

/-- One access of a finish call; its store publishes `count` bytes. -/
def finishAccess (s : Creation) (d : Side) (count : Nat) : BookProg FinishResult → Option Creation
  | .ret _ => none
  | .load x next => some (s.setPhase d (.finishing count (next (s.book x))))
  | .store x v next =>
    some { s.setPhase d (.finishing count next) with
      book := update s.book x v
      total := update s.total d (s.total d + count)
      published := update s.published d (s.published d + 1) }

/-- One step of one process. -/
def step (s : Creation) : RingAct → Option Creation
  | .start d =>
    match s.phase d with
    | .idle => some (s.setPhase d (.starting (s.startProg d)))
    | .started _ => some (s.setPhase d (.starting (s.startProg d)))
    | _ => none
  | .access d =>
    match s.phase d with
    | .creating p => s.createAccess d p
    | .starting p => s.startAccess d p
    | .finishing count p => s.finishAccess d count p
    | _ => none
  | .ret d =>
    match s.phase d with
    | .creating (.ret (rd, t)) =>
      if rd < 0 then some (s.setPhase d .refused)
      else some { s.setPhase d .idle with
        table := update s.table d t
        rd := update s.rd d rd }
    | .starting (.ret (.granted _ bytes)) => some (s.setPhase d (.started bytes))
    | .starting (.ret .exited) => some (s.setPhase d .exited)
    | .starting (.ret _) => some (s.setPhase d .idle)
    | .finishing _ (.ret _) => some (s.setPhase d .idle)
    | _ => none
  | .finish d count =>
    match s.phase d with
    | .started bytes =>
      if (count : Int) ≤ bytes.toInt then
        some (s.setPhase d (.finishing count (s.finishProg d (BitVec.ofNat 32 count))))
      else none
    | _ => none

end Creation

/-! ## The law and the condition under which it holds -/

/-- No update is lost: every start call loaded exact totals, and the book shows the
total of every side that has published. -/
structure NoLostUpdate (s : Creation) : Prop where
  loads_exact : ∀ r ∈ s.loads, r.value = encode r.total
  not_erased : ∀ d : Side, 0 < s.published d → s.book d.own = encode (s.total d)

/-- The counter that the next access of a start or finish call touches. -/
def MemberPhase.target : MemberPhase → Option Counter
  | .starting (.load x _) => some x
  | .starting (.store x _ _) => some x
  | .finishing _ (.load x _) => some x
  | .finishing _ (.store x _ _) => some x
  | _ => none

/-- The condition on one step: a start or finish call touches a counter only after
the creating process has zeroed it. -/
def AfterZeroing (s : Creation) : RingAct → Prop
  | .access d => ∀ x, (s.phase d).target = some x → s.zeroed x = true
  | _ => True

/-! ## Shapes of the calls -/

theorem startWith_loadOnly (amount : BitVec 64 → BitVec 64 → BitVec 64) (t : UserTable)
    (rd : Int) : (startWith amount t rd).LoadOnly := by
  cases hlook : lookup t rd with
  | invalid =>
    simp only [startWith, hlook]
    exact .ret _
  | outOfBounds =>
    simp only [startWith, hlook]
    exact .ret _
  | live entry =>
    rw [startWith_live hlook]
    exact .load fun _ => .load fun _ => .ret _

/-- A finish call returns at once or advances its counter by one load and one store. -/
theorem finishWith_shape (x : Counter) (t : UserTable) (rd : Int) (bytes : BitVec 32) :
    (∃ r, finishWith x t rd bytes = .ret r) ∨ finishWith x t rd bytes = .load x fun v =>
        .store x (widen (narrow (widen (narrow v) + widen bytes))) (.ret .done) := by
  cases hlook : lookup t rd with
  | invalid => exact .inl ⟨.invalid, by simp [finishWith, hlook]⟩
  | outOfBounds => exact .inl ⟨.outOfBounds, by simp [finishWith, hlook]⟩
  | live entry => exact .inr (finishWith_live hlook bytes)

/-- The process that attached to an existing ring performs no access on creation. -/
theorem createRingBuf_attached (t : UserTable) (name : List UInt8) (ringbuf : Nat) :
    ∃ r, createRingBuf t name 0 ringbuf = .ret r := by
  unfold createRingBuf
  split
  · exact ⟨_, rfl⟩
  · split
    · exact ⟨_, rfl⟩
    · split
      · exact ⟨_, rfl⟩
      · exact ⟨_, rfl⟩

/-- The process that made the ring zeroes `read_done`, then `write_done`. -/
theorem createRingBuf_made (t : UserTable) (name : List UInt8) (ringbuf : Nat) :
    (∃ r, createRingBuf t name 1 ringbuf = .ret r) ∨ ∃ r, createRingBuf t name 1 ringbuf =
        .store .readDone 0 (.store .writeDone 0 (.ret r)) := by
  unfold createRingBuf
  split
  · exact .inl ⟨_, rfl⟩
  · split
    · exact .inl ⟨_, rfl⟩
    · split
      · exact .inl ⟨_, rfl⟩
      · exact .inr ⟨_, rfl⟩

/-! ## The invariant -/

/-- What the phase of one side guarantees, given what has been zeroed and the side's
own total. -/
def MemberOk (C : Creators) (zeroed : Counter → Bool) (d : Side) (total : Nat) :
    MemberPhase → Prop
  | .creating p =>
    (∃ r, p = .ret r) ∨
    (d = C.creator ∧ ∃ r, p = .store .readDone 0 (.store .writeDone 0 (.ret r)) ∧
      zeroed .readDone = false ∧ zeroed .writeDone = false) ∨
    (d = C.creator ∧ ∃ r, p = .store .writeDone 0 (.ret r) ∧ zeroed .writeDone = false)
  | .starting p => p.LoadOnly
  | .finishing count p =>
    (∃ r, p = .ret r) ∨ (p = .load d.own fun v =>
      .store d.own (widen (narrow (widen (narrow v) + widen (BitVec.ofNat 32 count))))
        (.ret .done)) ∨
    (p = .store d.own (encode (total + count)) (.ret .done) ∧ zeroed d.own = true)
  | _ => True

/-- A zeroed counter encodes its true total; an untouched one has none. -/
structure CreationInv (C : Creators) (s : Creation) : Prop where
  zeroed_book : ∀ x : Counter, s.zeroed x = true → s.book x = encode (s.total x.side)
  fresh : ∀ x : Counter, s.zeroed x = false → s.total x.side = 0 ∧ s.published x.side = 0
  phase_ok : ∀ d : Side, MemberOk C s.zeroed d (s.total d) (s.phase d)
  loads_exact : ∀ r ∈ s.loads, r.value = encode r.total

namespace CreationInv

variable {C : Creators} {s t : Creation}

/-- Nothing has been zeroed or published when the system calls have returned. -/
theorem init (C : Creators) (book : Counter → BitVec 64) :
    CreationInv C (Creation.init C book) where
  zeroed_book := by
    intro x hx
    cases hx
  fresh := fun _ _ => ⟨rfl, rfl⟩
  phase_ok := by
    intro d
    show MemberOk C _ d _ (.creating (createRingBuf (C.table d) C.name (C.existed d) (C.ringbuf d)))
    by_cases hd : d = C.creator
    · have hone : C.existed d = 1 := if_pos hd
      rw [hone]
      rcases createRingBuf_made (C.table d) C.name (C.ringbuf d) with h | ⟨r, h⟩
      · exact .inl h
      · exact .inr (.inl ⟨hd, r, h, rfl, rfl⟩)
    · have hzero : C.existed d = 0 := if_neg hd
      rw [hzero]
      exact .inl (createRingBuf_attached _ _ _)
  loads_exact := by
    intro r hr
    cases hr

theorem noLostUpdate (h : CreationInv C s) : NoLostUpdate s where
  loads_exact := h.loads_exact
  not_erased := by
    intro d hd
    cases hz : s.zeroed d.own with
    | true => simpa using h.zeroed_book d.own hz
    | false =>
      have hfresh := (h.fresh d.own hz).2
      rw [Side.side_own] at hfresh
      omega

variable {d : Side}

/-- Changing only one side's phase keeps the invariant if the new phase is fine. -/
theorem setPhase (h : CreationInv C s) {ph : MemberPhase}
    (hph : MemberOk C s.zeroed d (s.total d) ph) : CreationInv C (s.setPhase d ph) where
  __ := h
  phase_ok := by
    intro e
    by_cases he : e = d
    · subst he
      simpa [Creation.setPhase] using hph
    · simpa [Creation.setPhase, update_of_ne he] using h.phase_ok e

/-- A phase other than the creator's stays fine when one more counter is zeroed. -/
theorem memberOk_zero {zeroed : Counter → Bool} {total : Nat} {ph : MemberPhase}
    (hd : d ≠ C.creator) (x : Counter) (h : MemberOk C zeroed d total ph) :
    MemberOk C (update zeroed x true) d total ph := by
  cases ph with
  | creating p =>
    rcases h with h | ⟨h, -⟩ | ⟨h, -⟩
    · exact .inl h
    · exact absurd h hd
    · exact absurd h hd
  | finishing count p =>
    rcases h with h | h | ⟨h, hz⟩
    · exact .inl h
    · exact .inr (.inl h)
    · refine .inr (.inr ⟨h, ?_⟩)
      by_cases hx : d.own = x
      · rw [hx, update_self]
      · rw [update_of_ne hx, hz]
  | starting p => exact h
  | refused => trivial
  | idle => trivial
  | started bytes => trivial
  | exited => trivial

variable (h : CreationInv C s)
include h

theorem zero {x : Counter} {p : BookProg (Int × UserTable)} (hx : s.zeroed x = false)
    (hp : MemberOk C (update s.zeroed x true) C.creator (s.total C.creator) (.creating p)) :
    CreationInv C { s.setPhase C.creator (.creating p) with
      book := update s.book x 0
      zeroed := update s.zeroed x true } where
  zeroed_book := by
    intro y hy
    by_cases hyx : y = x
    · subst hyx
      have htotal := (h.fresh y hx).1
      simp only [Creation.setPhase, update_self, htotal]
      decide
    · have hold : s.zeroed y = true := by simpa [update_of_ne hyx] using hy
      simpa [Creation.setPhase, update_of_ne hyx] using h.zeroed_book y hold
  fresh := by
    intro y hy
    by_cases hyx : y = x
    · subst hyx
      simp at hy
    · have hold : s.zeroed y = false := by simpa [update_of_ne hyx] using hy
      exact h.fresh y hold
  phase_ok := by
    intro e
    by_cases he : e = C.creator
    · subst he
      simpa [Creation.setPhase] using hp
    · simpa [Creation.setPhase, update_of_ne he] using memberOk_zero he x (h.phase_ok e)
  loads_exact := h.loads_exact

/-- The store of a finish call, after its counter was zeroed and loaded. -/
theorem publish (count : Nat) (hz : s.zeroed d.own = true) :
    CreationInv C { s.setPhase d (.finishing count (.ret .done)) with
      book := update s.book d.own (encode (s.total d + count))
      total := update s.total d (s.total d + count)
      published := update s.published d (s.published d + 1) } where
  zeroed_book := by
    intro x hx
    by_cases hown : x = d.own
    · subst hown
      simp
    · have hside : x.side ≠ d := by
        rintro rfl
        exact hown (Counter.own_side x).symm
      simpa [update_of_ne hown, update_of_ne hside] using h.zeroed_book x hx
  fresh := by
    intro x hx
    have hside : x.side ≠ d := by
      rintro rfl
      rw [Counter.own_side] at hz
      rw [Creation.setPhase] at hx
      simp_all
    simpa [update_of_ne hside] using h.fresh x hx
  phase_ok := by
    intro e
    by_cases he : e = d
    · subst he
      simp only [Creation.setPhase, update_self]
      exact .inl ⟨_, rfl⟩
    · simpa [Creation.setPhase, update_of_ne he] using h.phase_ok e
  loads_exact := h.loads_exact

theorem createAccess {p : BookProg (Int × UserTable)} (hphase : s.phase d = .creating p)
    (ht : s.createAccess d p = some t) : CreationInv C t := by
  have hp := h.phase_ok d
  rw [hphase] at hp
  rcases hp with ⟨r, rfl⟩ | ⟨rfl, r, rfl, hread, hwrite⟩ | ⟨rfl, r, rfl, hwrite⟩
  · simp [Creation.createAccess] at ht
  · simp only [Creation.createAccess, Option.some.injEq] at ht
    subst ht
    refine h.zero hread (.inr (.inr ⟨rfl, r, rfl, ?_⟩))
    simpa using hwrite
  · simp only [Creation.createAccess, Option.some.injEq] at ht
    subst ht
    exact h.zero hwrite (.inl ⟨r, rfl⟩)

theorem startAccess {p : BookProg StartResult} (hphase : s.phase d = .starting p)
    (hok : ∀ x, (s.phase d).target = some x → s.zeroed x = true) (ht : s.startAccess d p = some t) :
    CreationInv C t := by
  have hp := h.phase_ok d
  rw [hphase] at hp hok
  cases hp with
  | ret r => simp [Creation.startAccess] at ht
  | @load x next hnext =>
    simp only [Creation.startAccess, Option.some.injEq] at ht
    subst ht
    have hbook := h.zeroed_book x (hok x rfl)
    have hset : CreationInv C (s.setPhase d (.starting (next (s.book x)))) := h.setPhase (hnext _)
    refine ⟨hset.zeroed_book, hset.fresh, hset.phase_ok, ?_⟩
    intro r hr
    rcases List.mem_append.mp hr with hr | hr
    · exact h.loads_exact r hr
    · rw [List.mem_singleton] at hr
      subst hr
      exact hbook

theorem finishAccess {count : Nat} {p : BookProg FinishResult}
    (hphase : s.phase d = .finishing count p)
    (hok : ∀ x, (s.phase d).target = some x → s.zeroed x = true)
    (ht : s.finishAccess d count p = some t) : CreationInv C t := by
  have hp := h.phase_ok d
  rw [hphase] at hp hok
  rcases hp with ⟨r, rfl⟩ | rfl | ⟨rfl, hz⟩
  · simp [Creation.finishAccess] at ht
  · have hz : s.zeroed d.own = true := hok d.own rfl
    have hbook : s.book d.own = encode (s.total d) := by simpa using h.zeroed_book d.own hz
    simp only [Creation.finishAccess, Option.some.injEq, hbook, widen_narrow_encode,
      encode_add] at ht
    subst ht
    exact h.setPhase (.inr (.inr ⟨rfl, hz⟩))
  · simp only [Creation.finishAccess, Option.some.injEq] at ht
    subst ht
    exact h.publish count hz

/-- Returning from a call touches neither the book nor the totals. -/
theorem ret (ht : s.step (.ret d) = some t) : CreationInv C t := by
  have hidle : CreationInv C (s.setPhase d .idle) := h.setPhase trivial
  simp only [Creation.step] at ht
  split at ht
  next rd tbl hphase =>
    split at ht
    next =>
      cases ht
      exact h.setPhase trivial
    next =>
      cases ht
      exact ⟨hidle.zeroed_book, hidle.fresh, hidle.phase_ok, hidle.loads_exact⟩
  next =>
    cases ht
    exact h.setPhase trivial
  next =>
    cases ht
    exact h.setPhase trivial
  next =>
    cases ht
    exact hidle
  next =>
    cases ht
    exact hidle
  next => cases ht

/-- Every step that touches only zeroed counters keeps the invariant. -/
theorem step {a : RingAct} (hok : AfterZeroing s a) (ht : s.step a = some t) : CreationInv C t := by
  cases a with
  | start d =>
    have hstart : MemberOk C s.zeroed d (s.total d) (.starting (s.startProg d)) := by
      cases d with
      | writer =>
        simp only [Creation.startProg, ringbufStartWrite]
        exact startWith_loadOnly _ _ _
      | reader =>
        simp only [Creation.startProg, ringbufStartRead]
        exact startWith_loadOnly _ _ _
    simp only [Creation.step] at ht
    split at ht
    · cases ht
      exact h.setPhase hstart
    · cases ht
      exact h.setPhase hstart
    · cases ht
  | access d =>
    simp only [Creation.step] at ht
    split at ht
    next p hphase => exact h.createAccess hphase ht
    next p hphase => exact h.startAccess hphase hok ht
    next count p hphase => exact h.finishAccess hphase hok ht
    next => cases ht
  | ret d => exact h.ret ht
  | finish d count =>
    simp only [Creation.step] at ht
    split at ht
    next bytes hphase =>
      split at ht
      next =>
        cases ht
        refine h.setPhase ?_
        rcases finishWith_shape d.own (s.table d) (s.rd d) (BitVec.ofNat 32 count) with hf | hf
        · exact .inl hf
        · exact .inr (.inl hf)
      next => cases ht
    next => cases ht

end CreationInv

/-- Creation loses no update in order: on every interleaving of the two creations and
the calls that follow in which no start or finish call touches a counter before the
creating process zeroed it, every start call loads exact totals and no published
update is ever erased. -/
theorem creation_keeps_updates (C : Creators) (book : Counter → BitVec 64) {l : List RingAct}
    {s : Creation}
    (hrun : Run (Guarded AfterZeroing (StepOf Creation.step)) (Creation.init C book) l s) :
    NoLostUpdate s :=
  (hrun.invariant_guarded (fun hu hok hstep => hu.step hok hstep)
    (CreationInv.init C book)).noLostUpdate

/-- Two processes with empty descriptor tables creating the ring `Bye`; the writer
made it. -/
def byeCreators : Creators where
  creator := .writer
  name := [66, 121, 101]
  ringbuf := fun _ => 274876506112
  table := fun _ _ => ⟨0, 0, 0, []⟩

instance (s : Creation) : (a : RingAct) → Decidable (AfterZeroing s a)
  | .access d =>
    match h : (s.phase d).target with
    | none => isTrue (by intro x hx; rw [h] at hx; cases hx)
    | some y =>
      if hz : s.zeroed y = true then
        isTrue (by intro x hx; rw [h] at hx; cases hx; exact hz)
      else isFalse (fun hall => hz (hall y h))
  | .start _ | .ret _ | .finish _ _ => isTrue trivial

/-- The creator finishes first, then the peer starts a reader round. -/
theorem creation_keeps_updates_in_order :
    ∃ s, Run (Guarded AfterZeroing (StepOf Creation.step))
        (Creation.init byeCreators fun _ => 0x0505050505050505)
        [.access .writer, .access .writer, .ret .writer, .ret .reader, .start .reader,
          .access .reader, .access .reader, .ret .reader] s ∧
      s.loads = [⟨.readDone, 0, 0⟩, ⟨.writeDone, 0, 0⟩] ∧ NoLostUpdate s := by
  have hexec : (exec (guardStep AfterZeroing Creation.step)
      (Creation.init byeCreators fun _ => 0x0505050505050505)
      [.access .writer, .access .writer, .ret .writer, .ret .reader, .start .reader,
        .access .reader, .access .reader, .ret .reader]).map (fun s => s.loads) =
      some [⟨.readDone, 0, 0⟩, ⟨.writeDone, 0, 0⟩] := by
    decide +kernel
  obtain ⟨s, hs, hloads⟩ := Option.map_eq_some_iff.mp hexec
  exact ⟨s, run_guarded_of_exec hs, hloads, creation_keeps_updates _ _ (run_guarded_of_exec hs)⟩

/-- A peer that starts before the zeroing stores loads what the allocator left in the
book page. -/
theorem early_start_loads_garbage :
    ¬ ∀ (C : Creators) (book : Counter → BitVec 64) (l : List RingAct) (s : Creation),
      Run (StepOf Creation.step) (Creation.init C book) l s → NoLostUpdate s := by
  intro hall
  have hexec : (exec Creation.step (Creation.init byeCreators fun _ => 0x0505050505050505)
      [.ret .reader, .start .reader, .access .reader]).map (fun s => s.loads) =
      some [⟨.readDone, 0x0505050505050505, 0⟩] := by
    decide +kernel
  obtain ⟨s, hs, hloads⟩ := Option.map_eq_some_iff.mp hexec
  have hlaw := (hall _ _ _ s (run_of_exec hs)).loads_exact
  rw [hloads] at hlaw
  have hvalue := hlaw _ (List.mem_singleton.mpr rfl)
  revert hvalue
  decide

end User
end FastIpc
