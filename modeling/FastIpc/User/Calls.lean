import FastIpc.Foundation.AtomicProgram
import FastIpc.Foundation.SignedWord
import Mathlib.Data.List.FinRange

/-!
# The user-level ring buffer library

The functions of `user/fastipc.h`, translated access by access.  The book page
of a ring holds two 64-bit counters that both attached processes load and store
atomically; everything else a call touches is private to its process.  A call is
therefore a `Prog` over the two counters, and an interleaving of calls is an
interleaving of their accesses.

The descriptor test of the source compares `rd` with the table size in one
direction only, so a descriptor may also fall outside the table; the model keeps
that outcome apart from a refused one.

Main results:

- Theorem `startWith_live`: the accesses of a start call.
- Theorem `finishWith_live`: the accesses of a finish call.
-/

namespace FastIpc
namespace User

open Foundation

/-- Number of entries of `user_ring_bufs`. -/
def maxRingbufs : Nat := 10

/-- `BUF_SIZE`: the bytes of one ring. -/
def bufSize : Nat := 65536

/-- `BOOKOFFSET`: distance of the book page from the window's first byte. -/
def bookOffset : Nat := 131072

/-- The two counters of `struct book`. -/
inductive Counter where
  | readDone
  | writeDone
  deriving DecidableEq, Repr

/-- A call running against the shared book. -/
abbrev BookProg (α : Type) := Prog Counter (BitVec 64) α

/-- One entry of `user_ring_bufs`. -/
structure UserRingBuf where
  buf : Nat
  book : Nat
  existsFlag : Int
  name : List UInt8
  deriving DecidableEq, Repr

/-- The descriptor table of one process. -/
abbrev UserTable := Fin maxRingbufs → UserRingBuf

/-- `store`: the value arrives as `int` and is widened to the counter. -/
def store (x : Counter) (v : BitVec 32) : BookProg Unit := .store x (widen v) (.ret ())

/-- `load`: the counter is narrowed to the `int` result. -/
def load (x : Counter) : BookProg (BitVec 32) := .load x fun v => .ret (narrow v)

/-! ## Descriptors -/

/-- What the test `(rd > MAX_RINGBUFS) || (user_ring_bufs[rd].exists != 1)` finds. -/
inductive Lookup where
  | invalid
  | outOfBounds
  | live (entry : UserRingBuf)
  deriving DecidableEq

/-- The descriptor test shared by every call that takes `rd`. -/
def lookup (t : UserTable) (rd : Int) : Lookup :=
  if rd > maxRingbufs then .invalid
  else if h : 0 ≤ rd ∧ rd.toNat < maxRingbufs then
    if (t ⟨rd.toNat, h.2⟩).existsFlag ≠ 1 then .invalid else .live (t ⟨rd.toNat, h.2⟩)
  else .outOfBounds

/-! ## Starting and finishing a round -/

/-- Outcome of `ringbuf_start_write` and `ringbuf_start_read`. -/
inductive StartResult where
  | invalid
  | outOfBounds
  | exited
  | granted (addr : Nat) (bytes : BitVec 32)
  deriving DecidableEq

/-- Outcome of `ringbuf_finish_write` and `ringbuf_finish_read`. -/
inductive FinishResult where
  | invalid
  | outOfBounds
  | done
  deriving DecidableEq

/-- The body shared by the two start calls; `amount read write` is what `*bytes`
is computed from. -/
def startWith (amount : BitVec 64 → BitVec 64 → BitVec 64) (t : UserTable) (rd : Int) :
    BookProg StartResult :=
  match lookup t rd with
  | .invalid => pure .invalid
  | .outOfBounds => pure .outOfBounds
  | .live entry => do
    let read := widen (← load .readDone)
    let write := widen (← load .writeDone)
    -- the comparison of the source is between unsigned 64-bit values
    if BitVec.ofNat 64 bufSize - (write - read) < 0 then
      return .exited
    return .granted entry.buf (narrow (amount read write))

/-- `ringbuf_start_write`. -/
def ringbufStartWrite (t : UserTable) (rd : Int) : BookProg StartResult :=
  startWith (fun read write => BitVec.ofNat 64 bufSize - (write - read)) t rd

/-- `ringbuf_start_read`. -/
def ringbufStartRead (t : UserTable) (rd : Int) : BookProg StartResult :=
  startWith (fun read write => write - read) t rd

/-- The body shared by the two finish calls: advance one counter by `bytes`. -/
def finishWith (x : Counter) (t : UserTable) (rd : Int) (bytes : BitVec 32) :
    BookProg FinishResult :=
  match lookup t rd with
  | .invalid => pure .invalid
  | .outOfBounds => pure .outOfBounds
  | .live _ => do
    let done := widen (← load x)
    store x (narrow (done + widen bytes))
    return .done

/-- `ringbuf_finish_write`. -/
def ringbufFinishWrite (t : UserTable) (rd : Int) (bytes : BitVec 32) :
    BookProg FinishResult :=
  finishWith .writeDone t rd bytes

/-- `ringbuf_finish_read`. -/
def ringbufFinishRead (t : UserTable) (rd : Int) (bytes : BitVec 32) :
    BookProg FinishResult :=
  finishWith .readDone t rd bytes

/-- On a live descriptor a start call loads `read_done`, then `write_done`, and
returns the window's first byte; the exit branch is dead. -/
theorem startWith_live {amount : BitVec 64 → BitVec 64 → BitVec 64} {t : UserTable}
    {rd : Int} {entry : UserRingBuf} (h : lookup t rd = .live entry) :
    startWith amount t rd = .load .readDone fun r => .load .writeDone fun w =>
        .ret (.granted entry.buf (narrow (amount (widen (narrow r)) (widen (narrow w))))) := by
  have hdead : ∀ v : BitVec 64, ¬ v < 0 := fun v => BitVec.not_lt_zero
  simp only [startWith, h, load, Prog.load_bind, Prog.ret_bind, hdead, if_false, Prog.pure_eq]

/-- On a live descriptor a finish call loads its counter and stores it advanced. -/
theorem finishWith_live {x : Counter} {t : UserTable} {rd : Int} {entry : UserRingBuf}
    (h : lookup t rd = .live entry) (bytes : BitVec 32) :
    finishWith x t rd bytes =
      .load x fun v => .store x (widen (narrow (widen (narrow v) + widen bytes))) (.ret .done) := by
  simp only [finishWith, h, load, store, Prog.load_bind, Prog.ret_bind, Prog.store_bind,
    Prog.pure_eq]

/-! ## Creating a descriptor -/

/-- First entry of the table that the loop of `createRingBuf` accepts. -/
def freeEntry (t : UserTable) : Option (Fin maxRingbufs) :=
  (List.finRange maxRingbufs).find? fun i => (t i).existsFlag ≠ 1

/-- `createRingBuf`, after its `createbuf` system call returned `exists` and
stored `ringbuf`.

The `else` of the source guards the assignment of the `exists` field, because the
statement it was written for is commented out. -/
def createRingBuf (t : UserTable) (straddr : List UInt8) (existed : Int) (ringbuf : Nat) :
    BookProg (Int × UserTable) :=
  if existed = -1 then pure (-1, t)
  else if straddr.length > 16 then pure (-1, t)
  else match freeEntry t with
  | none => pure (-1, t)
  | some i => do
    let entry := { t i with buf := ringbuf, book := ringbuf + bookOffset }
    if existed ≠ 0 then
      store .readDone 0
      store .writeDone 0
      return ((i : Nat), Function.update t i { entry with name := straddr })
    else
      return ((i : Nat), Function.update t i { entry with existsFlag := 1, name := straddr })

end User
end FastIpc
