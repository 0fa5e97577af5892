import FastIpc.Foundation.CyclicQueue

/-!
# The console

The functions `consoleintr` and `consoleread` of `kernel/console.c`.  A process that
holds the lock of the console runs one round of the loop of `consoleread` per step; input
characters and the other processes come when the lock is free, and `kill` comes between any two
steps.  Whether `either_copyout` succeeds is part of the action.  The echo and the process list
go to the serial line and are left out.

On the side the model records the line discipline as a user sees it: the characters committed so far
and those that can still be edited, the characters that readers have removed, and the reads that have
returned.
-/

namespace FastIpc
namespace Console

open Foundation
open Function (update)

/-- The cells of the input buffer, `INPUT_BUF`. -/
abbrev inputBuf : Nat := 128

/-- The macro `C`: a control character. -/
def control (x : Char) : BitVec 8 := BitVec.ofNat 8 (x.toNat - '@'.toNat)

/-- The character `\n`. -/
def newline : BitVec 8 := 0x0a

/-- The variable `cons`, without its lock. -/
structure Cons where
  buf : Fin inputBuf → BitVec 8
  r : BitVec 32
  w : BitVec 32
  e : BitVec 32

namespace Cons

/-- The character that is read next. -/
def next (k : Cons) : BitVec 8 := k.buf (CyclicQueue.cell inputBuf k.r)

/-- The loop that kills a line, which makes at most `e - w` rounds; the edit index it ends
with. -/
def killLoop (buf : Fin inputBuf → BitVec 8) : Nat → BitVec 32 → BitVec 32
  | 0, e => e
  | n + 1, e =>
    if buf (CyclicQueue.cell inputBuf (e - 1)) ≠ newline then killLoop buf n (e - 1) else e

/-- Store a character at the edit index. -/
def store (k : Cons) (c : BitVec 8) : Cons :=
  { k with
    buf := update k.buf (CyclicQueue.cell inputBuf k.e) c
    e := k.e + 1 }

end Cons

/-! ## What a user sees -/

/-- The characters that can be read, from the first one on, and those typed since the last
commit. -/
structure Line where
  committed : List (BitVec 8)
  pending : List (BitVec 8)

/-- What a character does to the line if `removed` characters have been read: a control
character edits the pending ones; another one is pending, or commits them all.  It is ignored if
`INPUT_BUF` characters wait to be read or committed. -/
def Line.type (l : Line) (removed : Nat) (c : BitVec 8) : Line :=
  if c = control 'P' ∨ c = 0 then
    l
  else if c = control 'U' then
    { l with pending := [] }
  else if c = control 'H' ∨ c = 0x7f then
    { l with pending := l.pending.dropLast }
  else if removed + inputBuf ≤ (l.committed ++ l.pending).length then
    l
  else
    let c := if c = 0x0d then newline else c
    let typed := l.committed ++ l.pending ++ [c]
    if c = newline ∨ c = control 'D' ∨ typed.length = removed + inputBuf then
      ⟨typed, []⟩
    else
      { l with pending := l.pending ++ [c] }

/-! ## Processes -/

/-- Where a process is; `got` are the bytes it has copied out. -/
inductive Frame where
  /-- Outside of the console code, with the result of its last call. -/
  | user (result : Int)
  /-- At the head of the loop of `consoleread` for `n` bytes. -/
  | read (n : Int) (got : List (BitVec 8))
  | sleep (n : Int) (got : List (BitVec 8))

/-- A call of `consoleread` that has returned; `eof` tells that it has removed a
control-D. -/
structure Finished where
  got : List (BitVec 8)
  result : Int
  eof : Bool

/-- The console, who holds its lock, and the processes. -/
structure State (P : Type) where
  cons : Cons
  lock : Option P
  frame : P → Frame
  asleep : P → Bool
  killed : P → Bool
  line : Line
  removed : List (BitVec 8)
  reads : List Finished

variable {P : Type} [DecidableEq P]

namespace State

/-- `wakeup` for the address of the read index, the only one that processes sleep on. -/
def wakeup (s : State P) : State P := { s with asleep := fun _ => false }

/-- Release the lock and return. -/
def ret (s : State P) (p : P) (got : List (BitVec 8)) (result : Int) (eof : Bool) : State P :=
  { s with
    lock := none
    frame := update s.frame p (.user result)
    reads := s.reads ++ [⟨got, result, eof⟩] }

/-- `sleep`: release the lock and go to sleep. -/
def sleep (s : State P) (p : P) (frame : Frame) : State P :=
  { s with
    lock := none
    asleep := update s.asleep p true
    frame := update s.frame p frame }

/-- Acquire the lock. -/
def acquire (s : State P) (p : P) (frame : Frame) : State P :=
  { s with lock := some p, frame := update s.frame p frame }

/-- Remove a character. -/
def remove (s : State P) : State P :=
  { s with cons := { s.cons with r := s.cons.r + 1 }, removed := s.removed ++ [s.cons.next] }

end State

/-- One round of the loop of `consoleread`.  A control-D is put back if there are bytes to
return; a byte that cannot be copied out is lost. -/
def consoleread (s : State P) (p : P) (n : Int) (got : List (BitVec 8)) (copied : Bool) : State P :=
  if got.length < n then
    if s.cons.r = s.cons.w then
      if s.killed p then
        s.ret p got (-1) false
      else
        s.sleep p (.sleep n got)
    else
      let c := s.cons.next
      if c = control 'D' then
        if 0 < got.length then
          s.ret p got got.length false
        else
          s.remove.ret p got got.length true
      else if copied then
        let got := got ++ [c]
        if c = newline then
          s.remove.ret p got got.length false
        else
          { s.remove with frame := update s.frame p (.read n got) }
      else
        s.remove.ret p got got.length false
  else
    s.ret p got got.length false

/-- Handle an input character. -/
def consoleintr (s : State P) (c : BitVec 8) : State P :=
  if c = control 'P' then
    s
  else if c = control 'U' then
    { s with cons := { s.cons with
        e := Cons.killLoop s.cons.buf (s.cons.e - s.cons.w).toNat s.cons.e } }
  else if c = control 'H' ∨ c = 0x7f then
    if s.cons.e ≠ s.cons.w then
      { s with cons := { s.cons with e := s.cons.e - 1 } }
    else
      s
  else if c ≠ 0 ∧ s.cons.e - s.cons.r < BitVec.ofNat 32 inputBuf then
    let c := if c = 0x0d then newline else c
    let k := s.cons.store c
    if c = newline ∨ c = control 'D' ∨ k.e = k.r + BitVec.ofNat 32 inputBuf then
      { s with cons := { k with w := k.e } }.wakeup
    else
      { s with cons := k }
  else
    s

/-- Mark a process as killed and wake it. -/
def kill (s : State P) (p : P) : State P :=
  { s with
    killed := update s.killed p true
    asleep := update s.asleep p false }

/-- What can happen. -/
inductive Action (P : Type) where
  /-- A character arrives. -/
  | intr (c : BitVec 8)
  /-- Call `consoleread` for `n` bytes. -/
  | read (p : P) (n : Int)
  /-- A process that was woken reacquires the lock. -/
  | resume (p : P)
  /-- The process with the lock does a round of its loop. -/
  | round (p : P) (copied : Bool)
  | kill (p : P)

/-- One step; there is none if the action is not possible. -/
def step (s : State P) : Action P → Option (State P)
  | .intr c =>
    if s.lock = none then
      some { consoleintr s c with line := s.line.type s.removed.length c }
    else
      none
  | .read p n =>
    match s.lock, s.frame p with
    | none, .user _ => some (s.acquire p (.read n []))
    | _, _ => none
  | .resume p =>
    match s.lock, s.asleep p, s.frame p with
    | none, false, .sleep n got => some (s.acquire p (.read n got))
    | _, _, _ => none
  | .round p copied =>
    if s.lock = some p then
      match s.frame p with
      | .read n got => some (consoleread s p n got copied)
      | _ => none
    else
      none
  | .kill p => some (kill s p)

/-- The console after `consoleinit`; its cells hold anything. -/
structure Fresh (s : State P) : Prop where
  r : s.cons.r = 0
  w : s.cons.w = 0
  e : s.cons.e = 0
  frame : ∀ p, ∃ result, s.frame p = .user result
  line : s.line = ⟨[], []⟩
  removed : s.removed = []
  reads : s.reads = []

end Console
end FastIpc
