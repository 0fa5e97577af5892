import FastIpc.Foundation.ByteMemory
import Mathlib.Data.Nat.ModEq

/-!
# The user heap

The functions `free`, `morecore` and `malloc` of `user/umalloc.c` on the memory
of a process.  A header takes 16 bytes: a pointer, a 32-bit size in headers, and padding.  The loops
over the circular free list get a bound on the rounds they may make; `none` means that the
bound was too small, or that `sbrk` did not return.  The call `sbrk` acts on an environment of
its own, which may be the kernel.

Main results:

- Theorem `morecore_eq_some`: what `morecore` does once `sbrk` has returned.
-/

namespace FastIpc
namespace Heap

open Foundation

/-! ## Headers -/

/-- The size of a header in bytes. -/
abbrev headerSize : Nat := 16

/-- The field `s.ptr` of the header at `p`. -/
def ptr (m : Memory) (p : Nat) : Nat := m.readLE p 8

/-- The field `s.size` of the header at `p`. -/
def size (m : Memory) (p : Nat) : Nat := m.readLE (p + 8) 4

def setPtr (m : Memory) (p v : Nat) : Memory := m.writeLE p 8 v

def setSize (m : Memory) (p v : Nat) : Memory := m.writeLE (p + 8) 4 v

section Headers

variable {m : Memory} {p q v : Nat}

@[simp]
theorem ptr_setPtr_self (hv : v < 2 ^ 64) : ptr (setPtr m p v) p = v :=
  Memory.readLE_writeLE (by simpa using hv)

@[simp]
theorem size_setSize_self (hv : v < 2 ^ 32) : size (setSize m p v) p = v :=
  Memory.readLE_writeLE (by simpa using hv)

/-- Headers that do not overlap. -/
def Apart (p q : Nat) : Prop := p + headerSize ≤ q ∨ q + headerSize ≤ p

theorem Apart.symm (h : Apart p q) : Apart q p := Or.symm h

/-- The fields of a header other than the one that is written. -/
theorem size_setPtr (h : p = q ∨ Apart p q) : size (setPtr m p v) q = size m q := by
  refine Memory.readLE_writeLE_of_disjoint ?_
  unfold Apart headerSize at h
  omega

theorem ptr_setSize (h : p = q ∨ Apart p q) : ptr (setSize m p v) q = ptr m q := by
  refine Memory.readLE_writeLE_of_disjoint ?_
  unfold Apart headerSize at h
  omega

theorem size_setSize_of_apart (h : Apart p q) : size (setSize m p v) q = size m q := by
  refine Memory.readLE_writeLE_of_disjoint ?_
  unfold Apart headerSize at h
  omega

end Headers

/-! ## The allocator -/

/-- The memory of the process, with its variable `freep`. -/
structure Heap where
  mem : Memory
  freep : Nat

/-- The loop of `free` that looks for the place of a block. -/
def findPlace (m : Memory) (bp : Nat) : Nat → Nat → Option Nat
  | 0, _ => none
  | fuel + 1, p =>
    if bp > p ∧ bp < ptr m p then
      some p
    else if p ≥ ptr m p ∧ (bp > p ∨ bp < ptr m p) then
      some p
    else
      findPlace m bp fuel (ptr m p)

/-- The first half of the rest of `free`: link the block to what follows `p`, or merge
them. -/
def joinNext (m : Memory) (p bp : Nat) : Memory :=
  if bp + headerSize * size m bp = ptr m p then
    let m' := setSize m bp ((size m bp + size m (ptr m p)) % 2 ^ 32)
    setPtr m' bp (ptr m' (ptr m' p))
  else
    setPtr m bp (ptr m p)

/-- The second half: link `p` to the block, or merge them. -/
def joinPrev (m : Memory) (p bp : Nat) : Memory :=
  if p + headerSize * size m p = bp then
    let m' := setSize m p ((size m p + size m bp) % 2 ^ 32)
    setPtr m' p (ptr m' bp)
  else
    setPtr m p bp

def free (fuel ap : Nat) (h : Heap) : Option Heap :=
  let bp := ap - headerSize
  (findPlace h.mem bp fuel h.freep).map fun p => ⟨joinPrev (joinNext h.mem p bp) p bp, p⟩

/-- The size that `morecore` asks for. -/
def atLeast (nu : Nat) : Nat := if nu < 4096 then 4096 else nu

section Calls

variable {E : Type} (sbrk : Int → E → Option (Int × E))

/-- Ask for memory and free it; `freep`, or 0.  The number of bytes is passed as an
`int`.  Memory never faults here: the program is killed if the header is in no page it has. -/
def morecore (fuel nu : Nat) (h : Heap) (e : E) : Option (Nat × Heap × E) := do
  let nu := atLeast nu
  let (p, e) ← sbrk (BitVec.ofNat 32 (nu * headerSize)).toInt e
  if p = -1 then
    some (0, h, e)
  else
    let hp := (p % 2 ^ 64).toNat
    let h' ← free fuel (hp + headerSize) { h with mem := setSize h.mem hp nu }
    some (h'.freep, h', e)

/-- What `malloc` does with a block at `p` that is large enough: unlink it, or take its
end. -/
def takeBlock (nunits prevp p : Nat) (h : Heap) : Nat × Heap :=
  if size h.mem p = nunits then
    (p + headerSize, ⟨setPtr h.mem prevp (ptr h.mem p), prevp⟩)
  else
    let m := setSize h.mem p (size h.mem p - nunits)
    let p' := p + headerSize * size m p
    (p' + headerSize, ⟨setSize m p' nunits, prevp⟩)

/-- The loop of `malloc`. -/
def mallocLoop (nunits : Nat) : Nat → Nat → Nat → Heap → E → Option (Nat × Heap × E)
  | 0, _, _, _, _ => none
  | fuel + 1, prevp, p, h, e =>
    if size h.mem p ≥ nunits then
      some ((takeBlock nunits prevp p h).1, (takeBlock nunits prevp p h).2, e)
    else if p = h.freep then
      match morecore sbrk fuel nunits h e with
      | none => none
      | some (p, h, e) =>
        if p = 0 then
          some (0, h, e)
        else
          mallocLoop nunits fuel p (ptr h.mem p) h e
    else
      mallocLoop nunits fuel p (ptr h.mem p) h e

/-- The size of a block with room for `nbytes` bytes, in headers. -/
def unitsFor (nbytes : Nat) : Nat := (nbytes + headerSize - 1) / headerSize + 1

/-- The free list that `malloc` starts with. -/
def initHeap (base : Nat) (h : Heap) : Heap :=
  if h.freep = 0 then ⟨setSize (setPtr h.mem base base) base 0, base⟩ else h

/-- Allocate a block; its address, or 0.  The header `base` is a static variable. -/
def malloc (base fuel nbytes : Nat) (h : Heap) (e : E) : Option (Nat × Heap × E) :=
  let h := initHeap base h
  mallocLoop sbrk (unitsFor nbytes) fuel h.freep (ptr h.mem h.freep) h e

end Calls

theorem le_atLeast (nu : Nat) : nu ≤ atLeast nu := by
  unfold atLeast
  split <;> omega

theorem atLeast_pos (nu : Nat) : 0 < atLeast nu := by
  unfold atLeast
  split <;> omega

theorem unitsFor_pos (nbytes : Nat) : 0 < unitsFor nbytes := Nat.succ_pos _

/-! ## Bounds on the rounds -/

theorem free_eq_some {fuel ap : Nat} {h h' : Heap} :
    free fuel ap h = some h' ↔ ∃ p, findPlace h.mem (ap - headerSize) fuel h.freep = some p ∧
      h' = ⟨joinPrev (joinNext h.mem p (ap - headerSize)) p (ap - headerSize), p⟩ := by
  simp only [free, Option.map_eq_some_iff]
  refine exists_congr fun p => and_congr_right fun _ => eq_comm

section Bounds

variable {E : Type} {sbrk : Int → E → Option (Int × E)}

/-- What `morecore` does once `sbrk` has returned. -/
theorem morecore_eq_some {fuel nu : Nat} {h : Heap} {e : E} {res : Nat × Heap × E} :
    morecore sbrk fuel nu h e = some res ↔
      ∃ p e', sbrk (BitVec.ofNat 32 (atLeast nu * headerSize)).toInt e = some (p, e') ∧
        (p = -1 ∧ res = (0, h, e') ∨ p ≠ -1 ∧ ∃ h', free fuel ((p % 2 ^ 64).toNat + headerSize)
            { h with mem := setSize h.mem (p % 2 ^ 64).toNat (atLeast nu) } = some h' ∧
            res = (h'.freep, h', e')) := by
  simp only [morecore, Option.bind_eq_bind, Option.bind_eq_some_iff, Prod.exists]
  refine exists_congr fun p => exists_congr fun e' => and_congr_right fun _ => ?_
  by_cases hp : p = -1
  · simp [hp, eq_comm]
  · simp only [hp, if_false, false_and, ne_eq, not_false_eq_true, true_and, false_or,
      Option.bind_eq_some_iff, Option.some.injEq]
    exact exists_congr fun h' => and_congr_right fun _ => eq_comm

end Bounds

/-- The loop of `free` ends at `p`. -/
def Stops (m : Memory) (bp p : Nat) : Prop :=
  (bp > p ∧ bp < ptr m p) ∨ (p ≥ ptr m p ∧ (bp > p ∨ bp < ptr m p))

theorem findPlace_of_stops {m : Memory} {bp p : Nat} (h : Stops m bp p) (fuel : Nat) :
    findPlace m bp (fuel + 1) p = some p := by
  rw [findPlace]
  split
  next => rfl
  next hin => rw [if_pos (h.resolve_left hin)]

end Heap
end FastIpc
