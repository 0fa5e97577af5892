import FastIpc.Foundation.LinkedRing
import Mathlib.Data.Fintype.Card
import Mathlib.Data.List.FinRange

/-!
# The buffer cache

The functions of `kernel/bio.c` on the list of all buffers, each as what it does under
`bcache.lock`: `binit`, `bget`, the second half of `brelse`, `bpin` and
`bunpin`.  The sleep locks of the buffers do not concern the list.

Main results:

- Theorem `Listed.bget_eq`: the two searches of `bget` as searches through the list.
- Theorem `listed_binit`, `Listed.release`: the lists that `binit` and
  `brelse` leave.
-/

namespace FastIpc
namespace Buffers

open Foundation
open Function (update)

/-- The number of buffers, `NBUF`. -/
abbrev nbuf : Nat := 30

/-- The buffers, with `none` as the head of their list. -/
structure Bcache (D : Type) where
  dev : Fin nbuf → BitVec 32
  blockno : Fin nbuf → BitVec 32
  valid : Fin nbuf → Bool
  refcnt : Fin nbuf → BitVec 32
  data : Fin nbuf → D
  links : Links (Fin nbuf)

/-- Why `bget` does not return. -/
inductive Fault where
  /-- The panic `bget: no buffers`. -/
  | noBuffers
  /-- A search that follows the pointers without end. -/
  | endless

variable {D : Type}

/-- Put all buffers into the list, each in front of the ones before. -/
def binit (c : Bcache D) : Bcache D :=
  { c with links := (List.finRange nbuf).foldl Links.pushFront c.links.clear }

namespace Bcache

/-- The buffer holds the block. -/
def caches (c : Bcache D) (dev blockno : BitVec 32) (b : Fin nbuf) : Bool :=
  c.dev b = dev ∧ c.blockno b = blockno

/-- Nobody uses the buffer. -/
def unused (c : Bcache D) (b : Fin nbuf) : Bool := c.refcnt b = 0

/-- Count one reference more. -/
def hold (c : Bcache D) (b : Fin nbuf) : Bcache D :=
  { c with refcnt := update c.refcnt b (c.refcnt b + 1) }

/-- Use the buffer for another block. -/
def rebind (c : Bcache D) (b : Fin nbuf) (dev blockno : BitVec 32) : Bcache D :=
  { c with
    dev := update c.dev b dev
    blockno := update c.blockno b blockno
    valid := update c.valid b false
    refcnt := update c.refcnt b 1 }

/-- Find the buffer of a block, or recycle the unused buffer at the end of the list. -/
def bget (c : Bcache D) (dev blockno : BitVec 32) : Except Fault (Fin nbuf × Bcache D) :=
  match search c.links.next (c.caches dev blockno) (nbuf + 1) (c.links.next none) with
  | none => .error .endless
  | some (some b) => .ok (b, c.hold b)
  | some none =>
    match search c.links.prev c.unused (nbuf + 1) (c.links.prev none) with
    | none => .error .endless
    | some (some b) => .ok (b, c.rebind b dev blockno)
    | some none => .error .noBuffers

/-- The second half of `brelse`: a buffer that nobody uses any more goes to the front. -/
def release (c : Bcache D) (b : Fin nbuf) : Bcache D :=
  let c := { c with refcnt := update c.refcnt b (c.refcnt b - 1) }
  if c.refcnt b = 0 then
    { c with links := (c.links.unlink b).pushFront b }
  else
    c

/-- `brelse` changes the count of its buffer, and the list. -/
theorem release_eq (c : Bcache D) (b : Fin nbuf) : ∃ links, c.release b =
    { c with refcnt := update c.refcnt b (c.refcnt b - 1), links := links } := by
  rw [release]
  split
  · exact ⟨_, rfl⟩
  · exact ⟨c.links, rfl⟩

def bpin (c : Bcache D) (b : Fin nbuf) : Bcache D := c.hold b

def bunpin (c : Bcache D) (b : Fin nbuf) : Bcache D :=
  { c with refcnt := update c.refcnt b (c.refcnt b - 1) }

end Bcache

/-- The list has every buffer once. -/
structure Listed (c : Bcache D) (l : List (Fin nbuf)) : Prop where
  ring : c.links.Ring l
  mem : ∀ b, b ∈ l

section Binit

variable {L : Links (Fin nbuf)} {l : List (Fin nbuf)}

theorem ring_foldl (h : L.Ring l) {bufs : List (Fin nbuf)} (hnodup : bufs.Nodup)
    (hapart : ∀ b ∈ bufs, b ∉ l) : (bufs.foldl Links.pushFront L).Ring (bufs.reverse ++ l) := by
  induction bufs generalizing L l with
  | nil => exact h
  | cons b bufs ih =>
    obtain ⟨hb, hnodup⟩ := List.nodup_cons.mp hnodup
    have hring := ih (h.pushFront (hapart b List.mem_cons_self)) hnodup fun c hc hmem => by
      rcases List.mem_cons.mp hmem with rfl | hmem
      · exact hb hc
      · exact hapart c (List.mem_cons_of_mem _ hc) hmem
    rw [List.reverse_cons, List.append_assoc]
    exact hring

/-- The list that `binit` makes has the last buffer in front. -/
theorem listed_binit (c : Bcache D) : Listed (binit c) (List.finRange nbuf).reverse where
  ring := by
    have hring := ring_foldl (Links.ring_clear c.links) (List.nodup_finRange nbuf) (by simp)
    rwa [List.append_nil] at hring
  mem b := List.mem_reverse.mpr (List.mem_finRange b)

end Binit

namespace Listed

variable {c : Bcache D} {l : List (Fin nbuf)} {b : Fin nbuf} {dev blockno : BitVec 32}

variable (h : Listed c l)
include h

theorem length_lt : l.length < nbuf + 1 := by
  have hle := h.ring.nodup.length_le_card
  rw [Fintype.card_fin] at hle
  omega

/-- The two searches of `bget` as searches through the list. -/
theorem bget_eq (dev blockno : BitVec 32) : c.bget dev blockno =
    match l.find? (c.caches dev blockno) with
    | some b => .ok (b, c.hold b)
    | none =>
      match l.reverse.find? c.unused with
      | some b => .ok (b, c.rebind b dev blockno)
      | none => .error .noBuffers := by
  rw [Bcache.bget, search_eq h.ring.next _ h.length_lt]
  cases l.find? (c.caches dev blockno) with
  | some b => rfl
  | none =>
    have hlen : l.reverse.length < nbuf + 1 := by
      rw [List.length_reverse]
      exact h.length_lt
    simp only
    rw [search_eq h.ring.prev _ hlen]
    cases l.reverse.find? c.unused <;> rfl

theorem bget_cases {c' : Bcache D} (hrun : c.bget dev blockno = .ok (b, c')) :
    (c.caches dev blockno b = true ∧ c' = c.hold b) ∨
    ((∀ b', c.caches dev blockno b' = false) ∧ c.refcnt b = 0 ∧ c' = c.rebind b dev blockno ∧
      ∃ before after, l = before ++ b :: after ∧ ∀ b' ∈ after, c.refcnt b' ≠ 0) := by
  rw [h.bget_eq] at hrun
  split at hrun
  next b' hfound =>
    cases hrun
    exact .inl ⟨List.find?_some hfound, rfl⟩
  next hnone =>
    have hmiss : ∀ b', c.caches dev blockno b' = false := fun b' => by
      simpa using List.find?_eq_none.mp hnone b' (h.mem b')
    split at hrun
    next b' hfound =>
      cases hrun
      obtain ⟨hunused, after, before, hsplit, hused⟩ := List.find?_eq_some_iff_append.mp hfound
      refine .inr ⟨hmiss, of_decide_eq_true hunused, rfl, before.reverse, after.reverse, ?_, ?_⟩
      · rw [← List.reverse_reverse l, hsplit]
        simp
      · intro b' hb'
        have hused' := hused b' (List.mem_reverse.mp hb')
        simpa [Bcache.unused] using hused'
    next => cases hrun

theorem bget_error {e : Fault} (hrun : c.bget dev blockno = .error e) :
    e = .noBuffers ∧ ∀ b, c.refcnt b ≠ 0 := by
  rw [h.bget_eq] at hrun
  split at hrun
  next => cases hrun
  next =>
    split at hrun
    next => cases hrun
    next hnone =>
      cases hrun
      refine ⟨rfl, fun b => ?_⟩
      simpa [Bcache.unused] using List.find?_eq_none.mp hnone b (List.mem_reverse.mpr (h.mem b))

/-- `brelse` moves a buffer that nobody uses any more to the front. -/
theorem release (b : Fin nbuf) :
    (c.refcnt b - 1 = 0 ∧ ∃ before after, l = before ++ b :: after ∧
      Listed (c.release b) (b :: (before ++ after))) ∨
    (c.refcnt b - 1 ≠ 0 ∧ Listed (c.release b) l) := by
  by_cases hzero : c.refcnt b - 1 = 0
  · obtain ⟨before, after, rfl⟩ := List.append_of_mem (h.mem b)
    have hperm : (before ++ b :: after).Perm (b :: (before ++ after)) := List.perm_middle
    have hnot : b ∉ before ++ after := (List.nodup_cons.mp (hperm.nodup_iff.mp h.ring.nodup)).1
    refine .inl ⟨hzero, before, after, rfl, ?_, fun b' => hperm.mem_iff.mp (h.mem b')⟩
    rw [Bcache.release, if_pos (by simpa using hzero)]
    exact h.ring.unlink.pushFront hnot
  · refine .inr ⟨hzero, ?_, h.mem⟩
    rw [Bcache.release, if_neg (by simpa using hzero)]
    exact h.ring

end Listed

end Buffers
end FastIpc
