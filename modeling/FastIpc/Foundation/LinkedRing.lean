import Mathlib.Data.List.Basic
import Mathlib.Data.List.Nodup
import Mathlib.Logic.Function.Basic

/-!
# Doubly linked rings

A circular doubly linked list with a head that is no element: `none` is the head and
`some a` is the node of the element `a`.  The pointers are two functions on nodes.

Main results:

- Theorem `Links.Ring.inverse`: the two directions are inverse to each other.
- Theorem `search_eq`: a search along the pointers is a search through the list.
-/

namespace FastIpc
namespace Foundation

open Function (update update_of_ne update_self)

variable {α : Type}

/-- Following `f` from `x` leads through the elements of a list to `y`. -/
def Path (f : Option α → Option α) : Option α → List α → Option α → Prop
  | x, [], y => f x = y
  | x, a :: l, y => f x = some a ∧ Path f (some a) l y

/-- The node that the first pointer of a path leads to. -/
def firstNode : List α → Option α → Option α
  | [], y => y
  | a :: _, _ => some a

/-- The node with the last pointer of a path. -/
def lastNode : Option α → List α → Option α
  | x, [] => x
  | _, a :: l => lastNode (some a) l

section Path

variable {f g : Option α → Option α} {x x' y z : Option α} {l l' : List α} {a b : α}

theorem path_append : Path f x (l ++ a :: l') y ↔ Path f x l (some a) ∧ Path f (some a) l' y := by
  induction l generalizing x with
  | nil => exact Iff.rfl
  | cons b l ih => simp only [List.cons_append, Path, ih, and_assoc]

theorem Path.first (h : Path f x l y) : f x = firstNode l y := by
  cases l with
  | nil => exact h
  | cons a l => exact h.1

theorem Path.last (h : Path f x l y) : f (lastNode x l) = y := by
  induction l generalizing x with
  | nil => exact h
  | cons a l ih => exact ih h.2

/-- A path from another node that starts the same way. -/
theorem Path.from (h : Path f x l y) (hx : g x' = f x) (hl : ∀ a ∈ l, g (some a) = f (some a)) :
    Path g x' l y := by
  induction l generalizing x x' with
  | nil => exact hx.trans h
  | cons a l ih =>
    refine ⟨hx.trans h.1, ih h.2 (hl a List.mem_cons_self) fun b hb => ?_⟩
    exact hl b (List.mem_cons_of_mem _ hb)

theorem lastNode_eq_or (x : Option α) (l : List α) :
    lastNode x l = x ∨ ∃ a ∈ l, lastNode x l = some a := by
  induction l generalizing x with
  | nil => exact .inl rfl
  | cons a l ih =>
    refine .inr ?_
    rcases ih (some a) with heq | ⟨b, hb, heq⟩
    · exact ⟨a, List.mem_cons_self, heq⟩
    · exact ⟨b, List.mem_cons_of_mem _ hb, heq⟩

theorem lastNode_concat (x : Option α) (l : List α) (a : α) : lastNode x (l ++ [a]) = some a := by
  induction l generalizing x with
  | nil => rfl
  | cons b l ih => exact ih (some b)

theorem lastNode_reverse (l : List α) (y : Option α) : lastNode y l.reverse = firstNode l y := by
  cases l with
  | nil => rfl
  | cons a l => rw [List.reverse_cons, lastNode_concat, firstNode]

variable [DecidableEq α]

/-- The last pointer of a path is set to another node. -/
theorem Path.redirect (h : Path f x l y) (hx : ∀ a ∈ l, x ≠ some a) (hl : l.Nodup) :
    Path (update f (lastNode x l) z) x l z := by
  induction l generalizing x with
  | nil => exact update_self ..
  | cons a l ih =>
    obtain ⟨hnot, hl⟩ := List.nodup_cons.mp hl
    have hrest : ∀ b ∈ l, some a ≠ some b := by
      rintro b hb heq
      exact hnot (Option.some.inj heq ▸ hb)
    rw [lastNode]
    refine ⟨?_, ih h.2 hrest hl⟩
    rw [update_of_ne, h.1]
    rcases lastNode_eq_or (some a) l with heq | ⟨b, hb, heq⟩
    · rw [heq]
      exact hx a List.mem_cons_self
    · rw [heq]
      exact hx b (List.mem_cons_of_mem _ hb)

/-- Two paths are joined: what leads to the node between them leads behind it. -/
theorem Path.join (h : Path f x l (some b)) (h' : Path f (some b) l' y)
    (hx : ∀ a ∈ l ++ l', x ≠ some a) (hl : (l ++ l').Nodup) :
    Path (update f (lastNode x l) (f (some b))) x (l ++ l') y := by
  obtain ⟨hnodup, -, hapart⟩ := List.nodup_append.mp hl
  have hx' : ∀ a ∈ l, x ≠ some a := fun a ha => hx a (List.mem_append_left _ ha)
  rw [h'.first]
  cases l' with
  | nil =>
    rw [List.append_nil]
    exact h.redirect hx' hnodup
  | cons c l' =>
    refine path_append.mpr ⟨h.redirect hx' hnodup, h'.2.from ?_ fun a ha => ?_⟩
    all_goals
      rw [update_of_ne]
      rcases lastNode_eq_or x l with heq | ⟨d, hd, heq⟩
      · rw [heq]
        exact (hx _ (List.mem_append_right _ (by simp_all))).symm
      · rw [heq]
        intro hsome
        exact hapart d hd _ (by simp_all) (Option.some.inj hsome).symm

end Path

/-! ## Rings -/

/-- The two pointers of every node. -/
structure Links (α : Type) where
  next : Option α → Option α
  prev : Option α → Option α

namespace Links

variable [DecidableEq α] {L : Links α} {l l' : List α} {a : α}

/-- Insert a node behind the head. -/
def pushFront (L : Links α) (a : α) : Links α :=
  let next := update L.next (some a) (L.next none)
  let prev := update L.prev (some a) none
  { prev := update prev (next none) (some a)
    next := update next none (some a) }

/-- Take a node out. -/
def unlink (L : Links α) (a : α) : Links α :=
  let prev := update L.prev (L.next (some a)) (L.prev (some a))
  { prev := prev
    next := update L.next (prev (some a)) (L.next (some a)) }

/-- The pointers lead from the head through a list and back, in both directions. -/
structure Ring (L : Links α) (l : List α) : Prop where
  next : Path L.next none l none
  prev : Path L.prev none l.reverse none
  nodup : l.Nodup

/-- Let the head point to itself. -/
def clear (L : Links α) : Links α where
  next := update L.next none none
  prev := update L.prev none none

theorem ring_clear (L : Links α) : L.clear.Ring [] where
  next := by simp [Path, clear]
  prev := by simp [Path, clear]
  nodup := List.nodup_nil

namespace Ring

theorem pushFront (h : L.Ring l) (ha : a ∉ l) : (L.pushFront a).Ring (a :: l) := by
  have hfirst := h.next.first
  have hne : ∀ b ∈ l, some b ≠ some a := by
    rintro b hb heq
    exact ha (Option.some.inj heq ▸ hb)
  constructor
  · refine ⟨by simp [Links.pushFront], h.next.from ?_ fun b hb => ?_⟩
    · simp [Links.pushFront]
    · simp only [Links.pushFront]
      rw [update_of_ne (Option.some_ne_none b), update_of_ne (hne b hb)]
  · rw [List.reverse_cons]
    have hsame : Path (update L.prev (some a) none) none l.reverse none :=
      h.prev.from (update_of_ne (Option.some_ne_none a).symm _ _) fun b hb =>
        update_of_ne (hne b (List.mem_reverse.mp hb)) _ _
    have hlast : update L.next (some a) (L.next none) none = lastNode none l.reverse := by
      rw [update_of_ne (Option.some_ne_none a).symm, hfirst, lastNode_reverse]
    refine path_append.mpr ⟨?_, ?_⟩
    · simp only [Links.pushFront]
      rw [hlast]
      exact hsame.redirect (fun b _ => (Option.some_ne_none b).symm) (List.nodup_reverse.mpr h.nodup)
    · simp only [Links.pushFront, Path]
      rw [hlast, update_of_ne, update_self]
      rcases lastNode_eq_or none l.reverse with heq | ⟨b, hb, heq⟩
      · rw [heq]
        exact Option.some_ne_none a
      · rw [heq]
        exact (hne b (List.mem_reverse.mp hb)).symm
  · exact List.nodup_cons.mpr ⟨ha, h.nodup⟩

theorem unlink (h : L.Ring (l ++ a :: l')) : (L.unlink a).Ring (l ++ l') := by
  obtain ⟨hnext, hnext'⟩ := path_append.mp h.next
  have hprevs := h.prev
  rw [List.reverse_append, List.reverse_cons, List.append_assoc, List.singleton_append] at hprevs
  obtain ⟨hprev', hprev⟩ := path_append.mp hprevs
  have hperm : (l ++ a :: l').Perm (a :: (l ++ l')) := List.perm_middle
  obtain ⟨ha, hnodup⟩ := List.nodup_cons.mp (hperm.nodup_iff.mp h.nodup)
  have hhead : ∀ b ∈ l ++ l', (none : Option α) ≠ some b := fun b _ => (Option.some_ne_none b).symm
  have hfirst : L.next (some a) = lastNode none l'.reverse := by rw [hnext'.first, lastNode_reverse]
  have hlast : L.prev (some a) = lastNode none l := by
    rw [hprev.first, ← lastNode_reverse, List.reverse_reverse]
  have hself : L.next (some a) ≠ some a := by
    rw [hfirst]
    rcases lastNode_eq_or none l'.reverse with heq | ⟨b, hb, heq⟩
    · rw [heq]
      exact (Option.some_ne_none a).symm
    · rw [heq]
      rintro hsome
      refine ha (List.mem_append_right _ ?_)
      rw [← Option.some.inj hsome]
      exact List.mem_reverse.mp hb
  have hrev : (l'.reverse ++ l.reverse).Nodup := by
    rw [← List.reverse_append]
    exact List.nodup_reverse.mpr hnodup
  constructor
  · simp only [Links.unlink]
    rw [update_of_ne hself.symm, hlast]
    exact hnext.join hnext' hhead hnodup
  · simp only [Links.unlink]
    rw [List.reverse_append, hfirst]
    exact hprev'.join hprev (fun b _ => (Option.some_ne_none b).symm) hrev
  · exact hnodup

omit [DecidableEq α] in
/-- The ring seen from the other side. -/
theorem symm (h : L.Ring l) : (⟨L.prev, L.next⟩ : Links α).Ring l.reverse :=
  ⟨h.prev, by rw [List.reverse_reverse]; exact h.next, List.nodup_reverse.mpr h.nodup⟩

omit [DecidableEq α] in
/-- Going forward and back again. -/
theorem prev_next (h : L.Ring l) (hall : ∀ a, a ∈ l) (x : Option α) : L.prev (L.next x) = x := by
  cases x with
  | none =>
    rw [h.next.first, ← lastNode_reverse]
    exact h.prev.last
  | some a =>
    obtain ⟨before, after, rfl⟩ := List.append_of_mem (hall a)
    have hprev := h.prev
    rw [List.reverse_append, List.reverse_cons, List.append_assoc, List.singleton_append] at hprev
    rw [(path_append.mp h.next).2.first, ← lastNode_reverse]
    exact (path_append.mp hprev).1.last

omit [DecidableEq α] in
/-- The two directions are inverse to each other. -/
theorem inverse (h : L.Ring l) (hall : ∀ a, a ∈ l) :
    Function.LeftInverse L.prev L.next ∧ Function.RightInverse L.prev L.next :=
  ⟨h.prev_next hall, h.symm.prev_next fun a => List.mem_reverse.mpr (hall a)⟩

end Ring

end Links

/-! ## Searching -/

/-- Follow the pointers from a node until an element passes a test, or until the head is reached;
`none` if that takes too long. -/
def search (f : Option α → Option α) (test : α → Bool) : Nat → Option α → Option (Option α)
  | 0, _ => none
  | _ + 1, none => some none
  | n + 1, some a => if test a then some (some a) else search f test n (f (some a))

/-- A search along the pointers is a search through the list. -/
theorem search_eq {f : Option α → Option α} {x : Option α} {l : List α} (h : Path f x l none)
    (test : α → Bool) {n : Nat} (hn : l.length < n) :
    search f test n (f x) = some (l.find? test) := by
  induction l generalizing x n with
  | nil =>
    obtain ⟨n, rfl⟩ := Nat.exists_eq_succ_of_ne_zero (Nat.ne_of_gt hn)
    rw [show f x = none from h]
    rfl
  | cons a l ih =>
    obtain ⟨n, rfl⟩ := Nat.exists_eq_succ_of_ne_zero (Nat.ne_of_gt (Nat.zero_lt_of_lt hn))
    rw [h.1, search, List.find?_cons]
    cases htest : test a with
    | true => rfl
    | false => exact ih h.2 (Nat.lt_of_succ_lt_succ hn)

end Foundation
end FastIpc
